import Xdelta.Merge.Links

/-!
# From files to a delta

Each file of a row is encoded against the one before it. The deltas that are put out form a chain,
so that merging them gives one delta from the first file to the last.
-/
namespace Xdelta
open Chunked Chunked.Driver Delta

/-- A session of the encoder: the stream that it begins with, and what string matching leaves for
each window. -/
structure EncodeSession where
  encoder : Encoder
  found : List FoundMatches

def EncodeSession.target (t : EncodeSession) : List UInt8 :=
  (t.found.map FoundMatches.window).flatten

/-- The session puts out the delta. -/
def EncodeSession.PutsOut (t : EncodeSession) (d : DeltaFile) : Prop :=
  ∃ e', encodeWindows t.found t.encoder = .ok d.bytes e'

/-- A session against `file`, with a stream that has encoded nothing yet. -/
structure EncodeSession.Valid (file : List UInt8) (t : EncodeSession) : Prop where
  fresh : t.encoder.Fresh
  first : t.encoder.currentWindow = 0
  found : t.found ≠ []
  valid : ∀ m ∈ t.found, m.Valid file
  sourceless : t.encoder.src = .null → ∀ m ∈ t.found, m.maxaddr = 0
  below : t.target.length < xoff.modulus

/-- Sessions each of which is against the file that the one before it encodes. -/
def SessionChain : List UInt8 → List EncodeSession → Prop
  | _, [] => True
  | file, t :: ts => t.Valid file ∧ SessionChain t.target ts

/-- A session puts out a delta that makes the file it encodes, with checksums if the stream has
them. -/
theorem EncodeSession.Valid.putsOut {file : List UInt8} {t : EncodeSession} (h : t.Valid file) :
    ∃ d, t.PutsOut d ∧ d.Stands file ∧ d.target = t.target ∧
      ∀ w ∈ d.encoded, w.hdr.adler32.isSome = t.encoder.flags.adler32 := by
  obtain ⟨ws, e', hout, hstand, -, hsums⟩ :=
    encodeWindows_standFor h.fresh h.valid h.found h.sourceless h.first
  refine ⟨⟨t.encoder.fileHdr, t.found.map FoundMatches.window, ws⟩, ⟨e', hout⟩,
    ⟨h.fresh.appheader, Encoder.fileHdr_plain h.fresh.secType, hstand, ?_, h.below⟩, rfl, hsums⟩
  exact fun hnil => h.found (List.map_eq_nil_iff.mp hnil)

theorem SessionChain.putsOut {ts : List EncodeSession} {t : EncodeSession} {base : List UInt8}
    (h : SessionChain base (ts ++ [t])) : ∃ ds d,
      List.Forall₂ EncodeSession.PutsOut ts ds ∧ t.PutsOut d ∧ DeltaChain base (ds ++ [d]) ∧
      d.target = t.target ∧ ∀ w ∈ d.encoded, w.hdr.adler32.isSome = t.encoder.flags.adler32 := by
  induction ts generalizing base with
  | nil =>
    obtain ⟨d, hout, hstands, htarget, hsums⟩ := h.1.putsOut
    exact ⟨[], d, .nil, hout, ⟨hstands, trivial⟩, htarget, hsums⟩
  | cons t' ts ih =>
    obtain ⟨d', hout', hstands', htarget', -⟩ := h.1.putsOut
    obtain ⟨ds, d, houts, hout, hchain, htarget, hsums⟩ := ih h.2
    refine ⟨d' :: ds, d, .cons hout' houts, hout, ⟨hstands', ?_⟩, htarget, hsums⟩
    rw [htarget']
    exact hchain

section Sessions
variable {σ : Type} {env : Env σ} {app : List UInt8 → AppSource} {flags : Flags}
  (hsec : ∀ id, env.secondary id = none) (hd : ∀ file, Delivery file env.getblk (app file))
  (hnone : ∀ file ret, app file ret none = none) (hflags : flags.Reads)
include hsec hd hnone hflags

/-- Files are encoded, each against the one before; the deltas are read in any chunks, merged and
written, and what is written, decoded against the first file in any chunks, gives the last. -/
theorem sessionMerge_decodes {links : List EncodeSession} {last : EncodeSession}
    {base : List UInt8} (h : SessionChain base (links ++ [last])) {s : MergeSettings}
    (hchecked : s.checked = true → last.encoder.flags.adler32 = true)
    (hroom : base.length + hardMaxWinsize < usize.modulus) {header : Main.MergeHeader}
    (hheader : header ≠ .refuse) (hfits : (mergedFileHdr header).Fits) {decoding : Flags}
    (hemits : decoding.Emits) {src : Source} (hsrc : src.Faithful base) :
    ∃ deltas delta wholes whole merged w',
      List.Forall₂ EncodeSession.PutsOut links deltas ∧ last.PutsOut delta ∧
      ReadChain env app flags base (deltas ++ [delta]) (wholes ++ [whole]) ∧
      (∀ depth, (∀ d ∈ wholes, d.length < depth) →
        mainMerge depth s header wholes whole = .ok (DeltaFile.bytes merged) w') ∧
      merged.target = last.target ∧
      ∀ cs : List (List UInt8), cs.flatten = merged.bytes → ∃ tr : List (Event σ),
        (decodeDriver env (app base)).Run (initStream decoding (some src)) cs tr ∧
        tr.filterMap Event.seen = sessionShown merged.windows merged.encoded ++ [.closed none] := by
  obtain ⟨deltas, delta, houts, hout, hchain, htarget, hsums⟩ := h.putsOut
  obtain ⟨wholes, whole, merged, w', hread, hmain, hstands, hsame⟩ := hchain.merges hsec hd hnone
    hflags (fun hc w hw => (hsums w hw).trans (hchecked hc)) hroom hheader hfits
  exact ⟨deltas, delta, wholes, whole, merged, w', houts, hout, hread, hmain, hsame.trans htarget,
    fun _ hcs => hstands.decodes hsec hd hnone hemits hsrc hcs⟩

end Sessions

/-- A copy of four bytes of the source from the second on, and one more byte. -/
def turned : FoundMatches where
  window := [105, 106, 107, 104, 33]
  queue := [{ type := .cpy 0, xtra := 1, pos := 0, size := 4, addr := 1 }]
  minaddr := 1
  maxaddr := 5

theorem turned_valid : turned.Valid doubled.window where
  hard := by decide
  queued := ⟨List.forall_mem_singleton.mpr ⟨by decide, by decide, by decide⟩,
    List.pairwise_singleton _ _⟩
  kind := List.forall_mem_singleton.mpr (.inr ⟨0, rfl⟩)
  within := List.forall_mem_singleton.mpr (by decide)
  true := List.forall_mem_singleton.mpr (by unfold TrueMatch Rinst.Agrees; decide)
  source := List.forall_mem_singleton.mpr fun _ _ => by decide
  target := List.forall_mem_singleton.mpr fun _ h => absurd h (by decide)
  range := by decide
  inside := by decide
  offset := by decide
  room := by decide

def EncodeSession.single (m : FoundMatches) : EncodeSession := ⟨freshEncoder, [m]⟩

theorem EncodeSession.single_valid {m : FoundMatches} {file : List UInt8} (h : m.Valid file)
    (hbelow : m.window.length < xoff.modulus) : (EncodeSession.single m).Valid file where
  fresh := freshEncoder_fresh
  first := rfl
  found := List.cons_ne_nil _ _
  valid := List.forall_mem_singleton.mpr h
  sourceless h := SourceRef.noConfusion h
  below := by
    rw [EncodeSession.target, EncodeSession.single, List.map_singleton, List.flatten_singleton]
    exact hbelow

/-- `doubled` and `turned`, merged with the checksum of the second. -/
theorem sessionMerge_decodes_turned : ∃ deltas delta wholes whole merged w',
    List.Forall₂ EncodeSession.PutsOut [EncodeSession.single doubled] deltas ∧
      (EncodeSession.single turned).PutsOut delta ∧
      ReadChain ({} : Env Unit) answerRequests mergeFlags [104, 105, 106, 107] (deltas ++ [delta])
        (wholes ++ [whole]) ∧
      (∀ depth, (∀ d ∈ wholes, d.length < depth) →
        mainMerge depth ⟨true, [], fun _ => 0, freshSource 0⟩ .plain wholes whole =
          .ok (DeltaFile.bytes merged) w') ∧
      merged.target = (EncodeSession.single turned).target ∧
      ∀ cs : List (List UInt8), cs.flatten = merged.bytes → ∃ tr : List (Event Unit),
        (decodeDriver {} (answerRequests [104, 105, 106, 107])).Run
          (initStream {} (some (freshSource 0))) cs tr ∧
        tr.filterMap Event.seen = sessionShown merged.windows merged.encoded ++ [.closed none] := by
  have hdoubled := EncodeSession.single_valid doubled_valid (by decide)
  have hturned : (EncodeSession.single turned).Valid (EncodeSession.single doubled).target :=
    EncodeSession.single_valid turned_valid (by decide)
  have hchain : SessionChain [104, 105, 106, 107]
      ([EncodeSession.single doubled] ++ [EncodeSession.single turned]) :=
    ⟨hdoubled, hturned, trivial⟩
  refine sessionMerge_decodes (fun _ => rfl) delivery_answerRequests (fun file ret => ?_)
    ⟨rfl, rfl, rfl⟩ hchain (fun _ => rfl) (by decide) Main.MergeHeader.noConfusion
    (fun _ h => ?_) ⟨rfl, rfl, rfl⟩ (freshSource_faithful _ (by decide))
  · unfold answerRequests
    split <;> rfl
  · cases h

end Xdelta
