import Xdelta.Merge.Reading

/-!
# From deltas to a delta

The deltas of a chain are read, merged and written as one, which makes of the first file what the
chain makes of it.
-/
namespace Xdelta
open Chunked Chunked.Driver Delta

/-- A delta: its header, and its windows with the bytes they stand for. -/
structure DeltaFile where
  fileHdr : FileHdr
  windows : List (List UInt8)
  encoded : List EncodedWindow

def DeltaFile.bytes (d : DeltaFile) : List UInt8 :=
  d.fileHdr.bytes ++ (d.encoded.map EncodedWindow.bytes).flatten

def DeltaFile.target (d : DeltaFile) : List UInt8 := d.windows.flatten

/-- A delta against `file`, as an encoder without secondary compression writes it. -/
structure DeltaFile.Stands (file : List UInt8) (d : DeltaFile) : Prop where
  fits : d.fileHdr.Fits
  plain : d.fileHdr.secId = none
  stands : StandFor file d.windows d.encoded
  windows : d.windows ≠ []
  below : d.target.length < xoff.modulus

/-- Deltas each of which is against the file that the one before it makes. -/
def DeltaChain : List UInt8 → List DeltaFile → Prop
  | _, [] => True
  | file, d :: ds => d.Stands file ∧ DeltaChain d.target ds

def chainTarget : List UInt8 → List DeltaFile → List UInt8
  | file, [] => file
  | _, d :: ds => chainTarget d.target ds

section Links
variable {σ : Type} {env : Env σ} {app : List UInt8 → AppSource} {flags : Flags}

/-- The delta is read to its end as `whole`, without a source and however it is cut into chunks. -/
def DeltaFile.ReadAs (env : Env σ) (app : AppSource) (flags : Flags) (d : DeltaFile)
    (whole : WholeState) : Prop :=
  ∀ cs : List (List UInt8), cs.flatten = d.bytes → ∃ tr : List (Event σ),
    (decodeDriver env app).Run (initStream flags none) cs (tr ++ [.closed none]) ∧
      appendWindows tr {} = .ok () whole

/-- The deltas of a chain are read one after the other. -/
inductive ReadChain (env : Env σ) (app : List UInt8 → AppSource) (flags : Flags) :
    List UInt8 → List DeltaFile → List WholeState → Prop
  | nil (file : List UInt8) : ReadChain env app flags file [] []
  | cons {file : List UInt8} {d : DeltaFile} {ds : List DeltaFile} {whole : WholeState}
      {wholes : List WholeState} (hread : d.ReadAs env (app file) flags whole)
      (hlater : ReadChain env app flags d.target ds wholes) :
      ReadChain env app flags file (d :: ds) (whole :: wholes)

theorem ReadChain.append {file : List UInt8} {ds ds' : List DeltaFile}
    {wholes wholes' : List WholeState} (h : ReadChain env app flags file ds wholes)
    (h' : ReadChain env app flags (chainTarget file ds) ds' wholes') :
    ReadChain env app flags file (ds ++ ds') (wholes ++ wholes') := by
  induction h with
  | nil file => exact h'
  | cons hread _ ih => exact .cons hread (ih h')

theorem deltaChain_append {file : List UInt8} {ds ds' : List DeltaFile} :
    DeltaChain file (ds ++ ds') ↔ DeltaChain file ds ∧ DeltaChain (chainTarget file ds) ds' := by
  induction ds generalizing file with
  | nil => exact ⟨fun h => ⟨trivial, h⟩, And.right⟩
  | cons d ds ih =>
    rw [List.cons_append, DeltaChain, DeltaChain, ih, and_assoc]
    rfl

theorem chainTarget_concat {file : List UInt8} {ds : List DeltaFile} {d : DeltaFile} :
    chainTarget file (ds ++ [d]) = d.target := by
  induction ds generalizing file with
  | nil => rfl
  | cons d' ds ih => exact ih

/-- Windows whose bytes are fewer than `xoff_t` counts are within the limits. -/
theorem StandFor.withinLimits {file : List UInt8} {windows : List (List UInt8)}
    {ws : List EncodedWindow} (h : StandFor file windows ws) {start : ℕ}
    (hbelow : start + windows.flatten.length < xoff.modulus) :
    WithinLimits start (windows.map List.length) := by
  induction h generalizing start with
  | nil => trivial
  | @cons window w windows ws hw _ ih =>
    rw [List.flatten_cons, List.length_append] at hbelow
    exact ⟨by omega, hw.hard, ih (by omega)⟩

theorem Gathered.complete {checked : Bool} {file word : List UInt8} {whole : WholeState}
    (h : Gathered checked file word whole) (hne : whole.wininfo ≠ []) : whole.Complete where
  toMergeable := h.toMergeable
  toWindowed := h.toWindowed
  windows := hne
  tiles := h.tiles
  own := by
    rw [h.own, h.length_eq]
    exact own_le_lengths h.pos

variable (hsec : ∀ id, env.secondary id = none)
  (hd : ∀ file, Delivery file env.getblk (app file)) (hnone : ∀ file ret, app file ret none = none)
  (hflags : flags.Reads)
include hsec hd hnone hflags

/-- The deltas of a chain are read as deltas that make the same files. -/
theorem DeltaChain.reads {ds : List DeltaFile} {base : List UInt8} (h : DeltaChain base ds) :
    ∃ wholes : List WholeState, ReadChain env app flags base ds wholes ∧
      (∀ d ∈ wholes, d.Mergeable) ∧ applyDeltas base wholes = some (chainTarget base ds) := by
  induction ds generalizing base with
  | nil => exact ⟨[], .nil base, fun _ h => absurd h List.not_mem_nil, rfl⟩
  | cons d ds ih =>
    obtain ⟨hstands, hlater⟩ := h
    obtain ⟨whole, hg, -, hread⟩ := hstands.stands.gathers hsec (hd base) (hnone base) hflags
      (fun _ h => absurd h.symm (Option.some_ne_none _)) hstands.fits hstands.plain hstands.windows
      (show false = true → ∀ w ∈ d.encoded, w.hdr.adler32.isSome = true from
        fun h => Bool.noConfusion h) hstands.below
    obtain ⟨wholes, hreads, hmerge, happ⟩ := ih hlater
    refine ⟨whole :: wholes, .cons hread hreads,
      List.forall_mem_cons.mpr ⟨hg.toMergeable, hmerge⟩, ?_⟩
    unfold applyDeltas at happ ⊢
    rw [List.foldlM_cons]
    change (whole.interp base).bind _ = _
    rw [hg.denotes, Option.bind_some]
    exact happ

/-- A chain of deltas is read, and merged to one that makes of the first file what the chain makes
of it. -/
theorem DeltaChain.merges {links : List DeltaFile} {last : DeltaFile} {base : List UInt8}
    (h : DeltaChain base (links ++ [last])) {s : MergeSettings}
    (hchecked : s.checked = true → ∀ w ∈ last.encoded, w.hdr.adler32.isSome = true)
    (hroom : base.length + hardMaxWinsize < usize.modulus) {header : Main.MergeHeader}
    (hheader : header ≠ .refuse) (hfits : (mergedFileHdr header).Fits) :
    ∃ wholes whole merged w',
      ReadChain env app flags base (links ++ [last]) (wholes ++ [whole]) ∧
      (∀ depth, (∀ d ∈ wholes, d.length < depth) →
        mainMerge depth s header wholes whole = .ok (DeltaFile.bytes merged) w') ∧
      merged.Stands base ∧ merged.target = last.target := by
  obtain ⟨hlinks, hlast, -⟩ := deltaChain_append.mp h
  obtain ⟨wholes, hreads, hmerge, happ⟩ := hlinks.reads hsec hd hnone hflags
  -- the last delta, with its checksums
  obtain ⟨whole, hg, hinfo, hread⟩ := hlast.stands.gathers hsec (hd (chainTarget base links))
    (hnone (chainTarget base links)) hflags (fun _ h => absurd h.symm (Option.some_ne_none _))
    hlast.fits hlast.plain hlast.windows hchecked hlast.below
  have hword : applyDeltas base (wholes ++ [whole]) = some last.target := by
    unfold applyDeltas at happ ⊢
    rw [List.foldlM_append, happ]
    change (whole.interp (chainTarget base links)).bind pure = _
    rw [hg.denotes]
    rfl
  obtain ⟨result, hres, hmain⟩ := mainMerge_ok hmerge (hg.complete hinfo) hword
  obtain ⟨windows, ews, w', hok, hstand, hne, hflat, -⟩ := mainMergeOutput_standFor
    (hres.writable (hg.complete hinfo) hroom hg.sums) hheader hfits
  have hplain : (mergedFileHdr header).secId = none := by
    cases header <;> rfl
  refine ⟨wholes, whole, ⟨mergedFileHdr header, windows, ews⟩, w',
    hreads.append (.cons hread (.nil _)), fun depth hdepth => (hmain depth hdepth s header).trans hok,
    ⟨hfits, hplain, hstand, hne, ?_⟩, hflat⟩
  unfold DeltaFile.target
  rw [hflat]
  exact hlast.below

omit hflags in
/-- A delta against a file is decoded against it, however it is cut into chunks. -/
theorem DeltaFile.Stands.decodes {file : List UInt8} {d : DeltaFile} (h : d.Stands file)
    {decoding : Flags} (hemits : decoding.Emits) {src : Source} (hsrc : src.Faithful file)
    {cs : List (List UInt8)} (hcs : cs.flatten = d.bytes) : ∃ tr : List (Event σ),
      (decodeDriver env (app file)).Run (initStream decoding (some src)) cs tr ∧
      tr.filterMap Event.seen = sessionShown d.windows d.encoded ++ [.closed none] := by
  refine h.stands.decodes hsec (hd file) (hnone file) hemits (fun t ht => ?_) h.fits h.plain
    h.windows (fun _ _ _ => rfl) (h.stands.withinLimits ?_) hcs
  · obtain rfl := Option.some.inj ht
    exact hsrc
  · rw [Nat.zero_add]
    exact h.below

/-- A chain of deltas, read in any chunks, merged and written, is one delta: decoded against the
first file, in any chunks, it gives the file at the end of the chain. -/
theorem chainMerge_decodes {links : List DeltaFile} {last : DeltaFile} {base : List UInt8}
    (h : DeltaChain base (links ++ [last])) {s : MergeSettings}
    (hchecked : s.checked = true → ∀ w ∈ last.encoded, w.hdr.adler32.isSome = true)
    (hroom : base.length + hardMaxWinsize < usize.modulus) {header : Main.MergeHeader}
    (hheader : header ≠ .refuse) (hfits : (mergedFileHdr header).Fits) {decoding : Flags}
    (hemits : decoding.Emits) {src : Source} (hsrc : src.Faithful base) :
    ∃ wholes whole out w' windows ews,
      ReadChain env app flags base (links ++ [last]) (wholes ++ [whole]) ∧
      (∀ depth, (∀ d ∈ wholes, d.length < depth) →
        mainMerge depth s header wholes whole = .ok out w') ∧
      StandFor base windows ews ∧ windows.flatten = last.target ∧
      ∀ cs : List (List UInt8), cs.flatten = out → ∃ tr : List (Event σ),
        (decodeDriver env (app base)).Run (initStream decoding (some src)) cs tr ∧
        tr.filterMap Event.seen = sessionShown windows ews ++ [.closed none] := by
  obtain ⟨wholes, whole, merged, w', hread, hmain, hstands, htarget⟩ :=
    h.merges hsec hd hnone hflags hchecked hroom hheader hfits
  exact ⟨wholes, whole, merged.bytes, w', merged.windows, merged.encoded, hread, hmain,
    hstands.stands, htarget, fun _ hcs => hstands.decodes hsec hd hnone hemits hsrc hcs⟩

/-- A chain may be merged in two stages: what the first stage writes is a delta that the second
reads, and what the second writes, decoded against the first file, gives the file at the end of the
chain. -/
theorem chainMerge_stages {links links' : List DeltaFile} {middle last : DeltaFile}
    {base : List UInt8} (h : DeltaChain base (links ++ [middle] ++ (links' ++ [last])))
    {s s' : MergeSettings}
    (hchecked : s.checked = true → ∀ w ∈ middle.encoded, w.hdr.adler32.isSome = true)
    (hchecked' : s'.checked = true → ∀ w ∈ last.encoded, w.hdr.adler32.isSome = true)
    (hroom : base.length + hardMaxWinsize < usize.modulus) {header header' : Main.MergeHeader}
    (hheader : header ≠ .refuse) (hfits : (mergedFileHdr header).Fits)
    (hheader' : header' ≠ .refuse) (hfits' : (mergedFileHdr header').Fits) {decoding : Flags}
    (hemits : decoding.Emits) {src : Source} (hsrc : src.Faithful base) :
    ∃ wholes whole first w wholes' whole' second w',
      ReadChain env app flags base (links ++ [middle]) (wholes ++ [whole]) ∧
      (∀ depth, (∀ d ∈ wholes, d.length < depth) →
        mainMerge depth s header wholes whole = .ok (DeltaFile.bytes first) w) ∧
      first.target = middle.target ∧
      ReadChain env app flags base (first :: (links' ++ [last])) (wholes' ++ [whole']) ∧
      (∀ depth, (∀ d ∈ wholes', d.length < depth) →
        mainMerge depth s' header' wholes' whole' = .ok (DeltaFile.bytes second) w') ∧
      second.target = last.target ∧
      ∀ cs : List (List UInt8), cs.flatten = second.bytes → ∃ tr : List (Event σ),
        (decodeDriver env (app base)).Run (initStream decoding (some src)) cs tr ∧
        tr.filterMap Event.seen = sessionShown second.windows second.encoded ++ [.closed none] := by
  obtain ⟨hbefore, hafter⟩ := deltaChain_append.mp h
  obtain ⟨wholes, whole, first, w, hread, hmain, hfirst, htarget⟩ :=
    hbefore.merges hsec hd hnone hflags hchecked hroom hheader hfits
  have hmiddle : chainTarget base (links ++ [middle]) = middle.target := chainTarget_concat
  have hchain : DeltaChain base ((first :: links') ++ [last]) := by
    refine ⟨hfirst, ?_⟩
    rw [htarget, ← hmiddle]
    exact hafter
  obtain ⟨wholes', whole', second, w', hread', hmain', hsecond, htarget'⟩ :=
    hchain.merges hsec hd hnone hflags hchecked' hroom hheader' hfits'
  exact ⟨wholes, whole, first, w, wholes', whole', second, w', hread, hmain, htarget, hread',
    hmain', htarget', fun _ hcs => hsecond.decodes hsec hd hnone hemits hsrc hcs⟩

end Links

def longer : EncodedWindow where
  hdr := ⟨some (4, 0), 5, 0, 1, 2, 1, none⟩
  data := [33]
  inst := [20, 2]
  addr := [0]
  fits := ⟨fun _ h => by cases h; decide, by decide, by decide, by decide, by decide, by decide,
    fun _ h => by cases h⟩
  dataLen := rfl
  instLen := rfl
  addrLen := rfl
  total := by decide

def shifted : EncodedWindow where
  hdr := ⟨some (4, 1), 6, 0, 1, 3, 1, none⟩
  data := [7]
  inst := [20, 0, 2]
  addr := [0]
  fits := ⟨fun _ h => by cases h; decide, by decide, by decide, by decide, by decide, by decide,
    fun _ h => by cases h⟩
  dataLen := rfl
  instLen := rfl
  addrLen := rfl
  total := by decide

/-- What is read to the end has been read one opcode after the other. -/
theorem Script.reads_of_read {x : Extent} {r : Script} {left : List UInt8}
    (h : (r.read x).2 = some left) : ∃ c p, Script.Reads x r (r.read x).1 ⟨[], left, c, p⟩ := by
  induction hn : r.inst.length using Nat.strongRecOn generalizing r with
  | _ n ih =>
    subst hn
    by_cases hnil : r.inst = []
    · rw [read_nil hnil] at h ⊢
      cases h
      obtain ⟨inst, addr, c, p⟩ := r
      obtain rfl : inst = [] := hnil
      exact ⟨c, p, .nil _⟩
    · cases hnext : r.next x with
      | none =>
        rw [read_none hnil hnext] at h
        cases h
      | some q =>
        obtain ⟨is, r'⟩ := q
        rw [read_some hnext] at h ⊢
        obtain ⟨c, p, hreads⟩ := ih _ (next_inst hnext) h rfl
        exact ⟨c, p, .step hnext hreads⟩

/-- A window without a checksum, whose sections are read to their ends, stands for what they
mean. -/
theorem EncodedWindow.standsFor_of_read {w : EncodedWindow} {file window : List UInt8}
    (htgtLen : w.hdr.tgtLen = window.length) (hplain : w.hdr.delInd = 0)
    (hhard : window.length ≤ hardMaxWinsize)
    (hcopy : w.hdr.srcbase + w.hdr.srclen < xoff.modulus)
    (htarget : w.hdr.srclen + w.hdr.tgtLen < usize.modulus)
    (hinside : w.hdr.srclen = 0 ∨ w.hdr.srcbase + w.hdr.srclen ≤ file.length)
    (hadler32 : w.hdr.adler32 = none)
    (hread : (Script.read w.hdr.extent ⟨w.inst, w.addr, .rfc3284, w.hdr.srclen⟩).2 = some [])
    (hsizes : ∀ i ∈ (Script.read w.hdr.extent ⟨w.inst, w.addr, .rfc3284, w.hdr.srclen⟩).1,
      i.size ≠ 0)
    (hmeans : interpretEach file w.hdr.extent
      (Script.read w.hdr.extent ⟨w.inst, w.addr, .rfc3284, w.hdr.srclen⟩).1 ⟨[], w.data⟩ =
        some ⟨window, []⟩) : w.StandsFor file window := by
  obtain ⟨c, p, hreads⟩ := Script.reads_of_read hread
  exact ⟨htgtLen, hplain, hhard, hcopy, htarget, hinside,
    fun a ha => absurd (hadler32.symm.trans ha) (Option.some_ne_none a).symm,
    _, c, p, hreads, hsizes, hmeans⟩

theorem longer_stands : longer.StandsFor [104, 105, 106, 107] [104, 105, 106, 107, 33] :=
  EncodedWindow.standsFor_of_read rfl rfl (by decide) (by decide) (by decide) (by decide) rfl
    (by decide) (by decide) rfl

theorem shifted_stands : shifted.StandsFor [104, 105, 106, 107, 33] [105, 106, 107, 33, 7, 7] :=
  EncodedWindow.standsFor_of_read rfl rfl (by decide) (by decide) (by decide) (by decide) rfl
    (by decide) (by decide) rfl

theorem shifted_stands_again :
    shifted.StandsFor [105, 106, 107, 33, 7, 7] [106, 107, 33, 7, 7, 7] :=
  EncodedWindow.standsFor_of_read rfl rfl (by decide) (by decide) (by decide) (by decide) rfl
    (by decide) (by decide) rfl

def DeltaFile.single (w : EncodedWindow) (window : List UInt8) : DeltaFile :=
  ⟨⟨none, none⟩, [window], [w]⟩

theorem DeltaFile.single_stands {w : EncodedWindow} {file window : List UInt8}
    (h : w.StandsFor file window) (hbelow : window.length < xoff.modulus) :
    (DeltaFile.single w window).Stands file where
  fits _ h := by cases h
  plain := rfl
  stands := .cons h .nil
  windows := List.cons_ne_nil _ _
  below := by
    rw [DeltaFile.target, DeltaFile.single, List.flatten_singleton]
    exact hbelow

theorem deltaChain_longer_shifted : DeltaChain [104, 105, 106, 107]
    ([DeltaFile.single longer [104, 105, 106, 107, 33]] ++
      [DeltaFile.single shifted [105, 106, 107, 33, 7, 7]]) :=
  ⟨DeltaFile.single_stands longer_stands (by decide),
    DeltaFile.single_stands shifted_stands (by decide), trivial⟩

def mergeFlags : Flags := { adler32Nover := true, skipEmit := true }

/-- `longer` and `shifted`, merged to one delta against the first file. -/
theorem chainMerge_decodes_shifted : ∃ wholes whole out w' windows ews,
    ReadChain ({} : Env Unit) answerRequests mergeFlags [104, 105, 106, 107]
        ([DeltaFile.single longer [104, 105, 106, 107, 33]] ++
          [DeltaFile.single shifted [105, 106, 107, 33, 7, 7]]) (wholes ++ [whole]) ∧
      (∀ depth, (∀ d ∈ wholes, d.length < depth) →
        mainMerge depth plainSettings .plain wholes whole = .ok out w') ∧
      StandFor [104, 105, 106, 107] windows ews ∧
      windows.flatten = (DeltaFile.single shifted [105, 106, 107, 33, 7, 7]).target ∧
      ∀ cs : List (List UInt8), cs.flatten = out → ∃ tr : List (Event Unit),
        (decodeDriver {} (answerRequests [104, 105, 106, 107])).Run
          (initStream {} (some (freshSource 0))) cs tr ∧
        tr.filterMap Event.seen = sessionShown windows ews ++ [.closed none] := by
  refine chainMerge_decodes (fun _ => rfl) delivery_answerRequests (fun file ret => ?_)
    ⟨rfl, rfl, rfl⟩ deltaChain_longer_shifted (fun h => Bool.noConfusion h) (by decide)
    Main.MergeHeader.noConfusion (fun _ h => ?_) ⟨rfl, rfl, rfl⟩
    (freshSource_faithful _ (by decide))
  · unfold answerRequests
    split <;> rfl
  · cases h

/-- `longer` and `shifted` first, and then what they make with `shifted` again. -/
theorem chainMerge_stages_shifted : ∃ wholes whole first w wholes' whole' second w',
    ReadChain ({} : Env Unit) answerRequests mergeFlags [104, 105, 106, 107]
        ([DeltaFile.single longer [104, 105, 106, 107, 33]] ++
          [DeltaFile.single shifted [105, 106, 107, 33, 7, 7]]) (wholes ++ [whole]) ∧
      (∀ depth, (∀ d ∈ wholes, d.length < depth) →
        mainMerge depth plainSettings .plain wholes whole = .ok (DeltaFile.bytes first) w) ∧
      first.target = (DeltaFile.single shifted [105, 106, 107, 33, 7, 7]).target ∧
      ReadChain ({} : Env Unit) answerRequests mergeFlags [104, 105, 106, 107]
        (first :: ([] ++ [DeltaFile.single shifted [106, 107, 33, 7, 7, 7]]))
        (wholes' ++ [whole']) ∧
      (∀ depth, (∀ d ∈ wholes', d.length < depth) →
        mainMerge depth plainSettings .plain wholes' whole' = .ok (DeltaFile.bytes second) w') ∧
      second.target = (DeltaFile.single shifted [106, 107, 33, 7, 7, 7]).target ∧
      ∀ cs : List (List UInt8), cs.flatten = second.bytes → ∃ tr : List (Event Unit),
        (decodeDriver {} (answerRequests [104, 105, 106, 107])).Run
          (initStream {} (some (freshSource 0))) cs tr ∧
        tr.filterMap Event.seen = sessionShown second.windows second.encoded ++ [.closed none] := by
  have hchain : DeltaChain [104, 105, 106, 107]
      ([DeltaFile.single longer [104, 105, 106, 107, 33]] ++
        [DeltaFile.single shifted [105, 106, 107, 33, 7, 7]] ++
          ([] ++ [DeltaFile.single shifted [106, 107, 33, 7, 7, 7]])) :=
    deltaChain_append.mpr ⟨deltaChain_longer_shifted,
      DeltaFile.single_stands shifted_stands_again (by decide), trivial⟩
  refine chainMerge_stages (fun _ => rfl) delivery_answerRequests (fun file ret => ?_)
    ⟨rfl, rfl, rfl⟩ hchain (fun h => Bool.noConfusion h) (fun h => Bool.noConfusion h) (by decide)
    Main.MergeHeader.noConfusion (fun _ h => ?_) Main.MergeHeader.noConfusion (fun _ h => ?_)
    ⟨rfl, rfl, rfl⟩ (freshSource_faithful _ (by decide))
  · unfold answerRequests
    split <;> rfl
  · cases h
  · cases h

end Xdelta
