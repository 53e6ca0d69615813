import Xdelta.Encoder.Header

/-!
# Deltas

What a stream writes window after window: the file header once, and for each window its
header and its three sections.
-/
namespace Xdelta
open Chunked

structure EncodedWindow where
  hdr : WinHdr
  data : List UInt8
  inst : List UInt8
  addr : List UInt8
  fits : hdr.Fits
  dataLen : hdr.dataLen = data.length
  instLen : hdr.instLen = inst.length
  addrLen : hdr.addrLen = addr.length
  total : inst.length + addr.length + data.length < usize.modulus

namespace EncodedWindow

def sections (w : EncodedWindow) : List UInt8 := w.data ++ (w.inst ++ w.addr)

def bytes (w : EncodedWindow) : List UInt8 := w.hdr.bytes ++ w.sections

end EncodedWindow

theorem adler32_lt (a : ℕ) (buf : List UInt8) : adler32 a buf < 2 ^ 32 := by
  have hfold : ∀ (buf : List UInt8) (s : ℕ × ℕ), s.1 < 65536 → s.2 < 65536 →
      (buf.foldl (fun (s : ℕ × ℕ) b => ((s.1 + b.toNat) % a32Base,
        (s.2 + (s.1 + b.toNat) % a32Base) % a32Base)) s).1 < 65536 ∧
      (buf.foldl (fun (s : ℕ × ℕ) b => ((s.1 + b.toNat) % a32Base,
        (s.2 + (s.1 + b.toNat) % a32Base) % a32Base)) s).2 < 65536 := by
    intro buf
    induction buf with
    | nil => exact fun s h1 h2 => ⟨h1, h2⟩
    | cons b buf ih =>
      intro s _ _
      rw [List.foldl_cons]
      have hbase : a32Base < 65536 := by decide
      exact ih _ ((Nat.mod_lt _ (by decide)).trans hbase) ((Nat.mod_lt _ (by decide)).trans hbase)
  have h := hfold buf (a % 65536, a / 65536 % 65536) (Nat.mod_lt _ (by decide))
    (Nat.mod_lt _ (by decide))
  unfold adler32
  dsimp only
  omega

namespace Encoder

def packed (e : Encoder) (k : Sect) : List UInt8 := (e.compressed k).getD (e.sect k)

def usedSource (e : Encoder) : Option (ℕ × ℕ) :=
  match e.src with
  | .live source => if 0 < source.srclen then some (source.srclen, source.srcbase) else none
  | _ => none

def output (e : Encoder) : List UInt8 := e.hdr ++ (e.data ++ (e.inst ++ e.addr))

/-- The fields of a stream about to write its window are values of their types. -/
structure Flushable (e : Encoder) : Prop where
  hdr : e.hdr = []
  src : e.src ≠ .dead
  source : ∀ p, e.usedSource = some p → p.1 < usize.modulus ∧ p.2 < xoff.modulus
  availIn : e.availIn < usize.modulus
  recodeAdler32 : e.recodeAdler32 < 2 ^ 32
  appheader : e.fileHdr.Fits
  total : (e.packed .inst).length + (e.packed .addr).length + (e.packed .data).length < usize.modulus

theorem delInd_lt (e : Encoder) : e.delInd < 8 := by
  have hbits : ∀ a b c : Bool, ((if a then vcdComp .data else 0) ||| (if b then vcdComp .inst else 0)
      ||| (if c then vcdComp .addr else 0)) < 8 := by decide
  exact hbits _ _ _

theorem sentAdler32_lt {e : Encoder} (h : e.recodeAdler32 < 2 ^ 32) {a : ℕ}
    (ha : e.sentAdler32 = some a) : a < 2 ^ 32 := by
  unfold sentAdler32 at ha
  split at ha
  · split at ha
    · cases ha
      exact adler32_lt _ _
    · cases ha
      exact h
  · cases ha

def encoded (e : Encoder) (h : e.Flushable) : EncodedWindow where
  hdr := {
    source := e.usedSource
    tgtLen := e.availIn
    delInd := e.delInd
    dataLen := (e.packed .data).length
    instLen := (e.packed .inst).length
    addrLen := (e.packed .addr).length
    adler32 := e.sentAdler32 }
  data := e.packed .data
  inst := e.packed .inst
  addr := e.packed .addr
  fits := by
    have htotal := h.total
    exact ⟨h.source, h.availIn, e.delInd_lt, by dsimp only; omega, by dsimp only; omega,
      by dsimp only; omega, fun a => sentAdler32_lt h.recodeAdler32⟩
  dataLen := rfl
  instLen := rfl
  addrLen := rfl
  total := h.total

def written (e : Encoder) (h : e.Flushable) : List UInt8 :=
  (if e.currentWindow = 0 then e.fileHdr.bytes else []) ++ (e.encoded h).bytes

end Encoder

/-- What `xd3_emit_hdr` leaves: the sections are packed, and the headers precede them. -/
theorem emitHdr_eq {e : Encoder} (h : e.src ≠ .dead) :
    emitHdr e = .ok () { e with
      hdr := e.hdr ++ (if e.currentWindow = 0 then e.fileHdr.bytes else []) ++ WinHdr.bytes {
        source := e.usedSource
        tgtLen := e.availIn
        delInd := e.delInd
        dataLen := (e.packed .data).length
        instLen := (e.packed .inst).length
        addrLen := (e.packed .addr).length
        adler32 := e.sentAdler32 }
      data := e.packed .data
      inst := e.packed .inst
      addr := e.packed .addr } := by
  obtain ⟨flags, encState, src⟩ := e
  cases src with
  | dead => exact absurd rfl h
  | null =>
    unfold emitHdr encoderUsedSource
    dsimp only
    rw [Outcome.andThen_ok]
    split
    · rfl
    · rw [List.append_nil]
      rfl
  | live source =>
    unfold emitHdr encoderUsedSource Encoder.usedSource
    dsimp only
    rw [Outcome.andThen_ok]
    simp only [decide_eq_true_eq]
    split
    · rfl
    · rw [List.append_nil]
      rfl

/-- `xd3_emit_hdr` completes the window; the file header precedes the first. -/
theorem emitHdr_output {e : Encoder} (h : e.Flushable) :
    ∃ e', emitHdr e = .ok () e' ∧ e'.output = e.written h := by
  refine ⟨_, emitHdr_eq h.src, ?_⟩
  unfold Encoder.output Encoder.written EncodedWindow.bytes EncodedWindow.sections
  rw [h.hdr, List.nil_append, List.append_assoc]
  rfl

def Encoder.flushed (e : Encoder) : List UInt8 :=
  match emitHdr e with
  | .ok _ e' => e'.output
  | _ => []

theorem Encoder.flushed_eq {e : Encoder} (h : e.Flushable) : e.flushed = e.written h := by
  obtain ⟨e', he, hout⟩ := emitHdr_output h
  unfold flushed
  rw [he]
  exact hout

/-- A delta: the output of its windows, given the streams about to write them. -/
def delta (es : List Encoder) : List UInt8 := (es.map Encoder.flushed).flatten

/-- Streams about to write the windows of one delta, in order. -/
structure Flushes (es : List Encoder) : Prop where
  flushable : ∀ e ∈ es, e.Flushable
  window : ∀ (k : ℕ) (e : Encoder), es[k]? = some e → e.currentWindow = k

/-- The windows after the first are written without the file header. -/
theorem flushed_later {es : List Encoder} (h : ∀ e ∈ es, e.Flushable)
    (hw : ∀ e ∈ es, e.currentWindow ≠ 0) :
    es.map Encoder.flushed = (es.pmap Encoder.encoded h).map EncodedWindow.bytes := by
  induction es with
  | nil => rfl
  | cons e es ih =>
    have he := h e List.mem_cons_self
    rw [List.map_cons, List.pmap_cons, List.map_cons, Encoder.flushed_eq he, Encoder.written,
      if_neg (hw e List.mem_cons_self), List.nil_append,
      ih (fun e he => h e (List.mem_cons_of_mem _ he)) fun e he => hw e (List.mem_cons_of_mem _ he)]

/-- A delta is its file header and the bytes of its windows. -/
theorem Flushes.blocks {e : Encoder} {es : List Encoder} (h : Flushes (e :: es)) :
    ∃ ws : List EncodedWindow, ∀ k, delta ((e :: es).take (k + 1)) =
      e.fileHdr.bytes ++ ((ws.map EncodedWindow.bytes).take (k + 1)).flatten ∧
      ws.length = es.length + 1 := by
  have hflush : ∀ e ∈ es, e.Flushable := fun e he => h.flushable e (List.mem_cons_of_mem _ he)
  have he : e.Flushable := h.flushable e List.mem_cons_self
  have h0 : e.currentWindow = 0 := h.window 0 e rfl
  have hlater : ∀ e ∈ es, e.currentWindow ≠ 0 := by
    intro e' he'
    obtain ⟨k, hk⟩ := List.getElem?_of_mem he'
    rw [h.window (k + 1) e' hk]
    exact Nat.succ_ne_zero k
  refine ⟨e.encoded he :: es.pmap Encoder.encoded hflush, fun k => ⟨?_, ?_⟩⟩
  · unfold delta
    rw [List.take_succ_cons, List.map_cons, List.flatten_cons, List.map_take,
      flushed_later hflush hlater, Encoder.flushed_eq he, Encoder.written, if_pos h0,
      List.map_cons, List.take_succ_cons, List.flatten_cons, List.append_assoc]
  · rw [List.length_cons, List.length_pmap]

end Xdelta
