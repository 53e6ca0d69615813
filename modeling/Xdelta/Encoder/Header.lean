import Xdelta.Encoder.State
import Xdelta.Decoder.HeaderChain

/-!
# The headers the encoder writes

`xd3_emit_hdr` and its two headers, the one of the file, which precedes the first
window, and the one of each window. The header states of the decoder, given these
bytes, consume exactly them, unless a bound that only the decoder checks is exceeded.
-/
namespace Xdelta
open Chunked

def SecId.toByte : SecId → UInt8
  | djw => 1
  | lzma => 2
  | fgk => 16

structure FileHdr where
  secId : Option SecId
  appheader : Option (List UInt8)

namespace FileHdr

def hdrInd (h : FileHdr) : ℕ :=
  (if h.secId.isSome then vcdSecondary else 0) ||| (if h.appheader.isSome then vcdAppheader else 0)

def secondBytes (h : FileHdr) : List UInt8 :=
  match h.secId with
  | some id => [id.toByte]
  | none => []

def appBytes (h : FileHdr) : List UInt8 :=
  match h.appheader with
  | some app => emitInteger app.length ++ app
  | none => []

/-- `VCDIFF_MAGIC1` to `VCDIFF_VERSION`, the indicator and the two optional fields. -/
def bytes (h : FileHdr) : List UInt8 :=
  [0xd6, 0xc3, 0xc4, 0x00, UInt8.ofNat h.hdrInd] ++ (h.secondBytes ++ h.appBytes)

end FileHdr

/-- The fields of a window header. `source` is `srclen` and `srcbase`. -/
structure WinHdr where
  source : Option (ℕ × ℕ)
  tgtLen : ℕ
  delInd : ℕ
  dataLen : ℕ
  instLen : ℕ
  addrLen : ℕ
  adler32 : Option ℕ

namespace WinHdr

def winInd (h : WinHdr) : ℕ :=
  (if h.source.isSome then vcdSource else 0) ||| (if h.adler32.isSome then vcdAdler32 else 0)

def encLen (h : WinHdr) : ℕ :=
  (1 + (sizeofSize h.tgtLen + sizeofSize h.dataLen + sizeofSize h.instLen + sizeofSize h.addrLen) +
    h.dataLen + h.instLen + h.addrLen + (if h.adler32.isSome then 4 else 0)) % usize.modulus

def cksumBytes (a32 : ℕ) : List UInt8 :=
  [UInt8.ofNat (a32 >>> 24), UInt8.ofNat (a32 >>> 16), UInt8.ofNat (a32 >>> 8),
    UInt8.ofNat (a32 &&& 0xff)]

def sourceBytes (h : WinHdr) : List UInt8 :=
  match h.source with
  | some (srclen, srcbase) => emitInteger srclen ++ emitInteger srcbase
  | none => []

def cksum (h : WinHdr) : List UInt8 :=
  match h.adler32 with
  | some a32 => cksumBytes a32
  | none => []

def bytes (h : WinHdr) : List UInt8 :=
  UInt8.ofNat h.winInd :: (h.sourceBytes ++
    (emitInteger h.encLen ++ (emitInteger h.tgtLen ++ (UInt8.ofNat h.delInd ::
    (emitInteger h.dataLen ++ (emitInteger h.instLen ++ (emitInteger h.addrLen ++ h.cksum)))))))

/-- The numbers are values of the types of their fields. -/
structure Fits (h : WinHdr) : Prop where
  source : ∀ p, h.source = some p → p.1 < usize.modulus ∧ p.2 < xoff.modulus
  tgtLen : h.tgtLen < usize.modulus
  delInd : h.delInd < 8
  dataLen : h.dataLen < usize.modulus
  instLen : h.instLen < usize.modulus
  addrLen : h.addrLen < usize.modulus
  adler32 : ∀ a, h.adler32 = some a → a < 2 ^ 32

def srclen (h : WinHdr) : ℕ := (h.source.map Prod.fst).getD 0
def srcbase (h : WinHdr) : ℕ := (h.source.map Prod.snd).getD 0

end WinHdr

/-- `ENCODE_SECONDARY_SECTION`: the section and whether it has been compressed. -/
def Encoder.compressed (e : Encoder) (k : Sect) : Option (List UInt8) :=
  match e.secType with
  | none => none
  | some t => if e.flags.secNo k then none else t.encode k (e.sect k)

def encodeSecondarySection (k : Sect) : Enc Unit := fun e =>
  .ok () (e.setSect k ((e.compressed k).getD (e.sect k)))

def Encoder.delInd (e : Encoder) : ℕ :=
  (if (e.compressed .data).isSome then vcdComp .data else 0) |||
    (if (e.compressed .inst).isSome then vcdComp .inst else 0) |||
    (if (e.compressed .addr).isSome then vcdComp .addr else 0)

def Encoder.fileHdr (e : Encoder) : FileHdr := ⟨e.secType.map EncSecType.id, e.encAppheader⟩

def Encoder.sentAdler32 (e : Encoder) : Option ℕ :=
  if e.flags.adler32 || e.flags.adler32Recode then
    some (if e.flags.adler32 then adler32 1 (e.nextIn.take e.availIn) else e.recodeAdler32)
  else none

def Encoder.winHdr (e : Encoder) (delInd : ℕ) (source : Option (ℕ × ℕ)) : WinHdr where
  source := source
  tgtLen := e.availIn
  delInd := delInd
  dataLen := e.data.length
  instLen := e.inst.length
  addrLen := e.addr.length
  adler32 := e.sentAdler32

def emitHdr : Enc Unit := fun e =>
  (encoderUsedSource e).andThen fun vcdSource e =>
  let e := if e.currentWindow = 0 then { e with hdr := e.hdr ++ e.fileHdr.bytes } else e
  let delInd := e.delInd
  (encodeSecondarySection .data e).andThen fun _ e =>
  (encodeSecondarySection .inst e).andThen fun _ e =>
  (encodeSecondarySection .addr e).andThen fun _ e =>
  let source := match e.src with
    | .live source => if vcdSource then some (source.srclen, source.srcbase) else none
    | _ => none
  .ok () { e with hdr := e.hdr ++ (e.winHdr delInd source).bytes }

section Fields
variable {σ : Type}

theorem decodeSize_emitInteger {v : ℕ} (hv : v < usize.modulus) (rest : List UInt8) (t : ℕ) :
    decodeSize ⟨emitInteger v ++ rest, t, 0⟩ = .ok v ⟨rest, t + (emitInteger v).length, 0⟩ := by
  unfold decodeSize
  dsimp only
  rw [decodeInteger_emitInteger usize v rest hv]
  dsimp only
  rw [List.length_append, Nat.add_sub_cancel_right]

theorem fieldCase_integer {expr : Core σ → Bool} {put : Core σ → ℕ → Core σ} {nstate : DecState}
    {c : Core σ} (h : expr c = true) {v : ℕ} (hv : v < usize.modulus) (rest : List UInt8) (t : ℕ) :
    fieldCase decodeSize expr put nstate ⟨⟨emitInteger v ++ rest, t, 0⟩, c⟩ =
      .ok () ⟨⟨rest, t + (emitInteger v).length, 0⟩, { put c v with decState := nstate }⟩ := by
  rw [fieldCase_pos (s := ⟨⟨emitInteger v ++ rest, t, 0⟩, c⟩) h]
  dsimp only
  rw [decodeSize_emitInteger hv]

theorem fieldCase_byte {expr : Core σ → Bool} {put : Core σ → ℕ → Core σ} {nstate : DecState}
    {c : Core σ} (h : expr c = true) (b : UInt8) (rest : List UInt8) (t p : ℕ) :
    fieldCase decodeByte expr put nstate ⟨⟨b :: rest, t, p⟩, c⟩ =
      .ok () ⟨⟨rest, t + 1, p⟩, { put c b.toNat with decState := nstate }⟩ :=
  fieldCase_pos (s := ⟨⟨b :: rest, t, p⟩, c⟩) h

theorem decodeBytes_full {view : Core σ → List UInt8} {put : Core σ → List UInt8 → Core σ}
    {size : Core σ → ℕ} {c : Core σ} (hview : view c = []) (buf rest : List UInt8)
    (hsize : size c = buf.length) (t p : ℕ) :
    decodeBytes view put size ⟨⟨buf ++ rest, t, p⟩, c⟩ =
      .ok () ⟨⟨rest, t + buf.length, p⟩, put c buf⟩ := by
  have hmin : min (buf.length - 0) (buf ++ rest).length = buf.length := by
    rw [List.length_append]
    omega
  unfold decodeBytes
  dsimp only
  rw [hview, hsize, List.length_nil, hmin, List.take_left, List.nil_append,
    if_neg (lt_irrefl _)]
  simp only [Input.consume, List.drop_left]

private theorem shift_byte (x : ℕ) (b : UInt8) :
    ((x <<< 8) % 2 ^ 32) ||| b.toNat = x % 2 ^ 24 * 256 + b.toNat := by
  have hmod : (x <<< 8) % 2 ^ 32 = (x % 2 ^ 24) <<< 8 := by
    rw [Nat.shiftLeft_eq, Nat.shiftLeft_eq]
    omega
  rw [hmod, ← Nat.shiftLeft_add_eq_or_of_lt b.toNat_lt, Nat.shiftLeft_eq]

theorem shiftCksum_bytes (a : ℕ) {a32 : ℕ} (h : a32 < 2 ^ 32) :
    shiftCksum a (WinHdr.cksumBytes a32) = a32 := by
  unfold shiftCksum WinHdr.cksumBytes
  simp only [List.foldl_cons, List.foldl_nil]
  rw [shift_byte, shift_byte, shift_byte, shift_byte]
  simp only [UInt8.toNat_ofNat', Nat.shiftRight_eq_div_pow,
    show (0xff : ℕ) = 2 ^ 8 - 1 by rfl, Nat.and_two_pow_sub_one_eq_mod]
  omega

end Fields

namespace WinHdr
variable {σ : Type}

/-- What the decoder checks of a window header and the encoder's types do not ensure. -/
structure Accepted (h : WinHdr) (c : Core σ) : Prop where
  winstart : xoff.overflow c.decWinstart c.win.decTgtlen = false
  copy : h.srcbase + h.srclen < xoff.modulus
  target : h.srclen + h.tgtLen < usize.modulus
  hard : h.tgtLen ≤ hardMaxWinsize
  secondary : h.delInd ≠ 0 → c.secType.isSome = true

def decoded (h : WinHdr) (c : Core σ) : Core σ :=
  { c with
    decState := .data
    currentWindow := c.decWindowCount
    decWinstart := xoff.add c.decWinstart c.win.decTgtlen
    decEnclen := h.encLen
    decDelInd := h.delInd
    decCksum := h.cksum
    win := { c.win with
      decWinInd := h.winInd
      decCpylen := h.srclen
      decCpyoff := h.srcbase
      decTgtlen := h.tgtLen
      decAdler32 := h.adler32.getD c.win.decAdler32
      decPosition := h.srclen
      decMaxpos := h.srclen + h.tgtLen
      dataSect := { c.win.dataSect with size := h.dataLen }
      instSect := { c.win.instSect with size := h.instLen }
      addrSect := { c.win.addrSect with size := h.addrLen }
      acache := c.win.acache.init } }

private theorem winInd_bits : ∀ a b : Bool,
    (((if a then vcdSource else 0) ||| (if b then vcdAdler32 else 0)) < 8 ∧
      srcortgt ((if a then vcdSource else 0) ||| (if b then vcdAdler32 else 0)) = a) ∧
    (hasBits ((if a then vcdSource else 0) ||| (if b then vcdAdler32 else 0)) vcdSource = a ∧
      hasBits ((if a then vcdSource else 0) ||| (if b then vcdAdler32 else 0)) vcdTarget = false ∧
      hasBits ((if a then vcdSource else 0) ||| (if b then vcdAdler32 else 0)) vcdAdler32 = b) := by
  decide

theorem winInd_lt (h : WinHdr) : h.winInd < 8 := (winInd_bits _ _).1.1

theorem srcortgt_winInd (h : WinHdr) : srcortgt h.winInd = h.source.isSome := (winInd_bits _ _).1.2

theorem hasBits_winInd_source (h : WinHdr) : hasBits h.winInd vcdSource = h.source.isSome :=
  (winInd_bits _ _).2.1

theorem hasBits_winInd_target (h : WinHdr) : hasBits h.winInd vcdTarget = false :=
  (winInd_bits h.source.isSome h.adler32.isSome).2.2.1

theorem hasBits_winInd_adler32 (h : WinHdr) : hasBits h.winInd vcdAdler32 = h.adler32.isSome :=
  (winInd_bits _ _).2.2.2

theorem hasBits_invalid {n : ℕ} (hn : n < 8) : hasBits n vcdInvalid = false := by
  revert n
  decide

theorem toNat_ofNat {n : ℕ} (hn : n < 8) : (UInt8.ofNat n).toNat = n := by
  rw [UInt8.toNat_ofNat']
  omega

theorem encLen_lt (h : WinHdr) : h.encLen < usize.modulus := Nat.mod_lt _ usize.modulus_pos

private theorem readCksum_decodes (h : WinHdr) (hf : h.Fits) {c : Core σ}
    (hind : c.win.decWinInd = h.winInd) (hbuf : c.decCksum = []) (rest : List UInt8) (t : ℕ) :
    ∃ t', readCksum ⟨⟨h.cksum ++ rest, t, 0⟩, c⟩ = .ok () ⟨⟨rest, t', 0⟩, { c with
      decCksum := h.cksum
      win := { c.win with decAdler32 := h.adler32.getD c.win.decAdler32 } }⟩ := by
  have hbit : hasAdler32 c = h.adler32.isSome := by
    rw [hasAdler32, hind, hasBits_winInd_adler32]
  unfold readCksum
  rw [hbit]
  unfold cksum
  cases ha : h.adler32 with
  | none =>
    refine ⟨t, ?_⟩
    cases c
    cases hbuf
    rfl
  | some a32 =>
    refine ⟨t + 4, ?_⟩
    rw [Option.isSome_some, if_pos rfl,
      decodeBytes_full hbuf (cksumBytes a32) rest rfl t 0]
    simp only [Outcome.andThen_ok, onCore, Routine.zoom_apply, Routine.modify_apply,
      Outcome.mapState_ok, shiftCksum_bytes _ (hf.adler32 a32 ha), Option.getD_some]
    rfl

/-- The length of the encoding that the decoder recomputes. -/
private theorem enclenCheck_eq (h : WinHdr) {c : Core σ} (hind : c.win.decWinInd = h.winInd)
    (htgt : c.win.decTgtlen = h.tgtLen) (hdata : c.win.dataSect.size = h.dataLen)
    (hinst : c.win.instSect.size = h.instLen) (haddr : c.win.addrSect.size = h.addrLen) :
    enclenCheck c = h.encLen := by
  have hbit : hasAdler32 c = h.adler32.isSome := by
    rw [hasAdler32, hind, hasBits_winInd_adler32]
  unfold enclenCheck encLen
  dsimp only
  rw [htgt, hdata, hinst, haddr, hbit]

/-- The three section lengths and the checksum: the length of the encoding is confirmed. -/
private theorem fromDatalen_decodes (h : WinHdr) (hf : h.Fits) {c : Core σ}
    (hind : c.win.decWinInd = h.winInd) (hbuf : c.decCksum = []) (hlen : c.decEnclen = h.encLen)
    (htgt : c.win.decTgtlen = h.tgtLen) (rest : List UInt8) (t : ℕ) :
    ∃ t', fromDatalen ⟨⟨emitInteger h.dataLen ++ (emitInteger h.instLen ++ (emitInteger h.addrLen ++
        (h.cksum ++ rest))), t, 0⟩, c⟩ =
      .stop ⟨if c.currentWindow = 0 then .gotheader else .winstart, none⟩ ⟨⟨rest, t', 0⟩, { c with
        decState := .data
        decCksum := h.cksum
        win := { c.win with
          decAdler32 := h.adler32.getD c.win.decAdler32
          dataSect := { c.win.dataSect with size := h.dataLen }
          instSect := { c.win.instSect with size := h.instLen }
          addrSect := { c.win.addrSect with size := h.addrLen } } }⟩ := by
  unfold fromDatalen fromInstlen fromAddrlen fromCksum decDatalen decInstlen decAddrlen decSectlen
    decCksum
  simp only [Routine.bind_apply, fieldCase_integer, hf.dataLen, hf.instLen, hf.addrLen,
    Outcome.andThen_ok]
  let c' : Core σ := { c with
    decState := .cksum
    win := { c.win with
      dataSect := { c.win.dataSect with size := h.dataLen }
      instSect := { c.win.instSect with size := h.instLen }
      addrSect := { c.win.addrSect with size := h.addrLen } } }
  obtain ⟨t', hread⟩ := readCksum_decodes h hf (c := c') hind hbuf rest
    (t + (emitInteger h.dataLen).length + (emitInteger h.instLen).length +
      (emitInteger h.addrLen).length)
  refine ⟨t', ?_⟩
  change (readCksum ⟨⟨h.cksum ++ rest, _, 0⟩, c'⟩).andThen (fun _ => onCore reportHeader) = _
  rw [hread, Outcome.andThen_ok, onCore, Routine.zoom_apply, reportHeader]
  dsimp only
  rw [if_neg, apply_ite (Outcome.mapState _)]
  · split <;> rfl
  · rw [not_not]
    exact hlen.trans (enclenCheck_eq h (by exact hind) (by exact htgt) rfl rfl rfl).symm

/-- The outcome of a header: reported with the fields `c` if `p` holds, else refused. -/
def Reports (p : Prop) (c : Core σ) (rest : List UInt8) (o : Outcome (Reader σ) Stop Unit) : Prop :=
  (p ∧ ∃ t, o = .stop ⟨if c.currentWindow = 0 then .gotheader else .winstart, none⟩
    ⟨⟨rest, t, 0⟩, c⟩) ∨
  (¬p ∧ ∃ e s, o = .stop e s ∧ e.ret.ordinary = false)

theorem Reports.of_iff {p q : Prop} {c : Core σ} {rest : List UInt8}
    {o : Outcome (Reader σ) Stop Unit} (h : Reports p c rest o) (hpq : p ↔ q) :
    Reports q c rest o := by
  unfold Reports at h ⊢
  rwa [hpq] at h

private theorem fromDelind_decodes (h : WinHdr) (hf : h.Fits) {c : Core σ}
    (hind : c.win.decWinInd = h.winInd) (hbuf : c.decCksum = []) (hlen : c.decEnclen = h.encLen)
    (htgt : c.win.decTgtlen = h.tgtLen) (rest : List UInt8) (t : ℕ) :
    Reports (h.delInd ≠ 0 → c.secType.isSome = true)
      { c with
        decState := .data
        decDelInd := h.delInd
        decCksum := h.cksum
        win := { c.win with
          decAdler32 := h.adler32.getD c.win.decAdler32
          dataSect := { c.win.dataSect with size := h.dataLen }
          instSect := { c.win.instSect with size := h.instLen }
          addrSect := { c.win.addrSect with size := h.addrLen } } } rest
      (fromDelind ⟨⟨UInt8.ofNat h.delInd :: (emitInteger h.dataLen ++ (emitInteger h.instLen ++
        (emitInteger h.addrLen ++ (h.cksum ++ rest)))), t, 0⟩, c⟩) := by
  unfold fromDelind decDelind
  simp only [Routine.bind_apply, fieldCase_byte, toNat_ofNat hf.delInd, Outcome.andThen_ok, onCore,
    Routine.zoom_apply, hasBits_invalid hf.delInd, Bool.false_eq_true, if_false]
  by_cases hsec : h.delInd ≠ 0 ∧ c.secType.isNone = true
  · rw [if_pos hsec]
    refine .inr ⟨fun hs => ?_, _, _, rfl, rfl⟩
    have := hs hsec.1
    rw [Option.isNone_iff_eq_none.mp hsec.2] at this
    cases this
  · rw [if_neg hsec]
    refine .inl ⟨fun hne => ?_, ?_⟩
    · rw [Option.isSome_iff_ne_none]
      exact fun hn => hsec ⟨hne, by rw [hn]; rfl⟩
    · exact fromDatalen_decodes h hf (c := { c with decState := .datalen, decDelInd := h.delInd })
        hind hbuf hlen htgt rest _

private theorem fromEnclen_decodes (h : WinHdr) (hf : h.Fits) {c : Core σ}
    (hind : c.win.decWinInd = h.winInd) (hbuf : c.decCksum = [])
    (hcpy : c.win.decCpylen < usize.modulus) (rest : List UInt8) (t : ℕ) :
    Reports (c.win.decCpylen + h.tgtLen < usize.modulus ∧ h.tgtLen ≤ hardMaxWinsize ∧
        (h.delInd ≠ 0 → c.secType.isSome = true))
      { c with
        decState := .data
        decEnclen := h.encLen
        decDelInd := h.delInd
        decCksum := h.cksum
        win := { c.win with
          decTgtlen := h.tgtLen
          decMaxpos := c.win.decCpylen + h.tgtLen
          decAdler32 := h.adler32.getD c.win.decAdler32
          dataSect := { c.win.dataSect with size := h.dataLen }
          instSect := { c.win.instSect with size := h.instLen }
          addrSect := { c.win.addrSect with size := h.addrLen } } } rest
      (fromEnclen ⟨⟨emitInteger h.encLen ++ (emitInteger h.tgtLen ++ (UInt8.ofNat h.delInd ::
        (emitInteger h.dataLen ++ (emitInteger h.instLen ++ (emitInteger h.addrLen ++
          (h.cksum ++ rest)))))), t, 0⟩, c⟩) := by
  unfold fromEnclen decEnclen fromTgtlen decTgtlen
  simp only [Routine.bind_apply, fieldCase_integer, h.encLen_lt, hf.tgtLen, Outcome.andThen_ok,
    onCore, onWindow, Routine.zoom_apply]
  by_cases hov : usize.overflow c.win.decCpylen h.tgtLen = true
  · rw [if_pos hov]
    rw [usize.overflow_iff hcpy] at hov
    exact .inr ⟨fun hp => absurd hp.1 (Nat.not_lt.mpr hov), _, _, rfl, rfl⟩
  · rw [if_neg hov]
    rw [usize.overflow_iff hcpy, Nat.not_le] at hov
    by_cases hmax : hardMaxWinsize < h.tgtLen
    · rw [if_pos hmax]
      exact .inr ⟨fun hp => absurd hp.2.1 (Nat.not_le.mpr hmax), _, _, rfl, rfl⟩
    · rw [if_neg hmax, usize.add_eq hov]
      refine (fromDelind_decodes h hf (c := { c with
        decState := .delind
        decEnclen := h.encLen
        win := { c.win with
          decTgtlen := h.tgtLen
          decMaxpos := c.win.decCpylen + h.tgtLen } }) hind hbuf rfl rfl rest _).of_iff ?_
      exact ⟨fun hs => ⟨hov, Nat.le_of_not_lt hmax, hs⟩, fun hp => hp.2.2⟩

def located (h : WinHdr) (c : Core σ) : Core σ :=
  { c with
    decState := .enclen
    win := { c.win with decCpylen := h.srclen, decCpyoff := h.srcbase, decPosition := h.srclen } }

/-- The length and the offset of the copy window are read, and the offset is checked. -/
private theorem fromCpylen_located (h : WinHdr) (hf : h.Fits) {c : Core σ}
    (hind : c.win.decWinInd = h.winInd) (hlen : c.win.decCpylen = 0) (hoff : c.win.decCpyoff = 0)
    (rest : List UInt8) (t : ℕ) :
    ∃ t', fromCpylen ⟨⟨h.sourceBytes ++ rest, t, 0⟩, c⟩ =
      (if xoff.overflow h.srcbase h.srclen then
        fail .invalidInput "decoder copy window overflows a file offset"
      else fromEnclen) ⟨⟨rest, t', 0⟩, h.located c⟩ := by
  have hcopy : hasCopyWindow c = h.source.isSome := by
    rw [hasCopyWindow, hind, srcortgt_winInd]
  have htarget : hasBits c.win.decWinInd vcdTarget = false := by
    rw [hind, hasBits_winInd_target]
  have hcheck : ∀ t', ((onCore fun c : Core σ =>
      if xoff.overflow c.win.decCpyoff c.win.decCpylen then
        fail .invalidInput "decoder copy window overflows a file offset" c
      else if hasBits c.win.decWinInd vcdTarget ∧
          c.decWinstart < xoff.add c.win.decCpyoff c.win.decCpylen then
        fail .invalidInput "VCD_TARGET window out of bounds" c
      else .ok () c) ⟨⟨rest, t', 0⟩, h.located c⟩).andThen (fun _ => fromEnclen) =
        (if xoff.overflow h.srcbase h.srclen then
          fail .invalidInput "decoder copy window overflows a file offset"
        else fromEnclen) ⟨⟨rest, t', 0⟩, h.located c⟩ := by
    intro t'
    rw [onCore, Routine.zoom_apply]
    unfold located
    simp only [htarget, Bool.false_eq_true, false_and, if_false]
    split <;> rfl
  unfold fromCpylen decCpylen fromCpyoff decCpyoff sourceBytes
  cases hs : h.source with
  | none =>
    rw [hs, Option.isSome_none] at hcopy
    have hzero : h.srclen = 0 ∧ h.srcbase = 0 := by
      unfold srclen srcbase
      rw [hs]
      exact ⟨rfl, rfl⟩
    refine ⟨t, ?_⟩
    rw [← hcheck t]
    have hcopy' : hasCopyWindow ({ c with
        decState := .cpyoff
        win := { c.win with decPosition := c.win.decCpylen } } : Core σ) = false := hcopy
    simp only [Routine.bind_apply, fieldCase_neg (s := ⟨⟨rest, t, 0⟩, c⟩) hcopy, Outcome.andThen_ok,
      onCore, onWindow, Routine.zoom_apply, Routine.modify_apply, Outcome.mapState_ok,
      List.nil_append, fieldCase_neg (s := ⟨⟨rest, t, 0⟩, _⟩) hcopy']
    unfold located
    rw [hzero.1, hzero.2, hlen, hoff]
  | some p =>
    obtain ⟨len, base⟩ := p
    rw [hs, Option.isSome_some] at hcopy
    obtain ⟨hl, hb⟩ := hf.source _ hs
    have hfields : h.srclen = len ∧ h.srcbase = base := by
      unfold srclen srcbase
      rw [hs]
      exact ⟨rfl, rfl⟩
    have hcopy' : hasCopyWindow ({ c with
        decState := .cpyoff
        win := { c.win with decCpylen := len, decPosition := len } } : Core σ) = true := hcopy
    refine ⟨t + (emitInteger len).length + (emitInteger base).length, ?_⟩
    rw [← hcheck]
    simp only [Routine.bind_apply, List.append_assoc, fieldCase_integer hcopy hl,
      Outcome.andThen_ok, onCore, onWindow, Routine.zoom_apply, Routine.modify_apply,
      Outcome.mapState_ok, fieldCase_integer hcopy' hb]
    unfold located
    rw [hfields.1, hfields.2]

/-- The window header is read back, and reported if the decoder's checks accept it. -/
theorem decodes (h : WinHdr) (hf : h.Fits) (c : Core σ) (rest : List UInt8) (t : ℕ) :
    Reports (h.Accepted c) (h.decoded c) rest (fromWinind ⟨⟨h.bytes ++ rest, t, 0⟩, c⟩) := by
  have hbytes : h.bytes ++ rest = UInt8.ofNat h.winInd :: (h.sourceBytes ++
      (emitInteger h.encLen ++ (emitInteger h.tgtLen ++ (UInt8.ofNat h.delInd ::
      (emitInteger h.dataLen ++ (emitInteger h.instLen ++ (emitInteger h.addrLen ++
      (h.cksum ++ rest)))))))) := by
    unfold bytes
    simp only [List.cons_append, List.append_assoc]
  have hbyte : decodeByte ⟨UInt8.ofNat h.winInd :: (h.sourceBytes ++
      (emitInteger h.encLen ++ (emitInteger h.tgtLen ++ (UInt8.ofNat h.delInd ::
      (emitInteger h.dataLen ++ (emitInteger h.instLen ++ (emitInteger h.addrLen ++
      (h.cksum ++ rest)))))))), t, 0⟩ = .ok h.winInd ⟨h.sourceBytes ++
      (emitInteger h.encLen ++ (emitInteger h.tgtLen ++ (UInt8.ofNat h.delInd ::
      (emitInteger h.dataLen ++ (emitInteger h.instLen ++ (emitInteger h.addrLen ++
      (h.cksum ++ rest))))))), t + 1, 0⟩ := by
    unfold decodeByte
    dsimp only
    rw [toNat_ofNat h.winInd_lt]
  rw [hbytes]
  unfold fromWinind decWinind
  rw [Routine.bind_apply, Routine.bind_apply, onInput, Routine.zoom_apply, hbyte,
    Outcome.mapState_ok, Outcome.andThen_ok, onCore, Routine.zoom_apply]
  dsimp only
  by_cases hwin : xoff.overflow c.decWinstart c.win.decTgtlen = true
  · rw [if_pos hwin]
    exact .inr ⟨fun ha => absurd (ha.winstart.symm.trans hwin) (by decide), _, _, rfl, rfl⟩
  · rw [if_neg hwin, hasBits_invalid h.winInd_lt, if_neg (by decide), Outcome.mapState_ok,
      Outcome.andThen_ok]
    obtain ⟨t', hcpy⟩ := fromCpylen_located h hf (c := { decodeInitWindow { c with
      win := { c.win with decWinInd := h.winInd }
      currentWindow := c.decWindowCount
      decWinstart := xoff.add c.decWinstart c.win.decTgtlen } with decState := .cpylen })
      rfl rfl rfl (emitInteger h.encLen ++ (emitInteger h.tgtLen ++ (UInt8.ofNat h.delInd ::
      (emitInteger h.dataLen ++ (emitInteger h.instLen ++ (emitInteger h.addrLen ++
      (h.cksum ++ rest))))))) (t + 1)
    rw [hcpy]
    have hbase : h.srcbase < xoff.modulus := by
      unfold srcbase
      cases hs : h.source with
      | none => exact xoff.modulus_pos
      | some p => exact (hf.source p hs).2
    have hlen : h.srclen < usize.modulus := by
      unfold srclen
      cases hs : h.source with
      | none => exact usize.modulus_pos
      | some p => exact (hf.source p hs).1
    by_cases hov : xoff.overflow h.srcbase h.srclen = true
    · rw [if_pos hov]
      rw [xoff.overflow_iff hbase] at hov
      exact .inr ⟨fun ha => absurd ha.copy (Nat.not_lt.mpr hov), _, _, rfl, rfl⟩
    · rw [if_neg hov]
      rw [xoff.overflow_iff hbase, Nat.not_le] at hov
      refine (fromEnclen_decodes h hf (by rfl) (by rfl) hlen rest t').of_iff ?_
      rw [Bool.not_eq_true] at hwin
      exact ⟨fun hp => ⟨hwin, hov, hp.1, hp.2.1, hp.2.2⟩,
        fun ha => ⟨ha.target, ha.hard, ha.secondary⟩⟩

end WinHdr

namespace FileHdr
variable {σ : Type}

/-- The size of the application header is a value of its type, and below its maximum. -/
def Fits (h : FileHdr) : Prop := ∀ app, h.appheader = some app → app.length + 1 < usize.modulus

def decoded (h : FileHdr) (env : Env σ) (c : Core σ) (hdrsize : ℕ) : Core σ :=
  { c with
    decState := .winind
    decMagic := [0xd6, 0xc3, 0xc4, 0x00]
    decHdrInd := h.hdrInd
    decSecondid := match h.secId with
      | some id => id.toByte.toNat
      | none => c.decSecondid
    secType := match h.secId with
      | some id => env.secondary id
      | none => c.secType
    decAppheadsz := match h.appheader with
      | some app => app.length
      | none => c.decAppheadsz
    decAppheader := h.appheader.getD []
    decHdrsize := hdrsize
    win := { c.win with acache := { c.win.acache with sNear := 4, sSame := 3 } } }

private theorem hdrInd_bits : ∀ a b : Bool,
    ((if a then vcdSecondary else 0) ||| (if b then vcdAppheader else 0)) < 8 ∧
      hasBits ((if a then vcdSecondary else 0) ||| (if b then vcdAppheader else 0)) vcdSecondary = a ∧
      hasBits ((if a then vcdSecondary else 0) ||| (if b then vcdAppheader else 0)) vcdCodetable =
        false ∧
      hasBits ((if a then vcdSecondary else 0) ||| (if b then vcdAppheader else 0)) vcdAppheader = b := by
  decide

theorem ofByte_toByte (id : SecId) : SecId.ofByte id.toByte.toNat = some id := by
  cases id <;> rfl

theorem decVchead_magic {c : Core σ} (hmagic : c.decMagic = []) (rest : List UInt8) (t : ℕ) :
    decVchead ⟨⟨[0xd6, 0xc3, 0xc4, 0x00] ++ rest, t, 0⟩, c⟩ = .ok () ⟨⟨rest, t + 4, 0⟩, { c with
      decState := .hdrind
      decMagic := [0xd6, 0xc3, 0xc4, 0x00] }⟩ := by
  have hbytes : decodeBytes (·.decMagic) (fun c b => { c with decMagic := b }) (fun _ => 4)
      ⟨⟨[0xd6, 0xc3, 0xc4, 0x00] ++ rest, t, 0⟩, c⟩ =
        .ok () ⟨⟨rest, t + 4, 0⟩, { c with decMagic := [0xd6, 0xc3, 0xc4, 0x00] }⟩ :=
    decodeBytes_full hmagic _ _ rfl t 0
  unfold decVchead
  rw [Routine.bind_apply, hbytes, Outcome.andThen_ok, onCore, Routine.zoom_apply]
  dsimp only
  rw [if_neg (by decide), if_neg (by decide), Outcome.mapState_ok]

private theorem fromVchead_decodes (h : FileHdr) (env : Env σ) {c : Core σ} (hmagic : c.decMagic = [])
    (rest : List UInt8) (t : ℕ) :
    fromVchead env ⟨⟨[0xd6, 0xc3, 0xc4, 0x00] ++ UInt8.ofNat h.hdrInd :: rest, t, 0⟩, c⟩ =
      fromSecondid env ⟨⟨rest, t + 4 + 1, 0⟩, { c with
        decState := .secondid
        decMagic := [0xd6, 0xc3, 0xc4, 0x00]
        decHdrInd := h.hdrInd }⟩ := by
  have hlt : h.hdrInd < 8 := (hdrInd_bits _ _).1
  have hbyte : decodeByte ⟨UInt8.ofNat h.hdrInd :: rest, t + 4, 0⟩ =
      .ok h.hdrInd ⟨rest, t + 4 + 1, 0⟩ := by
    unfold decodeByte
    dsimp only
    rw [WinHdr.toNat_ofNat hlt]
  unfold fromVchead fromHdrind decHdrind
  rw [Routine.bind_apply, decVchead_magic hmagic, Outcome.andThen_ok, Routine.bind_apply,
    Routine.bind_apply, onInput, Routine.zoom_apply, hbyte, Outcome.mapState_ok,
    Outcome.andThen_ok, onCore, Routine.zoom_apply, WinHdr.hasBits_invalid hlt,
    if_neg Bool.false_ne_true, Outcome.mapState_ok, Outcome.andThen_ok]

private theorem fromTablen_skips {c : Core σ} (h : hasCodetable c = false) (i : Input) :
    fromTablen ⟨i, c⟩ = fromApplen ⟨i, { c with
      decState := .applen
      win := { c.win with acache := { c.win.acache with sNear := 4, sSame := 3 } } }⟩ := by
  have hskip : ∀ {read : Routine Input Stop ℕ} {put : Core σ → ℕ → Core σ} {nstate k : DecState},
      fieldCase read hasCodetable put nstate ⟨i, { c with decState := k }⟩ =
        .ok () ⟨i, { c with decState := nstate }⟩ :=
    fieldCase_neg (s := ⟨i, { c with decState := _ }⟩) h
  have hcode : ∀ k, hasCodetable ({ c with decState := k } : Core σ) = false := fun _ => h
  have htablen : decTablen ⟨i, c⟩ = .ok () ⟨i, { c with decState := .near }⟩ := by
    unfold decTablen
    rw [Routine.bind_apply, fieldCase_neg (s := ⟨i, c⟩) h, Outcome.andThen_ok, onCore,
      Routine.zoom_apply, hcode]
    rfl
  unfold fromTablen fromNear fromSame fromTabdat
  rw [Routine.bind_apply, htablen, Outcome.andThen_ok, Routine.bind_apply, decNear, hskip,
    Outcome.andThen_ok, Routine.bind_apply, decSame, hskip, Outcome.andThen_ok, Routine.bind_apply,
    decTabdat, onCore, Routine.zoom_apply, hcode, if_neg Bool.false_ne_true, Outcome.mapState_ok,
    Outcome.andThen_ok]
  rfl

/-- The identifier of the secondary compressor, which must be built in. -/
private theorem fromSecondid_decodes (h : FileHdr) (env : Env σ) {c : Core σ}
    (hind : c.decHdrInd = h.hdrInd) (t : ℕ)
    (havail : ∀ id, h.secId = some id → (env.secondary id).isSome = true) :
    ∃ t', ∀ rest, fromSecondid env ⟨⟨h.secondBytes ++ rest, t, 0⟩, c⟩ = fromApplen ⟨⟨rest, t', 0⟩, { c with
      decState := .applen
      decSecondid := match h.secId with
        | some id => id.toByte.toNat
        | none => c.decSecondid
      secType := match h.secId with
        | some id => env.secondary id
        | none => c.secType
      win := { c.win with acache := { c.win.acache with sNear := 4, sSame := 3 } } }⟩ := by
  have hbit : hasBits c.decHdrInd vcdSecondary = h.secId.isSome := by
    rw [hind]
    exact (hdrInd_bits _ _).2.1
  have hcode : hasCodetable c = false := by
    rw [hasCodetable, hind]
    exact (hdrInd_bits h.secId.isSome h.appheader.isSome).2.2.1
  unfold fromSecondid decSecondid secondBytes
  cases hs : h.secId with
  | none =>
    refine ⟨t, fun rest => ?_⟩
    rw [Routine.bind_apply]
    dsimp only
    rw [hbit, hs, Option.isSome_none, if_neg Bool.false_ne_true, Outcome.andThen_ok]
    exact fromTablen_skips hcode _
  | some id =>
    obtain ⟨st, hst⟩ := Option.isSome_iff_exists.mp (havail id hs)
    refine ⟨t + 1, fun rest => ?_⟩
    rw [Routine.bind_apply]
    dsimp only
    rw [hbit, hs, Option.isSome_some, if_pos rfl, List.singleton_append, fieldCase_byte rfl,
      Outcome.andThen_ok, onCore, Routine.zoom_apply, selectSecondary]
    dsimp only
    rw [ofByte_toByte]
    dsimp only
    rw [hst, Outcome.mapState_ok, Outcome.andThen_ok]
    exact fromTablen_skips (c := { c with
      decState := .tablen
      decSecondid := id.toByte.toNat
      secType := some st }) hcode _

private theorem fromSecondid_refuses (h : FileHdr) (env : Env σ) {c : Core σ}
    (hind : c.decHdrInd = h.hdrInd) (rest : List UInt8) (t : ℕ) {id : SecId}
    (hs : h.secId = some id) (hnone : env.secondary id = none) :
    ∃ e s, fromSecondid env ⟨⟨h.secondBytes ++ rest, t, 0⟩, c⟩ = .stop e s ∧
      e.ret.ordinary = false := by
  have hbit : hasBits c.decHdrInd vcdSecondary = true := by
    rw [hind]
    refine ((hdrInd_bits _ _).2.1).trans ?_
    rw [hs]
    rfl
  unfold fromSecondid decSecondid secondBytes
  rw [Routine.bind_apply, hs]
  dsimp only
  rw [hbit, if_pos rfl, List.singleton_append, fieldCase_byte rfl, Outcome.andThen_ok, onCore,
    Routine.zoom_apply, selectSecondary]
  dsimp only
  rw [ofByte_toByte]
  dsimp only
  rw [hnone]
  exact ⟨_, _, rfl, rfl⟩

private theorem fromApplen_decodes (h : FileHdr) (hf : h.Fits) {c : Core σ}
    (hind : c.decHdrInd = h.hdrInd) (hbuf : c.decAppheader = []) (t : ℕ) :
    ∃ t', ∀ rest, fromApplen ⟨⟨h.appBytes ++ rest, t, 0⟩, c⟩ = fromWinind ⟨⟨rest, t', 0⟩, { c with
      decState := .winind
      decAppheadsz := match h.appheader with
        | some app => app.length
        | none => c.decAppheadsz
      decAppheader := h.appheader.getD []
      decHdrsize := t' }⟩ := by
  have hbit : hasAppheader c = h.appheader.isSome := by
    rw [hasAppheader, hind]
    exact (hdrInd_bits _ _).2.2.2
  unfold fromApplen decApplen fromAppdat decAppdat appBytes
  cases ha : h.appheader with
  | none =>
    rw [ha, Option.isSome_none] at hbit
    have hbit' : hasAppheader ({ c with decState := .appdat } : Core σ) = false := hbit
    refine ⟨t, fun rest => ?_⟩
    rw [Routine.bind_apply, fieldCase_neg (s := ⟨⟨[] ++ rest, t, 0⟩, c⟩) hbit, Outcome.andThen_ok, Routine.bind_apply]
    dsimp only
    rw [hbit']
    cases c
    cases hbuf
    rfl
  | some app =>
    rw [ha, Option.isSome_some] at hbit
    have hlen := hf app ha
    have hbit' : hasAppheader ({ c with
      decState := .appdat
      decAppheadsz := app.length } : Core σ) = true := hbit
    have hov : usize.overflow app.length 1 = false := by
      rw [← Bool.not_eq_true, usize.overflow_iff (by omega)]
      omega
    refine ⟨t + (emitInteger app.length).length + app.length, fun rest => ?_⟩
    rw [Routine.bind_apply, List.append_assoc, fieldCase_integer hbit (by omega), Outcome.andThen_ok,
      Routine.bind_apply]
    dsimp only
    rw [hbit', if_pos rfl, hov, if_neg (by decide), decodeBytes_full (by exact hbuf) app rest rfl]
    rfl

/-- The bytes of the file header take the decoder to the first window, if the secondary
compressor they name is built in; else it refuses them. -/
theorem decodes (h : FileHdr) (hf : h.Fits) (env : Env σ) {c : Core σ} (hmagic : c.decMagic = [])
    (hbuf : c.decAppheader = []) (t : ℕ) :
    (∃ t', ∀ rest, fromVchead env ⟨⟨h.bytes ++ rest, t, 0⟩, c⟩ =
      fromWinind ⟨⟨rest, t', 0⟩, h.decoded env c t'⟩) ∧
        (∀ id, h.secId = some id → (env.secondary id).isSome = true) ∨
    (∀ rest, ∃ e s, fromVchead env ⟨⟨h.bytes ++ rest, t, 0⟩, c⟩ = .stop e s ∧
      e.ret.ordinary = false) ∧ ∃ id, h.secId = some id ∧ env.secondary id = none := by
  have hbytes : ∀ rest, h.bytes ++ rest = [0xd6, 0xc3, 0xc4, 0x00] ++ UInt8.ofNat h.hdrInd ::
      (h.secondBytes ++ (h.appBytes ++ rest)) := by
    intro rest
    unfold bytes
    simp only [List.cons_append, List.append_assoc, List.nil_append]
  by_cases havail : ∀ id, h.secId = some id → (env.secondary id).isSome = true
  · obtain ⟨t1, hsec⟩ := fromSecondid_decodes h env (c := { c with
      decState := .secondid
      decMagic := [0xd6, 0xc3, 0xc4, 0x00]
      decHdrInd := h.hdrInd }) rfl (t + 4 + 1) havail
    obtain ⟨t2, happ⟩ := fromApplen_decodes h hf (c := { c with
      decState := .applen
      decMagic := [0xd6, 0xc3, 0xc4, 0x00]
      decHdrInd := h.hdrInd
      decSecondid := match h.secId with
        | some id => id.toByte.toNat
        | none => c.decSecondid
      secType := match h.secId with
        | some id => env.secondary id
        | none => c.secType
      win := { c.win with acache := { c.win.acache with sNear := 4, sSame := 3 } } })
      rfl hbuf t1
    refine .inl ⟨⟨t2, fun rest => ?_⟩, havail⟩
    rw [hbytes, fromVchead_decodes h env hmagic, hsec]
    exact happ rest
  · simp only [not_forall] at havail
    obtain ⟨id, hs, hnone⟩ := havail
    rw [Option.not_isSome_iff_eq_none] at hnone
    refine .inr ⟨fun rest => ?_, id, hs, hnone⟩
    rw [hbytes, fromVchead_decodes h env hmagic]
    exact fromSecondid_refuses h env rfl _ _ hs hnone

/-- A file header that names a compressor that is not built in is refused at that byte;
before it, the decoder waits. -/
theorem refuses (h : FileHdr) (env : Env σ) {c : Core σ} (hmagic : c.decMagic = []) {id : SecId}
    (hs : h.secId = some id) (hnone : env.secondary id = none) {p z : List UInt8}
    (hp : p ++ z = h.bytes) (hlen : 4 ≤ p.length) (t : ℕ) :
    (fromVchead env ⟨⟨p, t, 0⟩, c⟩).Goes (fun _ _ => False) (fun s => s.core.decState.rank ≤ 2)
      fun e _ => e.ret.ordinary = false := by
  have hbytes : h.bytes = [0xd6, 0xc3, 0xc4, 0x00] ++
      (UInt8.ofNat h.hdrInd :: (h.secondBytes ++ h.appBytes)) := by
    unfold bytes
    simp only [List.cons_append, List.nil_append]
  obtain ⟨r, rfl, hr⟩ : ∃ r, p = [0xd6, 0xc3, 0xc4, 0x00] ++ r ∧
      r ++ z = UInt8.ofNat h.hdrInd :: (h.secondBytes ++ h.appBytes) := by
    rcases List.append_eq_append_iff.mp (hp.trans hbytes) with ⟨a, ha, hz⟩ | ⟨r, hr, hz⟩
    · have hnil : a = [] := by
        have := congrArg List.length ha
        rw [List.length_append] at this
        exact List.length_eq_zero_iff.mp (by simp only [List.length_cons, List.length_nil] at this; omega)
      subst hnil
      exact ⟨[], by rw [List.append_nil, ha, List.append_nil], hz⟩
    · exact ⟨r, hr, hz.symm⟩
  have hbit : hasBits h.hdrInd vcdSecondary = true := by
    refine ((hdrInd_bits _ _).2.1).trans ?_
    rw [hs]
    rfl
  have hsecond : h.secondBytes = [id.toByte] := by
    unfold secondBytes
    rw [hs]
  rcases r with _ | ⟨b, r⟩
  · unfold fromVchead
    rw [Routine.bind_apply, decVchead_magic hmagic, Outcome.andThen_ok]
    exact (by decide : DecState.rank .hdrind ≤ 2)
  · obtain ⟨rfl, htail⟩ := List.cons.inj hr
    rw [fromVchead_decodes h env hmagic]
    rcases r with _ | ⟨b, r⟩
    · unfold fromSecondid decSecondid
      rw [Routine.bind_apply]
      dsimp only
      rw [if_pos hbit, fieldCase_pos rfl]
      exact (by decide : DecState.rank .secondid ≤ 2)
    · rw [hsecond] at htail
      obtain ⟨rfl, -⟩ := List.cons.inj htail
      obtain ⟨e, s', hstop, he⟩ := fromSecondid_refuses h env (c := { c with
        decState := .secondid
        decMagic := [0xd6, 0xc3, 0xc4, 0x00]
        decHdrInd := h.hdrInd }) rfl r (t + 4 + 1) hs hnone
      rw [hsecond, List.singleton_append] at hstop
      rw [hstop]
      exact he

end FileHdr

end Xdelta
