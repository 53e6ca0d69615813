import Xdelta.Djw.Decoder

/-!
# The Huffman decoder

The whole of the secondary decoder over its input bytes: the code lengths are
themselves coded, with move-to-front and run codes, and so are the selectors that
give each sector of the output one of several groups of tables.
-/
namespace Xdelta.Djw
open Second

def alphabetSize : ℕ := 256

/-- `DJW_MAX_GROUPS`. -/
def maxGroups : ℕ := 8

/-- `DJW_MAX_CLCLEN`. -/
def maxClclen : ℕ := 15

/-- `DJW_MAX_GBCLEN`. -/
def maxGbclen : ℕ := 7

/-- The loop of `djw_update_mtf`, for `k` down to one. -/
def mtfLoop : ℕ → Table ℕ → Attempt (Table ℕ)
  | 0, mtf => .done mtf
  | k + 1, mtf => (mtf.read k).andThen fun v => (mtf.write (k + 1) v).andThen (mtfLoop k)

def updateMtf (mtf : Table ℕ) (i : ℕ) : Attempt (ℕ × Table ℕ) :=
  (mtf.read i).andThen fun sym =>
    (mtfLoop i mtf).andThen fun mtf => (mtf.write 0 sym).andThen fun mtf => .done (sym, mtf)

def fill : List ℕ → ℕ → Table ℕ → Attempt (Table ℕ)
  | [], _, t => .done t
  | v :: vs, i, t => (t.write i v).andThen (fill vs (i + 1))

def encode12basic : List ℕ := [4, 5, 6, 7, 8]

def encode12extra : List ℕ := [9, 10, 3, 11, 2, 12, 13, 1, 14, 15, 16, 17, 18, 19, 20]

def initClenMtf (mtf : Table ℕ) : Attempt (Table ℕ) :=
  fill (0 :: encode12basic ++ encode12extra) 0 mtf

/-- The variables of `djw_decode_1_2`. -/
structure Unrun where
  n : ℕ
  rep : ℕ
  mtf : ℕ
  s : ℕ
  mtfvals : Table ℕ
  values : Table ℕ
  reader : BitReader

def Unrun.emit (u : Unrun) (v : ℕ) : Attempt Unrun :=
  (u.values.write u.n v).andThen fun values => .done { u with n := u.n + 1, values := values }

def Unrun.skips (u : Unrun) (skipOffset : ℕ) : Attempt Bool :=
  if skipOffset ≠ 0 ∧ skipOffset ≤ u.n then
    (u.values.read (u.n - skipOffset)).andThen fun v => .done (v = 0)
  else .done false

/-- The next symbol or run code; a shift by the width of the type or more is a fault. -/
def Unrun.next (d : Decoder) (u : Unrun) : Attempt Unrun :=
  (decodeSymbol d totalCodes u.reader).andThen fun p =>
    if p.1 ≤ 1 then
      .require (u.s < usize.bits)
        (.done { u with
          rep := ((p.1 + 1) <<< u.s) % usize.modulus, mtf := 0, s := u.s + 1, reader := p.2 })
    else .done { u with mtf := p.1 - 1, s := 0, reader := p.2 }

/-- One round of `djw_decode_1_2`. -/
def Unrun.step (d : Decoder) (skipOffset : ℕ) (u : Unrun) : Attempt Unrun :=
  (u.skips skipOffset).andThen fun skip =>
    if skip then u.emit 0
    else if u.rep ≠ 0 then
      (u.mtfvals.read 0).andThen fun v =>
        (u.emit v).andThen fun u => .done { u with rep := u.rep - 1 }
    else if u.mtf ≠ 0 then
      (updateMtf u.mtfvals u.mtf).andThen fun p =>
        ({ u with mtfvals := p.2 }.emit p.1).andThen fun u => .done { u with mtf := 0 }
    else u.next d

def Unrun.loop (d : Decoder) (elts skipOffset : ℕ) : ℕ → Unrun → Attempt Unrun
  | 0, _ => .fault
  | fuel + 1, u =>
    if u.n < elts then (u.step d skipOffset).andThen (loop d elts skipOffset fuel) else .done u

/-- `djw_decode_1_2`; every value takes at most two rounds. -/
def decode12 (d : Decoder) (mtfvals : Table ℕ) (elts skipOffset : ℕ) (values : Table ℕ)
    (r : BitReader) : Attempt (Table ℕ × BitReader) :=
  (Unrun.loop d elts skipOffset (2 * elts + 2) ⟨0, 0, 0, 0, mtfvals, values, r⟩).andThen fun u =>
    if u.rep ≠ 0 then .fail else .done (u.values, u.reader)

def decodeNumbers (nbits : ℕ) : ℕ → ℕ → Table ℕ → BitReader → Attempt (Table ℕ × BitReader)
  | 0, _, t, r => .done (t, r)
  | n + 1, i, t, r =>
    (decodeBits nbits r).andThen fun p =>
      (t.write i p.1).andThen fun t => decodeNumbers nbits n (i + 1) t p.2

/-- `djw_decode_clclen`: the decoder of the code lengths, and the move-to-front state. -/
def decodeClclen (r : BitReader) : Attempt (Decoder × Table ℕ × BitReader) :=
  (decodeBits 4 r).andThen fun p =>
    let numCodes := p.1 + 7
    (decodeNumbers 4 numCodes 0 (Table.blank totalCodes) p.2).andThen fun q =>
      (fill (List.replicate (totalCodes - numCodes) 0) numCodes q.1).andThen fun clClen =>
        (clClen.slice 0 totalCodes).andThen fun clen =>
          (buildDecoder maxClclen clen (Table.blank totalCodes) (Table.blank (maxClclen + 2))
            (Table.blank (maxClclen + 2))).andThen fun d =>
              (initClenMtf (Table.blank totalCodes)).andThen fun mtf => .done (d, mtf, q.2)

def buildGroups (clen : Table ℕ) : ℕ → ℕ → Table Decoder → Attempt (Table Decoder)
  | 0, _, tables => .done tables
  | n + 1, gp, tables =>
    (clen.slice (gp * alphabetSize) alphabetSize).andThen fun lengths =>
      (buildDecoder maxCodelen lengths (Table.blank alphabetSize) (Table.blank totalCodes)
        (Table.blank totalCodes)).andThen fun d =>
          (tables.write gp d).andThen (buildGroups clen n (gp + 1))

def decodeSelectors (groups sectors : ℕ) (r : BitReader) : Attempt (Table ℕ × BitReader) :=
  (decodeNumbers 3 (groups + 1) 0 (Table.blank (maxGroups + 1)) r).andThen fun p =>
    (fill (List.range (groups + 1)) 0 (Table.blank (maxGroups + 2))).andThen fun selMtf =>
      (p.1.slice 0 (groups + 1)).andThen fun clen =>
        (buildDecoder maxGbclen clen (Table.blank (maxGroups + 2)) (Table.blank (maxGbclen + 2))
          (Table.blank (maxGbclen + 2))).andThen fun d =>
            decode12 d selMtf sectors 0 (Table.blank sectors) p.2

structure Output where
  bytes : Table ℕ
  pos : ℕ
  reader : BitReader

/-- The `do` loop of a sector; from zero, `--n` would wrap round. -/
def decodeSector (d : Decoder) : ℕ → Output → Attempt Output
  | 0, _ => .fault
  | n + 1, o =>
    (decodeSymbol d alphabetSize o.reader).andThen fun p =>
      (o.bytes.write o.pos (p.1 % 256)).andThen fun bytes =>
        let o := ⟨bytes, o.pos + 1, p.2⟩
        if n = 0 then .done o else decodeSector d n o

/-- The loop over the sectors from `c` on; nothing is written to a sector past the end. -/
def decodeSectors (tables : Table Decoder) (selGroup : Table ℕ)
    (groups sectorSize outputBytes : ℕ) : ℕ → ℕ → Output → Attempt Output
  | 0, _, o => .done o
  | n + 1, c, o =>
    (if 2 ≤ groups then
      (selGroup.read c).andThen fun gp => .require (gp < groups) (tables.read gp)
    else tables.read 0).andThen fun d =>
      if outputBytes < o.pos then .fail
      else (decodeSector d (min sectorSize (outputBytes - o.pos)) o).andThen
        (decodeSectors tables selGroup groups sectorSize outputBytes n (c + 1))

/-- `xd3_decode_huff`: the output, and the input that is left. -/
def decodeHuff (input : List UInt8) (outputBytes : ℕ) : Attempt Output :=
  if outputBytes = 0 then .fail
  else
    (decodeBits 3 ⟨.decodeInit, input⟩).andThen fun g =>
      let groups := g.1 + 1
      (if 1 < groups then
        (decodeBits 5 g.2).andThen fun p => .done ((p.1 + 1) * 5, p.2)
      else .done (outputBytes, g.2)).andThen fun z =>
        let sectorSize := z.1
        let sectors := 1 + (outputBytes - 1) / sectorSize
        (decodeClclen z.2).andThen fun cl =>
          (decode12 cl.1 cl.2.1 (alphabetSize * groups) alphabetSize
            (Table.blank (maxGroups * alphabetSize)) cl.2.2).andThen fun p =>
              (buildGroups p.1 groups 0 (Table.blank maxGroups)).andThen fun tables =>
                (if 1 < groups then decodeSelectors groups sectors p.2
                else .done ([], p.2)).andThen fun sel =>
                  decodeSectors tables sel.1 groups sectorSize outputBytes sectors 0
                    ⟨Table.blank outputBytes, 0, sel.2⟩

end Xdelta.Djw
