import Xdelta.Djw.Decoder
import Mathlib.Algebra.Order.BigOperators.Group.List
import Mathlib.Algebra.Order.Ring.Nat

/-!
# The two derivations of the canonical codes

For a complete vector of code lengths the codes of the encoder, as they are
packed into bytes, are those the decoder's tables take apart.
-/
namespace Xdelta.Djw
open Second

/-- A vector of code lengths that satisfies the Kraft equality. Symbols are bytes, and the lengths
fit the arrays of `djw_build_decoder`. -/
structure CodeLengths where
  clen : List ℕ
  absMax : ℕ
  absMax_le : absMax ≤ maxCodelen
  le_absMax : ∀ c ∈ clen, c ≤ absMax
  length_le : clen.length ≤ 256
  kraft : (clen.map fun c => if c = 0 then 0 else 2 ^ (absMax - c)).sum = 2 ^ absMax

namespace CodeLengths
variable (v : CodeLengths)

/-- A vector without codes does not satisfy the equality. -/
theorem used : ∃ c ∈ v.clen, c ≠ 0 := by
  by_contra hnone
  have hzero : ∀ c ∈ v.clen, c = 0 := fun c hc => by_contra fun hne => hnone ⟨c, hc, hne⟩
  have hsum : (v.clen.map fun c => if c = 0 then 0 else 2 ^ (v.absMax - c)).sum = 0 := by
    rw [List.sum_eq_zero_iff]
    intro x hx
    obtain ⟨c, hc, rfl⟩ := List.mem_map.1 hx
    exact if_pos (hzero c hc)
  exact absurd (v.kraft.symm.trans hsum) (Nat.two_pow_pos _).ne'

/-- What the codes shorter than `l` take up. -/
def taken (l : ℕ) : ℕ :=
  (v.clen.map fun c => if 0 < c ∧ c < l then 2 ^ (v.absMax - c) else 0).sum

theorem taken_succ (l : ℕ) :
    v.taken (l + 1) = v.taken l + lengthCount v.clen l * 2 ^ (v.absMax - l) := by
  unfold taken
  induction v.clen with
  | nil => simp [lengthCount]
  | cons c clen ih =>
    have hone : (if 0 < c ∧ c < l + 1 then 2 ^ (v.absMax - c) else 0) =
        (if 0 < c ∧ c < l then 2 ^ (v.absMax - c) else 0) +
          (if l = 0 then 0 else if c = l then 1 else 0) * 2 ^ (v.absMax - l) := by
      by_cases hl : c = l
      · rw [hl]
        split_ifs <;> omega
      · split_ifs <;> omega
    have hcount : lengthCount (c :: clen) l = lengthCount clen l +
        if l = 0 then 0 else if c = l then 1 else 0 := by
      simp only [lengthCount, List.count_cons, beq_iff_eq]
      split_ifs <;> rfl
    rw [List.map_cons, List.sum_cons, List.map_cons, List.sum_cons, ih, hone, hcount, Nat.add_mul]
    omega

theorem taken_mono {k l : ℕ} (h : k ≤ l) : v.taken k ≤ v.taken l := by
  apply List.sum_le_sum
  intro c _
  have hpow := Nat.two_pow_pos (v.absMax - c)
  split_ifs <;> omega

theorem taken_all : v.taken (v.absMax + 1) = 2 ^ v.absMax := by
  rw [← v.kraft, taken]
  congr 1
  apply List.map_congr_left
  intro c hc
  have := v.le_absMax c hc
  split_ifs <;> omega

/-- The first code of a length comes after the codes that are shorter. -/
theorem firstCode_taken {l : ℕ} (h : l ≤ v.absMax) :
    firstCode v.clen l * 2 ^ (v.absMax - l) = v.taken l := by
  induction l with
  | zero => simp [firstCode, taken]
  | succ l ih =>
    have hpow : 2 ^ (v.absMax - l) = 2 * 2 ^ (v.absMax - (l + 1)) := by
      rw [← pow_succ']
      congr 1
      omega
    rw [taken_succ, ← ih (by omega), firstCode, ← Nat.add_mul, hpow,
      Nat.mul_comm 2, Nat.mul_assoc]

theorem codes_lt {l : ℕ} (h : l ≤ v.absMax) :
    firstCode v.clen l + lengthCount v.clen l ≤ 2 ^ l := by
  have hmono := v.taken_mono (Nat.succ_le_succ h)
  rw [v.taken_all, Nat.succ_eq_add_one, taken_succ, ← v.firstCode_taken h, ← Nat.add_mul] at hmono
  have hpow : 2 ^ v.absMax = 2 ^ l * 2 ^ (v.absMax - l) := by
    rw [← pow_add, Nat.add_sub_cancel' h]
  rw [hpow] at hmono
  exact Nat.le_of_mul_le_mul_right hmono (Nat.two_pow_pos _)

end CodeLengths

def writeSymbol (codes : Table ℕ) (clen : List ℕ) (s : ℕ) (w : BitWriter) : Attempt BitWriter :=
  (codes.read s).andThen fun code => .done (encodeBits (clen.getD s 0) code w)

def writeSymbols (codes : Table ℕ) (clen : List ℕ) : List ℕ → BitWriter → Attempt BitWriter
  | [], w => .done w
  | s :: syms, w => (writeSymbol codes clen s w).andThen (writeSymbols codes clen syms)

/-- Symbol by symbol, the decoder returns what the encoder wrote, and their bit states are at the
same place before and after it. -/
def Agrees (codes : Table ℕ) (clen : List ℕ) (d : Decoder) (maxSym : ℕ) (out : List UInt8) :
    List ℕ → BitWriter → BitReader → Prop
  | [], w, r => InStep out w r
  | s :: syms, w, r => InStep out w r ∧ ∃ w' r', writeSymbol codes clen s w = .done w' ∧
      decodeSymbol d maxSym r = .done (s, r') ∧ Agrees codes clen d maxSym out syms w' r'

theorem ready_encodeBits (n value : ℕ) {w : BitWriter} (h : w.Ready) :
    (encodeBits n value w).Ready := by
  induction n generalizing w with
  | zero => exact h
  | succ n ih => exact ih (h.encodeBit _)

theorem extends_of_encodeBits (n value : ℕ) {w : BitWriter} (h : w.Ready) {out : List UInt8}
    (hout : (encodeBits n value w).Extends out) : w.Extends out := by
  induction n generalizing w with
  | zero => exact hout
  | succ n ih => exact (ih (h.encodeBit _) hout).of_encodeBit h

theorem shift_or_testBit (value n : ℕ) :
    (value >>> (n + 1)) <<< 1 ||| (value.testBit n).toNat = value >>> n := by
  have hbit : (value.testBit n).toNat < 2 ^ 1 := by cases value.testBit n <;> decide
  rw [← Nat.shiftLeft_add_eq_or_of_lt hbit, Nat.shiftLeft_eq, Nat.shiftRight_succ, pow_one,
    Nat.testBit_eq_decide_div_mod_eq, Nat.shiftRight_eq_div_pow]
  rcases Nat.mod_two_eq_zero_or_one (value / 2 ^ n) with h | h
  · rw [h]
    simp
    omega
  · rw [h]
    simp
    omega

variable {clen : List ℕ} {d : Decoder} {maxSym s L : ℕ}

/-- A code is not below the last code of a shorter length when it is cut to that. -/
theorem cut_code_gt {s k m : ℕ} (hL : clen.getD s 0 = k + (m + 1))
    (hpos : 0 < firstCode clen k + lengthCount clen k) :
    firstCode clen k + lengthCount clen k - 1 < codeOf clen s >>> (m + 1) := by
  have hbetween := firstCode_between clen k m
  have hle : firstCode clen (k + 1 + m) ≤ codeOf clen s := by
    rw [codeOf, hL, Nat.add_right_comm, Nat.add_assoc]
    exact Nat.le_add_right _ _
  rw [Nat.shiftRight_eq_div_pow]
  have := (Nat.le_div_iff_mul_le (Nat.two_pow_pos (m + 1))).2 (hbetween.trans hle)
  omega

theorem symbolAt_code (hd : d.Right clen) (hs : s < clen.length) (hL : clen.getD s 0 = L)
    (hpos : 0 < L) (hsym : clen.length ≤ maxSym + 1) (r : BitReader) :
    symbolAt d maxSym L (codeOf clen s) r = .done (s, r) := by
  have hmem : L ∈ clen := by
    rw [← hL, List.getD_eq_getElem _ _ hs]
    exact List.getElem_mem hs
  have hshort := shorterCount_le_firstCode clen L
  have hplace : codeOf clen s - (firstCode clen L - shorterCount clen L) = place clen s := by
    rw [codeOf, place, hL]
    omega
  have hbound : place clen s ≤ maxSym := by
    have hlt := place_lt hs (by omega) (Nat.lt_succ_self (clen.getD s 0))
    have := shorterCount_le_length clen (clen.getD s 0).succ
    omega
  have hbase : firstCode clen L - shorterCount clen L ≤ codeOf clen s := by
    rw [codeOf, hL]
    omega
  rw [symbolAt, (hd.base L (hd.min_le L hmem hpos) (hd.le_max L hmem hpos)).read,
    Attempt.andThen_done, if_pos hbase, hplace, if_pos hbound,
    (hd.inorder s hs (by omega)).read, Attempt.andThen_done]

/-- The rest of a code is read to its end and no further. -/
theorem decodeSymbolLoop_code (hd : d.Right clen) (hs : s < clen.length)
    (hL : clen.getD s 0 = L) (hpos : 0 < L) (hsym : clen.length ≤ maxSym + 1) {out : List UInt8}
    {n bits : ℕ} (hn : bits + (n + 1) = L) {w : BitWriter} {r : BitReader} (hready : w.Ready)
    (hstep : InStep out w r) (hout : (encodeBits (n + 1) (codeOf clen s) w).Extends out) :
    ∃ r', decodeSymbolLoop d maxSym (d.maxClen - bits) bits (codeOf clen s >>> (n + 1)) r =
        .done (s, r') ∧
      InStep out (encodeBits (n + 1) (codeOf clen s) w) r' := by
  have hmem : L ∈ clen := by
    rw [← hL, List.getD_eq_getElem _ _ hs]
    exact List.getElem_mem hs
  have hmin := hd.min_le L hmem hpos
  have hmax := hd.le_max L hmem hpos
  induction n generalizing bits w r with
  | zero =>
    obtain ⟨r', hload, hbit, hnext⟩ := hstep.encodeBit hready hout
    have hleft : d.maxClen - bits = (d.maxClen - bits - 1) + 1 := by omega
    have hbit' : r'.bit = (codeOf clen s).testBit 0 := by
      rw [hbit, Nat.shiftLeft_eq, Nat.one_mul]
      simp only [and_two_pow_ne_zero, Bool.decide_eq_true]
    have hcode : codeOf clen s ≤ firstCode clen L + lengthCount clen L - 1 := by
      have := rank_lt hs
      rw [codeOf, hL, lengthCount_pos hpos]
      rw [hL] at this
      omega
    refine ⟨r'.shift, ?_, hnext⟩
    rw [hleft, decodeSymbolLoop, hload, Attempt.andThen_done]
    simp only [hbit', shift_or_testBit, Nat.shiftRight_zero]
    rw [hn, if_pos hmin, (hd.limit L hmin hmax).1.read, Attempt.andThen_done, if_pos hcode,
      symbolAt_code hd hs hL hpos hsym]
  | succ n ih =>
    rw [encodeBits] at hout ⊢
    have hnext := extends_of_encodeBits (n + 1) _ (hready.encodeBit _) hout
    obtain ⟨r', hload, hbit, hstep'⟩ := hstep.encodeBit hready hnext
    have hleft : d.maxClen - bits = (d.maxClen - (bits + 1)) + 1 := by omega
    have hbit' : r'.bit = (codeOf clen s).testBit (n + 1) := by
      rw [hbit, Nat.shiftLeft_eq, Nat.one_mul]
      simp only [and_two_pow_ne_zero, Bool.decide_eq_true]
    have hn' : bits + 1 + (n + 1) = L := by omega
    obtain ⟨r'', hrest, hlast⟩ := ih hn' (hready.encodeBit _) hstep' hout
    refine ⟨r'', ?_, hlast⟩
    rw [hleft, decodeSymbolLoop, hload, Attempt.andThen_done]
    simp only [hbit', shift_or_testBit]
    by_cases hused : d.minClen ≤ bits + 1
    · obtain ⟨hlimit, hcodes⟩ := hd.limit (bits + 1) hused (by omega)
      have hgt := @cut_code_gt clen s (bits + 1) n (by omega) hcodes
      rw [if_pos hused, hlimit.read, Attempt.andThen_done, if_neg (Nat.not_le.2 hgt), hrest]
    · rw [if_neg hused, hrest]

theorem decodeSymbol_code (v : CodeLengths) (hd : d.Right v.clen) (hs : s < v.clen.length)
    (hpos : 0 < v.clen.getD s 0) (hsym : v.clen.length ≤ maxSym + 1) {out : List UInt8}
    {w : BitWriter} {r : BitReader} (hready : w.Ready) (hstep : InStep out w r)
    (hout : (encodeBits (v.clen.getD s 0) (codeOf v.clen s) w).Extends out) :
    ∃ r', decodeSymbol d maxSym r = .done (s, r') ∧
      InStep out (encodeBits (v.clen.getD s 0) (codeOf v.clen s) w) r' := by
  have hle : v.clen.getD s 0 ≤ v.absMax := by
    rw [List.getD_eq_getElem _ _ hs]
    exact v.le_absMax _ (List.getElem_mem hs)
  have hlt : codeOf v.clen s < 2 ^ v.clen.getD s 0 := by
    have hfits := v.codes_lt hle
    have hrank := rank_lt hs
    rw [lengthCount_pos hpos] at hfits
    rw [codeOf]
    omega
  obtain ⟨n, hn⟩ := Nat.exists_eq_succ_of_ne_zero (Nat.ne_of_gt hpos)
  have hzero : codeOf v.clen s >>> (n + 1) = 0 := by
    rw [hn] at hlt
    rw [Nat.shiftRight_eq_div_pow]
    exact Nat.div_eq_of_lt hlt
  rw [hn] at hout ⊢
  obtain ⟨r', hloop, hstep'⟩ := decodeSymbolLoop_code hd hs hn (Nat.succ_pos n) hsym
    (Nat.zero_add (n + 1)) hready hstep hout
  rw [hzero, Nat.sub_zero] at hloop
  exact ⟨r', hloop, hstep'⟩

/-- Whatever was written before, every symbol is read back, in step. -/
theorem agrees_of_right (v : CodeLengths) {codes : Table ℕ} (hd : d.Right v.clen)
    (hsym : v.clen.length ≤ maxSym + 1)
    (hcodes : ∀ s c, v.clen[s]? = some c → 0 < c → codes.Has s (codeOf v.clen s)) {syms : List ℕ}
    (hsyms : ∀ s ∈ syms, 0 < v.clen.getD s 0) {w : BitWriter} (hready : w.Ready) :
    ∃ w', writeSymbols codes v.clen syms w = .done w' ∧ w'.Ready ∧
      ∀ out, w'.Extends out → w.Extends out ∧
        ∀ r, InStep out w r → Agrees codes v.clen d maxSym out syms w r := by
  induction syms generalizing w with
  | nil => exact ⟨w, rfl, hready, fun out hout => ⟨hout, fun r hstep => hstep⟩⟩
  | cons s syms ih =>
    have hpos := hsyms s List.mem_cons_self
    have hs : s < v.clen.length := by
      by_contra hge
      rw [List.getD_eq_default _ _ (Nat.le_of_not_lt hge)] at hpos
      exact Nat.lt_irrefl 0 hpos
    have hget : v.clen[s]? = some (v.clen.getD s 0) := by
      rw [List.getD_eq_getElem _ _ hs, List.getElem?_eq_getElem hs]
    have hwrite : writeSymbol codes v.clen s w =
        .done (encodeBits (v.clen.getD s 0) (codeOf v.clen s) w) := by
      rw [writeSymbol, (hcodes s _ hget hpos).read, Attempt.andThen_done]
    have hready' := ready_encodeBits (v.clen.getD s 0) (codeOf v.clen s) hready
    obtain ⟨w', hrest, hw', hagrees⟩ :=
      ih (fun s' hs' => hsyms s' (List.mem_cons_of_mem s hs')) hready'
    refine ⟨w', by rw [writeSymbols, hwrite, Attempt.andThen_done, hrest], hw', ?_⟩
    intro out hout
    obtain ⟨hmid, htail⟩ := hagrees out hout
    refine ⟨extends_of_encodeBits _ _ hready hmid, fun r hstep => ?_⟩
    obtain ⟨r', hdecode, hstep'⟩ := decodeSymbol_code v hd hs hpos hsym hready hstep hmid
    exact ⟨hstep, _, r', hwrite, hdecode, htail r' hstep'⟩

/-- The codes of the encoder, packed from any bit position and flushed, are decoded to the same
symbols, each by exactly its own bits. -/
theorem canonicalCodes_agree (v : CodeLengths) (codes inorder base limit : Table ℕ) (maxSym : ℕ)
    (hcodes : codes.length = v.clen.length) (hinorder : v.clen.length ≤ inorder.length)
    (hbase : v.absMax + 1 < base.length) (hlimit : v.absMax + 1 < limit.length)
    (hsym : v.clen.length ≤ maxSym + 1) :
    ∃ d, buildDecoder v.absMax v.clen inorder base limit = .done d ∧
      ∀ syms : List ℕ, (∀ s ∈ syms, 0 < v.clen.getD s 0) → ∀ w : BitWriter, w.Ready →
        ∃ w', writeSymbols (buildCodes codes v.clen) v.clen syms w = .done w' ∧
          ∀ (rest : List UInt8) (r : BitReader), InStep (flushBits w' ++ rest) w r →
            Agrees (buildCodes codes v.clen) v.clen d maxSym (flushBits w' ++ rest) syms w r := by
  obtain ⟨d, hbuild, hd⟩ := buildDecoder_spec v.absMax_le v.le_absMax v.length_le v.used hinorder
    hbase hlimit
  refine ⟨d, hbuild, fun syms hsyms w hready => ?_⟩
  obtain ⟨w', hwrite, hready', hagrees⟩ := agrees_of_right v hd hsym
    (fun s c hs hc => buildCodes_spec codes hcodes hs hc) hsyms hready
  exact ⟨w', hwrite, fun rest => (hagrees _ (hready'.extends_flushBits rest)).2⟩

def sampleLengths : CodeLengths where
  clen := [2, 0, 1, 2]
  absMax := 7
  absMax_le := by decide
  le_absMax := by decide
  length_le := by decide
  kraft := by decide

/-- Lengths from two to one, read back from the middle of a byte. -/
theorem canonicalCodes_sample :
    ∃ d, buildDecoder 7 [2, 0, 1, 2] (Table.blank 10) (Table.blank 9) (Table.blank 9) = .done d ∧
      ∀ syms : List ℕ, (∀ s ∈ syms, 0 < [2, 0, 1, 2].getD s 0) → ∀ w : BitWriter, w.Ready →
        ∃ w', writeSymbols (buildCodes (Table.blank 4) [2, 0, 1, 2]) [2, 0, 1, 2] syms w =
            .done w' ∧
          ∀ (rest : List UInt8) (r : BitReader), InStep (flushBits w' ++ rest) w r →
            Agrees (buildCodes (Table.blank 4) [2, 0, 1, 2]) [2, 0, 1, 2] d 4
              (flushBits w' ++ rest) syms w r :=
  canonicalCodes_agree sampleLengths (Table.blank 4) (Table.blank 10) (Table.blank 9)
    (Table.blank 9) 4 rfl (by decide) (by decide) (by decide) (by decide)

end Xdelta.Djw
