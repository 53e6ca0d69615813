import Xdelta.SourceEnd
import Xdelta.Lib.Attempt
import Mathlib.Data.Nat.Log

/-!
# Setting a source, loop by loop

The searches of `xd3_set_source` shift a bit to the left until it reaches a value. The
number of rounds a loop may take is a parameter, so that a loop that never ends has no
result for any number. `usize_t` and `xoff_t` have either width.
-/
namespace Xdelta
open Chunked

/-- The loop of `xd3_check_pow2`: whether the value was reached before zero, and `logof`. -/
def checkPow2Loop (X : Width) (value : ℕ) : ℕ → ℕ → ℕ → Option (Bool × ℕ)
  | 0, _, _ => none
  | rounds + 1, x, logof =>
    if x ≠ 0 then
      if x = value then some (true, logof)
      else checkPow2Loop X value rounds ((x <<< 1) % X.modulus) (logof + 1)
    else some (false, logof)

/-- The loop of `xd3_pow2_roundup` and `xd3_xoff_roundup`. -/
def roundupLoop (W : Width) (x : ℕ) : ℕ → ℕ → Option ℕ
  | 0, _ => none
  | rounds + 1, i => if i < x then roundupLoop W x rounds ((i <<< 1) % W.modulus) else some i

/-- `XD3_MAXSRCWINSZ` for either `usize_t`. -/
def maxSrcWinszOf : Width → ℕ
  | .w32 => 2 ^ 31
  | .w64 => 2 ^ 61

/-- The block size and `shiftby`; `xd3_check_pow2` takes an `xoff_t`. -/
def setBlksizeIn (U X : Width) (rounds blksize : ℕ) : Option (ℕ × ℕ) :=
  (checkPow2Loop X (blksize % X.modulus) rounds 1 0).bind fun check =>
    if check.1 then some (blksize, check.2)
    else
      (roundupLoop U blksize rounds 1).bind fun blksize =>
        (checkPow2Loop X (blksize % X.modulus) rounds 1 0).map fun check => (blksize, check.2)

def setMaxWinsizeIn (X : Width) (rounds maxWinsize : ℕ) : Option ℕ :=
  (checkPow2Loop X maxWinsize rounds 1 0).bind fun check =>
    (if check.1 then some maxWinsize else roundupLoop X maxWinsize rounds 1).map fun maxWinsize =>
      max maxWinsize allocSize

/-- `xd3_set_source`: what it returns, and the source. -/
def setSourceIn (U X : Width) (rounds : ℕ) (src : Source) : Option (Option Stop × Source) :=
  (setBlksizeIn U X rounds src.blksize).bind fun size =>
    (setMaxWinsizeIn X rounds src.maxWinsize).map fun maxWinsize =>
      (if maxSrcWinszOf U < maxWinsize then
        some ⟨.invalid, some "source max_winsize exceeds the maximum"⟩ else none,
      { src with
        srclen := 0
        srcbase := 0
        blksize := size.1
        shiftby := size.2
        maskby := (2 ^ size.2 - 1) % U.modulus
        maxWinsize := maxWinsize })

/-- `xd3_blksize_div`; to shift by the width of `xoff_t` or more is a fault. -/
def Source.blksizeDivIn (X : Width) (source : Source) (offset : ℕ) : Attempt (ℕ × ℕ) :=
  .require (source.shiftby < X.bits) (.done (source.blksizeDiv offset))

section
variable {W X : Width} {x i value m : ℕ}

theorem Width.two_pow_lt (W : Width) {k : ℕ} (hk : k < W.bits) : 2 ^ k < W.modulus :=
  Nat.pow_lt_pow_right (by decide) hk

theorem Width.shift_pow (W : Width) {k : ℕ} (hk : k + 1 < W.bits) :
    (2 ^ k <<< 1) % W.modulus = 2 ^ (k + 1) := by
  rw [Nat.shiftLeft_eq, ← pow_add]
  exact Nat.mod_eq_of_lt (W.two_pow_lt hk)

def Shifted (W : Width) (i : ℕ) : Prop := i = 0 ∨ ∃ k < W.bits, i = 2 ^ k

theorem shifted_one (W : Width) : Shifted W 1 := .inr ⟨0, by cases W <;> decide, rfl⟩

theorem Shifted.shift (h : Shifted W i) : Shifted W ((i <<< 1) % W.modulus) := by
  rcases h with rfl | ⟨k, hk, rfl⟩
  · exact .inl (Nat.zero_mod _)
  · by_cases hlast : k + 1 < W.bits
    · exact .inr ⟨k + 1, hlast, W.shift_pow hlast⟩
    · refine .inl ?_
      rw [Nat.shiftLeft_eq, ← pow_add, show k + 1 = W.bits by omega]
      exact Nat.mod_self _

theorem Shifted.le (h : Shifted W i) : i ≤ 2 ^ (W.bits - 1) := by
  rcases h with rfl | ⟨k, hk, rfl⟩
  · exact Nat.zero_le _
  · exact Nat.pow_le_pow_right (by decide) (by omega)

theorem checkPow2Loop_found (hm : m < X.bits) (rounds k : ℕ) (hk : k ≤ m)
    (hrounds : m < k + rounds) :
    checkPow2Loop X (2 ^ m) rounds (2 ^ k) k = some (true, m) := by
  induction rounds generalizing k with
  | zero => omega
  | succ rounds ih =>
    rw [checkPow2Loop, if_pos (Nat.two_pow_pos k).ne']
    by_cases heq : k = m
    · rw [heq, if_pos rfl]
    · have hne : 2 ^ k ≠ 2 ^ m := fun h => heq (Nat.pow_right_injective (le_refl 2) h)
      rw [if_neg hne, X.shift_pow (by omega)]
      exact ih (k + 1) (by omega) (by omega)

theorem checkPow2Loop_lost (hv : ∀ k < X.bits, value ≠ 2 ^ k) (rounds k : ℕ) (hk : k < X.bits)
    (hrounds : X.bits < k + rounds) :
    checkPow2Loop X value rounds (2 ^ k) k = some (false, X.bits) := by
  induction rounds generalizing k with
  | zero => omega
  | succ rounds ih =>
    rw [checkPow2Loop, if_pos (Nat.two_pow_pos k).ne', if_neg (hv k hk).symm]
    by_cases hlast : k + 1 < X.bits
    · rw [X.shift_pow hlast]
      exact ih (k + 1) hlast (by omega)
    · obtain ⟨rounds, rfl⟩ : ∃ r, rounds = r + 1 := ⟨rounds - 1, by omega⟩
      have hend : k + 1 = X.bits := by omega
      rw [Nat.shiftLeft_eq, ← pow_add, hend, Width.modulus, Nat.mod_self, checkPow2Loop,
        if_neg (not_not_intro rfl)]

theorem checkPow2Loop_true {rounds logof l : ℕ} (hx : Shifted X x)
    (h : checkPow2Loop X value rounds x logof = some (true, l)) : Shifted X value := by
  induction rounds generalizing x logof with
  | zero => cases h
  | succ rounds ih =>
    rw [checkPow2Loop] at h
    split_ifs at h with hzero heq
    · exact heq ▸ hx
    · exact ih hx.shift h
    · cases h

/-- The rounding stops at the least power of two that is great enough. -/
theorem roundupLoop_ends (hm : m < W.bits) (hx : x ≤ 2 ^ m) (hleast : ∀ j < m, 2 ^ j < x)
    (rounds k : ℕ) (hk : k ≤ m) (hrounds : m < k + rounds) :
    roundupLoop W x rounds (2 ^ k) = some (2 ^ m) := by
  induction rounds generalizing k with
  | zero => omega
  | succ rounds ih =>
    rw [roundupLoop]
    by_cases heq : k = m
    · rw [heq, if_neg (not_lt.2 hx)]
    · rw [if_pos (hleast k (by omega)), W.shift_pow (by omega)]
      exact ih (k + 1) (by omega) (by omega)

/-- What the rounding returns is great enough, and a power of two. -/
theorem roundupLoop_some {rounds y : ℕ} (hi : Shifted W i)
    (h : roundupLoop W x rounds i = some y) : x ≤ y ∧ Shifted W y := by
  induction rounds generalizing i with
  | zero => cases h
  | succ rounds ih =>
    rw [roundupLoop] at h
    split_ifs at h with hlt
    · exact ih hi.shift h
    · cases h
      exact ⟨not_lt.1 hlt, hi⟩

/-- The rounding of a value that a power of two of the type reaches. -/
theorem roundupLoop_clog {j : ℕ} (hj : j < W.bits) (hx : x ≤ 2 ^ j) (rounds : ℕ)
    (hrounds : W.bits ≤ rounds) :
    roundupLoop W x rounds 1 = some (2 ^ Nat.clog 2 x) ∧ x ≤ 2 ^ Nat.clog 2 x ∧
      Nat.clog 2 x ≤ j := by
  have hle : Nat.clog 2 x ≤ j := Nat.clog_le_of_le_pow hx
  have hup : x ≤ 2 ^ Nat.clog 2 x := Nat.le_pow_clog (by decide) x
  refine ⟨?_, hup, hle⟩
  refine roundupLoop_ends (by omega) hup (fun i hi => ?_) rounds 0 (Nat.zero_le _) (by omega)
  by_contra hlt
  exact absurd (Nat.clog_le_of_le_pow (not_lt.1 hlt)) (not_le.2 hi)

end

section
variable {U X : Width} {rounds b w : ℕ}

/-- A block size in range is rounded up and has its logarithm. -/
theorem setBlksizeIn_eq (hU : U.bits ≤ rounds) (hX : X.bits < rounds)
    (hb : b ≤ 2 ^ (min U.bits X.bits - 1)) :
    ∃ k < min U.bits X.bits, b ≤ 2 ^ k ∧ setBlksizeIn U X rounds b = some (2 ^ k, k) := by
  have hbits : 0 < min U.bits X.bits := by cases U <;> cases X <;> decide
  have hfound : ∀ k < X.bits, checkPow2Loop X (2 ^ k % X.modulus) rounds 1 0 = some (true, k) := by
    intro k hk
    rw [Nat.mod_eq_of_lt (X.two_pow_lt hk)]
    exact checkPow2Loop_found hk rounds 0 (Nat.zero_le _) (by omega)
  have hmod : b % X.modulus = b :=
    Nat.mod_eq_of_lt (hb.trans_lt (X.two_pow_lt (by omega)))
  by_cases hpow : ∃ k < X.bits, b = 2 ^ k
  · obtain ⟨k, hk, rfl⟩ := hpow
    have hle := (Nat.pow_le_pow_iff_right (by decide)).1 hb
    refine ⟨k, by omega, le_refl _, ?_⟩
    rw [setBlksizeIn, hfound k hk]
    rfl
  · obtain ⟨hround, hup, hle⟩ := @roundupLoop_clog U b _ (by omega) hb rounds hU
    refine ⟨Nat.clog 2 b, by omega, hup, ?_⟩
    have hlost := checkPow2Loop_lost (fun k hk heq => hpow ⟨k, hk, heq⟩) rounds 0
      (by omega) (by omega)
    rw [setBlksizeIn, hmod]
    rw [pow_zero] at hlost
    rw [hlost, Option.bind_some, if_neg Bool.false_ne_true, hround, Option.bind_some,
      hfound _ (by omega)]
    rfl

theorem setMaxWinsizeIn_eq (hX : X.bits < rounds) (hw : w ≤ 2 ^ (X.bits - 1)) :
    ∃ k < X.bits, w ≤ 2 ^ k ∧ setMaxWinsizeIn X rounds w = some (2 ^ k) := by
  have hbits : 14 < X.bits := by cases X <;> decide
  have hmax : ∀ k, max (2 ^ k) allocSize = 2 ^ max k 14 := by
    intro k
    rcases le_total k 14 with h | h
    · rw [max_eq_right h, allocSize, max_eq_right (Nat.pow_le_pow_right (by decide) h)]
    · rw [max_eq_left h, allocSize, max_eq_left (Nat.pow_le_pow_right (by decide) h)]
  have hin : ∀ k, w ≤ 2 ^ k → w ≤ 2 ^ max k 14 := fun k hk =>
    hk.trans (Nat.pow_le_pow_right (by decide) (le_max_left _ _))
  by_cases hpow : ∃ k < X.bits, w = 2 ^ k
  · obtain ⟨k, hk, rfl⟩ := hpow
    refine ⟨max k 14, max_lt hk hbits, hin k (le_refl _), ?_⟩
    have hfound := checkPow2Loop_found hk rounds 0 (Nat.zero_le _) (by omega)
    rw [pow_zero] at hfound
    rw [setMaxWinsizeIn, hfound, Option.bind_some, if_pos rfl, Option.map_some, hmax]
  · obtain ⟨hround, hup, hle⟩ := @roundupLoop_clog X w _ (by omega) hw rounds hX.le
    refine ⟨max (Nat.clog 2 w) 14, max_lt (by omega) hbits, hin _ hup, ?_⟩
    have hlost := checkPow2Loop_lost (fun k hk heq => hpow ⟨k, hk, heq⟩) rounds 0
      (by omega) (by omega)
    rw [pow_zero] at hlost
    rw [setMaxWinsizeIn, hlost, Option.bind_some, if_neg Bool.false_ne_true, hround,
      Option.map_some, hmax]

theorem setMaxWinsizeIn_some {y : ℕ} (h : setMaxWinsizeIn X rounds w = some y) :
    w ≤ 2 ^ (X.bits - 1) ∧ y ≤ 2 ^ (X.bits - 1) := by
  obtain ⟨⟨found, l⟩, hcheck, h⟩ := Option.bind_eq_some_iff.1 h
  obtain ⟨y, hy, rfl⟩ := Option.map_eq_some_iff.1 h
  have halloc : allocSize ≤ 2 ^ (X.bits - 1) := by cases X <;> decide
  cases found with
  | true =>
    have hle := (checkPow2Loop_true (shifted_one X) hcheck).le
    cases hy
    exact ⟨hle, max_le hle halloc⟩
  | false =>
    obtain ⟨hle, hshift⟩ := roundupLoop_some (shifted_one X) hy
    exact ⟨hle.trans hshift.le, max_le hshift.le halloc⟩

/-- Neither is a block size, unless `xoff_t` cuts it off. -/
theorem setBlksizeIn_some {r : ℕ × ℕ} (hb : b < U.modulus)
    (h : setBlksizeIn U X rounds b = some r) :
    r.1 < U.modulus ∧ (U.bits ≤ X.bits → b ≤ 2 ^ (U.bits - 1)) := by
  obtain ⟨⟨found, l⟩, hcheck, h⟩ := Option.bind_eq_some_iff.1 h
  cases found with
  | true =>
    cases h
    refine ⟨hb, fun hUX => ?_⟩
    have hmod : b < X.modulus := hb.trans_le (Nat.pow_le_pow_right (by decide) hUX)
    have hshift := checkPow2Loop_true (shifted_one X) hcheck
    rw [Nat.mod_eq_of_lt hmod] at hshift
    rcases hshift with rfl | ⟨k, -, rfl⟩
    · exact Nat.zero_le _
    · have hk : k < U.bits := (Nat.pow_lt_pow_iff_right (by decide)).1 hb
      exact Nat.pow_le_pow_right (by decide) (by omega)
  | false =>
    obtain ⟨y, hy, h⟩ := Option.bind_eq_some_iff.1 h
    obtain ⟨check, -, rfl⟩ := Option.map_eq_some_iff.1 h
    obtain ⟨hle, hshift⟩ := roundupLoop_some (shifted_one U) hy
    have hlt : U.bits - 1 < U.bits := by cases U <;> decide
    exact ⟨hshift.le.trans_lt (U.two_pow_lt hlt), fun _ => hle.trans hshift.le⟩

end

structure Prepared (U : Width) (src s : Source) : Prop where
  blksize_le : src.blksize ≤ s.blksize
  blksize_eq : 2 ^ s.shiftby = s.blksize
  maskby_eq : s.maskby = s.blksize - 1
  winsize_le : src.maxWinsize ≤ s.maxWinsize
  winsize_pow : ∃ k, s.maxWinsize = 2 ^ k
  winsize_max : s.maxWinsize ≤ maxSrcWinszOf U

/-- Every offset is divided into a block and a place in it. -/
def DividesRight (X : Width) (s : Source) : Prop :=
  ∀ offset < X.modulus, ∃ blkno blkoff, s.blksizeDivIn X offset = .done (blkno, blkoff) ∧
    blkno * s.blksize + blkoff = offset ∧ blkoff < s.blksize

/-- The function returns, either 0 with the sizes right or `XD3_INVALID`. -/
def SetSourceRight (U X : Width) (src : Source) : Prop :=
  ∃ rounds ret s, setSourceIn U X rounds src = some (ret, s) ∧
    (ret = none ∧ Prepared U src s ∧ DividesRight X s ∨
      ∃ msg, ret = some ⟨.invalid, msg⟩)

theorem dividesRight_of_shaped {X : Width} {s : Source} (h : s.Shaped)
    (hlt : s.shiftby < X.bits) : DividesRight X s := by
  intro offset _
  have hpos : 0 < s.blksize := h.blksize_eq ▸ Nat.two_pow_pos _
  refine ⟨offset / s.blksize, offset % s.blksize, ?_, ?_, Nat.mod_lt _ hpos⟩
  · rw [Source.blksizeDivIn, Attempt.require, if_pos hlt, h.blksizeDiv_eq]
  · rw [Nat.mul_comm]
    exact Nat.div_add_mod _ _

section
variable {U X : Width} {src : Source}

/-- In range, the function returns, and its result is right. -/
theorem SetSourceRight.of_le (hb : src.blksize ≤ 2 ^ (min U.bits X.bits - 1))
    (hw : src.maxWinsize ≤ 2 ^ (X.bits - 1)) : SetSourceRight U X src := by
  have hU : U.bits ≤ 65 := by cases U <;> decide
  have hX : X.bits < 65 := by cases X <;> decide
  obtain ⟨k, hk, hble, hblk⟩ := setBlksizeIn_eq hU hX hb
  obtain ⟨l, -, hwle, hwin⟩ := setMaxWinsizeIn_eq hX hw
  refine ⟨65, _, _, by rw [setSourceIn, hblk, Option.bind_some, hwin, Option.map_some], ?_⟩
  have hmask : (2 ^ k - 1) % U.modulus = 2 ^ k - 1 :=
    Nat.mod_eq_of_lt ((Nat.sub_le _ _).trans_lt (U.two_pow_lt (by omega)))
  by_cases hmax : maxSrcWinszOf U < 2 ^ l
  · exact .inr ⟨_, if_pos hmax⟩
  · refine .inl ⟨if_neg hmax, ⟨hble, rfl, hmask, hwle, ⟨l, rfl⟩, not_lt.1 hmax⟩, ?_⟩
    have hkX : k < X.bits := by omega
    have hk64 : k < 64 := by omega
    exact dividesRight_of_shaped ⟨hk64, rfl, hmask⟩ hkX

/-- To be divided by, a block size must be a power of two of both types. -/
theorem SetSourceRight.le (hb : src.blksize < U.modulus) (h : SetSourceRight U X src) :
    src.blksize ≤ 2 ^ (min U.bits X.bits - 1) ∧ src.maxWinsize ≤ 2 ^ (X.bits - 1) := by
  obtain ⟨rounds, ret, s, hrun, hright⟩ := h
  obtain ⟨r, hblk, hrun⟩ := Option.bind_eq_some_iff.1 hrun
  obtain ⟨y, hwin, hs⟩ := Option.map_eq_some_iff.1 hrun
  obtain ⟨hr, hble⟩ := setBlksizeIn_some hb hblk
  obtain ⟨hw, hy⟩ := setMaxWinsizeIn_some hwin
  cases hs
  refine ⟨?_, hw⟩
  rcases hright with ⟨-, hprep, hdiv⟩ | ⟨msg, hret⟩
  · obtain ⟨blkno, blkoff, hshift, -⟩ := hdiv 0 X.modulus_pos
    have hX : r.2 < X.bits := by
      by_contra hge
      rw [Source.blksizeDivIn, Attempt.require, if_neg hge] at hshift
      cases hshift
    have hpow : 2 ^ r.2 = r.1 := hprep.blksize_eq
    rw [← hpow] at hr
    have hU : r.2 < U.bits := (Nat.pow_lt_pow_iff_right (by decide)).1 hr
    refine hprep.blksize_le.trans ?_
    rw [← hpow]
    exact Nat.pow_le_pow_right (by decide) (by omega)
  · have hmax : maxSrcWinszOf U < y := by
      by_contra hle
      rw [if_neg hle] at hret
      cases hret
    have hUX : U.bits ≤ X.bits := by
      have hlt := hmax.trans_le hy
      cases U <;> cases X <;> first | decide | exact absurd hlt (by decide)
    rw [Nat.min_eq_left hUX]
    exact hble hUX

/-- The function ends with the sizes right exactly where both can be rounded up. -/
theorem setSource_right (U X : Width) (src : Source) (hb : src.blksize < U.modulus) :
    SetSourceRight U X src ↔
      src.blksize ≤ 2 ^ (min U.bits X.bits - 1) ∧ src.maxWinsize ≤ 2 ^ (X.bits - 1) :=
  ⟨fun h => h.le hb, fun h => .of_le h.1 h.2⟩

theorem setSource_right_odd :
    SetSourceRight .w32 .w64 { blksize := 32767, maxWinsize := 2 ^ 26 } ↔
      32767 ≤ 2 ^ (min Width.w32.bits Width.w64.bits - 1) ∧ 2 ^ 26 ≤ 2 ^ (Width.w64.bits - 1) :=
  setSource_right .w32 .w64 { blksize := 32767, maxWinsize := 2 ^ 26 } (by decide)

/-- The bit is shifted out before it reaches the window size. -/
theorem setSource_endless :
    ¬ SetSourceRight .w64 .w64 { blksize := 2 ^ 15, maxWinsize := 2 ^ 63 + 1 } := by
  intro h
  have hle := (h.le (by decide)).2
  exact absurd hle (by decide)

end

theorem checkPow2Loop_eq (value : ℕ) :
    checkPow2Loop .w64 value 65 1 0 =
      some (match checkPow2 value with | some k => (true, k) | none => (false, 64)) := by
  cases h : checkPow2 value with
  | some k =>
    obtain ⟨rfl, hk⟩ := checkPow2_eq_some h
    exact checkPow2Loop_found (X := .w64) hk 65 0 (Nat.zero_le _) (by omega)
  | none =>
    refine checkPow2Loop_lost (fun k hk heq => ?_) 65 0 (by decide) (by decide)
    rw [heq, checkPow2_two_pow hk] at h
    cases h

theorem roundupLoop_eq (x : ℕ) : roundupLoop .w64 x 65 1 = pow2Roundup x := by
  by_cases hx : x ≤ 2 ^ 63
  · obtain ⟨hround, hup, hle⟩ := @roundupLoop_clog .w64 x 63 (by decide) hx 65 (by decide)
    rw [hround, pow2Roundup, List.find?_map, eq_comm, Option.map_eq_some_iff]
    refine ⟨Nat.clog 2 x, ?_, rfl⟩
    rw [List.find?_range_eq_some]
    refine ⟨decide_eq_true hup, List.mem_range.2 (show _ < 64 by omega), fun j hj => ?_⟩
    have hlt : 2 ^ j < x := by
      by_contra hlt
      exact absurd (Nat.clog_le_of_le_pow (not_lt.1 hlt)) (not_le.2 hj)
    simpa using hlt
  · have hnone : pow2Roundup x = none := by
      rw [pow2Roundup, List.find?_eq_none]
      intro y hy
      obtain ⟨k, hk, rfl⟩ := List.mem_map.1 hy
      have hk63 : 2 ^ k ≤ 2 ^ 63 :=
        Nat.pow_le_pow_right (by decide) (Nat.lt_succ_iff.1 (List.mem_range.1 hk))
      simp only [decide_eq_true_eq]
      omega
    rw [hnone, Option.eq_none_iff_forall_not_mem]
    intro y hy
    obtain ⟨hle, hshift⟩ := roundupLoop_some (shifted_one .w64) hy
    exact hx (hle.trans hshift.le)

def ofRun : Option (Option Stop × Source) → Outcome Source Stop Unit
  | none => .fault
  | some (none, s) => .ok () s
  | some (some e, s) => .stop e s

theorem setBlksize_eq (s : Source) (hb : s.blksize < Width.w64.modulus) :
    setBlksize s = match setBlksizeIn .w64 .w64 65 s.blksize with
      | none => .fault
      | some (blksize, shiftby) => .ok shiftby { s with blksize := blksize } := by
  rw [setBlksize, setBlksizeIn, Nat.mod_eq_of_lt hb, checkPow2Loop_eq, roundupLoop_eq]
  cases hpow : checkPow2 s.blksize with
  | some k => rfl
  | none =>
    cases hround : pow2Roundup s.blksize with
    | none => rfl
    | some y =>
      obtain ⟨k, hk, rfl⟩ := List.mem_map.1 (List.mem_of_find?_eq_some hround)
      have hk : k < 64 := List.mem_range.1 hk
      dsimp only [Option.bind_some]
      rw [if_neg Bool.false_ne_true, Nat.mod_eq_of_lt (Width.two_pow_lt .w64 hk),
        checkPow2Loop_eq, checkPow2_two_pow hk]
      rfl

theorem setMaxWinsize_eq (s : Source) :
    setMaxWinsize s = match setMaxWinsizeIn .w64 65 s.maxWinsize with
      | none => .fault
      | some maxWinsize =>
        if maxSrcWinsz < maxWinsize then
          fail .invalid "source max_winsize exceeds the maximum" { s with maxWinsize := maxWinsize }
        else .ok () { s with maxWinsize := maxWinsize } := by
  rw [setMaxWinsize, setMaxWinsizeIn, checkPow2Loop_eq, roundupLoop_eq]
  cases checkPow2 s.maxWinsize with
  | some k => rfl
  | none => cases pow2Roundup s.maxWinsize <;> rfl

/-- The loops and the routine stated by their results agree. -/
theorem setSource_eq (src : Source) (hb : src.blksize < Width.w64.modulus) :
    setSource src = ofRun (setSourceIn .w64 .w64 65 src) := by
  have hset := setBlksize_eq { src with srclen := 0, srcbase := 0 } hb
  rw [setSource, setSourceIn, hset]
  dsimp only at hset ⊢
  cases hsize : setBlksizeIn .w64 .w64 65 src.blksize with
  | none => rfl
  | some size =>
    rw [hsize] at hset
    have hmask : (2 ^ size.2 - 1) % Width.w64.modulus = 2 ^ size.2 - 1 :=
      Nat.mod_eq_of_lt ((Nat.sub_le _ _).trans_lt (Width.two_pow_lt .w64 (setBlksize_ok hset).2.1))
    rw [Outcome.andThen_ok, Option.bind_some, setMaxWinsize_eq, hmask]
    dsimp only
    cases setMaxWinsizeIn .w64 65 src.maxWinsize with
    | none => rfl
    | some maxWinsize =>
      dsimp only [Option.map_some]
      by_cases hmax : maxSrcWinsz < maxWinsize
      · rw [if_pos hmax, if_pos (show maxSrcWinszOf .w64 < _ from hmax)]
        rfl
      · rw [if_neg hmax, if_neg (show ¬ maxSrcWinszOf .w64 < _ from hmax)]
        rfl

end Xdelta
