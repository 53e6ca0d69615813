import Xdelta.Encoder.Extend
import Xdelta.Lib.Attempt

/-!
# Comparing forwards

Where unaligned reads are allowed, `xd3_forward_match` compares eight words in a round before
it compares bytes. Here every read of the two buffers is one that must lie within the first
`n` bytes, and a loop that has not ended is a fault.
-/
namespace Xdelta

/-- The byte at `i`, one of the first `n`. -/
def byteWithin (n : ℕ) (s : List UInt8) (i : ℕ) : Attempt UInt8 :=
  .require (i < n) <|
    match s[i]? with
    | some b => .done b
    | none => .fault

/-- The `i`th `int`, all of it within the first `n` bytes. -/
def intWithin (n : ℕ) (s : List UInt8) (i : ℕ) : Attempt (List UInt8) :=
  .require (i * 4 + 4 ≤ n) (.require (i * 4 + 4 ≤ s.length) (.done (intAt s i)))

theorem byteWithin_eq {n i : ℕ} {s : List UInt8} {b : UInt8} (hi : i < n)
    (hb : s[i]? = some b) : byteWithin n s i = .done b := by
  rw [byteWithin, Attempt.require, if_pos hi, hb]

theorem intWithin_eq {n i : ℕ} {s : List UInt8} (hi : i * 4 + 4 ≤ n) (hs : n ≤ s.length) :
    intWithin n s i = .done (intAt s i) := by
  rw [intWithin, Attempt.require, if_pos hi, Attempt.require, if_pos (hi.trans hs)]

/-- `compareInts`, by reads. -/
def compareIntsWithin (n : ℕ) (s1 s2 : List UInt8) : ℕ → ℕ → Attempt (ℕ × Bool)
  | 0, i => .done (i, true)
  | k + 1, i =>
    (intWithin n s1 i).andThen fun a => (intWithin n s2 i).andThen fun b =>
      if a = b then compareIntsWithin n s1 s2 k (i + 1) else .done (i + 1, false)

def intLoopWithin (n : ℕ) (s1 s2 : List UInt8) (nint8 : ℕ) : ℕ → ℕ → Attempt ℕ
  | 0, _ => .fault
  | fuel + 1, i =>
    if i ≤ nint8 then
      (compareIntsWithin n s1 s2 8 i).andThen fun p =>
        if p.2 then intLoopWithin n s1 s2 nint8 fuel p.1 else .done p.1
    else .done i

def byteLoopWithin (n : ℕ) (s1 s2 : List UInt8) : ℕ → ℕ → Attempt ℕ
  | 0, _ => .fault
  | fuel + 1, i =>
    if i < n then
      (byteWithin n s1 i).andThen fun a => (byteWithin n s2 i).andThen fun b =>
        if a = b then byteLoopWithin n s1 s2 fuel (i + 1) else .done i
    else .done i

/-- What `xd3_forward_match` does under `UNALIGNED_OK` before the bytes; `i - 1` must not wrap. -/
def skipInts (n : ℕ) (s1 s2 : List UInt8) : Attempt ℕ :=
  let nint := n / 4
  if nint >>> 3 ≠ 0 then
    (intLoopWithin n s1 s2 (nint - 8) nint 0).andThen fun i =>
      .require (i ≠ 0) (.done ((i - 1) * 4))
  else .done 0

/-- `xd3_forward_match`, with `UNALIGNED_OK` or without. -/
def forwardMatchWithin (unalignedOk : Bool) (s1 s2 : List UInt8) (n : ℕ) : Attempt ℕ :=
  (if unalignedOk then skipInts n s1 s2 else .done 0).andThen fun i =>
    byteLoopWithin n s1 s2 (n + 1) i

section
variable {s1 s2 : List UInt8} {n : ℕ} (h1 : n ≤ s1.length) (h2 : n ≤ s2.length)
include h1 h2

theorem compareIntsWithin_eq (k i : ℕ) (hi : (i + k) * 4 ≤ n) :
    compareIntsWithin n s1 s2 k i = .done (compareInts s1 s2 k i) := by
  induction k generalizing i with
  | zero => rfl
  | succ k ih =>
    have hread : i * 4 + 4 ≤ n := by omega
    rw [compareIntsWithin, compareInts, intWithin_eq hread h1, intWithin_eq hread h2,
      Attempt.andThen_done, Attempt.andThen_done]
    by_cases heq : intAt s1 i = intAt s2 i
    · rw [if_pos heq, if_pos heq]
      exact ih (i + 1) (by omega)
    · rw [if_neg heq, if_neg heq]

/-- A round of eight comparisons moves on by eight, or ends the loop. -/
theorem intLoopWithin_eq {nint : ℕ} (h8 : 8 ≤ nint) (hn : nint * 4 ≤ n) (fuel i : ℕ)
    (hfuel : nint < i + 8 * fuel) (hi : i ≤ nint) (hsame : SameInts s1 s2 i) :
    intLoopWithin n s1 s2 (nint - 8) fuel i = .done (intLoop s1 s2 (nint - 8) fuel i) ∧
      (i ≠ 0 ∨ i ≤ nint - 8 → intLoop s1 s2 (nint - 8) fuel i ≠ 0) := by
  induction fuel generalizing i with
  | zero => omega
  | succ fuel ih =>
    rw [intLoopWithin, intLoop]
    by_cases hle : i ≤ nint - 8
    · rw [if_pos hle, if_pos hle, compareIntsWithin_eq h1 h2 8 i (by omega), Attempt.andThen_done]
      rcases compareInts_spec 8 i hsame with ⟨heq, hall⟩ | ⟨j, heq, -, -⟩
      · obtain ⟨hrun, hne⟩ := ih (i + 8) (by omega) (by omega) hall
        rw [heq]
        exact ⟨hrun, fun _ => hne (.inl (by omega))⟩
      · rw [heq]
        exact ⟨rfl, fun _ => Nat.succ_ne_zero j⟩
    · rw [if_neg hle, if_neg hle]
      exact ⟨rfl, fun hor => hor.resolve_right hle⟩

theorem byteLoopWithin_eq (fuel i : ℕ) (hi : i ≤ n) (hfuel : n < i + fuel) :
    byteLoopWithin n s1 s2 fuel i =
      .done (i + commonPrefix ((s1.take n).drop i) ((s2.take n).drop i)) := by
  induction fuel generalizing i with
  | zero => omega
  | succ fuel ih =>
    rw [byteLoopWithin]
    by_cases hin : i < n
    · have ha : i < (s1.take n).length := by rw [List.length_take]; omega
      have hb : i < (s2.take n).length := by rw [List.length_take]; omega
      rw [if_pos hin, byteWithin_eq hin (List.getElem?_eq_getElem (hin.trans_le h1)),
        byteWithin_eq hin (List.getElem?_eq_getElem (hin.trans_le h2)), Attempt.andThen_done,
        Attempt.andThen_done, List.drop_eq_getElem_cons ha, List.drop_eq_getElem_cons hb,
        commonPrefix, List.getElem_take, List.getElem_take]
      by_cases heq : s1[i] = s2[i]
      · rw [if_pos heq, if_pos heq, ih (i + 1) hin (by omega)]
        exact congrArg _ (by omega)
      · rw [if_neg heq, if_neg heq, Nat.add_zero]
    · have hend : (s1.take n).drop i = [] :=
        List.drop_eq_nil_of_le (by rw [List.length_take]; omega)
      rw [if_neg hin, hend]
      simp [commonPrefix]

theorem forwardMatchWithin_bytes :
    forwardMatchWithin false s1 s2 n = .done (commonPrefix (s1.take n) (s2.take n)) := by
  have h := byteLoopWithin_eq h1 h2 (n + 1) 0 (Nat.zero_le n) (by omega)
  rwa [Nat.zero_add] at h

/-- The words first: where the index is stepped back to, everything before is equal. -/
theorem forwardMatchWithin_ints :
    forwardMatchWithin true s1 s2 n = .done (forwardMatch s1 s2 n) := by
  rw [forwardMatchWithin, if_pos rfl, skipInts, forwardMatch]
  by_cases hint : (n / 4) >>> 3 ≠ 0
  · have h8 : 8 ≤ n / 4 := by
      rw [Nat.shiftRight_eq_div_pow] at hint
      omega
    obtain ⟨hrun, hne⟩ := intLoopWithin_eq h1 h2 h8 (by omega) (n / 4) 0 (by omega)
      (Nat.zero_le _) rfl
    obtain ⟨hle, -⟩ := @intLoop_spec s1 s2 _ h8 (n / 4) 0 rfl (Nat.zero_le _)
    rw [if_pos hint, if_pos hint, hrun, Attempt.andThen_done, Attempt.require,
      if_pos (hne (.inr (Nat.zero_le _))), Attempt.andThen_done]
    exact byteLoopWithin_eq h1 h2 (n + 1) _ (by omega) (by omega)
  · rw [if_neg hint, if_neg hint, Attempt.andThen_done]
    exact byteLoopWithin_eq h1 h2 (n + 1) 0 (Nat.zero_le n) (by omega)

end

/-- `k` bytes from the start are in both and equal. -/
def SharePrefix (s1 s2 : List UInt8) (n k : ℕ) : Prop := k ≤ n ∧ s1.take k = s2.take k

theorem commonPrefix_greatest {s1 s2 : List UInt8} {n : ℕ} (h1 : n ≤ s1.length)
    (h2 : n ≤ s2.length) :
    IsGreatest {k | SharePrefix s1 s2 n k} (commonPrefix (s1.take n) (s2.take n)) := by
  obtain ⟨hle, -, heq, hne⟩ := commonPrefix_spec (s1.take n) (s2.take n)
  rw [List.length_take_of_le h1] at hle hne
  rw [List.length_take_of_le h2] at hne
  constructor
  · refine ⟨hle, List.ext_getElem? fun i => ?_⟩
    by_cases hi : i < commonPrefix (s1.take n) (s2.take n)
    · have hat := heq i hi
      rw [List.getElem?_take_of_lt (hi.trans_le hle),
        List.getElem?_take_of_lt (hi.trans_le hle)] at hat
      rw [List.getElem?_take_of_lt hi, List.getElem?_take_of_lt hi, hat]
    · rw [List.getElem?_take_eq_none (not_lt.1 hi), List.getElem?_take_eq_none (not_lt.1 hi)]
  · intro k hk
    by_contra hlt
    have hlt : commonPrefix (s1.take n) (s2.take n) < k := not_le.1 hlt
    have hlast := hlt.trans_le hk.1
    have hat := congrArg (·[commonPrefix (s1.take n) (s2.take n)]?) hk.2
    simp only [List.getElem?_take_of_lt hlt] at hat
    exact hne hlast hlast (by
      rw [List.getElem?_take_of_lt hlast, List.getElem?_take_of_lt hlast, hat])

/-- The longest common prefix, with words as without, and no byte read after the first `n`. -/
theorem forwardMatchWithin_right (s1 s2 : List UInt8) (n : ℕ) (h1 : n ≤ s1.length)
    (h2 : n ≤ s2.length) :
    forwardMatchWithin true s1 s2 n = .done (forwardMatch s1 s2 n) ∧
      forwardMatchWithin false s1 s2 n = .done (forwardMatch s1 s2 n) ∧
        IsGreatest {k | SharePrefix s1 s2 n k} (forwardMatch s1 s2 n) := by
  refine ⟨forwardMatchWithin_ints h1 h2, ?_, ?_⟩
  · rw [forwardMatch_eq h1]
    exact forwardMatchWithin_bytes h1 h2
  · rw [forwardMatch_eq h1]
    exact commonPrefix_greatest h1 h2

/-- Forty bytes are ten words: one round of eight, and a difference in the second word after. -/
theorem forwardMatchWithin_right_forty :
    let s1 := List.replicate 40 7
    let s2 := List.replicate 37 7 ++ [8, 7, 7, 7]
    forwardMatchWithin true s1 s2 40 = .done (forwardMatch s1 s2 40) ∧
      forwardMatchWithin false s1 s2 40 = .done (forwardMatch s1 s2 40) ∧
        IsGreatest {k | SharePrefix s1 s2 40 k} (forwardMatch s1 s2 40) :=
  forwardMatchWithin_right _ _ 40 (by decide) (by decide)

end Xdelta
