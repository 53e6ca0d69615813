import Mathlib.Data.List.Infix
import Mathlib.Tactic.Common

/-!
# Splitting strings at a character

The first and the last occurrence of a character in a string, each with what
stands before and after it, and the fields between the first few occurrences.
-/
namespace CString

variable {α : Type} [DecidableEq α] {c : α} {s b a : List α}

/-- `strchr`: what stands before and after the first occurrence. -/
def strchr (c : α) : List α → Option (List α × List α)
  | [] => none
  | x :: s => if x = c then some ([], s) else (strchr c s).map fun r => (x :: r.1, r.2)

/-- `strrchr`: what stands before and after the last occurrence. -/
def strrchr (c : α) : List α → Option (List α × List α)
  | [] => none
  | x :: s =>
    match strrchr c s with
    | some r => some (x :: r.1, r.2)
    | none => if x = c then some ([], s) else none

/-- The fields between at most `n` occurrences. -/
def fields (c : α) : ℕ → List α → List (List α)
  | 0, s => [s]
  | n + 1, s =>
    match strchr c s with
    | some r => r.1 :: fields c n r.2
    | none => [s]

theorem strchr_append (h : c ∉ b) (a : List α) : strchr c (b ++ c :: a) = some (b, a) := by
  induction b with
  | nil => exact if_pos rfl
  | cons x b ih =>
    rw [List.mem_cons, not_or] at h
    rw [List.cons_append, strchr, if_neg (Ne.symm h.1), ih h.2]
    rfl

theorem strchr_none (h : c ∉ s) : strchr c s = none := by
  induction s with
  | nil => rfl
  | cons x s ih =>
    rw [List.mem_cons, not_or] at h
    rw [strchr, if_neg (Ne.symm h.1), ih h.2]
    rfl

theorem strrchr_none (h : c ∉ s) : strrchr c s = none := by
  induction s with
  | nil => rfl
  | cons x s ih =>
    rw [List.mem_cons, not_or] at h
    rw [strrchr, ih h.2]
    exact if_neg (Ne.symm h.1)

theorem strrchr_append (h : c ∉ a) (b : List α) : strrchr c (b ++ c :: a) = some (b, a) := by
  induction b with
  | nil =>
    rw [List.nil_append, strrchr, strrchr_none h]
    exact if_pos rfl
  | cons x b ih => rw [List.cons_append, strrchr, ih]

theorem not_mem_of_strrchr_none (h : strrchr c s = none) : c ∉ s := by
  induction s with
  | nil => exact List.not_mem_nil
  | cons x s ih =>
    rw [strrchr] at h
    cases hs : strrchr c s with
    | some r =>
      rw [hs] at h
      cases h
    | none =>
      rw [hs] at h
      have hx : x ≠ c := fun hx => by simp [hx] at h
      rw [List.mem_cons, not_or]
      exact ⟨Ne.symm hx, ih hs⟩

/-- A character that occurs splits the string at its last occurrence. -/
theorem strrchr_some (h : strrchr c s = some (b, a)) : s = b ++ c :: a ∧ c ∉ a := by
  induction s generalizing b with
  | nil => cases h
  | cons x s ih =>
    rw [strrchr] at h
    cases hs : strrchr c s with
    | some r =>
      rw [hs] at h
      cases h
      obtain ⟨hsplit, hnot⟩ := ih hs
      exact ⟨congrArg (x :: ·) hsplit, hnot⟩
    | none =>
      rw [hs] at h
      by_cases hx : x = c
      · rw [if_pos hx] at h
        cases h
        exact ⟨by rw [hx]; rfl, not_mem_of_strrchr_none hs⟩
      · rw [if_neg hx] at h
        cases h

theorem fields_succ (h : c ∉ b) (n : ℕ) (a : List α) :
    fields c (n + 1) (b ++ c :: a) = b :: fields c n a := by
  rw [fields, strchr_append h]

theorem fields_last (h : c ∉ s) (n : ℕ) : fields c n s = [s] := by
  cases n with
  | zero => rfl
  | succ n => rw [fields, strchr_none h]

end CString
