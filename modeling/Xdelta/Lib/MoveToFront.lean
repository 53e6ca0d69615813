import Mathlib.Tactic.Common
import Mathlib.Data.List.Infix

/-!
# Moving to the front, and counting runs

A sequence is coded by the places of its members in a list that is reordered as they
occur. The member that has just occurred has place zero, and runs of zeros are written as
numbers in the bijective base two, the digits zero and one standing for one and two.
-/
namespace MoveToFront

def digits : ℕ → List ℕ
  | 0 => []
  | n + 1 => n % 2 :: digits (n / 2)

def value : List ℕ → ℕ
  | [] => 0
  | d :: ds => d + 1 + 2 * value ds

theorem value_digits (n : ℕ) : value (digits n) = n := by
  induction n using Nat.strong_induction_on with
  | _ n ih =>
    cases n with
    | zero => rw [digits, value]
    | succ n =>
      rw [digits, value, ih (n / 2) (by omega)]
      omega

theorem digits_le_one {n d : ℕ} (h : d ∈ digits n) : d ≤ 1 := by
  induction n using Nat.strong_induction_on with
  | _ n ih =>
    cases n with
    | zero => rw [digits] at h; cases h
    | succ n =>
      rw [digits] at h
      rcases List.mem_cons.1 h with rfl | hmem
      · omega
      · exact ih (n / 2) (by omega) hmem

theorem length_le_value (ds : List ℕ) : ds.length ≤ value ds := by
  induction ds with
  | nil => exact Nat.le_refl 0
  | cons d ds ih =>
    rw [List.length_cons, value]
    omega

theorem length_digits_le (n : ℕ) : (digits n).length ≤ n := by
  conv_rhs => rw [← value_digits n]
  exact length_le_value _

section
variable {α : Type}

/-- A block of equal members does not reach over a different one. -/
theorem replicate_infix_of_ne {a x v : α} {m n : ℕ} {xs : List α} (hne : x ≠ a) (hlt : m < n)
    (h : List.replicate n v <:+: List.replicate m a ++ x :: xs) :
    List.replicate n v <:+: x :: xs := by
  induction m with
  | zero => exact h
  | succ m ih =>
    rw [List.replicate_succ, List.cons_append] at h
    rcases List.infix_cons_iff.1 h with hpre | hin
    · obtain ⟨rest, hrest⟩ := hpre
      have h0 := congrArg (·[0]?) hrest
      have hm := congrArg (·[m + 1]?) hrest
      simp [List.getElem?_append, hlt, show 0 < n by omega] at h0 hm
      exact absurd (hm.symm.trans h0) hne
    · exact ih (by omega) hin

variable [DecidableEq α]

def places : List α → List α → List ℕ
  | _, [] => []
  | order, x :: xs => order.idxOf x :: places (x :: order.erase x) xs

@[simp] theorem length_places (order xs : List α) : (places order xs).length = xs.length := by
  induction xs generalizing order with
  | nil => rfl
  | cons x xs ih => rw [places, List.length_cons, List.length_cons, ih]

theorem mem_moved {order : List α} {x y : α} (hx : x ∈ order) :
    y ∈ x :: order.erase x ↔ y ∈ order := by
  by_cases hxy : y = x
  · simp [hxy, hx]
  · simp [hxy, List.mem_erase_of_ne hxy]

theorem length_moved {order : List α} {x : α} (hx : x ∈ order) :
    (x :: order.erase x).length = order.length := by
  have hpos := List.length_pos_of_mem hx
  rw [List.length_cons, List.length_erase_of_mem hx]
  omega

/-- Codes of places: a run of zeros becomes digits, any other place is one greater. -/
def codes : ℕ → List ℕ → List ℕ
  | run, [] => digits run
  | run, 0 :: is => codes (run + 1) is
  | run, (i + 1) :: is => digits run ++ (i + 2) :: codes 0 is

theorem length_codes_le (run : ℕ) (is : List ℕ) : (codes run is).length ≤ run + is.length := by
  induction is generalizing run with
  | nil => exact length_digits_le run
  | cons i is ih =>
    cases i with
    | zero =>
      have h := ih (run + 1)
      rw [codes, List.length_cons]
      omega
    | succ i =>
      have h := ih 0
      have hd := length_digits_le run
      rw [codes, List.length_append, List.length_cons, List.length_cons]
      omega

/-- No more than `limit` members in a row are equal to the one before them, `run` of which
have been seen before these. -/
def RunsWithin (limit : ℕ) : α → ℕ → List α → Prop
  | _, _, [] => True
  | a, run, x :: xs =>
    if x = a then run < limit ∧ RunsWithin limit a (run + 1) xs else RunsWithin limit x 0 xs

theorem runsWithin_iff {limit run : ℕ} {a : α} {xs : List α} (hrun : run ≤ limit) :
    RunsWithin limit a run xs ↔
      ¬ ∃ v, List.replicate (limit + 2) v <:+: List.replicate (run + 1) a ++ xs := by
  induction xs generalizing a run with
  | nil =>
    refine ⟨fun _ ⟨v, hv⟩ => ?_, fun _ => trivial⟩
    have hle := hv.length_le
    simp only [List.append_nil, List.length_replicate] at hle
    omega
  | cons x xs ih =>
    rw [RunsWithin]
    by_cases hx : x = a
    · rw [if_pos hx, hx]
      have hmove : List.replicate (run + 1) a ++ a :: xs = List.replicate (run + 2) a ++ xs := by
        rw [List.replicate_succ' (n := run + 1), List.append_assoc]
        rfl
      rw [hmove]
      by_cases hlt : run < limit
      · rw [← ih hlt]
        exact ⟨fun h => h.2, fun h => ⟨hlt, h⟩⟩
      · refine ⟨fun h => absurd h.1 hlt, fun h => absurd ⟨a, ?_⟩ h⟩
        rw [show limit = run by omega]
        exact (List.prefix_append _ _).isInfix
    · rw [if_neg hx, ih (Nat.zero_le _)]
      refine not_congr (exists_congr fun v => ⟨fun h => ?_, fun h => ?_⟩)
      · exact h.trans (List.suffix_append _ _).isInfix
      · exact replicate_infix_of_ne hx (by omega) h

end

end MoveToFront
