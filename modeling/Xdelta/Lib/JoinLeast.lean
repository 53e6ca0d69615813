import Mathlib.Data.List.Sort
import Mathlib.Data.Multiset.AddSub
import Mathlib.Logic.Function.Iterate

/-!
# Joining the two least

The two least elements of a list in order are replaced by one, until there is only
one. A queue that takes out least elements comes to the same end, whichever of
equal ones it takes.
-/
namespace JoinLeast

variable {α : Type*} [LinearOrder α]

def joinLeast (join : α → α → α) : List α → List α
  | x :: y :: xs => xs.orderedInsert (· ≤ ·) (join x y)
  | xs => xs

/-- The elements of `m`, in order. -/
structure Orders (xs : List α) (m : Multiset α) : Prop where
  ordered : xs.Pairwise (· ≤ ·)
  coe_eq : (xs : Multiset α) = m

variable {join : α → α → α} {xs : List α} {m : Multiset α} {x y : α}

theorem Orders.insertionSort (xs : List α) : Orders (xs.insertionSort (· ≤ ·)) xs where
  ordered := List.pairwise_insertionSort _ xs
  coe_eq := Multiset.coe_eq_coe.2 (List.perm_insertionSort _ xs)

theorem Orders.length_eq (h : Orders xs m) : xs.length = m.card := by
  rw [← h.coe_eq, Multiset.coe_card]

theorem Orders.least (h : Orders xs (x ::ₘ m)) (hx : ∀ a ∈ m, x ≤ a) :
    ∃ xs', xs = x :: xs' ∧ Orders xs' m := by
  cases xs with
  | nil => exact absurd h.coe_eq.symm (Multiset.cons_ne_zero)
  | cons x' xs =>
    obtain ⟨hle, hrest⟩ := List.pairwise_cons.1 h.ordered
    have hcoe : x' ::ₘ (xs : Multiset α) = x ::ₘ m := h.coe_eq
    have hmem : x' ∈ x ::ₘ m := hcoe ▸ Multiset.mem_cons_self x' _
    have hmem' : x ∈ x' :: xs := by
      rw [← Multiset.mem_coe, h.coe_eq]
      exact Multiset.mem_cons_self x m
    have heq : x' = x := by
      rcases Multiset.mem_cons.1 hmem with heq | hm
      · exact heq
      · rcases List.mem_cons.1 hmem' with heq | hxs
        · exact heq.symm
        · exact le_antisymm (hle x hxs) (hx x' hm)
    subst heq
    exact ⟨xs, rfl, hrest, (Multiset.cons_inj_right x').1 hcoe⟩

/-- Two least elements are taken out, and put back joined. -/
theorem Orders.joinLeast (h : Orders xs (x ::ₘ y ::ₘ m)) (hx : ∀ a ∈ y ::ₘ m, x ≤ a)
    (hy : ∀ a ∈ m, y ≤ a) : Orders (joinLeast join xs) (join x y ::ₘ m) := by
  obtain ⟨xs', rfl, h'⟩ := h.least hx
  obtain ⟨ys, rfl, hys⟩ := h'.least hy
  refine ⟨hys.ordered.orderedInsert _ _, ?_⟩
  rw [← hys.coe_eq, Multiset.cons_coe, Multiset.coe_eq_coe]
  exact List.perm_orderedInsert _ _ ys

theorem joinLeast_of_length_le (h : xs.length ≤ 1) : joinLeast join xs = xs := by
  match xs, h with
  | [], _ => rfl
  | [_], _ => rfl

theorem iterate_joinLeast_of_length_le (h : xs.length ≤ 1) (n : ℕ) :
    (joinLeast join)^[n] xs = xs :=
  Function.iterate_fixed (joinLeast_of_length_le h) n

end JoinLeast
