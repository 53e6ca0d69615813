import Mathlib.Algebra.BigOperators.Group.List.Basic
import Mathlib.Tactic.Ring

/-!
# Rolling sums

The value of a list of digits in base `b`, the first digit being the highest, and what it
becomes when the list moves on by one digit.
-/
namespace Rolling

variable {R : Type*} [CommRing R]

/-- The value of the digits in base `b`. -/
def horner (b : R) (ds : List R) : R := ds.foldl (fun h d => h * b + d) 0

theorem foldl_horner (b h : R) (ds : List R) :
    ds.foldl (fun h d => h * b + d) h = h * b ^ ds.length + horner b ds := by
  induction ds generalizing h with
  | nil => simp [horner]
  | cons d ds ih =>
    have hd : horner b (d :: ds) = d * b ^ ds.length + horner b ds := by
      simpa [horner] using ih d
    rw [List.foldl_cons, ih, hd, List.length_cons]
    ring

theorem horner_cons (b d : R) (ds : List R) :
    horner b (d :: ds) = d * b ^ ds.length + horner b ds := by
  simpa [horner] using foldl_horner b d ds

theorem horner_snoc (b d : R) (ds : List R) : horner b (ds ++ [d]) = horner b ds * b + d := by
  simp [horner]

theorem horner_roll (b d e : R) (ds : List R) :
    horner b (ds ++ [e]) = b * horner b (d :: ds) - b ^ (ds.length + 1) * d + e := by
  rw [horner_snoc, horner_cons]
  ring

def weighted (p : ℕ → R) : ℕ → List R → R
  | _, [] => 0
  | i, d :: ds => d * p i + weighted p (i + 1) ds

/-- With the powers of `b` as weights, the highest first, it is the value in base `b`. -/
theorem weighted_eq_horner {b : R} {p : ℕ → R} {i : ℕ} {ds : List R}
    (h : ∀ j, j < ds.length → p (i + j) = b ^ (ds.length - 1 - j)) :
    weighted p i ds = horner b ds := by
  induction ds generalizing i with
  | nil => simp [weighted, horner]
  | cons d ds ih =>
    have hhead : p i = b ^ ds.length := by simpa using h 0 (by simp)
    have htail : weighted p (i + 1) ds = horner b ds := by
      apply ih
      intro j hj
      have := h (j + 1) (by simpa using hj)
      rw [show i + 1 + j = i + (j + 1) by omega, this]
      congr 1
      simp only [List.length_cons]
      omega
    rw [weighted, htail, horner_cons, hhead]

end Rolling
