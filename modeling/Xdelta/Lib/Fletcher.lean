import Mathlib.Algebra.Group.Basic
import Mathlib.Tactic.Abel

/-!
# Sums of sums

The sum of the values in a window, and the sum of its partial sums, in any commutative
group: what both become when the window moves on by one.
-/
namespace Fletcher

variable {A : Type} [AddCommGroup A]

/-- The sum of the first `n` values, and the sum of the sums so far. -/
def sums (f : ℕ → A) : ℕ → A × A
  | 0 => (0, 0)
  | n + 1 => ((sums f n).1 + f n, (sums f n).2 + ((sums f n).1 + f n))

theorem sums_congr {f g : ℕ → A} {n : ℕ} (h : ∀ k < n, f k = g k) : sums f n = sums g n := by
  induction n with
  | zero => rfl
  | succ n ih =>
    have hlast := h n n.lt_succ_self
    rw [sums, sums, ih fun k hk => h k (Nat.lt_succ_of_lt hk), hlast]

theorem low_slide (f : ℕ → A) (n : ℕ) :
    (sums (fun k => f (k + 1)) n).1 = (sums f n).1 - f 0 + f n := by
  induction n with
  | zero => simp [sums]
  | succ n ih =>
    rw [sums, sums, ih]
    dsimp only
    abel

/-- Every partial sum has lost the first value, and the last one has come. -/
theorem high_slide (f : ℕ → A) (n : ℕ) :
    (sums (fun k => f (k + 1)) n).2 =
      (sums f n).2 - n • f 0 + (sums (fun k => f (k + 1)) n).1 := by
  induction n with
  | zero => simp [sums]
  | succ n ih =>
    have hlow := low_slide f n
    rw [sums, sums, ih, hlow, succ_nsmul]
    dsimp only
    abel

end Fletcher
