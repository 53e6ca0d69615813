import Mathlib.Order.Lattice
import Mathlib.Data.Set.Function
import Mathlib.Logic.Equiv.Basic
import Mathlib.Order.Interval.Set.Defs
import Mathlib.Tactic.Common

/-!
# Binary heaps

The keys at the positions from one on, where the parent of a position is half of
it. Sifting is a sequence of swaps: the order that holds while a key moves up or
down is kept by a swap and gives a heap when the key has come to rest.
-/
namespace Heap

variable {κ : Type} [LinearOrder κ] {a : ℕ → κ} {n p q : ℕ}

def Ordered (a : ℕ → κ) (n : ℕ) : Prop := ∀ i, 1 < i → i ≤ n → a (i / 2) ≤ a i

/-- In order but for the key at `p`, which may be too small for where it is. -/
structure Up (a : ℕ → κ) (n p : ℕ) : Prop where
  rest : ∀ i, 1 < i → i ≤ n → i ≠ p → a (i / 2) ≤ a i
  grand : 1 < p → ∀ i ≤ n, i / 2 = p → a (p / 2) ≤ a i

/-- In order but for the key at `p`, which may be too great for where it is. -/
structure Down (a : ℕ → κ) (n p : ℕ) : Prop where
  rest : ∀ i, 1 < i → i ≤ n → i / 2 ≠ p → a (i / 2) ≤ a i
  grand : 1 < p → ∀ i ≤ n, i / 2 = p → a (p / 2) ≤ a i

def swap {α : Type} (a : ℕ → α) (p q : ℕ) : ℕ → α := a ∘ Equiv.swap p q

theorem swap_left {α : Type} (a : ℕ → α) (p q : ℕ) : swap a p q p = a q :=
  congrArg a (Equiv.swap_apply_left p q)

theorem swap_right {α : Type} (a : ℕ → α) (p q : ℕ) : swap a p q q = a p :=
  congrArg a (Equiv.swap_apply_right p q)

theorem swap_other {α : Type} (a : ℕ → α) {p q i : ℕ} (hp : i ≠ p) (hq : i ≠ q) :
    swap a p q i = a i :=
  congrArg a (Equiv.swap_apply_of_ne_of_ne hp hq)

theorem Ordered.up (h : Ordered a n) {b : ℕ → κ} (hb : ∀ i ≤ n, b i = a i) : Up b (n + 1) (n + 1) where
  rest i h1 hi hne := by
    rw [hb i (by omega), hb (i / 2) (by omega)]
    exact h i h1 (by omega)
  grand _ i hi hchild := by omega

theorem Up.swap (h : Up a n p) (hp : 1 < p) (hn : p ≤ n) (hlt : a p < a (p / 2)) :
    Up (Heap.swap a p (p / 2)) n (p / 2) where
  rest i h1 hi hne := by
    by_cases hip : i = p
    · rw [hip, swap_left, swap_right]
      exact hlt.le
    · rw [swap_other a hip hne]
      by_cases hparent : i / 2 = p
      · rw [hparent, swap_left]
        exact h.grand hp i hi hparent
      · by_cases hsibling : i / 2 = p / 2
        · rw [hsibling, swap_right]
          have := h.rest i h1 hi hip
          rw [hsibling] at this
          exact hlt.le.trans this
        · rw [swap_other a hparent hsibling]
          exact h.rest i h1 hi hip
  grand hq i hi hchild := by
    have hup := h.rest (p / 2) hq (by omega) (by omega)
    rw [swap_other a (show p / 2 / 2 ≠ p by omega) (show p / 2 / 2 ≠ p / 2 by omega)]
    by_cases hip : i = p
    · rw [hip, swap_left]
      exact hup
    · rw [swap_other a hip (by omega)]
      have := h.rest i (by omega) hi hip
      rw [hchild] at this
      exact hup.trans this

theorem Up.ordered (h : Up a n p) (hp : 1 < p → a (p / 2) ≤ a p) : Ordered a n := by
  intro i h1 hi
  by_cases hip : i = p
  · rw [hip] at h1 ⊢
    exact hp h1
  · exact h.rest i h1 hi hip

theorem Ordered.down (h : Ordered a (n + 1)) {b : ℕ → κ} (hb : ∀ i, 1 < i → i ≤ n → b i = a i) :
    Down b n 1 where
  rest i h1 hi hne := by
    rw [hb i h1 hi, hb (i / 2) (by omega) (by omega)]
    exact h i h1 (by omega)
  grand h1 := absurd h1 (Nat.lt_irrefl 1)

theorem Down.swap (h : Down a n p) (hq : q / 2 = p) (hn : q ≤ n)
    (hleast : ∀ i ≤ n, i / 2 = p → a q ≤ a i) (hlt : a q < a p) :
    Down (Heap.swap a q p) n q where
  rest i h1 hi hne := by
    by_cases hip : i = p
    · rw [hip, swap_right, swap_other a (show p / 2 ≠ q by omega) (by omega)]
      exact h.grand (hip ▸ h1) q hn hq
    · by_cases hiq : i = q
      · rw [hiq, hq, swap_left, swap_right]
        exact hlt.le
      · rw [swap_other a hiq hip]
        by_cases hparent : i / 2 = p
        · rw [hparent, swap_right]
          exact hleast i hi hparent
        · rw [swap_other a hne hparent]
          exact h.rest i h1 hi hparent
  grand _ i hi hchild := by
    rw [hq, swap_right, swap_other a (show i ≠ q by omega) (by omega)]
    have := h.rest i (by omega) hi (by omega)
    rw [hchild] at this
    exact this

theorem Down.ordered (h : Down a n p) (hp : ∀ i ≤ n, 1 < i → i / 2 = p → a p ≤ a i) :
    Ordered a n := by
  intro i h1 hi
  by_cases hparent : i / 2 = p
  · rw [hparent]
    exact hp i hi h1 hparent
  · exact h.rest i h1 hi hparent

theorem Ordered.first_le (h : Ordered a n) {i : ℕ} (h1 : 1 ≤ i) (hi : i ≤ n) : a 1 ≤ a i := by
  induction i using Nat.strong_induction_on with
  | _ i ih =>
    by_cases htop : i = 1
    · rw [htop]
    · exact (ih (i / 2) (by omega) (by omega) (by omega)).trans (h i (by omega) hi)

variable {α : Type} {f : ℕ → α} {R : Set α}

def Contains (f : ℕ → α) (n : ℕ) (R : Set α) : Prop := Set.BijOn f (Set.Icc 1 n) R

theorem Contains.swap (h : Contains f n R) (hp : p ∈ Set.Icc 1 n) (hq : q ∈ Set.Icc 1 n) :
    Contains (swap f p q) n R := by
  refine h.comp ⟨?_, (Equiv.swap p q).injective.injOn, ?_⟩
  · intro i hi
    by_cases hip : i = p
    · rwa [hip, Equiv.swap_apply_left]
    · by_cases hiq : i = q
      · rwa [hiq, Equiv.swap_apply_right]
      · rwa [Equiv.swap_apply_of_ne_of_ne hip hiq]
  · intro i hi
    refine ⟨Equiv.swap p q i, ?_, Equiv.swap_apply_self p q i⟩
    by_cases hip : i = p
    · rwa [hip, Equiv.swap_apply_left]
    · by_cases hiq : i = q
      · rwa [hiq, Equiv.swap_apply_right]
      · rwa [Equiv.swap_apply_of_ne_of_ne hip hiq]

theorem Contains.congr (h : Contains f n R) {g : ℕ → α} (hg : ∀ i, 1 ≤ i → i ≤ n → g i = f i) :
    Contains g n R :=
  Set.BijOn.congr h fun i hi => (hg i hi.1 hi.2).symm

theorem Contains.mem (h : Contains f n R) {i : ℕ} (h1 : 1 ≤ i) (hi : i ≤ n) : f i ∈ R :=
  h.mapsTo ⟨h1, hi⟩

theorem Contains.push (h : Contains f n R) {g : ℕ → α} (hg : ∀ i, 1 ≤ i → i ≤ n → g i = f i)
    (hnew : g (n + 1) ∉ R) : Contains g (n + 1) (insert (g (n + 1)) R) := by
  have hcongr := h.congr hg
  have hsplit : Set.Icc 1 (n + 1) = insert (n + 1) (Set.Icc 1 n) := by
    ext i
    simp only [Set.mem_Icc, Set.mem_insert_iff]
    omega
  rw [Contains, hsplit]
  exact Set.BijOn.insert hcongr hnew

/-- Without the first entry, whose place the last one takes. -/
theorem Contains.pop (h : Contains f (n + 1) R) {g : ℕ → α} (hfirst : g 1 = f (n + 1))
    (hg : ∀ i, 1 < i → i ≤ n → g i = f i) : Contains g n (R \ {f 1}) := by
  have hlast : n + 1 ∈ Set.Icc 1 (n + 1) := ⟨by omega, le_rfl⟩
  have hswap := h.swap (⟨le_rfl, by omega⟩ : 1 ∈ Set.Icc 1 (n + 1)) hlast
  have hremove := Set.BijOn.sdiff_singleton hswap hlast
  have hsplit : Set.Icc 1 (n + 1) \ {n + 1} = Set.Icc 1 n := by
    ext i
    simp only [Set.mem_Icc, Set.mem_sdiff, Set.mem_singleton_iff]
    omega
  rw [hsplit, swap_right] at hremove
  refine Contains.congr hremove fun i h1 hi => ?_
  by_cases hi1 : i = 1
  · rw [hi1, hfirst, swap_left]
  · rw [hg i (by omega) hi, swap_other f hi1 (by omega)]

end Heap
