import Mathlib.Order.Lattice.Nat
import Mathlib.Logic.Function.Iterate
import Mathlib.Tactic.Common

/-!
# A cache filled forward

Items numbered from 0 on are put into `n` slots in turn, each evicting the item
`n` places before it. A request for an item reads ahead to it, or fails when the
item has been evicted.
-/
namespace Fifo

structure Cache where
  slots : ℕ → Option ℕ := fun _ => none
  next : ℕ := 0

namespace Cache

def fill (n : ℕ) (r : Cache) : Cache where
  slots := Function.update r.slots (r.next % n) (some r.next)
  next := r.next + 1

/-- Read ahead up to item `b`. -/
def readTo (n b : ℕ) (r : Cache) : Cache := (fill n)^[b + 1 - r.next] r

/-- A request for item `b`: found in its slot, evicted by a later one, or read ahead to. -/
def request (n : ℕ) (r : Cache) (b : ℕ) : Option Cache :=
  match r.slots (b % n) with
  | none => some (r.readTo n b)
  | some c => if c = b then some r else if b < c then none else some (r.readTo n b)

/-- Requests for `count` items in a row. -/
def serve (n : ℕ) (r : Cache) (first count : ℕ) : Option Cache :=
  (List.range' first count).foldlM (request n) r

def upto (n : ℕ) : ℕ → Cache
  | 0 => {}
  | p + 1 => (upto n p).fill n

variable {n p b i : ℕ}

@[simp] theorem upto_next (n p : ℕ) : (upto n p).next = p := by
  induction p with
  | zero => rfl
  | succ p ih => rw [upto, fill, ih]

theorem iterate_fill_upto (n k p : ℕ) : (fill n)^[k] (upto n p) = upto n (p + k) := by
  induction k with
  | zero => rfl
  | succ k ih =>
    rw [Function.iterate_succ_apply', ih]
    rfl

theorem readTo_upto (n b p : ℕ) : (upto n p).readTo n b = upto n (max p (b + 1)) := by
  rw [readTo, iterate_fill_upto, upto_next]
  congr 1
  omega

/-- Two items in one slot are at least `n` places apart. -/
theorem eq_of_mod_eq (hmod : i % n = b % n) (hle : b ≤ i) (hlt : i < b + n) : b = i := by
  have hdvd : n ∣ i - b := Nat.dvd_of_mod_eq_zero (Nat.sub_mod_eq_zero_of_mod_eq hmod)
  have hzero := Nat.eq_zero_of_dvd_of_lt hdvd (by omega)
  omega

/-- A slot holds an item exactly when it is the item's slot and the item is among the last `n`. -/
theorem upto_slots (hn : 0 < n) :
    (upto n p).slots i = some b ↔ b % n = i ∧ b < p ∧ p ≤ b + n := by
  induction p with
  | zero => simp [upto]
  | succ p ih =>
    rw [upto, fill, upto_next]
    dsimp only
    by_cases hi : i = p % n
    · rw [hi, Function.update_self, Option.some_inj]
      constructor
      · rintro rfl
        exact ⟨rfl, Nat.lt_succ_self _, Nat.add_le_add_left hn _⟩
      · rintro ⟨hmod, hlt, hle⟩
        exact (eq_of_mod_eq hmod.symm (by omega) (by omega)).symm
    · rw [Function.update_of_ne hi, ih]
      refine and_congr_right fun hmod => ?_
      have hne : b ≠ p := fun h => hi (h ▸ hmod.symm)
      have hfar : p ≠ b + n := fun h => hi (by rw [h, Nat.add_mod_right, hmod])
      omega

theorem exists_upto_slots (hb : b < p) :
    ∃ c, (upto n p).slots (b % n) = some c ∧ b ≤ c := by
  induction p with
  | zero => exact absurd hb (Nat.not_lt_zero _)
  | succ p ih =>
    rw [upto, fill, upto_next]
    dsimp only
    by_cases hi : b % n = p % n
    · rw [hi, Function.update_self]
      exact ⟨p, rfl, Nat.le_of_lt_succ hb⟩
    · rw [Function.update_of_ne hi]
      exact ih (lt_of_le_of_ne (Nat.le_of_lt_succ hb) fun h => hi (h ▸ rfl))

/-- A request is served unless the item is more than `n` places behind. -/
theorem request_upto (hn : 0 < n) :
    (upto n p).request n b = if p ≤ b + n then some (upto n (max p (b + 1))) else none := by
  rw [request]
  cases hslot : (upto n p).slots (b % n) with
  | none =>
    have hle : p ≤ b := Nat.le_of_not_lt fun hlt => by
      obtain ⟨c, hc, -⟩ := exists_upto_slots hlt
      exact Option.some_ne_none c (hc.symm.trans hslot)
    dsimp only
    rw [if_pos (hle.trans (Nat.le_add_right _ _)), readTo_upto]
  | some c =>
    obtain ⟨hmod, hlt, hnear⟩ := (upto_slots hn).mp hslot
    dsimp only
    by_cases hcb : c = b
    · rw [if_pos hcb, if_pos (hcb ▸ hnear), max_eq_left (by omega)]
    · by_cases hbc : b < c
      · have hfar : ¬ p ≤ b + n := fun h => hcb (eq_of_mod_eq hmod hbc.le (by omega)).symm
        rw [if_neg hcb, if_pos hbc, if_neg hfar]
      · have hle : p ≤ b := Nat.le_of_not_lt fun h => by
          obtain ⟨d, hd, hbd⟩ := exists_upto_slots h
          have hcd : c = d := Option.some_inj.mp (hslot.symm.trans hd)
          omega
        rw [if_neg hcb, if_neg hbc, if_pos (hle.trans (Nat.le_add_right _ _)), readTo_upto]

theorem serve_upto (hn : 0 < n) (first count : ℕ) :
    (upto n p).serve n first (count + 1) =
      if p ≤ first + n then some (upto n (max p (first + count + 1))) else none := by
  induction count generalizing p first with
  | zero =>
    rw [serve, List.range'_one, List.foldlM_cons, request_upto hn]
    split <;> rfl
  | succ count ih =>
    rw [serve, List.range'_succ, List.foldlM_cons, request_upto hn]
    split
    · have hnext : max p (first + 1) ≤ first + 1 + n := by omega
      have hrest := @ih (max p (first + 1)) (first + 1)
      rw [if_pos hnext, serve] at hrest
      rw [Option.bind_eq_bind, Option.bind_some, hrest]
      congr 2
      omega
    · rfl

end Cache

end Fifo
