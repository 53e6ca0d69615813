import Mathlib.Tactic.Common

/-!
# Attempts

A computation that succeeds, fails and says so, or goes wrong: a fault is an
assertion that does not hold, an access outside its buffer or a loop that does not
end. A property that always holds of an attempt excludes faults.
-/

inductive Attempt (α : Type) where
  | done (a : α)
  | fail
  | fault
  deriving DecidableEq

namespace Attempt
variable {α β : Type} {P Q : α → Prop} {R : β → Prop}

def andThen : Attempt α → (α → Attempt β) → Attempt β
  | .done a, f => f a
  | .fail, _ => .fail
  | .fault, _ => .fault

def require (p : Prop) [Decidable p] (x : Attempt α) : Attempt α := if p then x else .fault

/-- The attempt does not fault, and what it returns satisfies the property. -/
def Always (P : α → Prop) : Attempt α → Prop
  | .done a => P a
  | .fail => True
  | .fault => False

@[simp] theorem andThen_done (a : α) (f : α → Attempt β) : (done a).andThen f = f a := rfl
@[simp] theorem andThen_fail (f : α → Attempt β) : (fail : Attempt α).andThen f = .fail := rfl
@[simp] theorem always_done (a : α) : (done a).Always P ↔ P a := Iff.rfl
@[simp] theorem always_fail : (fail : Attempt α).Always P := trivial

theorem andThen_assoc {γ : Type} (x : Attempt α) (f : α → Attempt β) (g : β → Attempt γ) :
    (x.andThen f).andThen g = x.andThen fun a => (f a).andThen g := by
  cases x <;> rfl

theorem andThen_eq_done {x : Attempt α} {f : α → Attempt β} {b : β} (h : x.andThen f = .done b) :
    ∃ a, x = .done a ∧ f a = .done b := by
  cases x with
  | done a => exact ⟨a, rfl, h⟩
  | fail => cases h
  | fault => cases h

theorem Always.andThen {x : Attempt α} {f : α → Attempt β} (hx : x.Always P)
    (hf : ∀ a, P a → (f a).Always R) : (x.andThen f).Always R := by
  cases x with
  | done a => exact hf a hx
  | fail => trivial
  | fault => exact hx.elim

theorem andThen_congr {x : Attempt α} {f g : α → Attempt β} (hx : x.Always P)
    (hfg : ∀ a, P a → f a = g a) : x.andThen f = x.andThen g := by
  cases x with
  | done a => exact hfg a hx
  | fail => rfl
  | fault => exact hx.elim

theorem Always.mono {x : Attempt α} (hx : x.Always P) (himp : ∀ a, P a → Q a) : x.Always Q := by
  cases x with
  | done a => exact himp a hx
  | fail => trivial
  | fault => exact hx

theorem Always.exists_done {x : Attempt α} {f : α → β} {b : β} (hx : x.Always P)
    (h : (x.andThen fun a => .done (f a)) = .done b) : ∃ a, x = .done a ∧ P a ∧ f a = b := by
  cases x with
  | done a => exact ⟨a, rfl, hx, done.inj h⟩
  | fail => cases h
  | fault => cases h

theorem not_always_of_fault {x : Attempt α} {f : α → β}
    (h : (x.andThen fun a => .done (f a)) = .fault) : ¬ x.Always P := by
  cases x with
  | done a => cases h
  | fail => cases h
  | fault => exact id

/-- Two attempts end alike, neither with a fault, and what they return is related. -/
def Matches (S : α → β → Prop) : Attempt α → Attempt β → Prop
  | .done a, .done b => S a b
  | .fail, .fail => True
  | _, _ => False

section Matches
variable {S : α → β → Prop} {x : Attempt α} {y : Attempt β}

theorem Matches.andThen {γ δ : Type} {T : γ → δ → Prop} {f : α → Attempt γ} {g : β → Attempt δ}
    (h : x.Matches S y) (hfg : ∀ a b, S a b → (f a).Matches T (g b)) :
    (x.andThen f).Matches T (y.andThen g) := by
  cases x <;> cases y <;> first | exact h.elim | trivial | exact hfg _ _ h

/-- What the second returns determines what the first does. -/
theorem Matches.eq_andThen {f : β → α} (h : x.Matches S y) (hf : ∀ a b, S a b → a = f b) :
    x = y.andThen fun b => .done (f b) := by
  cases x <;> cases y <;>
    first | exact h.elim | rfl | exact congrArg Attempt.done (hf _ _ h)

theorem Matches.always_right (h : x.Matches S y) : y.Always fun b => ∃ a, S a b := by
  cases x <;> cases y <;> first | exact h.elim | trivial | exact ⟨_, h⟩

theorem Matches.always (h : x.Matches S y) : x.Always fun a => ∃ b, S a b := by
  cases x <;> cases y <;> first | exact h.elim | trivial | exact ⟨_, h⟩

theorem Always.matches (h : x.Always P) : x.Matches (fun a b => a = b ∧ P a) x := by
  cases x with
  | done a => exact ⟨rfl, h⟩
  | fail => trivial
  | fault => exact h.elim

end Matches

theorem always_require {p : Prop} [Decidable p] {x : Attempt α} (hp : p) (hx : x.Always P) :
    (require p x).Always P := by
  rw [require, if_pos hp]
  exact hx

end Attempt
