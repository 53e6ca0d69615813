import Mathlib.Algebra.GroupWithZero.Nat
import Mathlib.Data.List.Basic
import Mathlib.Tactic.Common

/-!
# Deltas

A delta is a list of instructions that extend an output: a run of one symbol, new
symbols, a copy from a source, or a copy from the output itself. A copy from the
output may overlap what it writes.
-/
namespace Delta
variable {α : Type}

/-- The loop of an overlapping copy: `n` symbols from position `i` of the output on. -/
def copyOverlap (out : List α) (i : ℕ) : ℕ → Option (List α)
  | 0 => some out
  | n + 1 =>
    match out[i]? with
    | none => none
    | some b => copyOverlap (out ++ [b]) (i + 1) n

theorem copyOverlap_zero (out : List α) (i : ℕ) : copyOverlap out i 0 = some out := rfl

theorem copyOverlap_succ {out : List α} {i : ℕ} (h : i < out.length) (n : ℕ) :
    copyOverlap out i (n + 1) = copyOverlap (out ++ [out[i]]) (i + 1) n := by
  rw [copyOverlap, List.getElem?_eq_getElem h]

theorem copyOverlap_eq_some {out : List α} {i : ℕ} (h : i < out.length) (n : ℕ) :
    ∃ added, copyOverlap out i n = some (out ++ added) ∧ added.length = n := by
  induction n generalizing out i with
  | zero => exact ⟨[], by rw [copyOverlap_zero, List.append_nil], rfl⟩
  | succ n ih =>
    have hlt : i + 1 < (out ++ [out[i]]).length := by
      rw [List.length_append]
      exact Nat.succ_lt_succ h
    obtain ⟨added, ha, hlen⟩ := ih hlt
    refine ⟨out[i] :: added, ?_, by rw [List.length_cons, hlen]⟩
    rw [copyOverlap_succ h, ha, List.append_assoc]
    rfl

theorem copyOverlap_eq_none {out : List α} {i : ℕ} (h : out.length ≤ i) {n : ℕ} (hn : n ≠ 0) :
    copyOverlap out i n = none := by
  obtain ⟨n, rfl⟩ := Nat.exists_eq_succ_of_ne_zero hn
  rw [copyOverlap, List.getElem?_eq_none h]

/-- What lies before the position copied from does not matter. -/
theorem copyOverlap_append (pre out : List α) (i n : ℕ) :
    copyOverlap (pre ++ out) (pre.length + i) n = (copyOverlap out i n).map (pre ++ ·) := by
  induction n generalizing out i with
  | zero => rfl
  | succ n ih =>
    by_cases h : i < out.length
    · have h' : pre.length + i < (pre ++ out).length := by
        rw [List.length_append]
        exact Nat.add_lt_add_left h _
      have hget : (pre ++ out)[pre.length + i] = out[i] := by
        rw [List.getElem_append_right (Nat.le_add_right _ _)]
        congr 1
        exact Nat.add_sub_cancel_left _ _
      rw [copyOverlap_succ h', copyOverlap_succ h, hget, List.append_assoc, Nat.add_assoc, ih]
    · have hle := Nat.le_of_not_lt h
      rw [copyOverlap_eq_none hle n.succ_ne_zero, copyOverlap_eq_none _ n.succ_ne_zero]
      · rfl
      · rw [List.length_append]
        exact Nat.add_le_add_left hle _

/-- The symbols an overlapping copy writes repeat those from the position copied from on. -/
theorem copyOverlap_getElem {out out' : List α} {i n : ℕ} (h : copyOverlap out i n = some out')
    {k : ℕ} (hk : k < n) : out'[out.length + k]? = out'[i + k]? := by
  induction n generalizing out i k with
  | zero => omega
  | succ n ih =>
    by_cases hlt : i < out.length
    · rw [copyOverlap_succ hlt] at h
      have hlen : (out ++ [out[i]]).length = out.length + 1 := List.length_append
      cases k with
      | zero =>
        have hlt' : i + 1 < (out ++ [out[i]]).length := by omega
        obtain ⟨added, ha, -⟩ := copyOverlap_eq_some hlt' n
        rw [ha] at h
        cases h
        rw [Nat.add_zero, Nat.add_zero, List.append_assoc, List.getElem?_append_right (Nat.le_refl _),
          Nat.sub_self, List.getElem?_append_left hlt, List.getElem?_eq_getElem hlt]
        rfl
      | succ k =>
        have := ih h (Nat.lt_of_succ_lt_succ hk)
        rw [hlen] at this
        rw [show out.length + (k + 1) = out.length + 1 + k by omega,
          show i + (k + 1) = i + 1 + k by omega]
        exact this
    · rw [copyOverlap_eq_none (Nat.le_of_not_lt hlt) n.succ_ne_zero] at h
      cases h

/-- An instruction; the position of a target copy counts from the start of the output. -/
inductive Op (α : Type) where
  | run (size : ℕ) (b : α)
  | add (bytes : List α)
  | source (addr size : ℕ)
  | target (addr size : ℕ)
  deriving DecidableEq

namespace Op

def size : Op α → ℕ
  | run n _ => n
  | add bytes => bytes.length
  | source _ n => n
  | target _ n => n

def apply (src out : List α) : Op α → Option (List α)
  | run n b => some (out ++ List.replicate n b)
  | add bytes => some (out ++ bytes)
  | source a n => if n = 0 ∨ a + n ≤ src.length then some (out ++ (src.drop a).take n) else none
  | target a n => copyOverlap out a n

/-- An instruction carried out has written as many symbols as its size says. -/
theorem apply_eq_some {src out out' : List α} {o : Op α} (h : o.apply src out = some out') :
    ∃ added, out' = out ++ added ∧ added.length = o.size := by
  cases o with
  | run n b => exact ⟨_, (Option.some.inj h).symm, List.length_replicate⟩
  | add bytes => exact ⟨_, (Option.some.inj h).symm, rfl⟩
  | source a n =>
    rw [apply] at h
    split at h
    · refine ⟨_, (Option.some.inj h).symm, ?_⟩
      rw [List.length_take, List.length_drop, size]
      omega
    · cases h
  | target a n =>
    rw [apply] at h
    by_cases hn : n = 0
    · subst hn
      exact ⟨[], by rw [List.append_nil]; exact (Option.some.inj h).symm, rfl⟩
    · by_cases hlt : a < out.length
      · obtain ⟨added, ha, hlen⟩ := copyOverlap_eq_some hlt n
        rw [ha] at h
        exact ⟨added, (Option.some.inj h).symm, hlen⟩
      · rw [copyOverlap_eq_none (Nat.le_of_not_lt hlt) hn] at h
        cases h

theorem length_apply {src out out' : List α} {o : Op α} (h : o.apply src out = some out') :
    out'.length = out.length + o.size := by
  obtain ⟨added, rfl, hlen⟩ := apply_eq_some h
  rw [List.length_append, hlen]

theorem apply_source_of_le {src : List α} {a n : ℕ} (h : n = 0 ∨ a + n ≤ src.length)
    (out : List α) : (source a n).apply src out = some (out ++ (src.drop a).take n) := if_pos h

theorem apply_source_of_lt {src : List α} {a n : ℕ} (h0 : n ≠ 0) (h : src.length < a + n)
    (out : List α) : (source a n).apply src out = none :=
  if_neg fun hc => hc.elim h0 (Nat.not_le.mpr h)

theorem apply_source_add (src out : List α) (a m n : ℕ) :
    (source a (m + n)).apply src out =
      ((source a m).apply src out).bind fun out' => (source (a + m) n).apply src out' := by
  simp only [apply]
  by_cases h : m + n = 0 ∨ a + (m + n) ≤ src.length
  · rw [if_pos h, if_pos (by omega), Option.bind_some, if_pos (by omega), List.append_assoc,
      ← List.drop_drop, ← List.take_add]
  · rw [if_neg h]
    by_cases hm : m = 0 ∨ a + m ≤ src.length
    · rw [if_pos hm, Option.bind_some, if_neg (by omega)]
    · rw [if_neg hm]
      rfl

/-- The same instruction where the output has `d` symbols more in front. -/
def shift (d : ℕ) : Op α → Op α
  | target a n => target (d + a) n
  | o => o

@[simp] theorem size_shift (d : ℕ) (o : Op α) : (o.shift d).size = o.size := by
  cases o <;> rfl

theorem apply_shift (src pre out : List α) (o : Op α) :
    (o.shift pre.length).apply src (pre ++ out) = (o.apply src out).map (pre ++ ·) := by
  cases o with
  | run n b => simp [shift, apply]
  | add bytes => simp [shift, apply]
  | source a n =>
    simp only [shift, apply]
    split
    · simp
    · rfl
  | target a n => exact copyOverlap_append pre out a n

end Op

def interp (src out : List α) (ops : List (Op α)) : Option (List α) :=
  ops.foldlM (fun out o => o.apply src out) out

@[simp] theorem interp_nil (src out : List α) : interp src out [] = some out := rfl

@[simp] theorem interp_cons (src out : List α) (o : Op α) (ops : List (Op α)) :
    interp src out (o :: ops) = (o.apply src out).bind fun out' => interp src out' ops := rfl

end Delta
