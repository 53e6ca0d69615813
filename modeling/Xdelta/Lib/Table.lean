import Xdelta.Lib.Attempt

/-!
# Tables

Arrays of a fixed size whose entries need not have been written. Reading an entry
that has not, or any access outside the table, is a fault.
-/

/-- An array; an entry that has not been written is `none`. -/
abbrev Table (α : Type) := List (Option α)

namespace Table
variable {α : Type} {t : Table α} {i j : ℕ} {v w : α} {P : α → Prop}

def blank (n : ℕ) : Table α := List.replicate n none

def read (t : Table α) (i : ℕ) : Attempt α :=
  match t[i]? with
  | some (some v) => .done v
  | _ => .fault

def write (t : Table α) (i : ℕ) (v : α) : Attempt (Table α) :=
  .require (i < t.length) (.done (t.set i (some v)))

def Has (t : Table α) (i : ℕ) (v : α) : Prop := t[i]? = some (some v)

theorem Has.lt (h : t.Has i v) : i < t.length := (List.getElem?_eq_some_iff.1 h).1

theorem Has.read (h : t.Has i v) : t.read i = .done v := by
  rw [Table.read, h]

theorem write_eq (h : i < t.length) (v : α) : t.write i v = .done (t.set i (some v)) := if_pos h

theorem has_set_self (h : i < t.length) (v : α) : Has (t.set i (some v)) i v :=
  List.getElem?_set_self h

theorem Has.set_ne (h : t.Has j v) (hne : i ≠ j) (w : Option α) : Has (t.set i w) j v := by
  rw [Has, List.getElem?_set_ne hne]
  exact h

@[simp] theorem length_blank (n : ℕ) : (blank n : Table α).length = n := List.length_replicate

/-- The entries from `i` on, as many as asked for. -/
def slice (t : Table α) : ℕ → ℕ → Attempt (List α)
  | _, 0 => .done []
  | i, n + 1 =>
    (t.read i).andThen fun v => (t.slice (i + 1) n).andThen fun vs => .done (v :: vs)

/-- The first `n` entries are there, and their values satisfy the property. -/
def Holds (t : Table α) (n : ℕ) (P : α → Prop) : Prop := ∀ i < n, ∃ v, t.Has i v ∧ P v

theorem holds_zero (t : Table α) (P : α → Prop) : t.Holds 0 P :=
  fun i hi => absurd hi (Nat.not_lt_zero i)

theorem Holds.read {n : ℕ} (h : t.Holds n P) (hi : i < n) : (t.read i).Always P := by
  obtain ⟨v, hv, hP⟩ := h i hi
  rw [hv.read]
  exact hP

theorem Holds.push {n : ℕ} (h : t.Holds n P) (hn : n < t.length) (hv : P v) :
    (t.write n v).Always fun t' => Holds t' (n + 1) P ∧ t'.length = t.length := by
  rw [write_eq hn]
  refine ⟨fun i hi => ?_, List.length_set⟩
  by_cases hin : n = i
  · exact ⟨v, hin ▸ has_set_self hn v, hv⟩
  · obtain ⟨w, hw, hP⟩ := h i (by omega)
    exact ⟨w, hw.set_ne hin _, hP⟩

def overlay (l : List α) (t : Table α) : Table α := l.map some ++ t.drop l.length

@[simp] theorem overlay_nil (t : Table α) : overlay [] t = t := rfl

theorem length_overlay {l : List α} (h : l.length ≤ t.length) : (overlay l t).length = t.length := by
  rw [overlay, List.length_append, List.length_map, List.length_drop]
  omega

theorem overlay_has {l : List α} (h : l[i]? = some v) : (overlay l t).Has i v := by
  have hi : i < (l.map some).length := by
    rw [List.length_map]
    exact (List.getElem?_eq_some_iff.1 h).1
  rw [Has, overlay, List.getElem?_append_left hi, List.getElem?_map, h]
  rfl

theorem overlay_read {l : List α} (h : l[i]? = some v) : (overlay l t).read i = .done v :=
  (overlay_has h).read

theorem overlay_write {l : List α} (h : i < l.length) (v : α) :
    (overlay l t).write i v = .done (overlay (l.set i v) t) := by
  have hi : i < (l.map some).length := by rwa [List.length_map]
  rw [write_eq (by rw [overlay, List.length_append]; omega), overlay, overlay, List.set_append_left _ _ hi,
    List.map_set, List.length_set]

theorem overlay_push {l : List α} (h : l.length < t.length) (v : α) :
    (overlay l t).write l.length v = .done (overlay (l ++ [v]) t) := by
  have hle : (l.map some).length ≤ l.length := Nat.le_of_eq (List.length_map some)
  rw [write_eq (by rwa [length_overlay (Nat.le_of_lt h)]), overlay, overlay, List.set_append_right _ _ hle,
    List.length_map, Nat.sub_self, List.drop_eq_getElem_cons h, List.set_cons_zero, List.map_append,
    List.length_append, List.append_assoc]
  rfl

theorem overlay_holds {l : List α} (h : ∀ v ∈ l, P v) : (overlay l t).Holds l.length P :=
  fun _ hi => ⟨l[_], overlay_has (List.getElem?_eq_getElem hi), h _ (List.getElem_mem hi)⟩

theorem overlay_slice {l : List α} {n : ℕ} (h : i + n ≤ l.length) :
    (overlay l t).slice i n = .done ((l.drop i).take n) := by
  induction n generalizing i with
  | zero => rw [List.take_zero, slice]
  | succ n ih =>
    have hi : i < l.length := by omega
    rw [slice, overlay_read (List.getElem?_eq_getElem hi), Attempt.andThen_done, ih (by omega),
      Attempt.andThen_done, List.drop_eq_getElem_cons hi, List.take_succ_cons]

theorem overlay_append (l m : List α) (t : Table α) :
    overlay (l ++ m) t = overlay l (overlay (l ++ m) t) := by
  have hlen : l.length = (l.map some).length := (List.length_map some).symm
  conv_rhs => rw [overlay]
  rw [overlay, List.map_append, List.append_assoc, List.drop_append_of_le_length (by omega),
    hlen, List.drop_length, List.nil_append]

end Table
