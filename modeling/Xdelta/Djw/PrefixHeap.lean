import Xdelta.Djw.Prefix
import Mathlib.Order.Lex
import Mathlib.Order.Hom.Lex
import Mathlib.Data.List.GetD

/-!
# The heap of the Huffman tree

The two operations keep the indices in heap order, least weight first, and lose
none of them. Entry zero is not greater than any, so that it ends every way up.
-/
namespace Xdelta.Djw
open Heap

/-- What `heap_less` compares. -/
def heapKey (e : Heapen) : ℕ ×ₗ ℕ := toLex (e.freq, e.depth)

theorem heapLess_iff (a b : Heapen) : heapLess a b = true ↔ heapKey a < heapKey b := by
  rw [heapKey, heapKey, Prod.Lex.toLex_lt_toLex]
  simp [heapLess]

def slotKey (ents : List Heapen) (heap : List ℕ) (p : ℕ) : ℕ ×ₗ ℕ :=
  heapKey (ent ents (slot heap p))

theorem slot_set {heap : List ℕ} {p v : ℕ} (hp : p < heap.length) (q : ℕ) :
    slot (heap.set p v) q = if q = p then v else slot heap q := by
  unfold slot
  by_cases hq : q = p
  · rw [if_pos hq, hq, List.getD_eq_getElem?_getD, List.getElem?_set_self hp]
    rfl
  · rw [if_neg hq, List.getD_eq_getElem?_getD, List.getElem?_set_ne (Ne.symm hq),
      List.getD_eq_getElem?_getD]

theorem slot_set_ne {heap : List ℕ} {p q v : ℕ} (hq : q ≠ p) :
    slot (heap.set p v) q = slot heap q := by
  rw [slot, slot, List.getD_eq_getElem?_getD, List.getElem?_set_ne (Ne.symm hq),
    List.getD_eq_getElem?_getD]

theorem slot_set_self {heap : List ℕ} {p v : ℕ} (hp : p < heap.length) :
    slot (heap.set p v) p = v := by
  rw [slot_set hp, if_pos rfl]

theorem set_slot {heap : List ℕ} {p : ℕ} (hp : p < heap.length) :
    heap.set p (slot heap p) = heap := by
  rw [slot, List.getD_eq_getElem _ _ hp, List.set_getElem_self]

/-- The heap as the operations leave it: its entries, its order, and the entry that ends every
way up. -/
structure IsHeap (ents : List Heapen) (heap : List ℕ) (n : ℕ) (R : Set ℕ) : Prop where
  contains : Contains (slot heap) n R
  ordered : Ordered (slotKey ents heap) n
  slot_zero : slot heap 0 = 0
  least : heapKey (ent ents 0) = toLex (0, 0)
  length_eq : heap.length = 257

theorem least_le (e : Heapen) : toLex ((0 : ℕ), (0 : ℕ)) ≤ heapKey e := by
  rw [heapKey, Prod.Lex.toLex_le_toLex]
  rcases Nat.eq_zero_or_pos e.freq with hfreq | hfreq
  · exact Or.inr ⟨hfreq.symm, Nat.zero_le _⟩
  · exact Or.inl hfreq

theorem slot_swap {heap : List ℕ} {p q e : ℕ} (hp : p < heap.length) (hq : q < heap.length)
    (hne : p ≠ q) :
    slot ((heap.set p (slot heap q)).set q e) = swap (slot (heap.set p e)) p q := by
  funext i
  rw [slot_set (by rwa [List.length_set])]
  by_cases hiq : i = q
  · rw [if_pos hiq, hiq, swap_right, slot_set_self hp]
  · rw [if_neg hiq]
    by_cases hip : i = p
    · rw [hip, slot_set_self hp, swap_left, slot_set_ne (Ne.symm hne)]
    · rw [slot_set_ne hip, swap_other _ hip hiq, slot_set_ne hip]

variable {ents : List Heapen} {heap : List ℕ} {n e : ℕ} {R : Set ℕ}

theorem slotKey_swap {heap' : List ℕ} {p q : ℕ} (h : slot heap' = swap (slot heap) p q) :
    slotKey ents heap' = swap (slotKey ents heap) p q := by
  funext i
  rw [slotKey, h]
  rfl

theorem heapInsertLoop_spec {fuel p : ℕ} (hfuel : p ≤ fuel) (hpos : 0 < p) (hn : p ≤ n)
    (hlen : n < heap.length) (hcont : Contains (slot (heap.set p e)) n R)
    (hup : Up (slotKey ents (heap.set p e)) n p) (hzero : slot heap 0 = 0)
    (hleast : heapKey (ent ents 0) = toLex (0, 0)) :
    ∃ heap', heapInsertLoop ents e fuel p heap = some heap' ∧ heap'.length = heap.length ∧
      slot heap' 0 = 0 ∧ Contains (slot heap') n R ∧ Ordered (slotKey ents heap') n := by
  induction fuel generalizing p heap with
  | zero => omega
  | succ fuel ih =>
    rw [heapInsertLoop]
    have hself : slotKey ents (heap.set p e) p = heapKey (ent ents e) := by
      rw [slotKey, slot_set_self (by omega)]
    have hparent : slotKey ents (heap.set p e) (p / 2) =
        heapKey (ent ents (slot heap (p / 2))) := by
      rw [slotKey, slot_set_ne (by omega)]
    by_cases hless : heapLess (ent ents e) (ent ents (slot heap (p / 2))) = true
    · rw [if_pos hless]
      rw [heapLess_iff, ← hself, ← hparent] at hless
      have hp1 : 1 < p := by
        by_contra hle
        have hhalf : p / 2 = 0 := by omega
        rw [hparent, hhalf, hzero, hleast] at hless
        exact absurd hless (not_lt.2 (least_le _))
      have hswap := slot_swap (e := e) (show p < heap.length by omega)
        (show p / 2 < heap.length by omega) (by omega)
      obtain ⟨heap', hrun, hlen', hspec⟩ := @ih (heap.set p (slot heap (p / 2))) (p / 2)
        (by omega) (by omega) (by omega) (by rw [List.length_set]; exact hlen)
        (by rw [hswap]; exact hcont.swap ⟨hpos, hn⟩ ⟨by omega, by omega⟩)
        (by rw [slotKey_swap hswap]; exact hup.swap hp1 hn hless)
        (by rw [slot_set_ne (by omega)]; exact hzero)
      exact ⟨heap', hrun, hlen'.trans List.length_set, hspec⟩
    · rw [if_neg hless]
      rw [heapLess_iff, ← hself, ← hparent, not_lt] at hless
      refine ⟨_, rfl, List.length_set, ?_, hcont, hup.ordered fun _ => hless⟩
      rw [slot_set_ne (by omega)]
      exact hzero

theorem IsHeap.insert (h : IsHeap ents heap n R) (hn : n < 256) (he : e ∉ R) :
    ∃ heap', heapInsert heap ents (n + 1) e = some heap' ∧
      IsHeap ents heap' (n + 1) (insert e R) := by
  have hlen := h.length_eq
  have hself : slot (heap.set (n + 1) e) (n + 1) = e := slot_set_self (by omega)
  have hbelow : ∀ i ≤ n, slot (heap.set (n + 1) e) i = slot heap i :=
    fun i hi => slot_set_ne (by omega)
  have hcont := h.contains.push (fun i _ hi => hbelow i hi) (by rw [hself]; exact he)
  rw [hself] at hcont
  have hup : Up (slotKey ents (heap.set (n + 1) e)) (n + 1) (n + 1) :=
    h.ordered.up fun i hi => by rw [slotKey, slotKey, hbelow i hi]
  obtain ⟨heap', hrun, hlen', hzero, hcont', hord⟩ := heapInsertLoop_spec le_rfl
    (Nat.succ_pos n) le_rfl (by omega) hcont hup h.slot_zero h.least
  exact ⟨heap', hrun, hcont', hord, hzero, h.least, hlen'.trans hlen⟩

theorem lesserChild_spec (ents : List Heapen) {n p : ℕ} (heap : List ℕ) (hp : p * 2 ≤ n) :
    lesserChild ents n p heap / 2 = p ∧ lesserChild ents n p heap ≤ n ∧
      ∀ i ≤ n, 0 < p → i / 2 = p →
        slotKey ents heap (lesserChild ents n p heap) ≤ slotKey ents heap i := by
  unfold lesserChild
  by_cases hless : p * 2 < n ∧
      heapLess (ent ents (slot heap (p * 2 + 1))) (ent ents (slot heap (p * 2))) = true
  · rw [if_pos hless]
    obtain ⟨hlt, hkey⟩ := hless
    rw [heapLess_iff] at hkey
    refine ⟨by omega, by omega, fun i hi hpos hchild => ?_⟩
    rcases (show i = p * 2 ∨ i = p * 2 + 1 by omega) with rfl | rfl
    · exact hkey.le
    · exact le_rfl
  · rw [if_neg hless]
    refine ⟨by omega, hp, fun i hi hpos hchild => ?_⟩
    rcases (show i = p * 2 ∨ i = p * 2 + 1 by omega) with rfl | rfl
    · exact le_rfl
    · rw [not_and, heapLess_iff, not_lt] at hless
      exact hless (by omega)

theorem heapExtractLoop_spec {fuel p : ℕ} (hfuel : n + 2 ≤ fuel + p) (hpos : 0 < p)
    (hn : p = 1 ∨ p ≤ n) (hlen : n < heap.length) (hlen1 : 1 < heap.length)
    (hcont : Contains (slot heap) n R) (hdown : Down (slotKey ents heap) n p)
    (hzero : slot heap 0 = 0) :
    ∃ heap', heapExtractLoop ents n fuel p heap = some heap' ∧ heap'.length = heap.length ∧
      slot heap' 0 = 0 ∧ Contains (slot heap') n R ∧ Ordered (slotKey ents heap') n := by
  induction fuel generalizing p heap with
  | zero => omega
  | succ fuel ih =>
    rw [heapExtractLoop]
    by_cases hbottom : n < p * 2
    · rw [if_pos hbottom]
      exact ⟨heap, rfl, rfl, hzero, hcont, hdown.ordered fun i hi h1 hchild => by omega⟩
    · rw [if_neg hbottom]
      obtain ⟨hchild, hle, hleast⟩ := lesserChild_spec ents heap (Nat.le_of_not_lt hbottom)
      generalize lesserChild ents n p heap = pc at hchild hle hleast ⊢
      dsimp only
      by_cases hless : heapLess (ent ents (slot heap pc)) (ent ents (slot heap p)) = true
      · rw [if_pos hless]
        rw [heapLess_iff] at hless
        have hswap : slot ((heap.set pc (slot heap p)).set p (slot heap pc)) =
            swap (slot heap) pc p := by
          have := slot_swap (e := slot heap pc) (show pc < heap.length by omega)
            (show p < heap.length by omega) (by omega)
          rwa [set_slot (by omega)] at this
        obtain ⟨heap', hrun, hlen', hspec⟩ := @ih
          ((heap.set pc (slot heap p)).set p (slot heap pc)) pc (by omega) (by omega)
          (Or.inr hle) (by simpa using hlen) (by simpa using hlen1)
          (by rw [hswap]; exact hcont.swap ⟨by omega, hle⟩ ⟨hpos, by omega⟩)
          (by
            rw [slotKey_swap hswap]
            exact hdown.swap hchild hle (fun i hi => hleast i hi hpos) hless)
          (by rw [hswap, swap_other _ (by omega) (by omega)]; exact hzero)
        exact ⟨heap', hrun, by rw [hlen', List.length_set, List.length_set], hspec⟩
      · rw [if_neg hless]
        rw [heapLess_iff, not_lt] at hless
        exact ⟨heap, rfl, rfl, hzero, hcont, hdown.ordered fun i hi h1 hi2 =>
          hless.trans (hleast i hi hpos hi2)⟩

theorem IsHeap.extract (h : IsHeap ents heap (n + 1) R) (hn : n < 256) :
    ∃ x heap', heapExtract heap ents n = some (x, heap') ∧ x ∈ R ∧
      (∀ y ∈ R, heapKey (ent ents x) ≤ heapKey (ent ents y)) ∧
      IsHeap ents heap' n (R \ {x}) := by
  have hlen := h.length_eq
  have hfirst : slot (heap.set 1 (slot heap (n + 1))) 1 = slot heap (n + 1) :=
    slot_set_self (by omega)
  have hrest : ∀ i, 1 < i → i ≤ n →
      slot (heap.set 1 (slot heap (n + 1))) i = slot heap i :=
    fun i h1 _ => slot_set_ne (by omega)
  have hdown : Down (slotKey ents (heap.set 1 (slot heap (n + 1)))) n 1 :=
    h.ordered.down fun i h1 hi => by rw [slotKey, slotKey, hrest i h1 hi]
  have hfuel : n + 2 ≤ (n + 1) + 1 := le_rfl
  obtain ⟨heap', hrun, hlen', hzero, hcont, hord⟩ := heapExtractLoop_spec hfuel
    Nat.one_pos (Or.inl rfl) (by rw [List.length_set]; omega) (by rw [List.length_set]; omega)
    (h.contains.pop hfirst hrest) hdown (by rw [slot_set_ne (by omega)]; exact h.slot_zero)
  refine ⟨slot heap 1, heap', by rw [heapExtract, hrun]; rfl, h.contains.mem le_rfl (by omega),
    ?_, hcont, hord, hzero, h.least, by rw [hlen', List.length_set, hlen]⟩
  intro y hy
  obtain ⟨i, hi, rfl⟩ := h.contains.surjOn hy
  exact h.ordered.first_le hi.1 hi.2

end Xdelta.Djw
