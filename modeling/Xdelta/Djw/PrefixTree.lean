import Xdelta.Djw.PrefixHeap
import Xdelta.Lib.JoinLeast
import Mathlib.Algebra.BigOperators.Ring.Finset
import Mathlib.Algebra.Order.BigOperators.Group.Finset
import Mathlib.Data.Nat.Fib.Basic
import Mathlib.Data.Rat.Defs
import Mathlib.Tactic.Ring
import Mathlib.Tactic.FieldSimp

/-!
# The trees under the heap

Every symbol is in the tree of one root of the heap. The lengths of the codes in
a tree satisfy the Kraft equality, and because the two lightest trees are joined,
a deep tree is heavy: its weight grows with its depth as the Fibonacci numbers do.
The heap takes what is least in the list of its roots in order, so that the depth
of the last tree depends on the frequencies alone.
-/
namespace Xdelta.Djw
open Heap JoinLeast

theorem ent_set_self {ents : List Heapen} {i : ℕ} (hi : i < ents.length) (e : Heapen) :
    ent (ents.set i e) i = e := by
  rw [ent, List.getD_eq_getElem?_getD, List.getElem?_set_self hi]
  rfl

theorem ent_set_ne {ents : List Heapen} {i j : ℕ} (hj : j ≠ i) (e : Heapen) :
    ent (ents.set i e) j = ent ents j := by
  rw [ent, ent, List.getD_eq_getElem?_getD, List.getElem?_set_ne (Ne.symm hj),
    List.getD_eq_getElem?_getD]

/-- From `i` it is `b` parents up to `r`, by way of the entries before `m`. -/
def Path (ents : List Heapen) (m : ℕ) : ℕ → ℕ → ℕ → Prop
  | 0, i, r => i = r ∧ r < m
  | b + 1, i, r => i < m ∧ (ent ents i).parent ≠ 0 ∧ Path ents m b (ent ents i).parent r

theorem codeLength_path {ents : List Heapen} {m b i r fuel : ℕ} (h : Path ents m b i r)
    (hroot : (ent ents r).parent = 0) (hfuel : b < fuel) : codeLength ents fuel i = some b := by
  induction b generalizing i fuel with
  | zero =>
    obtain ⟨fuel, rfl⟩ := Nat.exists_eq_succ_of_ne_zero (Nat.ne_of_gt hfuel)
    rw [codeLength, h.1, if_neg (not_not_intro hroot)]
  | succ b ih =>
    obtain ⟨fuel, rfl⟩ := Nat.exists_eq_succ_of_ne_zero (Nat.ne_of_gt (Nat.zero_lt_of_lt hfuel))
    rw [codeLength, if_pos h.2.1, ih h.2.2 (Nat.lt_of_succ_lt_succ hfuel)]
    rfl

variable {ents ents' : List Heapen} {m b i r x y : ℕ}

theorem Path.keep (h : Path ents m b i r) (hx : (ent ents x).parent = 0)
    (hy : (ent ents y).parent = 0)
    (hsame : ∀ j < m, j ≠ x → j ≠ y → (ent ents' j).parent = (ent ents j).parent) :
    Path ents' (m + 1) b i r := by
  induction b generalizing i with
  | zero => exact ⟨h.1, Nat.lt_succ_of_lt h.2⟩
  | succ b ih =>
    obtain ⟨hi, hparent, hrest⟩ := h
    have heq := hsame i hi (fun hix => hparent (hix ▸ hx)) (fun hiy => hparent (hiy ▸ hy))
    exact ⟨Nat.lt_succ_of_lt hi, heq ▸ hparent, heq ▸ ih hrest⟩

theorem Path.join (h : Path ents m b i r) (hx : (ent ents x).parent = 0)
    (hy : (ent ents y).parent = 0) (hr : (ent ents' r).parent = m) (hm : 0 < m)
    (hsame : ∀ j < m, j ≠ x → j ≠ y → (ent ents' j).parent = (ent ents j).parent) :
    Path ents' (m + 1) (b + 1) i m := by
  induction b generalizing i with
  | zero =>
    obtain ⟨rfl, hlt⟩ := h
    exact ⟨Nat.lt_succ_of_lt hlt, by omega, hr, Nat.lt_succ_self m⟩
  | succ b ih =>
    obtain ⟨hi, hparent, hrest⟩ := h
    have heq := hsame i hi (fun hix => hparent (hix ▸ hx)) (fun hiy => hparent (hiy ▸ hy))
    exact ⟨Nat.lt_succ_of_lt hi, heq ▸ hparent, heq ▸ ih hrest⟩

/-- What the heap, the trees and the weights are between two joins: the symbols `S`, each in the
tree of its root and so deep in it. -/
structure Forest (s : Build) (S R : Finset ℕ) (root b : ℕ → ℕ) (W : ℕ) : Prop where
  heap : IsHeap s.ents s.heap s.heapLast ↑R
  ents_length : s.ents.length = 512
  room : s.entsSize + s.heapLast ≤ 513
  heapLast_le : s.heapLast ≤ 256
  root_pos : ∀ r ∈ R, 0 < r ∧ r < s.entsSize
  root_parent : ∀ r ∈ R, (ent s.ents r).parent = 0
  depth_lt : ∀ r ∈ R, (ent s.ents r).depth < s.entsSize
  root_mem : ∀ i ∈ S, root i ∈ R
  path : ∀ i ∈ S, Path s.ents s.entsSize (b i) i (root i)
  le_depth : ∀ i ∈ S, b i ≤ (ent s.ents (root i)).depth
  deepest : ∀ r ∈ R, ∃ i ∈ S, root i = r ∧ b i = (ent s.ents r).depth
  kraft : ∀ r ∈ R, ∑ i ∈ S with root i = r, (1 / 2 : ℚ) ^ b i = 1
  weight : ∑ r ∈ R, (ent s.ents r).freq = W
  fib : ∀ r ∈ R, Nat.fib ((ent s.ents r).depth + 2) ≤ (ent s.ents r).freq
  fib_least : ∀ r ∈ R, ∀ r' ∈ R, Nat.fib ((ent s.ents r).depth + 1) ≤ (ent s.ents r').freq

/-- The keys of the entries in the heap are all that matters to it. -/
theorem IsHeap.congr {heap : List ℕ} {n : ℕ} {R : Set ℕ} (h : IsHeap ents heap n R)
    (hkey : ∀ r ∈ R, heapKey (ent ents' r) = heapKey (ent ents r))
    (hzero : heapKey (ent ents' 0) = heapKey (ent ents 0)) : IsHeap ents' heap n R where
  contains := h.contains
  ordered i h1 hi := by
    rw [slotKey, slotKey, hkey _ (h.contains.mem (by omega) hi),
      hkey _ (h.contains.mem (by omega) (by omega))]
    exact h.ordered i h1 hi
  slot_zero := h.slot_zero
  least := hzero.trans h.least
  length_eq := h.length_eq

theorem freq_le_of_heapKey {a c : Heapen} (h : heapKey a ≤ heapKey c) : a.freq ≤ c.freq := by
  rw [heapKey, heapKey, Prod.Lex.toLex_le_toLex] at h
  rcases h with hlt | heq
  · exact hlt.le
  · exact heq.1.le

def joined (ents : List Heapen) (x y z : ℕ) : List Heapen :=
  let ents := ents.set z
    { depth := 1 + max (ent ents x).depth (ent ents y).depth
      freq := ((ent ents x).freq + (ent ents y).freq) % 2 ^ 32, parent := 0 }
  let ents := ents.set x { ent ents x with parent := z }
  ents.set y { ent ents y with parent := z }

theorem ent_joined {z : ℕ} (hlen : z < ents.length) (hx : x < z) (hy : y < z) (hne : x ≠ y) :
    ent (joined ents x y z) z = ⟨1 + max (ent ents x).depth (ent ents y).depth,
        ((ent ents x).freq + (ent ents y).freq) % 2 ^ 32, 0⟩ ∧
      ent (joined ents x y z) x = { ent ents x with parent := z } ∧
      ent (joined ents x y z) y = { ent ents y with parent := z } ∧
      ∀ j, j ≠ x → j ≠ y → j ≠ z → ent (joined ents x y z) j = ent ents j := by
  unfold joined
  dsimp only
  refine ⟨?_, ?_, ?_, ?_⟩
  · rw [ent_set_ne (by omega), ent_set_ne (by omega), ent_set_self hlen]
  · rw [ent_set_ne hne, ent_set_self (by rw [List.length_set]; omega), ent_set_ne (by omega)]
  · rw [ent_set_self (by rw [List.length_set, List.length_set]; omega), ent_set_ne (Ne.symm hne),
      ent_set_ne (by omega)]
  · intro j hjx hjy hjz
    rw [ent_set_ne hjy, ent_set_ne hjx, ent_set_ne hjz]

/-- The root of a symbol when the trees of `x` and `y` have been joined under `z`. -/
def joinedRoot (root : ℕ → ℕ) (x y z i : ℕ) : ℕ := if root i = x ∨ root i = y then z else root i

def joinedLength (root b : ℕ → ℕ) (x y i : ℕ) : ℕ :=
  if root i = x ∨ root i = y then b i + 1 else b i

section Joining

variable {S : Finset ℕ} {root b : ℕ → ℕ} {x y z : ℕ}

theorem joinedRoot_eq_new (hnew : ∀ i ∈ S, root i ≠ z) :
    (S.filter fun i => joinedRoot root x y z i = z) =
      (S.filter fun i => root i = x) ∪ S.filter fun i => root i = y := by
  ext i
  rw [Finset.mem_filter, Finset.mem_union, Finset.mem_filter, Finset.mem_filter, joinedRoot]
  constructor
  · rintro ⟨hi, heq⟩
    by_cases hmoved : root i = x ∨ root i = y
    · exact hmoved.imp (⟨hi, ·⟩) (⟨hi, ·⟩)
    · rw [if_neg hmoved] at heq
      exact absurd heq (hnew i hi)
  · rintro (⟨hi, hr⟩ | ⟨hi, hr⟩)
    · exact ⟨hi, if_pos (Or.inl hr)⟩
    · exact ⟨hi, if_pos (Or.inr hr)⟩

theorem joinedRoot_eq_old {r : ℕ} (hrx : r ≠ x) (hry : r ≠ y) (hrz : r ≠ z) :
    (S.filter fun i => joinedRoot root x y z i = r) = S.filter fun i => root i = r := by
  ext i
  rw [Finset.mem_filter, Finset.mem_filter, joinedRoot]
  apply and_congr_right
  intro _
  split_ifs with hmoved
  · constructor
    · exact fun heq => absurd heq.symm hrz
    · rintro rfl
      exact absurd hmoved (not_or.2 ⟨hrx, hry⟩)
  · exact Iff.rfl

/-- The symbols of a tree that is joined, one deeper, make half of the sum. -/
theorem kraft_half {r : ℕ} (hr : r = x ∨ r = y)
    (hkraft : ∑ i ∈ S with root i = r, (1 / 2 : ℚ) ^ b i = 1) :
    ∑ i ∈ S with root i = r, (1 / 2 : ℚ) ^ joinedLength root b x y i = 1 / 2 := by
  have hterm : ∀ i ∈ S.filter fun i => root i = r,
      (1 / 2 : ℚ) ^ joinedLength root b x y i = (1 / 2) ^ b i * (1 / 2) := by
    intro i hi
    rw [joinedLength, if_pos (by rw [(Finset.mem_filter.1 hi).2]; exact hr), pow_succ]
  rw [Finset.sum_congr rfl hterm, ← Finset.sum_mul, hkraft, one_mul]

theorem kraft_new (hne : x ≠ y) (hnew : ∀ i ∈ S, root i ≠ z)
    (hx : ∑ i ∈ S with root i = x, (1 / 2 : ℚ) ^ b i = 1)
    (hy : ∑ i ∈ S with root i = y, (1 / 2 : ℚ) ^ b i = 1) :
    ∑ i ∈ S with joinedRoot root x y z i = z, (1 / 2 : ℚ) ^ joinedLength root b x y i = 1 := by
  have hdisjoint : Disjoint (S.filter fun i => root i = x) (S.filter fun i => root i = y) := by
    rw [Finset.disjoint_filter]
    exact fun i _ hx hy => hne (hx.symm.trans hy)
  rw [joinedRoot_eq_new hnew, Finset.sum_union hdisjoint, kraft_half (Or.inl rfl) hx,
    kraft_half (Or.inr rfl) hy]
  norm_num

theorem kraft_old {r : ℕ} (hrx : r ≠ x) (hry : r ≠ y) (hrz : r ≠ z)
    (hr : ∑ i ∈ S with root i = r, (1 / 2 : ℚ) ^ b i = 1) :
    ∑ i ∈ S with joinedRoot root x y z i = r, (1 / 2 : ℚ) ^ joinedLength root b x y i = 1 := by
  have hterm : ∀ i ∈ S.filter fun i => root i = r,
      (1 / 2 : ℚ) ^ joinedLength root b x y i = (1 / 2) ^ b i := by
    intro i hi
    rw [joinedLength, if_neg (by rw [(Finset.mem_filter.1 hi).2]; exact not_or.2 ⟨hrx, hry⟩)]
  rw [joinedRoot_eq_old hrx hry hrz, Finset.sum_congr rfl hterm]
  exact hr

/-- The two lightest trees together are as heavy as the deeper one requires of a tree one deeper. -/
theorem fib_heavy {dx dy fx fy : ℕ} (hx : Nat.fib (dx + 2) ≤ fx) (hy : Nat.fib (dy + 2) ≤ fy)
    (hxy : Nat.fib (dx + 1) ≤ fy) (hyx : Nat.fib (dy + 1) ≤ fx) (hle : fx ≤ fy) :
    Nat.fib (max dx dy + 2) ≤ fy ∧ Nat.fib (max dx dy + 3) ≤ fx + fy := by
  have hfib : ∀ t, Nat.fib (t + 3) = Nat.fib (t + 1) + Nat.fib (t + 2) :=
    fun t => Nat.fib_add_two
  rcases le_total dx dy with hd | hd
  · rw [max_eq_right hd]
    have h3 := hfib dy
    exact ⟨hy, by omega⟩
  · rw [max_eq_left hd]
    have h3 := hfib dx
    exact ⟨hx.trans hle, by omega⟩

theorem joinedRoot_moved {i : ℕ} (h : root i = x ∨ root i = y) : joinedRoot root x y z i = z :=
  if_pos h

theorem joinedLength_moved {i : ℕ} (h : root i = x ∨ root i = y) :
    joinedLength root b x y i = b i + 1 := if_pos h

theorem joinedRoot_kept {i : ℕ} (hx : root i ≠ x) (hy : root i ≠ y) :
    joinedRoot root x y z i = root i := if_neg (not_or.2 ⟨hx, hy⟩)

theorem joinedLength_kept {i : ℕ} (hx : root i ≠ x) (hy : root i ≠ y) :
    joinedLength root b x y i = b i := if_neg (not_or.2 ⟨hx, hy⟩)

/-- The roots when `x` and `y` have been joined under `z`. -/
def joinedRoots (R : Finset ℕ) (x y z : ℕ) : Finset ℕ := insert z ((R.erase x).erase y)

theorem mem_joinedRoots {R : Finset ℕ} {r : ℕ} (hr : r ∈ R) (hrx : r ≠ x) (hry : r ≠ y) :
    r ∈ joinedRoots R x y z :=
  Finset.mem_insert_of_mem (Finset.mem_erase.2 ⟨hry, Finset.mem_erase.2 ⟨hrx, hr⟩⟩)

theorem forall_joinedRoots {R : Finset ℕ} {P : ℕ → Prop} (hz : P z)
    (hR : ∀ r ∈ R, r ≠ x → r ≠ y → P r) : ∀ r ∈ joinedRoots R x y z, P r := by
  intro r hr
  rcases Finset.mem_insert.1 hr with rfl | hr
  · exact hz
  · obtain ⟨hry, hr⟩ := Finset.mem_erase.1 hr
    obtain ⟨hrx, hr⟩ := Finset.mem_erase.1 hr
    exact hR r hr hrx hry

end Joining

def rootKeys (ents : List Heapen) (R : Finset ℕ) : Multiset (ℕ ×ₗ ℕ) :=
  R.val.map fun r => heapKey (ent ents r)

def joinKeys (a c : ℕ ×ₗ ℕ) : ℕ ×ₗ ℕ :=
  toLex ((ofLex a).1 + (ofLex c).1, 1 + max (ofLex a).2 (ofLex c).2)

def leafKeys (freq : List ℕ) : List (ℕ ×ₗ ℕ) :=
  ((freq.filter (· ≠ 0)).map fun f => toLex (f, 0)).insertionSort (· ≤ ·)

/-- The depth of the Huffman tree of the frequencies: the two lightest trees are joined, of
equally heavy ones the less deep, until there is one. -/
def huffmanDepth (freq : List ℕ) : ℕ :=
  (ofLex (((joinLeast joinKeys)^[freq.length] (leafKeys freq)).headD (toLex (0, 0)))).2

structure Lightest (ents : List Heapen) (R : Finset ℕ) (x y : ℕ) : Prop where
  ne : x ≠ y
  left : x ∈ R
  right : y ∈ R
  left_le : ∀ r ∈ R, heapKey (ent ents x) ≤ heapKey (ent ents r)
  right_le : ∀ r ∈ R, r ≠ x → heapKey (ent ents y) ≤ heapKey (ent ents r)

theorem Lightest.rootKeys {R : Finset ℕ} (h : Lightest ents R x y) :
    rootKeys ents R = heapKey (ent ents x) ::ₘ heapKey (ent ents y) ::ₘ
      rootKeys ents ((R.erase x).erase y) := by
  have hy : y ∈ R.erase x := Finset.mem_erase.2 ⟨h.ne.symm, h.right⟩
  rw [Djw.rootKeys, Djw.rootKeys, ← Multiset.map_cons (fun r => heapKey (ent ents r)) y,
    ← Multiset.map_cons (fun r => heapKey (ent ents r)) x,
    ← Finset.insert_val_of_notMem (Finset.notMem_erase y _), Finset.insert_erase hy,
    ← Finset.insert_val_of_notMem (Finset.notMem_erase x _), Finset.insert_erase h.left]

theorem Lightest.le_rootKeys {R : Finset ℕ} (h : Lightest ents R x y) :
    (∀ k ∈ heapKey (ent ents y) ::ₘ Djw.rootKeys ents ((R.erase x).erase y),
        heapKey (ent ents x) ≤ k) ∧
      ∀ k ∈ Djw.rootKeys ents ((R.erase x).erase y), heapKey (ent ents y) ≤ k := by
  have hrest : ∀ k ∈ Djw.rootKeys ents ((R.erase x).erase y),
      ∃ r ∈ R, r ≠ x ∧ heapKey (ent ents r) = k := by
    intro k hk
    obtain ⟨r, hr, rfl⟩ := Multiset.mem_map.1 hk
    have hr : r ∈ (R.erase x).erase y := hr
    obtain ⟨hrx, hr⟩ := Finset.mem_erase.1 (Finset.mem_of_mem_erase hr)
    exact ⟨r, hr, hrx, rfl⟩
  constructor
  · intro k hk
    rcases Multiset.mem_cons.1 hk with rfl | hk
    · exact h.left_le y h.right
    · obtain ⟨r, hr, -, rfl⟩ := hrest k hk
      exact h.left_le r hr
  · intro k hk
    obtain ⟨r, hr, hrx, rfl⟩ := hrest k hk
    exact h.right_le r hr hrx

section Join

variable {s : Build} {S R : Finset ℕ} {root b : ℕ → ℕ} {W : ℕ}

theorem Forest.card_le (h : Forest s S R root b W) (hone : s.heapLast ≤ 1) : R.card ≤ 1 := by
  rw [Finset.card_le_one]
  intro r hr r' hr'
  obtain ⟨i, hi, rfl⟩ := h.heap.contains.surjOn (Finset.mem_coe.2 hr)
  obtain ⟨j, hj, rfl⟩ := h.heap.contains.surjOn (Finset.mem_coe.2 hr')
  rw [Nat.le_antisymm (hi.2.trans hone) hi.1, Nat.le_antisymm (hj.2.trans hone) hj.1]

theorem Forest.one_lt_heapLast (h : Forest s S R root b W) (hl : Lightest s.ents R x y) :
    1 < s.heapLast :=
  Nat.lt_of_not_le fun hone =>
    hl.ne (Finset.card_le_one.1 (h.card_le hone) x hl.left y hl.right)

theorem Forest.joined_spec (h : Forest s S R root b W) (hl : Lightest s.ents R x y) :
    ent (joined s.ents x y s.entsSize) s.entsSize =
        ⟨1 + max (ent s.ents x).depth (ent s.ents y).depth,
          ((ent s.ents x).freq + (ent s.ents y).freq) % 2 ^ 32, 0⟩ ∧
      ent (joined s.ents x y s.entsSize) x = { ent s.ents x with parent := s.entsSize } ∧
      ent (joined s.ents x y s.entsSize) y = { ent s.ents y with parent := s.entsSize } ∧
      ∀ j, j ≠ x → j ≠ y → j ≠ s.entsSize →
        ent (joined s.ents x y s.entsSize) j = ent s.ents j := by
  have hroom := h.room
  have hlen := h.ents_length
  have hlast := h.one_lt_heapLast hl
  exact ent_joined (by omega) (h.root_pos x hl.left).2 (h.root_pos y hl.right).2 hl.ne

theorem Forest.heapKey_joined (h : Forest s S R root b W) (hl : Lightest s.ents R x y) {j : ℕ}
    (hj : j ≠ s.entsSize) :
    heapKey (ent (joined s.ents x y s.entsSize) j) = heapKey (ent s.ents j) := by
  obtain ⟨-, hentx, henty, hentj⟩ := h.joined_spec hl
  by_cases hjx : j = x
  · rw [hjx, hentx]
    rfl
  · by_cases hjy : j = y
    · rw [hjy, henty]
      rfl
    · rw [hentj j hjx hjy hj]

theorem Forest.parent_joined (h : Forest s S R root b W) (hl : Lightest s.ents R x y) :
    ∀ j < s.entsSize, j ≠ x → j ≠ y →
      (ent (joined s.ents x y s.entsSize) j).parent = (ent s.ents j).parent := by
  intro j hj hjx hjy
  rw [(h.joined_spec hl).2.2.2 j hjx hjy (Nat.ne_of_lt hj)]

theorem Forest.parent_moved (h : Forest s S R root b W) (hl : Lightest s.ents R x y) {r : ℕ}
    (hr : r = x ∨ r = y) : (ent (joined s.ents x y s.entsSize) r).parent = s.entsSize := by
  obtain ⟨-, hentx, henty, -⟩ := h.joined_spec hl
  rcases hr with rfl | rfl
  · rw [hentx]
  · rw [henty]

theorem Forest.ent_kept (h : Forest s S R root b W) (hl : Lightest s.ents R x y) {r : ℕ}
    (hr : r ∈ R) (hrx : r ≠ x) (hry : r ≠ y) :
    ent (joined s.ents x y s.entsSize) r = ent s.ents r :=
  (h.joined_spec hl).2.2.2 r hrx hry (Nat.ne_of_lt (h.root_pos r hr).2)

theorem Forest.pair_weight (h : Forest s S R root b W) (hl : Lightest s.ents R x y) :
    (ent s.ents x).freq + (ent s.ents y).freq +
      ∑ r ∈ (R.erase x).erase y, (ent s.ents r).freq = W := by
  have hy : y ∈ R.erase x := Finset.mem_erase.2 ⟨hl.ne.symm, hl.right⟩
  rw [Nat.add_assoc, Finset.add_sum_erase _ (fun r => (ent s.ents r).freq) hy,
    Finset.add_sum_erase _ (fun r => (ent s.ents r).freq) hl.left, h.weight]

/-- The new root; its weight is not more than all weights together, and does not wrap. -/
theorem Forest.ent_new (h : Forest s S R root b W) (hl : Lightest s.ents R x y)
    (hW : W < 2 ^ 32) :
    ent (joined s.ents x y s.entsSize) s.entsSize =
      ⟨1 + max (ent s.ents x).depth (ent s.ents y).depth,
        (ent s.ents x).freq + (ent s.ents y).freq, 0⟩ := by
  have hpair := h.pair_weight hl
  rw [(h.joined_spec hl).1, Nat.mod_eq_of_lt (by omega)]

theorem Forest.joined_weight (h : Forest s S R root b W) (hl : Lightest s.ents R x y)
    (hW : W < 2 ^ 32) : ∑ r ∈ joinedRoots R x y s.entsSize,
      (ent (joined s.ents x y s.entsSize) r).freq = W := by
  have hnew : s.entsSize ∉ (R.erase x).erase y := fun hmem =>
    Nat.lt_irrefl _ (h.root_pos _ (Finset.mem_of_mem_erase (Finset.mem_of_mem_erase hmem))).2
  rw [joinedRoots, Finset.sum_insert hnew, h.ent_new hl hW, ← h.pair_weight hl]
  refine congrArg _ (Finset.sum_congr rfl fun r hr => ?_)
  obtain ⟨hry, hr⟩ := Finset.mem_erase.1 hr
  obtain ⟨hrx, hr⟩ := Finset.mem_erase.1 hr
  rw [h.ent_kept hl hr hrx hry]

theorem Forest.joined_rootKeys (h : Forest s S R root b W) (hl : Lightest s.ents R x y)
    (hW : W < 2 ^ 32) :
    rootKeys (joined s.ents x y s.entsSize) (joinedRoots R x y s.entsSize) =
      joinKeys (heapKey (ent s.ents x)) (heapKey (ent s.ents y)) ::ₘ
        rootKeys s.ents ((R.erase x).erase y) := by
  have hnew : s.entsSize ∉ (R.erase x).erase y := fun hmem =>
    Nat.lt_irrefl _ (h.root_pos _ (Finset.mem_of_mem_erase (Finset.mem_of_mem_erase hmem))).2
  rw [rootKeys, joinedRoots, Finset.insert_val_of_notMem hnew, Multiset.map_cons, h.ent_new hl hW]
  refine congrArg _ (Multiset.map_congr rfl fun r hr => ?_)
  have hr := Finset.mem_of_mem_erase (Finset.mem_of_mem_erase (show r ∈ (R.erase x).erase y from hr))
  exact h.heapKey_joined hl (Nat.ne_of_lt (h.root_pos r hr).2)

theorem Forest.joined_path (h : Forest s S R root b W) (hl : Lightest s.ents R x y) {i : ℕ}
    (hi : i ∈ S) : Path (joined s.ents x y s.entsSize) (s.entsSize + 1) (joinedLength root b x y i)
      i (joinedRoot root x y s.entsSize i) := by
  have hx := h.root_parent x hl.left
  have hy := h.root_parent y hl.right
  by_cases hmoved : root i = x ∨ root i = y
  · rw [joinedRoot_moved hmoved, joinedLength_moved hmoved]
    exact (h.path i hi).join hx hy (h.parent_moved hl hmoved)
      (Nat.zero_lt_of_lt (h.root_pos x hl.left).2) (h.parent_joined hl)
  · rw [joinedRoot, joinedLength, if_neg hmoved, if_neg hmoved]
    exact (h.path i hi).keep hx hy (h.parent_joined hl)

theorem Forest.joined_le_depth (h : Forest s S R root b W) (hl : Lightest s.ents R x y)
    (hW : W < 2 ^ 32) {i : ℕ} (hi : i ∈ S) : joinedLength root b x y i ≤
      (ent (joined s.ents x y s.entsSize) (joinedRoot root x y s.entsSize i)).depth := by
  have hle := h.le_depth i hi
  by_cases hmoved : root i = x ∨ root i = y
  · rw [joinedRoot_moved hmoved, joinedLength_moved hmoved, h.ent_new hl hW, Nat.add_comm]
    rcases hmoved with hr | hr
    · exact Nat.add_le_add_left ((hr ▸ hle).trans (le_max_left _ _)) 1
    · exact Nat.add_le_add_left ((hr ▸ hle).trans (le_max_right _ _)) 1
  · rw [joinedRoot, joinedLength, if_neg hmoved, if_neg hmoved]
    rw [not_or] at hmoved
    rw [h.ent_kept hl (h.root_mem i hi) hmoved.1 hmoved.2]
    exact hle

/-- The deepest symbol of the deeper tree is the deepest of both. -/
theorem Forest.joined_deepest (h : Forest s S R root b W) (hl : Lightest s.ents R x y)
    (hW : W < 2 ^ 32) : ∀ r ∈ joinedRoots R x y s.entsSize, ∃ i ∈ S,
      joinedRoot root x y s.entsSize i = r ∧
        joinedLength root b x y i = (ent (joined s.ents x y s.entsSize) r).depth := by
  refine forall_joinedRoots ?_ fun r hr hrx hry => ?_
  · obtain ⟨r, hr, hmoved, hmax⟩ : ∃ r ∈ R, (r = x ∨ r = y) ∧
        (ent s.ents r).depth = max (ent s.ents x).depth (ent s.ents y).depth := by
      rcases le_total (ent s.ents x).depth (ent s.ents y).depth with hle | hle
      · exact ⟨y, hl.right, .inr rfl, (max_eq_right hle).symm⟩
      · exact ⟨x, hl.left, .inl rfl, (max_eq_left hle).symm⟩
    obtain ⟨i, hi, rfl, hb⟩ := h.deepest r hr
    refine ⟨i, hi, joinedRoot_moved hmoved, ?_⟩
    rw [joinedLength_moved hmoved, h.ent_new hl hW, hb, hmax, Nat.add_comm]
  · obtain ⟨i, hi, rfl, hb⟩ := h.deepest r hr
    refine ⟨i, hi, joinedRoot_kept hrx hry, ?_⟩
    rw [joinedLength_kept hrx hry, h.ent_kept hl hr hrx hry, hb]

theorem Forest.joined_kraft (h : Forest s S R root b W) (hl : Lightest s.ents R x y) :
    ∀ r ∈ joinedRoots R x y s.entsSize, ∑ i ∈ S with joinedRoot root x y s.entsSize i = r,
      (1 / 2 : ℚ) ^ joinedLength root b x y i = 1 := by
  refine forall_joinedRoots ?_ fun r hr hrx hry => ?_
  · exact kraft_new hl.ne (fun i hi => Nat.ne_of_lt (h.root_pos _ (h.root_mem i hi)).2)
      (h.kraft x hl.left) (h.kraft y hl.right)
  · exact kraft_old hrx hry (Nat.ne_of_lt (h.root_pos r hr).2) (h.kraft r hr)

theorem Forest.pair_heavy (h : Forest s S R root b W) (hl : Lightest s.ents R x y) :
    Nat.fib (max (ent s.ents x).depth (ent s.ents y).depth + 2) ≤ (ent s.ents y).freq ∧
      Nat.fib (max (ent s.ents x).depth (ent s.ents y).depth + 3) ≤
        (ent s.ents x).freq + (ent s.ents y).freq := by
  apply fib_heavy (h.fib x hl.left) (h.fib y hl.right)
  · exact h.fib_least x hl.left y hl.right
  · exact h.fib_least y hl.right x hl.left
  · exact freq_le_of_heapKey (hl.left_le y hl.right)

theorem Forest.joined_fib (h : Forest s S R root b W) (hl : Lightest s.ents R x y)
    (hW : W < 2 ^ 32) : ∀ r ∈ joinedRoots R x y s.entsSize,
      Nat.fib ((ent (joined s.ents x y s.entsSize) r).depth + 2) ≤
        (ent (joined s.ents x y s.entsSize) r).freq := by
  refine forall_joinedRoots ?_ fun r hr hrx hry => ?_
  · rw [h.ent_new hl hW, Nat.add_comm 1, Nat.add_assoc]
    exact (h.pair_heavy hl).2
  · rw [h.ent_kept hl hr hrx hry]
    exact h.fib r hr

theorem Forest.joined_fib_least (h : Forest s S R root b W) (hl : Lightest s.ents R x y)
    (hW : W < 2 ^ 32) : ∀ r ∈ joinedRoots R x y s.entsSize,
      ∀ r' ∈ joinedRoots R x y s.entsSize,
        Nat.fib ((ent (joined s.ents x y s.entsSize) r).depth + 1) ≤
          (ent (joined s.ents x y s.entsSize) r').freq := by
  have hheavy := (h.pair_heavy hl).1
  refine forall_joinedRoots ?_ fun r hr hrx hry => ?_
  · rw [h.ent_new hl hW, Nat.add_comm 1, Nat.add_assoc]
    refine forall_joinedRoots ?_ fun r' hr' hrx' hry' => ?_
    · rw [h.ent_new hl hW]
      exact hheavy.trans (Nat.le_add_left _ _)
    · rw [h.ent_kept hl hr' hrx' hry']
      exact hheavy.trans (freq_le_of_heapKey (hl.right_le r' hr' hrx'))
  · rw [h.ent_kept hl hr hrx hry]
    refine forall_joinedRoots ?_ fun r' hr' hrx' hry' => ?_
    · rw [h.ent_new hl hW]
      exact (h.fib_least r hr x hl.left).trans (Nat.le_add_right _ _)
    · rw [h.ent_kept hl hr' hrx' hry']
      exact h.fib_least r hr r' hr'

/-- The heap gives its two lightest roots, and takes the joined tree. -/
theorem Forest.join_run (h : Forest s S R root b W) (htwo : 1 < s.heapLast) :
    ∃ x y heap, Lightest s.ents R x y ∧
      s.join = some ⟨joined s.ents x y s.entsSize, heap, s.heapLast - 1, s.entsSize + 1⟩ ∧
      IsHeap (joined s.ents x y s.entsSize) heap (s.heapLast - 1)
        ↑(joinedRoots R x y s.entsSize) := by
  obtain ⟨n, hn⟩ : ∃ n, s.heapLast = n + 2 := ⟨s.heapLast - 2, by omega⟩
  have hroom := h.room
  have hsmall := h.heapLast_le
  have hlen := h.ents_length
  have hheap := h.heap
  rw [hn] at hheap
  obtain ⟨x, heap1, hrun1, hxR, hxLeast, hheap1⟩ := hheap.extract (by omega)
  obtain ⟨y, heap2, hrun2, hyR, hyLeast, hheap2⟩ := hheap1.extract (by omega)
  rw [Finset.mem_coe] at hxR
  have hl : Lightest s.ents R x y := ⟨fun heq => hyR.2 heq.symm, hxR, hyR.1,
    fun r hr => hxLeast r hr, fun r hr hrx => hyLeast r ⟨hr, hrx⟩⟩
  have hxlt := (h.root_pos x hxR).2
  have hheap3 : IsHeap (joined s.ents x y s.entsSize) heap2 n ((↑R \ {x}) \ {y}) :=
    hheap2.congr (fun r hr => h.heapKey_joined hl (Nat.ne_of_lt (h.root_pos r hr.1.1).2))
      (h.heapKey_joined hl (by omega))
  obtain ⟨heap3, hrun3, hheap4⟩ := hheap3.insert (by omega)
    (fun hzR => Nat.lt_irrefl s.entsSize (h.root_pos s.entsSize hzR.1.1).2)
  refine ⟨x, y, heap3, hl, ?_, ?_⟩
  · have hone : n + 2 - 1 = n + 1 := rfl
    have htwo : n + 2 - 2 = n := rfl
    rw [Build.join, hn, hone, htwo, hrun1, Option.bind_some, hrun2, Option.bind_some]
    exact congrArg (Option.map fun heap =>
      (⟨joined s.ents x y s.entsSize, heap, n + 1, s.entsSize + 1⟩ : Build)) hrun3
  · rw [joinedRoots, Finset.coe_insert, Finset.coe_erase, Finset.coe_erase, hn]
    exact hheap4

theorem Forest.joined (h : Forest s S R root b W) (hl : Lightest s.ents R x y) (hW : W < 2 ^ 32)
    {heap : List ℕ} (hheap : IsHeap (joined s.ents x y s.entsSize) heap (s.heapLast - 1)
      ↑(joinedRoots R x y s.entsSize)) :
    Forest ⟨joined s.ents x y s.entsSize, heap, s.heapLast - 1, s.entsSize + 1⟩ S
      (joinedRoots R x y s.entsSize) (joinedRoot root x y s.entsSize) (joinedLength root b x y)
      W where
  heap := hheap
  ents_length := by rw [Djw.joined, List.length_set, List.length_set, List.length_set, h.ents_length]
  room := by
    have hroom := h.room
    have hlast := h.one_lt_heapLast hl
    dsimp only
    omega
  heapLast_le := by
    have hsmall := h.heapLast_le
    dsimp only
    omega
  root_pos := forall_joinedRoots
    ⟨Nat.zero_lt_of_lt (h.root_pos x hl.left).2, Nat.lt_succ_self _⟩
    fun r hr _ _ => ⟨(h.root_pos r hr).1, Nat.lt_succ_of_lt (h.root_pos r hr).2⟩
  root_parent := forall_joinedRoots (by rw [h.ent_new hl hW]) fun r hr hrx hry => by
    rw [h.ent_kept hl hr hrx hry]
    exact h.root_parent r hr
  depth_lt := by
    refine forall_joinedRoots ?_ fun r hr hrx hry => ?_
    · have hdx := h.depth_lt x hl.left
      have hdy := h.depth_lt y hl.right
      rw [h.ent_new hl hW]
      dsimp only
      omega
    · rw [h.ent_kept hl hr hrx hry]
      exact Nat.lt_succ_of_lt (h.depth_lt r hr)
  root_mem i hi := by
    by_cases hmoved : root i = x ∨ root i = y
    · rw [joinedRoot_moved hmoved]
      exact Finset.mem_insert_self _ _
    · rw [joinedRoot, if_neg hmoved]
      rw [not_or] at hmoved
      exact mem_joinedRoots (h.root_mem i hi) hmoved.1 hmoved.2
  path i hi := h.joined_path hl hi
  le_depth i hi := h.joined_le_depth hl hW hi
  deepest := h.joined_deepest hl hW
  kraft := h.joined_kraft hl
  weight := h.joined_weight hl hW
  fib := h.joined_fib hl hW
  fib_least := h.joined_fib_least hl hW

theorem Forest.join (h : Forest s S R root b W) (hW : W < 2 ^ 32) (htwo : 1 < s.heapLast) :
    ∃ s' R' root' b', s.join = some s' ∧ Forest s' S R' root' b' W ∧
      s'.heapLast + 1 = s.heapLast ∧ s'.entsSize = s.entsSize + 1 ∧
      (∀ i < s.entsSize, (ent s'.ents i).freq = (ent s.ents i).freq) ∧
      ∀ ks, Orders ks (rootKeys s.ents R) →
        Orders (joinLeast joinKeys ks) (rootKeys s'.ents R') := by
  obtain ⟨x, y, heap, hl, hrun, hheap⟩ := h.join_run htwo
  refine ⟨_, _, _, _, hrun, h.joined hl hW hheap, Nat.sub_add_cancel htwo.le, rfl, ?_, ?_⟩
  · intro i hi
    have := h.heapKey_joined hl (Nat.ne_of_lt hi)
    exact congrArg (fun k => (ofLex k).1) this
  · intro ks hks
    rw [hl.rootKeys] at hks
    dsimp only
    rw [h.joined_rootKeys hl hW]
    exact hks.joinLeast hl.le_rootKeys.1 hl.le_rootKeys.2

end Join

end Xdelta.Djw
