import Xdelta.Djw.PrefixTree
import Mathlib.Order.Interval.Finset.Nat

/-!
# Building the tree and reading the lengths

One round of the construction: the symbols that occur are put on the heap, their
trees are joined until one is left, and the lengths are read off it.
-/
namespace Xdelta.Djw
open Heap JoinLeast

/-- The symbols before `entsSize` that occur are on the heap, each a tree of its own. -/
structure Initial (s : Build) (w : ℕ → ℕ) : Prop where
  heap : IsHeap s.ents s.heap s.heapLast ↑((Finset.Ico 1 s.entsSize).filter fun i => w i ≠ 0)
  card : ((Finset.Ico 1 s.entsSize).filter fun i => w i ≠ 0).card = s.heapLast
  ents_length : s.ents.length = 512
  pos : 0 < s.entsSize
  leaf : ∀ i, 0 < i → i < s.entsSize → ent s.ents i = ⟨0, w i, 0⟩

theorem heapLast_le {s : Build} {w : ℕ → ℕ} (h : Initial s w) : s.heapLast < s.entsSize := by
  have hcard := Finset.card_filter_le (Finset.Ico 1 s.entsSize) fun i => w i ≠ 0
  have hpos := h.pos
  rw [h.card, Nat.card_Ico] at hcard
  omega

theorem Initial.run {w : ℕ → ℕ} {n : ℕ} {s : Build} (h : Initial s w) (hn : s.entsSize + n ≤ 257)
    (hw : ∀ i, s.entsSize ≤ i → i < s.entsSize + n → (ent s.ents i).freq = w i) :
    ∃ s', initialHeap n s = some s' ∧ Initial s' w ∧ s'.entsSize = s.entsSize + n := by
  induction n generalizing s with
  | zero => exact ⟨s, rfl, h, rfl⟩
  | succ n ih =>
    have hlen := h.ents_length
    have hlast := heapLast_le h
    have hpos := h.pos
    set k := s.entsSize with hk
    set ents := s.ents.set k { ent s.ents k with depth := 0, parent := 0 } with hents
    have hself : ent ents k = ⟨0, w k, 0⟩ := by
      rw [hents, ent_set_self (by omega)]
      exact congrArg (fun f => (⟨0, f, 0⟩ : Heapen)) (hw k le_rfl (by omega))
    have hother : ∀ i, i ≠ k → ent ents i = ent s.ents i := fun i hi => by
      rw [hents, ent_set_ne hi]
    have hheap : IsHeap ents s.heap s.heapLast ↑((Finset.Ico 1 k).filter fun i => w i ≠ 0) := by
      refine h.heap.congr (fun r hr => ?_) (by rw [hother 0 (by omega)])
      rw [hother r]
      rw [Finset.mem_coe, Finset.mem_filter, Finset.mem_Ico] at hr
      omega
    have hleaf : ∀ i, 0 < i → i < k + 1 → ent ents i = ⟨0, w i, 0⟩ := by
      intro i hi hik
      by_cases heq : i = k
      · rw [heq, hself]
      · rw [hother i heq]
        exact h.leaf i hi (by omega)
    have hlen' : ents.length = 512 := by rw [hents, List.length_set, hlen]
    have hsplit : Finset.Ico 1 (k + 1) = insert k (Finset.Ico 1 k) := by
      ext i
      simp only [Finset.mem_Ico, Finset.mem_insert]
      omega
    have hw' : ∀ i, k + 1 ≤ i → i < k + 1 + n → (ent ents i).freq = w i := by
      intro i h1 h2
      rw [hother i (by omega)]
      exact hw i (by omega) (by omega)
    rw [initialHeap]
    dsimp only
    rw [← hk, ← hents, hself]
    by_cases hzero : w k ≠ 0
    · have hnew : k ∉ (Finset.Ico 1 k).filter fun i => w i ≠ 0 := by simp
      obtain ⟨heap', hrun, hheap'⟩ := hheap.insert (by omega) hnew
      have hfilter : (Finset.Ico 1 (k + 1)).filter (fun i => w i ≠ 0) =
          insert k ((Finset.Ico 1 k).filter fun i => w i ≠ 0) := by
        rw [hsplit, Finset.filter_insert, if_pos hzero]
      have hnext : Initial ⟨ents, heap', s.heapLast + 1, k + 1⟩ w := by
        refine ⟨?_, ?_, hlen', Nat.succ_pos k, hleaf⟩
        · rw [hfilter, Finset.coe_insert]
          exact hheap'
        · rw [hfilter, Finset.card_insert_of_notMem hnew, h.card]
      obtain ⟨s', hrest, hs', hsize⟩ := ih hnext (by dsimp only; omega) hw'
      rw [if_pos hzero, hrun, Option.bind_some, hrest]
      exact ⟨s', rfl, hs', by rw [hsize]; dsimp only; omega⟩
    · have hfilter : (Finset.Ico 1 (k + 1)).filter (fun i => w i ≠ 0) =
          (Finset.Ico 1 k).filter fun i => w i ≠ 0 := by
        rw [hsplit, Finset.filter_insert, if_neg hzero]
      have hnext : Initial ⟨ents, s.heap, s.heapLast, k + 1⟩ w := by
        refine ⟨?_, ?_, hlen', Nat.succ_pos k, hleaf⟩
        · rw [hfilter]
          exact hheap
        · rw [hfilter, h.card]
      obtain ⟨s', hrest, hs', hsize⟩ := ih hnext (by dsimp only; omega) hw'
      rw [if_neg hzero, hrest]
      exact ⟨s', rfl, hs', by rw [hsize]; dsimp only; omega⟩

/-- The weights of the symbols in `ents`. -/
structure Weights (ents : List Heapen) (asize : ℕ) (w : ℕ → ℕ) : Prop where
  length_eq : ents.length = 512
  freq_eq : ∀ i, 0 < i → i ≤ asize → (ent ents i).freq = w i

theorem startBuild_spec {ents : List Heapen} {heap : List ℕ} {asize : ℕ} {w : ℕ → ℕ}
    (h : Weights ents asize w) (hheap : heap.length = 257) (hasize : asize ≤ 256) :
    ∃ s, startBuild asize ents heap = some s ∧ Initial s w ∧ s.entsSize = asize + 1 := by
  have hlen := h.length_eq
  have hzero : ent (ents.set 0 { ent ents 0 with depth := 0, freq := 0 }) 0 =
      { ent ents 0 with depth := 0, freq := 0 } := ent_set_self (by omega) _
  have hfirst : Initial ⟨ents.set 0 { ent ents 0 with depth := 0, freq := 0 }, heap.set 0 0, 0, 1⟩ w
      := by
    refine ⟨⟨?_, ?_, slot_set_self (by omega), ?_, ?_⟩, by simp, ?_, Nat.one_pos, ?_⟩
    · simp [Contains, Set.BijOn, Set.MapsTo, Set.SurjOn]
    · intro i h1 hi
      dsimp only at hi
      omega
    · dsimp only
      rw [hzero]
      rfl
    · dsimp only
      rw [List.length_set, hheap]
    · dsimp only
      rw [List.length_set, hlen]
    · intro i hi h1
      dsimp only at h1
      omega
  obtain ⟨s, hrun, hs, hsize⟩ := hfirst.run (n := asize) (by dsimp only; omega) (by
    intro i h1 h2
    dsimp only at h1 h2 ⊢
    rw [ent_set_ne (by omega)]
    exact h.freq_eq i h1 (by omega))
  exact ⟨s, hrun, hs, by rw [hsize]; dsimp only; omega⟩

def occurring (asize : ℕ) (w : ℕ → ℕ) : Finset ℕ := (Finset.Ico 1 (asize + 1)).filter fun i => w i ≠ 0

theorem mem_occurring {asize i : ℕ} {w : ℕ → ℕ} :
    i ∈ occurring asize w ↔ (0 < i ∧ i ≤ asize) ∧ w i ≠ 0 := by
  rw [occurring, Finset.mem_filter, Finset.mem_Ico]
  omega

theorem Initial.forest {s : Build} {w : ℕ → ℕ} {asize : ℕ} (h : Initial s w)
    (hsize : s.entsSize = asize + 1) (hasize : asize ≤ 256) :
    Forest s (occurring asize w) (occurring asize w) id (fun _ => 0)
      (∑ i ∈ occurring asize w, w i) := by
  have hR : (Finset.Ico 1 s.entsSize).filter (fun i => w i ≠ 0) = occurring asize w := by
    rw [hsize, occurring]
  have hlast := heapLast_le h
  have hleaf : ∀ r ∈ occurring asize w, 0 < r ∧ r < s.entsSize ∧ w r ≠ 0 ∧
      ent s.ents r = ⟨0, w r, 0⟩ := by
    intro r hr
    obtain ⟨hr1, hr2⟩ := mem_occurring.1 hr
    exact ⟨hr1.1, by omega, hr2, h.leaf r hr1.1 (by omega)⟩
  refine ⟨hR ▸ h.heap, h.ents_length, by omega, by omega, ?_, ?_, ?_, fun i hi => hi, ?_, ?_, ?_,
    ?_, ?_, ?_, ?_⟩
  · exact fun r hr => ⟨(hleaf r hr).1, (hleaf r hr).2.1⟩
  · intro r hr
    rw [(hleaf r hr).2.2.2]
  · intro r hr
    rw [(hleaf r hr).2.2.2]
    exact h.pos
  · exact fun i hi => ⟨rfl, (hleaf i hi).2.1⟩
  · exact fun i hi => Nat.zero_le _
  · exact fun r hr => ⟨r, hr, rfl, by rw [(hleaf r hr).2.2.2]⟩
  · intro r hr
    have hsingle : ((occurring asize w).filter fun i => id i = r) = {r} := by
      ext i
      simp only [Finset.mem_filter, Finset.mem_singleton, id]
      exact ⟨And.right, fun hi => ⟨hi ▸ hr, hi⟩⟩
    rw [hsingle, Finset.sum_singleton, pow_zero]
  · exact Finset.sum_congr rfl fun r hr => by rw [(hleaf r hr).2.2.2]
  · intro r hr
    rw [(hleaf r hr).2.2.2]
    exact Nat.one_le_iff_ne_zero.2 (hleaf r hr).2.2.1
  · intro r hr r' hr'
    rw [(hleaf r hr).2.2.2, (hleaf r' hr').2.2.2]
    exact Nat.one_le_iff_ne_zero.2 (hleaf r' hr').2.2.1

theorem Initial.leafKeys {s : Build} {w : ℕ → ℕ} {asize : ℕ} (h : Initial s w)
    (hsize : s.entsSize = asize + 1) :
    Orders (leafKeys ((List.range' 1 asize).map w)) (rootKeys s.ents (occurring asize w)) := by
  have hleaves : rootKeys s.ents (occurring asize w) =
      ((((List.range' 1 asize).map w).filter (· ≠ 0)).map fun f => toLex (f, 0) :
        List (ℕ ×ₗ ℕ)) := by
    have hkey : rootKeys s.ents (occurring asize w) =
        (occurring asize w).val.map fun r => toLex (w r, 0) := by
      refine Multiset.map_congr rfl fun r hr => ?_
      have hr := (mem_occurring.1 (show r ∈ occurring asize w from hr)).1
      rw [h.leaf r hr.1 (by omega), heapKey]
    rw [hkey, occurring, Finset.filter_val, Nat.Ico_eq_range', List.filter_map, List.map_map]
    rfl
  rw [hleaves]
  exact Orders.insertionSort _

theorem Forest.build {s : Build} {S R : Finset ℕ} {root b : ℕ → ℕ} {W fuel : ℕ}
    (h : Forest s S R root b W) (hW : W < 2 ^ 32) (hpos : 0 < s.heapLast)
    (hfuel : s.heapLast < fuel) {ks : List (ℕ ×ₗ ℕ)} (hks : Orders ks (rootKeys s.ents R)) {n : ℕ}
    (hn : s.heapLast ≤ n + 1) :
    ∃ t R' root' b', buildTree fuel s = some t ∧ Forest t S R' root' b' W ∧ t.heapLast = 1 ∧
      (∀ i < s.entsSize, (ent t.ents i).freq = (ent s.ents i).freq) ∧
      Orders ((joinLeast joinKeys)^[n] ks) (rootKeys t.ents R') := by
  induction fuel generalizing s R root b ks n with
  | zero => exact absurd hfuel (Nat.not_lt_zero _)
  | succ fuel ih =>
    rw [buildTree]
    by_cases htwo : 1 < s.heapLast
    · obtain ⟨s', R', root', b', hjoin, hs', hlast, hsize, hfreq, hkeys⟩ := h.join hW htwo
      obtain ⟨n, rfl⟩ := Nat.exists_eq_succ_of_ne_zero (show n ≠ 0 by omega)
      obtain ⟨t, R'', root'', b'', hrest, ht, hone, hfreq', hkeys'⟩ :=
        ih hs' (by omega) (by omega) (hkeys ks hks) (n := n) (by omega)
      rw [if_pos htwo, hjoin, Option.bind_some, hrest]
      exact ⟨t, R'', root'', b'', rfl, ht, hone, fun i hi =>
        (hfreq' i (by omega)).trans (hfreq i hi), hkeys'⟩
    · rw [if_neg htwo]
      have hsingle : ks.length ≤ 1 := by
        rw [hks.length_eq, rootKeys, Multiset.card_map]
        exact h.card_le (by omega)
      rw [iterate_joinLeast_of_length_le hsingle]
      exact ⟨s, R, root, b, rfl, h, by omega, fun i _ => rfl, hks⟩

structure TreeRead (t : Build) (asize : ℕ) (w g : ℕ → ℕ) : Prop where
  weights : Weights t.ents asize w
  heap_length : t.heap.length = 257
  read : ∀ i, 0 < i → i ≤ asize → w i ≠ 0 → codeLength t.ents t.entsSize i = some (g i)
  absent : ∀ i, 0 < i → i ≤ asize → w i = 0 → g i = 0
  kraft : ∑ i ∈ occurring asize w, (1 / 2 : ℚ) ^ g i = 1
  fib : ∀ i ∈ occurring asize w, Nat.fib (g i + 2) ≤ ∑ i ∈ occurring asize w, w i
  le_depth : ∀ i ∈ occurring asize w, g i ≤ huffmanDepth ((List.range' 1 asize).map w)
  deepest : ∃ i ∈ occurring asize w, g i = huffmanDepth ((List.range' 1 asize).map w)

theorem Initial.tree {s : Build} {w : ℕ → ℕ} {asize : ℕ} (h : Initial s w)
    (hsize : s.entsSize = asize + 1) (hasize : asize ≤ 256) (hpos : 0 < s.heapLast)
    (hW : ∑ i ∈ occurring asize w, w i < 2 ^ 32)
    (hfreq : ∀ i, 0 < i → i ≤ asize → (ent s.ents i).freq = w i) :
    ∃ t g, buildTree (s.heapLast + 1) s = some t ∧ TreeRead t asize w g := by
  have hlast := heapLast_le h
  obtain ⟨t, R, root, b, hrun, ht, hone, hsame, hkeys⟩ :=
    (h.forest hsize hasize).build hW hpos (Nat.lt_succ_self _) (h.leafKeys hsize) (n := asize)
      (by omega)
  have hcontains := ht.heap.contains
  rw [hone] at hcontains
  have htop : slot t.heap 1 ∈ R := Finset.mem_coe.1 (hcontains.mem le_rfl le_rfl)
  -- there is one root, so every symbol is in its tree
  have hsingle : R = {slot t.heap 1} := by
    ext r
    rw [Finset.mem_singleton]
    refine ⟨fun hr => ?_, fun hr => hr ▸ htop⟩
    obtain ⟨i, hi, rfl⟩ := hcontains.surjOn (Finset.mem_coe.2 hr)
    rw [show i = 1 from Nat.le_antisymm hi.2 hi.1]
  have hall : ∀ i ∈ occurring asize w, root i = slot t.heap 1 :=
    fun i hi => Finset.mem_singleton.1 (hsingle ▸ ht.root_mem i hi)
  have hdepth : huffmanDepth ((List.range' 1 asize).map w) =
      (ent t.ents (slot t.heap 1)).depth := by
    rw [hsingle] at hkeys
    obtain ⟨rest, hrest, -⟩ := hkeys.least (x := heapKey (ent t.ents (slot t.heap 1))) (m := 0)
      (fun a ha => absurd ha (Multiset.notMem_zero a))
    rw [huffmanDepth, List.length_map, List.length_range', hrest]
    rfl
  have hwne : ∀ i ∈ occurring asize w, (if w i = 0 then 0 else b i) = b i :=
    fun i hi => if_neg (mem_occurring.1 hi).2
  refine ⟨t, fun i => if w i = 0 then 0 else b i, hrun, ?_, ht.heap.length_eq, ?_, ?_, ?_, ?_, ?_, ?_⟩
  · exact ⟨ht.ents_length, fun i h0 hi => (hsame i (by omega)).trans (hfreq i h0 hi)⟩
  · intro i h0 hi hwi
    have hmem : i ∈ occurring asize w := mem_occurring.2 ⟨⟨h0, hi⟩, hwi⟩
    have hle := ht.le_depth i hmem
    have hdepth := ht.depth_lt _ (ht.root_mem i hmem)
    rw [if_neg hwi]
    exact codeLength_path (ht.path i hmem) (ht.root_parent _ (ht.root_mem i hmem)) (by omega)
  · intro i _ _ hwi
    exact if_pos hwi
  · have hkraft := ht.kraft _ htop
    rw [Finset.filter_true_of_mem hall] at hkraft
    exact (Finset.sum_congr rfl fun i hi => by rw [hwne i hi]).trans hkraft
  · intro i hi
    have hle := ht.le_depth i hi
    rw [hall i hi] at hle
    rw [hwne i hi, ← ht.weight, hsingle, Finset.sum_singleton]
    exact (Nat.fib_mono (by omega)).trans (ht.fib _ htop)
  · intro i hi
    rw [hwne i hi, hdepth, ← hall i hi]
    exact ht.le_depth i hi
  · obtain ⟨i, hi, -, hb⟩ := ht.deepest _ htop
    exact ⟨i, hi, by rw [hwne i hi, hdepth, hb]⟩

theorem codeLengths_spec {ents : List Heapen} {m maxlen : ℕ} {g : ℕ → ℕ} (freq : List ℕ) {i : ℕ}
    (h : ∀ j, i ≤ j → j < i + freq.length →
      (if (ent ents j).freq ≠ 0 then codeLength ents m j else some 0) = some (g j) ∧ g j < 256) :
    ∃ total, codeLengths ents m maxlen freq i = some ⟨(List.range' i freq.length).map g,
      (List.range' i freq.length).any fun j => decide (maxlen < g j), total⟩ := by
  induction freq generalizing i with
  | nil => exact ⟨0, rfl⟩
  | cons f freq ih =>
    rw [List.length_cons] at h ⊢
    obtain ⟨hread, hlt⟩ := h i le_rfl (by omega)
    obtain ⟨total, hrest⟩ := @ih (i + 1) fun j h1 h2 => h j (by omega) (by omega)
    refine ⟨g i * f + total, ?_⟩
    rw [codeLengths, hread, Option.bind_some, hrest, Option.map_some, Nat.mod_eq_of_lt hlt]
    rfl

theorem fib_big : 2 ^ 32 ≤ Nat.fib 48 := by decide +kernel

/-- The tree of a round and the lengths that are read off it. -/
theorem tree_spec {freq : List ℕ} (maxlen : ℕ) {ents : List Heapen} {heap : List ℕ} {w : ℕ → ℕ}
    (h : Weights ents freq.length w) (hheap : heap.length = 257) (hasize : freq.length ≤ 256)
    (hone : 1 ≤ (occurring freq.length w).card)
    (hW : ∑ i ∈ occurring freq.length w, w i < 2 ^ 32) :
    ∃ s t g total, startBuild freq.length ents heap = some s ∧
      s.heapLast = (occurring freq.length w).card ∧
      buildTree (s.heapLast + 1) s = some t ∧ TreeRead t freq.length w g ∧
      codeLengths t.ents t.entsSize maxlen freq 1 = some ⟨(List.range' 1 freq.length).map g,
        (List.range' 1 freq.length).any fun j => decide (maxlen < g j), total⟩ := by
  obtain ⟨s, hstart, hs, hsize⟩ := startBuild_spec h hheap hasize
  have hcard := hs.card
  rw [hsize] at hcard
  have hlast : 1 ≤ s.heapLast := hcard ▸ hone
  have hfreq : ∀ i, 0 < i → i ≤ freq.length → (ent s.ents i).freq = w i := by
    intro i h0 hi
    rw [hs.leaf i h0 (by omega)]
  obtain ⟨t, g, hbuild, ht⟩ := hs.tree hsize hasize hlast hW hfreq
  have hread : ∀ j, 1 ≤ j → j < 1 + freq.length →
      (if (ent t.ents j).freq ≠ 0 then codeLength t.ents t.entsSize j else some 0) =
        some (g j) ∧ g j < 256 := by
    intro j h1 h2
    rw [ht.weights.freq_eq j h1 (by omega)]
    by_cases hw : w j ≠ 0
    · rw [if_pos hw]
      refine ⟨ht.read j h1 (by omega) hw, ?_⟩
      have hfib := ht.fib j (mem_occurring.2 ⟨⟨h1, by omega⟩, hw⟩)
      by_contra hge
      have hmono : Nat.fib 48 ≤ Nat.fib (g j + 2) := Nat.fib_mono (by omega)
      have := fib_big
      omega
    · rw [if_neg hw, ht.absent j h1 (by omega) (not_not.1 hw)]
      exact ⟨rfl, by decide⟩
  obtain ⟨total, hlengths⟩ := @codeLengths_spec t.ents t.entsSize maxlen g freq 1 hread
  exact ⟨s, t, g, total, hstart, hcard.symm, hbuild, ht, hlengths⟩

theorem treeLengths_spec {freq : List ℕ} (maxlen : ℕ) {ents : List Heapen} {heap : List ℕ}
    {w : ℕ → ℕ} (h : Weights ents freq.length w) (hheap : heap.length = 257)
    (hasize : freq.length ≤ 256) (hone : 1 ≤ (occurring freq.length w).card)
    (hW : ∑ i ∈ occurring freq.length w, w i < 2 ^ 32) :
    ∃ t g total, TreeRead t freq.length w g ∧
      treeLengths freq maxlen ents heap = some ⟨(List.range' 1 freq.length).map g,
        (List.range' 1 freq.length).any fun j => decide (maxlen < g j), total⟩ := by
  obtain ⟨s, t, g, total, hstart, -, hbuild, ht, hlengths⟩ :=
    tree_spec maxlen h hheap hasize hone hW
  exact ⟨t, g, total, ht, by
    rw [treeLengths, hstart, Option.bind_some, hbuild, Option.bind_some, hlengths]⟩

theorem round_two {freq : List ℕ} (maxlen : ℕ) {ents : List Heapen} {heap : List ℕ} {w : ℕ → ℕ}
    (h : Weights ents freq.length w) (hheap : heap.length = 257) (hasize : freq.length ≤ 256)
    (htwo : 2 ≤ (occurring freq.length w).card)
    (hW : ∑ i ∈ occurring freq.length w, w i < 2 ^ 32) :
    ∃ t g total, TreeRead t freq.length w g ∧
      treeLengths freq maxlen ents heap = some ⟨(List.range' 1 freq.length).map g,
        (List.range' 1 freq.length).any fun j => decide (maxlen < g j), total⟩ ∧
      ∀ fuel, buildPrefixLoop freq maxlen (fuel + 1) ents heap =
        if ((List.range' 1 freq.length).any fun j => decide (maxlen < g j)) = true then
          buildPrefixLoop freq maxlen fuel (rescale freq.length t.ents) t.heap
        else some ⟨(List.range' 1 freq.length).map g, false, total⟩ := by
  obtain ⟨s, t, g, total, hstart, hlast, hbuild, ht, hlengths⟩ :=
    tree_spec maxlen h hheap hasize (by omega) hW
  refine ⟨t, g, total, ht, by
    rw [treeLengths, hstart, Option.bind_some, hbuild, Option.bind_some, hlengths],
    fun fuel => ?_⟩
  rw [buildPrefixLoop, hstart, Option.bind_some, if_neg (by omega), hbuild, Option.bind_some,
    hlengths, Option.bind_some]
  dsimp only
  split_ifs with hover
  · rfl
  · rw [Bool.eq_false_of_not_eq_true hover]

/-- A round where one symbol occurs: another one is given a weight. -/
theorem round_one {freq : List ℕ} (maxlen : ℕ) {ents : List Heapen} {heap : List ℕ}
    {w : ℕ → ℕ} (h : Weights ents freq.length w) (hheap : heap.length = 257)
    (hasize : freq.length ≤ 256) (hone : (occurring freq.length w).card = 1) :
    ∃ ents' heap', heap'.length = 257 ∧
      Weights ents' freq.length
        (Function.update w ((if freq.getD 0 0 ≠ 0 then freq.length - 1 else 0) + 1) 1) ∧
      ∀ fuel, buildPrefixLoop freq maxlen (fuel + 1) ents heap =
        buildPrefixLoop freq maxlen fuel ents' heap' := by
  obtain ⟨s, hstart, hs, hsize⟩ := startBuild_spec h hheap hasize
  have hcard := hs.card
  rw [hsize] at hcard
  have hlast : s.heapLast = 1 := hcard.symm.trans hone
  have hlen := hs.ents_length
  generalize hsym : (if freq.getD 0 0 ≠ 0 then freq.length - 1 else 0) = sym
  have hin : sym < 256 := by
    rw [← hsym]
    split_ifs <;> omega
  refine ⟨s.ents.set (sym + 1) { ent s.ents (sym + 1) with freq := 1 }, s.heap,
    hs.heap.length_eq, ⟨by rw [List.length_set, hlen], fun i h0 hi => ?_⟩, fun fuel => ?_⟩
  · by_cases hi' : i = sym + 1
    · rw [hi', ent_set_self (by omega), Function.update_self]
    · rw [ent_set_ne hi', Function.update_of_ne hi', hs.leaf i h0 (by omega)]
  · rw [buildPrefixLoop, hstart, Option.bind_some, if_pos hlast, hsym]

theorem weights_rescale {ents : List Heapen} {asize : ℕ} {w : ℕ → ℕ} (h : Weights ents asize w)
    (hasize : asize ≤ 256) : Weights (rescale asize ents) asize fun i => w i / 2 + 1 := by
  have hlen := h.length_eq
  refine ⟨by rw [rescale, List.length_mapIdx, hlen], fun i h0 hi => ?_⟩
  have hfreq := h.freq_eq i h0 hi
  have hlt : i < ents.length := by omega
  have hget : ents[i]? = some (ent ents i) := by
    rw [ent, List.getElem?_eq_getElem hlt, List.getD_eq_getElem _ _ hlt]
  rw [ent, rescale, List.getD_eq_getElem?_getD, List.getElem?_mapIdx, hget, Option.map_some,
    Option.getD_some, if_pos (by omega), ← hfreq]

end Xdelta.Djw
