import Xdelta.Djw.PrefixLengths
import Xdelta.Djw.Huff
import Mathlib.Algebra.BigOperators.Intervals
import Mathlib.Algebra.Order.BigOperators.Ring.Finset
import Mathlib.Algebra.Order.Ring.Rat
import Mathlib.Tactic.Positivity
import Mathlib.Tactic.Linarith

/-!
# The code lengths of a frequency table

Weights are evened out until no code is too long. That ends, since a deep tree is
heavy and the weights shrink; but it gives a weight to symbols that do not occur,
and they get codes.
-/
namespace Xdelta.Djw

/-- The lengths in a table that is no longer than allowed and is complete. -/
structure GoodLengths (asize maxlen : ℕ) (g : ℕ → ℕ) : Prop where
  le_maxlen : ∀ i, 0 < i → i ≤ asize → g i ≤ maxlen
  kraft : ∑ i ∈ (Finset.Ico 1 (asize + 1)).filter (fun i => g i ≠ 0), (1 / 2 : ℚ) ^ g i = 1

variable {asize maxlen : ℕ} {w g : ℕ → ℕ} {t : Build}

theorem TreeRead.pos (h : TreeRead t asize w g) (htwo : 2 ≤ (occurring asize w).card) {i : ℕ}
    (hi : i ∈ occurring asize w) : g i ≠ 0 := by
  intro hzero
  obtain ⟨j, hj, hne⟩ := Finset.exists_mem_ne (show 1 < (occurring asize w).card by omega) i
  have hpair : ({i, j} : Finset ℕ) ⊆ occurring asize w := by
    intro k hk
    rcases Finset.mem_insert.1 hk with rfl | hk
    · exact hi
    · exact Finset.mem_singleton.1 hk ▸ hj
  have hle := Finset.sum_le_sum_of_subset_of_nonneg hpair
    fun k _ _ => (by positivity : (0 : ℚ) ≤ (1 / 2 : ℚ) ^ g k)
  rw [h.kraft, Finset.sum_pair (Ne.symm hne), hzero, pow_zero] at hle
  have hpos : (0 : ℚ) < (1 / 2 : ℚ) ^ g j := by positivity
  linarith

theorem TreeRead.le_one (h : TreeRead t asize w g) (htwo : (occurring asize w).card = 2) {i : ℕ}
    (h0 : 0 < i) (hi : i ≤ asize) : g i ≤ 1 := by
  by_cases hw : w i = 0
  · rw [h.absent i h0 hi hw]
    exact Nat.zero_le 1
  · have hmem : i ∈ occurring asize w := mem_occurring.2 ⟨⟨h0, hi⟩, hw⟩
    obtain ⟨j, hj, hne⟩ := Finset.exists_mem_ne (show 1 < (occurring asize w).card by omega) i
    have hpair : occurring asize w = {i, j} := by
      symm
      apply Finset.eq_of_subset_of_card_le
      · intro k hk
        rcases Finset.mem_insert.1 hk with rfl | hk
        · exact hmem
        · exact Finset.mem_singleton.1 hk ▸ hj
      · rw [htwo, Finset.card_pair (Ne.symm hne)]
    have hkraft := h.kraft
    rw [hpair, Finset.sum_pair (Ne.symm hne)] at hkraft
    by_contra hgt
    have hhalf : (1 / 2 : ℚ) ^ g j ≤ (1 / 2) ^ 1 :=
      pow_le_pow_of_le_one (by norm_num) (by norm_num)
        (Nat.one_le_iff_ne_zero.2 (h.pos htwo.ge hj))
    have hquarter : (1 / 2 : ℚ) ^ g i ≤ (1 / 2) ^ 2 :=
      pow_le_pow_of_le_one (by norm_num) (by norm_num) (by omega)
    norm_num at hhalf hquarter hkraft
    linarith

/-- A round that ends with lengths for exactly the symbols that have a weight. -/
theorem TreeRead.good (h : TreeRead t asize w g) (htwo : 2 ≤ (occurring asize w).card)
    (hfits : ¬ ((List.range' 1 asize).any fun j => decide (maxlen < g j)) = true) :
    GoodLengths asize maxlen g ∧ ∀ i, 0 < i → i ≤ asize → (g i ≠ 0 ↔ w i ≠ 0) := by
  have hiff : ∀ i, 0 < i → i ≤ asize → (g i ≠ 0 ↔ w i ≠ 0) := by
    intro i h0 hi
    constructor
    · exact fun hg hw => hg (h.absent i h0 hi hw)
    · exact fun hw => h.pos htwo (mem_occurring.2 ⟨⟨h0, hi⟩, hw⟩)
  refine ⟨⟨fun i h0 hi => ?_, ?_⟩, hiff⟩
  · by_contra hgt
    apply hfits
    rw [List.any_eq_true]
    exact ⟨i, List.mem_range'_1.2 ⟨h0, by omega⟩, decide_eq_true (Nat.lt_of_not_le hgt)⟩
  · have hsame : (Finset.Ico 1 (asize + 1)).filter (fun i => g i ≠ 0) = occurring asize w := by
      refine Finset.filter_congr fun i hi => ?_
      rw [Finset.mem_Ico] at hi
      exact hiff i hi.1 (by omega)
    rw [hsame]
    exact h.kraft

theorem TreeRead.heavy (h : TreeRead t asize w g)
    (hover : ((List.range' 1 asize).any fun j => decide (maxlen < g j)) = true) :
    Nat.fib (maxlen + 3) ≤ ∑ i ∈ occurring asize w, w i := by
  obtain ⟨j, hj, hlong⟩ := List.any_eq_true.1 hover
  rw [decide_eq_true_eq] at hlong
  obtain ⟨h1, h2⟩ := List.mem_range'_1.1 hj
  have hmem : j ∈ occurring asize w := by
    refine mem_occurring.2 ⟨⟨h1, by omega⟩, fun hw => ?_⟩
    rw [h.absent j h1 (by omega) hw] at hlong
    exact absurd hlong (Nat.not_lt_zero _)
  exact (Nat.fib_mono (by omega)).trans (h.fib j hmem)

/-- A code is too long exactly if the tree of the weights is too deep. -/
theorem TreeRead.overflow_iff (h : TreeRead t asize w g) :
    ((List.range' 1 asize).any fun j => decide (maxlen < g j)) = true ↔
      maxlen < huffmanDepth ((List.range' 1 asize).map w) := by
  rw [List.any_eq_true]
  constructor
  · rintro ⟨j, hj, hlong⟩
    rw [decide_eq_true_eq] at hlong
    obtain ⟨h1, h2⟩ := List.mem_range'_1.1 hj
    refine hlong.trans_le (h.le_depth j (mem_occurring.2 ⟨⟨h1, by omega⟩, fun hw => ?_⟩))
    rw [h.absent j h1 (by omega) hw] at hlong
    exact absurd hlong (Nat.not_lt_zero _)
  · intro hdeep
    obtain ⟨j, hj, hdepth⟩ := h.deepest
    obtain ⟨⟨h1, h2⟩, -⟩ := mem_occurring.1 hj
    refine ⟨j, List.mem_range'_1.2 ⟨h1, by omega⟩, decide_eq_true ?_⟩
    rw [hdepth]
    exact hdeep

theorem occurring_pos (hw : ∀ i, 0 < i → i ≤ asize → w i ≠ 0) :
    occurring asize w = Finset.Ico 1 (asize + 1) := by
  apply Finset.filter_true_of_mem
  intro i hi
  rw [Finset.mem_Ico] at hi
  exact hw i hi.1 (by omega)

theorem card_occurring_pos (hw : ∀ i, 0 < i → i ≤ asize → w i ≠ 0) :
    (occurring asize w).card = asize := by
  rw [occurring_pos hw, Nat.card_Ico, Nat.add_sub_cancel]

/-- Where every symbol has a weight, evening out ends: too long a code means that some weight is
at least three, and that gets less. -/
theorem buildPrefixLoop_ends {freq : List ℕ} (hasize : freq.length ≤ 256)
    (htwo : 2 ≤ freq.length) (hmaxlen : 2 * freq.length < Nat.fib (maxlen + 3)) {W : ℕ}
    {ents : List Heapen} {heap : List ℕ} {w : ℕ → ℕ} (h : Weights ents freq.length w)
    (hheap : heap.length = 257) (hw : ∀ i, 0 < i → i ≤ freq.length → w i ≠ 0)
    (hW : ∑ i ∈ Finset.Ico 1 (freq.length + 1), w i = W) (hlt : W < 2 ^ 32) :
    ∃ fuel r, buildPrefixLoop freq maxlen fuel ents heap = some r := by
  induction W using Nat.strong_induction_on generalizing ents heap w with
  | _ W ih =>
    have hocc := occurring_pos hw
    obtain ⟨t, g, total, ht, -, hround⟩ := round_two maxlen h hheap hasize
      (by rw [card_occurring_pos hw]; exact htwo) (by rw [hocc, hW]; exact hlt)
    by_cases hover : ((List.range' 1 freq.length).any fun j => decide (maxlen < g j)) = true
    · have hheavy := ht.heavy hover
      rw [hocc, hW] at hheavy
      have hle : ∀ i ∈ Finset.Ico 1 (freq.length + 1), w i / 2 + 1 ≤ w i := by
        intro i hi
        rw [Finset.mem_Ico] at hi
        have := hw i hi.1 (by omega)
        omega
      have hsome : ∃ i ∈ Finset.Ico 1 (freq.length + 1), w i / 2 + 1 < w i := by
        have hsum : ∑ i ∈ Finset.Ico 1 (freq.length + 1), 2 <
            ∑ i ∈ Finset.Ico 1 (freq.length + 1), w i := by
          rw [Finset.sum_const, Nat.card_Ico, hW, smul_eq_mul]
          omega
        obtain ⟨i, hi, hlt'⟩ := Finset.exists_lt_of_sum_lt hsum
        exact ⟨i, hi, by omega⟩
      have hless := Finset.sum_lt_sum hle hsome
      rw [hW] at hless
      obtain ⟨fuel, r, hrest⟩ := ih _ hless (weights_rescale ht.weights hasize) ht.heap_length
        (fun i _ _ => Nat.succ_ne_zero _) rfl (by omega)
      exact ⟨fuel + 1, r, by rw [hround fuel, if_pos hover, hrest]⟩
    · exact ⟨1, _, by rw [hround 0, if_neg hover]⟩

/-- Whatever is returned is complete, and every symbol with a weight has a code. -/
theorem buildPrefixLoop_good {freq : List ℕ} (hasize : freq.length ≤ 256) (hlen : 2 ≤ freq.length)
    {fuel : ℕ} {ents : List Heapen} {heap : List ℕ} {w : ℕ → ℕ} (h : Weights ents freq.length w)
    (hheap : heap.length = 257) (htwo : 2 ≤ (occurring freq.length w).card)
    (hlt : ∑ i ∈ Finset.Ico 1 (freq.length + 1), w i ≤ 2 ^ 31) {r : Lengths}
    (hr : buildPrefixLoop freq maxlen fuel ents heap = some r) :
    ∃ g, r.clen = (List.range' 1 freq.length).map g ∧ GoodLengths freq.length maxlen g ∧
      ∀ i, 0 < i → i ≤ freq.length → w i ≠ 0 → g i ≠ 0 := by
  induction fuel generalizing ents heap w with
  | zero => cases hr
  | succ fuel ih =>
    have hsub : ∑ i ∈ occurring freq.length w, w i ≤
        ∑ i ∈ Finset.Ico 1 (freq.length + 1), w i :=
      Finset.sum_le_sum_of_subset (Finset.filter_subset _ _)
    obtain ⟨t, g, total, ht, -, hround⟩ := round_two maxlen h hheap hasize htwo (by omega)
    rw [hround fuel] at hr
    by_cases hover : ((List.range' 1 freq.length).any fun j => decide (maxlen < g j)) = true
    · rw [if_pos hover] at hr
      have hpos : ∀ i, 0 < i → i ≤ freq.length → w i / 2 + 1 ≠ 0 := fun i _ _ => Nat.succ_ne_zero _
      have hsum : ∑ i ∈ Finset.Ico 1 (freq.length + 1), (w i / 2 + 1) ≤ 2 ^ 31 := by
        have hhalf : ∀ i ∈ Finset.Ico 1 (freq.length + 1), 2 * (w i / 2 + 1) ≤ w i + 2 :=
          fun i _ => by omega
        have hright : ∑ i ∈ Finset.Ico 1 (freq.length + 1), (w i + 2) =
            ∑ i ∈ Finset.Ico 1 (freq.length + 1), w i + 2 * freq.length := by
          rw [Finset.sum_add_distrib, Finset.sum_const, Nat.card_Ico, smul_eq_mul]
          omega
        have hdouble := Finset.sum_le_sum hhalf
        rw [← Finset.mul_sum, hright] at hdouble
        omega
      obtain ⟨g', hclen, hgood, hcodes⟩ := ih (weights_rescale ht.weights hasize) ht.heap_length
        (by rw [card_occurring_pos hpos]; exact hlen) hsum hr
      exact ⟨g', hclen, hgood, fun i h0 hi _ => hcodes i h0 hi (hpos i h0 hi)⟩
    · rw [if_neg hover, Option.some.injEq] at hr
      obtain ⟨hgood, hiff⟩ := ht.good htwo hover
      exact ⟨g, by rw [← hr], hgood, fun i h0 hi => (hiff i h0 hi).2⟩

def weight (freq : List ℕ) (i : ℕ) : ℕ := freq.getD (i - 1) 0

def fakedSymbol (freq : List ℕ) : ℕ := if freq.getD 0 0 ≠ 0 then freq.length - 1 else 0

/-- What is wanted of the lengths for a table: none is too long, they satisfy the Kraft equality,
and the symbols that occur are those with codes, but for one where only one occurs. -/
structure LengthsRight (freq : List ℕ) (maxlen : ℕ) (clen : List ℕ) : Prop where
  length_eq : clen.length = freq.length
  le_maxlen : ∀ c ∈ clen, c ≤ maxlen
  kraft : (clen.map fun c => if c = 0 then 0 else 2 ^ (maxlen - c)).sum = 2 ^ maxlen
  occurs : ∀ s < freq.length, freq.getD s 0 ≠ 0 → clen.getD s 0 ≠ 0
  absent : ∀ s < freq.length, freq.getD s 0 = 0 → clen.getD s 0 ≠ 0 →
    freq.countP (· ≠ 0) = 1 ∧ s = fakedSymbol freq

/-- `djw_build_prefix` returns, and what it returns is right. -/
structure PrefixRight (freq : List ℕ) (maxlen : ℕ) : Prop where
  ends : ∃ fuel r, buildPrefix freq maxlen fuel = some r
  right : ∀ fuel r, buildPrefix freq maxlen fuel = some r → LengthsRight freq maxlen r.clen

theorem sum_range'_map (f : ℕ → ℕ) (n : ℕ) :
    ((List.range' 1 n).map f).sum = ∑ i ∈ Finset.Ico 1 (n + 1), f i := by
  induction n with
  | zero => rfl
  | succ n ih =>
    rw [List.range'_concat, List.map_append, List.sum_append, ih,
      Finset.sum_Ico_succ_top (show 1 ≤ n + 1 by omega) f, Nat.one_mul, Nat.add_comm 1 n]
    simp

theorem map_weight (freq : List ℕ) : (List.range' 1 freq.length).map (weight freq) = freq := by
  apply List.ext_getElem
  · rw [List.length_map, List.length_range']
  · intro i h1 h2
    rw [List.getElem_map, List.getElem_range', weight, List.getD_eq_getElem?_getD]
    simp [h2]

theorem sum_weight (freq : List ℕ) (f : ℕ → ℕ) :
    ∑ i ∈ Finset.Ico 1 (freq.length + 1), f (weight freq i) = (freq.map f).sum := by
  rw [← sum_range'_map (fun i => f (weight freq i))]
  conv_rhs => rw [← map_weight freq, List.map_map]
  rfl

theorem card_occurring (freq : List ℕ) :
    (occurring freq.length (weight freq)).card = freq.countP (· ≠ 0) := by
  rw [occurring, Finset.card_filter, sum_weight freq (fun v => if v ≠ 0 then 1 else 0)]
  induction freq with
  | nil => rfl
  | cons v freq ih =>
    rw [List.map_cons, List.sum_cons, List.countP_cons, ih, Nat.add_comm]
    simp

theorem weights_symbolEnts {freq : List ℕ} (h : freq.length ≤ 256) :
    Weights (symbolEnts freq) freq.length (weight freq) := by
  refine ⟨by simp [symbolEnts]; omega, fun i h0 hi => ?_⟩
  obtain ⟨k, rfl⟩ := Nat.exists_eq_succ_of_ne_zero (Nat.ne_of_gt h0)
  have hk : k < freq.length := hi
  rw [symbolEnts, ent, weight, List.getD_eq_getElem?_getD, List.cons_append,
    List.getElem?_cons_succ, List.getElem?_append_left (by rw [List.length_map]; exact hk),
    List.getElem?_map, List.getElem?_eq_getElem hk]
  simp [hk]

theorem GoodLengths.right {freq clen : List ℕ} {g : ℕ → ℕ} (h : GoodLengths freq.length maxlen g)
    (hclen : clen = (List.range' 1 freq.length).map g)
    (hoccurs : ∀ i, 0 < i → i ≤ freq.length → weight freq i ≠ 0 → g i ≠ 0)
    (habsent : ∀ i, 0 < i → i ≤ freq.length → weight freq i = 0 → g i ≠ 0 →
      freq.countP (· ≠ 0) = 1 ∧ i - 1 = fakedSymbol freq) :
    LengthsRight freq maxlen clen := by
  have hget : ∀ s < freq.length, clen.getD s 0 = g (s + 1) := by
    intro s hs
    rw [hclen, List.getD_eq_getElem _ _ (by rw [List.length_map, List.length_range']; exact hs),
      List.getElem_map, List.getElem_range', Nat.one_mul, Nat.add_comm]
  refine ⟨by rw [hclen, List.length_map, List.length_range'], ?_, ?_, ?_, ?_⟩
  · intro c hc
    rw [hclen, List.mem_map] at hc
    obtain ⟨i, hi, rfl⟩ := hc
    obtain ⟨h1, h2⟩ := List.mem_range'_1.1 hi
    exact h.le_maxlen i h1 (by omega)
  · rw [hclen, List.map_map, sum_range'_map]
    have hcast : ((∑ i ∈ Finset.Ico 1 (freq.length + 1),
        (if g i = 0 then 0 else 2 ^ (maxlen - g i)) : ℕ) : ℚ) = 2 ^ maxlen := by
      rw [← mul_one ((2 : ℚ) ^ maxlen), ← h.kraft, Finset.sum_filter, Finset.mul_sum, Nat.cast_sum]
      refine Finset.sum_congr rfl fun i hi => ?_
      rw [Finset.mem_Ico] at hi
      by_cases hg : g i = 0
      · rw [if_pos hg, if_neg (not_not_intro hg), mul_zero, Nat.cast_zero]
      · have hle := h.le_maxlen i hi.1 (by omega)
        rw [if_neg hg, if_pos hg, Nat.cast_pow, Nat.cast_ofNat]
        have hsplit : (2 : ℚ) ^ maxlen = 2 ^ (maxlen - g i) * 2 ^ g i := by
          rw [← pow_add, Nat.sub_add_cancel hle]
        rw [hsplit, mul_assoc, ← mul_pow]
        norm_num
    exact_mod_cast hcast
  · intro s hs hfreq
    rw [hget s hs]
    exact hoccurs (s + 1) (Nat.succ_pos s) hs hfreq
  · intro s hs hfreq hclen'
    rw [hget s hs] at hclen'
    exact habsent (s + 1) (Nat.succ_pos s) hs hfreq hclen'

/-- The pairs of a size and a bound that the callers use: the alphabet, the code lengths and the
group selectors. -/
def CallerBound (asize maxlen : ℕ) : Prop :=
  (maxlen = maxCodelen ∨ maxlen = maxClclen) ∧ asize ≤ 256 ∨
    maxlen = maxGbclen ∧ asize ≤ maxGroups + 1

theorem CallerBound.spec (h : CallerBound asize maxlen) :
    asize ≤ 256 ∧ 2 * asize < Nat.fib (maxlen + 3) ∧ 1 ≤ maxlen := by
  have h23 : Nat.fib 23 = 28657 := by decide
  have h18 : Nat.fib 18 = 2584 := by decide
  have h10 : Nat.fib 10 = 55 := by decide
  rcases h with ⟨rfl | rfl, hle⟩ | ⟨rfl, hle⟩
  · rw [show maxCodelen + 3 = 23 from rfl, h23, show maxCodelen = 20 from rfl]
    omega
  · rw [show maxClclen + 3 = 18 from rfl, h18, show maxClclen = 15 from rfl]
    omega
  · rw [show maxGroups + 1 = 9 from rfl] at hle
    rw [show maxGbclen + 3 = 10 from rfl, h10, show maxGbclen = 7 from rfl]
    omega

section Tables

variable {freq : List ℕ}

theorem sum_weight_id (freq : List ℕ) :
    ∑ i ∈ Finset.Ico 1 (freq.length + 1), weight freq i = freq.sum := by
  have := sum_weight freq id
  rwa [List.map_id] at this

theorem weight_ne_zero (hw : ∀ f ∈ freq, f ≠ 0) {i : ℕ} (h0 : 0 < i) (hi : i ≤ freq.length) :
    weight freq i ≠ 0 := by
  rw [weight, List.getD_eq_getElem _ _ (by omega)]
  exact hw _ (List.getElem_mem _)

theorem sum_occurring_le (w : ℕ → ℕ) (n : ℕ) :
    ∑ i ∈ occurring n w, w i ≤ ∑ i ∈ Finset.Ico 1 (n + 1), w i :=
  Finset.sum_le_sum_of_subset (Finset.filter_subset _ _)

/-- The first tree is the Huffman tree of the frequencies. -/
theorem overflows_iff (hasize : freq.length ≤ 256) (hsum : freq.sum < 2 ^ 32)
    (hsome : 0 < freq.countP (· ≠ 0)) :
    overflows freq maxlen = true ↔ maxlen < huffmanDepth freq := by
  have hcard : 1 ≤ (occurring freq.length (weight freq)).card := by rwa [card_occurring]
  have hle := sum_occurring_le (weight freq) freq.length
  rw [sum_weight_id] at hle
  obtain ⟨t, g, total, ht, hread⟩ := treeLengths_spec maxlen (weights_symbolEnts hasize)
    List.length_replicate hasize hcard (by omega)
  have hdeep := @TreeRead.overflow_iff _ maxlen _ _ _ ht
  rw [map_weight] at hdeep
  rw [overflows, hread, Option.any_some]
  exact hdeep

theorem prefixRight_two (hbound : CallerBound freq.length maxlen) (hsum : freq.sum < 2 ^ 31)
    (htwo : 2 ≤ freq.countP (· ≠ 0)) :
    (∃ fuel r, buildPrefix freq maxlen fuel = some r) ∧
      ((overflows freq maxlen = false ∨ ∀ f ∈ freq, f ≠ 0) →
        ∀ fuel r, buildPrefix freq maxlen fuel = some r → LengthsRight freq maxlen r.clen) ∧
      (overflows freq maxlen = true →
        ∀ fuel r, buildPrefix freq maxlen fuel = some r →
          ∀ s < freq.length, r.clen.getD s 0 ≠ 0) := by
  obtain ⟨hasize, hmaxlen, -⟩ := hbound.spec
  have hlen : 2 ≤ freq.length := htwo.trans List.countP_le_length
  have hweights := weights_symbolEnts hasize
  have hheap : (List.replicate 257 0 : List ℕ).length = 257 := List.length_replicate
  have hcard : 2 ≤ (occurring freq.length (weight freq)).card := by rwa [card_occurring]
  have hle := sum_occurring_le (weight freq) freq.length
  rw [sum_weight_id] at hle
  obtain ⟨t, g, total, ht, hread, hround⟩ :=
    round_two maxlen hweights hheap hasize hcard (by omega)
  have hover : overflows freq maxlen =
      (List.range' 1 freq.length).any fun j => decide (maxlen < g j) := by
    rw [overflows, hread]
    rfl
  have hpos : ∀ i, 0 < i → i ≤ freq.length → weight freq i / 2 + 1 ≠ 0 :=
    fun i _ _ => Nat.succ_ne_zero _
  have hagain : ∑ i ∈ Finset.Ico 1 (freq.length + 1), (weight freq i / 2 + 1) ≤
      freq.sum / 2 + freq.length := by
    have hhalf : ∀ i ∈ Finset.Ico 1 (freq.length + 1),
        2 * (weight freq i / 2 + 1) ≤ weight freq i + 2 := fun i _ => by omega
    have hright : ∑ i ∈ Finset.Ico 1 (freq.length + 1), (weight freq i + 2) =
        freq.sum + 2 * freq.length := by
      rw [Finset.sum_add_distrib, Finset.sum_const, Nat.card_Ico, smul_eq_mul, sum_weight_id]
      omega
    have hdouble := Finset.sum_le_sum hhalf
    rw [← Finset.mul_sum, hright] at hdouble
    omega
  refine ⟨?_, ?_, ?_⟩
  · by_cases hyes : overflows freq maxlen = true
    · obtain ⟨fuel, r, hrest⟩ := buildPrefixLoop_ends hasize hlen hmaxlen
        (weights_rescale ht.weights hasize) ht.heap_length hpos rfl (by omega)
      exact ⟨fuel + 1, r, by rw [buildPrefix, hround fuel, ← hover, if_pos hyes, hrest]⟩
    · exact ⟨1, _, by rw [buildPrefix, hround 0, ← hover, if_neg hyes]⟩
  · rintro (hno | hall) fuel r hr
    · cases fuel with
      | zero => cases hr
      | succ fuel =>
        have hfits : ¬ ((List.range' 1 freq.length).any fun j => decide (maxlen < g j)) = true := by
          rw [← hover, hno]
          exact Bool.noConfusion
        rw [buildPrefix, hround fuel, if_neg hfits, Option.some.injEq] at hr
        obtain ⟨hgood, hiff⟩ := ht.good hcard hfits
        refine hgood.right (by rw [← hr]) (fun i h0 hi => (hiff i h0 hi).2) ?_
        exact fun i h0 hi hzero hcode => absurd hzero ((hiff i h0 hi).1 hcode)
    · obtain ⟨g', hclen, hgood, hcodes⟩ := buildPrefixLoop_good hasize hlen hweights hheap hcard
        (by rw [sum_weight_id]; omega) hr
      exact hgood.right hclen hcodes
        fun i h0 hi hzero _ => absurd hzero (weight_ne_zero hall h0 hi)
  · intro hyes fuel r hr s hs
    cases fuel with
    | zero => cases hr
    | succ fuel =>
      rw [buildPrefix, hround fuel, ← hover, if_pos hyes] at hr
      obtain ⟨g', hclen, hgood, hcodes⟩ := buildPrefixLoop_good hasize hlen
        (weights_rescale ht.weights hasize) ht.heap_length
        (by rw [card_occurring_pos hpos]; exact hlen) (by omega) hr
      rw [hclen, List.getD_eq_getElem _ _ (by rw [List.length_map, List.length_range']; exact hs),
        List.getElem_map, List.getElem_range', Nat.one_mul, Nat.add_comm]
      exact hcodes (s + 1) (Nat.succ_pos s) hs (hpos (s + 1) (Nat.succ_pos s) hs)

/-- The entry of the symbol that is given a weight, and the one that has one. -/
theorem faked_spec (hlen : 2 ≤ freq.length) (hone : freq.countP (· ≠ 0) = 1) :
    fakedSymbol freq + 1 ≤ freq.length ∧ weight freq (fakedSymbol freq + 1) = 0 := by
  unfold fakedSymbol weight
  rw [Nat.add_sub_cancel]
  by_cases hfirst : freq.getD 0 0 ≠ 0
  · rw [if_pos hfirst]
    refine ⟨by omega, ?_⟩
    cases freq with
    | nil => rfl
    | cons f freq =>
      rw [List.getD_cons_zero] at hfirst
      rw [List.countP_cons_of_pos (by simpa using hfirst), Nat.add_eq_right,
        List.countP_eq_zero] at hone
      rw [List.length_cons, Nat.add_sub_cancel]
      rw [List.length_cons] at hlen
      obtain ⟨k, hk⟩ := Nat.exists_eq_succ_of_ne_zero (show freq.length ≠ 0 by omega)
      rw [hk, Nat.succ_eq_add_one, List.getD_cons_succ, List.getD_eq_getElem _ _ (by omega)]
      simpa using hone _ (List.getElem_mem (show k < freq.length by omega))
  · rw [if_neg hfirst]
    exact ⟨by omega, not_not.1 hfirst⟩

/-- One symbol: it and the other one get codes of one bit. -/
theorem prefixRight_one (hbound : CallerBound freq.length maxlen) (hsum : freq.sum < 2 ^ 31)
    (hlen : 2 ≤ freq.length) (hone : freq.countP (· ≠ 0) = 1) : PrefixRight freq maxlen := by
  obtain ⟨hasize, hmaxlen, hbits⟩ := hbound.spec
  have hheap : (List.replicate 257 0 : List ℕ).length = 257 := List.length_replicate
  have hcard : (occurring freq.length (weight freq)).card = 1 := by rw [card_occurring, hone]
  obtain ⟨hin, hzero⟩ := faked_spec hlen hone
  set k := fakedSymbol freq + 1 with hk
  obtain ⟨ents', heap', hheap', hupdate, hfirst⟩ :=
    round_one maxlen (weights_symbolEnts hasize) hheap hasize hcard
  have hweights' : Weights ents' freq.length (Function.update (weight freq) k 1) := hupdate
  have hocc : occurring freq.length (Function.update (weight freq) k 1) =
      insert k (occurring freq.length (weight freq)) := by
    ext i
    rw [Finset.mem_insert, mem_occurring, mem_occurring]
    by_cases hi : i = k
    · rw [hi, Function.update_self]
      simp only [true_or, iff_true]
      exact ⟨⟨Nat.succ_pos _, hin⟩, Nat.one_ne_zero⟩
    · rw [Function.update_of_ne hi]
      simp [hi]
  have hnew : k ∉ occurring freq.length (weight freq) := fun hmem => (mem_occurring.1 hmem).2 hzero
  have hcard' : (occurring freq.length (Function.update (weight freq) k 1)).card = 2 := by
    rw [hocc, Finset.card_insert_of_notMem hnew, hcard]
  have hW : ∑ i ∈ occurring freq.length (Function.update (weight freq) k 1),
      Function.update (weight freq) k 1 i < 2 ^ 32 := by
    have hsame : ∑ i ∈ occurring freq.length (weight freq), Function.update (weight freq) k 1 i =
        ∑ i ∈ occurring freq.length (weight freq), weight freq i :=
      Finset.sum_congr rfl fun i hi =>
        Function.update_of_ne (fun hik : i = k => hnew (hik ▸ hi)) _ _
    have hle := sum_occurring_le (weight freq) freq.length
    rw [sum_weight_id] at hle
    rw [hocc, Finset.sum_insert hnew, Function.update_self, hsame]
    omega
  obtain ⟨t, g, total, ht, -, hround⟩ :=
    round_two maxlen hweights' hheap' hasize hcard'.ge hW
  have hfits : ¬ ((List.range' 1 freq.length).any fun j => decide (maxlen < g j)) = true := by
    intro hany
    obtain ⟨j, hj, hlong⟩ := List.any_eq_true.1 hany
    rw [decide_eq_true_eq] at hlong
    have := ht.le_one hcard' (List.mem_range'_1.1 hj).1 (by have := (List.mem_range'_1.1 hj).2; omega)
    omega
  have hrun : ∀ fuel, buildPrefix freq maxlen (fuel + 2) =
      some ⟨(List.range' 1 freq.length).map g, false, total⟩ := by
    intro fuel
    rw [buildPrefix, hfirst (fuel + 1), hround fuel, if_neg hfits]
  obtain ⟨hgood, hiff⟩ := ht.good hcard'.ge hfits
  refine ⟨⟨2, _, hrun 0⟩, fun fuel r hr => ?_⟩
  rcases fuel with _ | _ | fuel
  · cases hr
  · rw [buildPrefix, hfirst 0] at hr
    cases hr
  · rw [hrun fuel, Option.some.injEq] at hr
    refine hgood.right (by rw [← hr]) (fun i h0 hi hw => (hiff i h0 hi).2 ?_) ?_
    · by_cases hik : i = k
      · rw [hik, Function.update_self]
        exact Nat.one_ne_zero
      · rwa [Function.update_of_ne hik]
    · intro i h0 hi hw hcode
      have hupdate := (hiff i h0 hi).1 hcode
      by_cases hik : i = k
      · exact ⟨hone, by rw [hik, hk, Nat.add_sub_cancel]⟩
      · rw [Function.update_of_ne hik] at hupdate
        exact absurd hw hupdate

theorem overflows_one (hbound : CallerBound freq.length maxlen) (hsum : freq.sum < 2 ^ 31)
    (hone : freq.countP (· ≠ 0) = 1) : overflows freq maxlen = false := by
  obtain ⟨hasize, -⟩ := hbound.spec
  have hcard : (occurring freq.length (weight freq)).card = 1 := by rw [card_occurring, hone]
  have hle := sum_occurring_le (weight freq) freq.length
  rw [sum_weight_id] at hle
  obtain ⟨t, g, total, ht, hread⟩ := treeLengths_spec maxlen (weights_symbolEnts hasize)
    List.length_replicate hasize hcard.ge (by omega)
  rw [overflows, hread, Option.any_some, List.any_eq_false]
  intro j hj
  obtain ⟨h1, h2⟩ := List.mem_range'_1.1 hj
  have hzero : g j = 0 := by
    by_cases hw : weight freq j = 0
    · exact ht.absent j h1 (by omega) hw
    · obtain ⟨i, hi⟩ := Finset.card_eq_one.1 hcard
      have hmem : j ∈ occurring freq.length (weight freq) := mem_occurring.2 ⟨⟨h1, by omega⟩, hw⟩
      rw [hi, Finset.mem_singleton] at hmem
      have hkraft := ht.kraft
      rw [hi, Finset.sum_singleton, ← hmem] at hkraft
      by_contra hne
      have hhalf : (1 / 2 : ℚ) ^ g j ≤ (1 / 2) ^ 1 :=
        pow_le_pow_of_le_one (by norm_num) (by norm_num) (Nat.one_le_iff_ne_zero.2 hne)
      rw [hkraft] at hhalf
      norm_num at hhalf
  rw [hzero]
  simp

/-- A table for one symbol: the round is repeated for ever. -/
theorem buildPrefix_single (hlen : freq.length = 1) (hone : freq.countP (· ≠ 0) = 1)
    (fuel : ℕ) : buildPrefix freq maxlen fuel = none := by
  have hloop : ∀ {ents : List Heapen} {heap : List ℕ} {w : ℕ → ℕ}, Weights ents freq.length w →
      heap.length = 257 → (occurring freq.length w).card = 1 →
        buildPrefixLoop freq maxlen fuel ents heap = none := by
    induction fuel with
    | zero => exact fun _ _ _ => rfl
    | succ fuel ih =>
      intro ents heap w h hheap hcard
      obtain ⟨ents', heap', hheap', h', hround⟩ := round_one maxlen h hheap (by omega) hcard
      have hsym : (if freq.getD 0 0 ≠ 0 then freq.length - 1 else 0) + 1 = 1 := by
        rw [hlen]
        split_ifs <;> rfl
      rw [hsym] at h'
      rw [hround fuel]
      apply ih h' hheap'
      rw [card_occurring_pos, hlen]
      intro i h0 hi
      have hi1 : i = 1 := by omega
      rw [hi1, Function.update_self]
      exact Nat.one_ne_zero
  apply hloop (weights_symbolEnts (by omega)) List.length_replicate
  rw [card_occurring, hone]

/-- The lengths are right exactly where there is another symbol to fake and, unless every symbol
occurs, the Huffman tree of the frequencies is not too deep. -/
theorem prefixRight_iff (freq : List ℕ) (maxlen : ℕ) (hbound : CallerBound freq.length maxlen)
    (hsum : freq.sum < 2 ^ 31) (hsome : ∃ f ∈ freq, f ≠ 0) :
    PrefixRight freq maxlen ↔
      2 ≤ freq.length ∧ (huffmanDepth freq ≤ maxlen ∨ ∀ f ∈ freq, f ≠ 0) := by
  have hcount : 0 < freq.countP (· ≠ 0) := by
    rw [List.countP_pos_iff]
    obtain ⟨f, hf, hne⟩ := hsome
    exact ⟨f, hf, decide_eq_true hne⟩
  have hle : freq.countP (· ≠ 0) ≤ freq.length := List.countP_le_length
  have hfits : huffmanDepth freq ≤ maxlen ↔ overflows freq maxlen = false := by
    rw [← Bool.not_eq_true, overflows_iff hbound.spec.1 (by omega) hcount, Nat.not_lt]
  rw [hfits]
  by_cases hone : freq.countP (· ≠ 0) = 1
  · by_cases hlen : 2 ≤ freq.length
    · exact ⟨fun _ => ⟨hlen, Or.inl (overflows_one hbound hsum hone)⟩,
        fun _ => prefixRight_one hbound hsum hlen hone⟩
    · refine ⟨fun hright => ?_, fun hcond => absurd hcond.1 hlen⟩
      obtain ⟨fuel, r, hr⟩ := hright.ends
      rw [buildPrefix_single (by omega) hone] at hr
      cases hr
  · have htwo : 2 ≤ freq.countP (· ≠ 0) := by omega
    obtain ⟨hends, hgood, hbad⟩ := prefixRight_two hbound hsum htwo
    refine ⟨fun hright => ⟨htwo.trans hle, ?_⟩, fun hcond => ⟨hends, hgood hcond.2⟩⟩
    by_contra hnot
    rw [not_or] at hnot
    obtain ⟨hover, hall⟩ := hnot
    rw [Bool.not_eq_false] at hover
    simp only [not_forall, not_not] at hall
    obtain ⟨f, hf, rfl⟩ := hall
    obtain ⟨s, hs, hzero⟩ := List.mem_iff_getElem.1 hf
    obtain ⟨fuel, r, hr⟩ := hends
    have hfreq : freq.getD s 0 = 0 := by rw [List.getD_eq_getElem _ _ hs, hzero]
    exact hone ((hright.right fuel r hr).absent s hs hfreq (hbad hover fuel r hr s hs)).1

end Tables

/-- Three symbols, one of which does not occur. -/
theorem prefixRight_sample :
    CallerBound 3 15 ∧ PrefixRight [3, 0, 5] 15 :=
  ⟨Or.inl ⟨Or.inr rfl, by decide⟩,
    (prefixRight_iff [3, 0, 5] 15 (Or.inl ⟨Or.inr rfl, by decide⟩) (by decide)
      ⟨3, by decide, by decide⟩).2 ⟨by decide, Or.inl (by decide +kernel)⟩⟩

/-- A section in which 22 bytes double in frequency, and the others do not occur. -/
def doubling : List ℕ :=
  [1, 1, 2, 4, 8, 16, 32, 64, 128, 256, 512, 1024, 2048, 4096, 8192, 16384, 32768, 65536, 131072,
    262144, 524288, 1048576] ++ List.replicate 234 0

theorem overflows_doubling : overflows doubling 20 = true := by decide +kernel

/-- The bytes that do not occur get codes. -/
theorem prefixRight_fails :
    CallerBound doubling.length 20 ∧ doubling.sum < 2 ^ 31 ∧ ¬ PrefixRight doubling 20 := by
  have hbound : CallerBound doubling.length 20 := Or.inl ⟨Or.inl rfl, by decide +kernel⟩
  have hsum : doubling.sum < 2 ^ 31 := by decide +kernel
  obtain ⟨⟨fuel, r, hr⟩, -, hbad⟩ := prefixRight_two hbound hsum (by decide +kernel)
  refine ⟨hbound, hsum, fun hright => ?_⟩
  have hone := ((hright.right fuel r hr).absent 22 (by decide +kernel) rfl
    (hbad overflows_doubling fuel r hr 22 (by decide +kernel))).1
  exact absurd hone (by decide +kernel)

end Xdelta.Djw
