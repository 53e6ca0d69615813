import Xdelta.Djw.Codes
import Xdelta.Integer

/-!
# Decoding tables

The decoder turns a vector of code lengths into the symbols in canonical order
and, for each length, the last code and what to take off a code to get its place
in that order. The tables may be larger than the lengths need.
-/
namespace Xdelta.Djw
open Second

/-- What `djw_build_decoder` fills in. -/
structure Decoder where
  inorder : Table ℕ
  base : Table ℕ
  limit : Table ℕ
  minClen : ℕ
  maxClen : ℕ

/-- The entries of `nr_clen`, of which `abs_max + 1` are set to zero before the lengths are
counted. -/
def nrClen (absMax : ℕ) (clen : List ℕ) : Table ℕ :=
  (List.range totalCodes).map fun l => if l ≤ absMax then some (clen.count l) else none

/-- The loop for `min_clen`, with `n` lengths to look at from `i` on. -/
def minUsed (clen : List ℕ) : ℕ → ℕ → ℕ
  | 0, i => i
  | n + 1, i => if clen.count i ≠ 0 then i else minUsed clen n (i + 1)

/-- The loop for `max_clen`, from `i` down. -/
def maxUsed (clen : List ℕ) : ℕ → ℕ
  | 0 => 0
  | i + 1 => if clen.count (i + 1) ≠ 0 then i + 1 else maxUsed clen i

structure Filling where
  tmpBase : Table ℕ
  base : Table ℕ
  limit : Table ℕ

def fillFirst (nr : Table ℕ) (minClen : ℕ) (t : Filling) : Attempt Filling :=
  (t.tmpBase.write minClen 0).andThen fun tmpBase =>
    (t.base.write minClen 0).andThen fun base =>
      (nr.read minClen).andThen fun count =>
        (t.limit.write minClen (usize.sub count 1)).andThen fun limit =>
          .done ⟨tmpBase, base, limit⟩

/-- The entries of length `i`, from those of length `i - 1`. -/
def fillStep (nr : Table ℕ) (t : Filling) (i : ℕ) : Attempt Filling :=
  (t.limit.read (i - 1)).andThen fun limit =>
    (t.tmpBase.read (i - 1)).andThen fun tmpBase =>
      (nr.read (i - 1)).andThen fun count =>
        (nr.read i).andThen fun count' =>
          let lastLimit := (limit + 1) <<< 1
          (t.tmpBase.write i (tmpBase + count)).andThen fun tmpBases =>
            (t.limit.write i (usize.sub (lastLimit + count') 1)).andThen fun limits =>
              (t.base.write i (usize.sub lastLimit (tmpBase + count))).andThen fun bases =>
                .done ⟨tmpBases, bases, limits⟩

def fillLoop (nr : Table ℕ) : List ℕ → Filling → Attempt Filling
  | [], t => .done t
  | i :: is, t => (fillStep nr t i).andThen (fillLoop nr is)

/-- The loop over the symbols, from `i` on; an entry is a `uint8_t`. -/
def inorderLoop : List ℕ → ℕ → Table ℕ → Table ℕ → Attempt (Table ℕ)
  | [], _, _, inorder => .done inorder
  | l :: clen, i, tmpBase, inorder =>
    if l ≠ 0 then
      (tmpBase.read l).andThen fun place =>
        (inorder.write place (i % 256)).andThen fun inorder =>
          (tmpBase.write l (place + 1)).andThen fun tmpBase =>
            inorderLoop clen (i + 1) tmpBase inorder
    else inorderLoop clen (i + 1) tmpBase inorder

/-- `djw_build_decoder`; the symbols are the places in the vector. -/
def buildDecoder (absMax : ℕ) (clen : List ℕ) (inorder base limit : Table ℕ) : Attempt Decoder :=
  .require (absMax ≤ maxCodelen) <|
    .require (∀ c ∈ clen, c ≤ absMax) <|
      let nr := nrClen absMax clen
      let minClen := minUsed clen absMax 1
      let maxClen := maxUsed clen absMax
      (fillFirst nr minClen ⟨Table.blank totalCodes, base, limit⟩).andThen fun t =>
        (fillLoop nr (List.range' (minClen + 1) (maxClen - minClen)) t).andThen fun t =>
          (inorderLoop clen 0 t.tmpBase inorder).andThen fun inorder =>
            .done ⟨inorder, t.base, t.limit, minClen, maxClen⟩

/-- What follows the label `done` of `djw_decode_symbol`. -/
def symbolAt (d : Decoder) (maxSym bits code : ℕ) (r : BitReader) : Attempt (ℕ × BitReader) :=
  (d.base.read bits).andThen fun base =>
    if base ≤ code then
      if code - base ≤ maxSym then (d.inorder.read (code - base)).andThen fun sym => .done (sym, r)
      else .fail
    else .fail

/-- The loop of `djw_decode_symbol`; `left` is how far `bits` is from `max_clen`. The byte is
loaded before `bits` is compared. -/
def decodeSymbolLoop (d : Decoder) (maxSym : ℕ) : ℕ → ℕ → ℕ → BitReader → Attempt (ℕ × BitReader)
  | 0, _, _, r => r.load.andThen fun _ => .fail
  | left + 1, bits, code, r =>
    r.load.andThen fun r =>
      let code' := code <<< 1 ||| r.bit.toNat
      if d.minClen ≤ bits + 1 then
        (d.limit.read (bits + 1)).andThen fun limit =>
          if code' ≤ limit then symbolAt d maxSym (bits + 1) code' r.shift
          else decodeSymbolLoop d maxSym left (bits + 1) code' r.shift
      else decodeSymbolLoop d maxSym left (bits + 1) code' r.shift

def decodeSymbol (d : Decoder) (maxSym : ℕ) (r : BitReader) : Attempt (ℕ × BitReader) :=
  decodeSymbolLoop d maxSym d.maxClen 0 0 r

variable {clen : List ℕ} {absMax : ℕ}

theorem minUsed_spec (clen : List ℕ) (n i : ℕ) :
    i ≤ minUsed clen n i ∧ minUsed clen n i ≤ i + n ∧
      (minUsed clen n i < i + n → clen.count (minUsed clen n i) ≠ 0) ∧
      ∀ j, i ≤ j → j < minUsed clen n i → clen.count j = 0 := by
  induction n generalizing i with
  | zero => exact ⟨le_rfl, le_rfl, fun h => absurd h (Nat.lt_irrefl _), fun j h1 h2 => by
      rw [minUsed] at h2
      omega⟩
  | succ n ih =>
    rw [minUsed]
    by_cases hi : clen.count i ≠ 0
    · rw [if_pos hi]
      exact ⟨le_rfl, by omega, fun _ => hi, fun j h1 h2 => by omega⟩
    · rw [if_neg hi]
      obtain ⟨hle, hlast, hused, hnone⟩ := ih (i + 1)
      refine ⟨by omega, by omega, fun h => hused (by omega), fun j h1 h2 => ?_⟩
      by_cases hj : j = i
      · rw [hj]
        exact not_not.1 hi
      · exact hnone j (by omega) h2

theorem maxUsed_spec (clen : List ℕ) (n : ℕ) :
    maxUsed clen n ≤ n ∧ (0 < maxUsed clen n → clen.count (maxUsed clen n) ≠ 0) ∧
      ∀ j, maxUsed clen n < j → j ≤ n → clen.count j = 0 := by
  induction n with
  | zero => exact ⟨le_rfl, fun h => absurd h (Nat.lt_irrefl _), fun j h1 h2 => by
      rw [maxUsed] at h1
      omega⟩
  | succ n ih =>
    rw [maxUsed]
    by_cases hn : clen.count (n + 1) ≠ 0
    · rw [if_pos hn]
      exact ⟨le_rfl, fun _ => hn, fun j h1 h2 => by omega⟩
    · rw [if_neg hn]
      obtain ⟨hle, hused, hnone⟩ := ih
      refine ⟨by omega, hused, fun j h1 h2 => ?_⟩
      by_cases hj : j = n + 1
      · rw [hj]
        exact not_not.1 hn
      · exact hnone j h1 (by omega)

theorem used_between {c : ℕ} (hmem : c ∈ clen) (hpos : 0 < c) (hle : c ≤ absMax) :
    minUsed clen absMax 1 ≤ c ∧ c ≤ maxUsed clen absMax := by
  have hcount : clen.count c ≠ 0 := by
    rw [Ne, List.count_eq_zero]
    exact not_not_intro hmem
  obtain ⟨-, -, -, hmin⟩ := minUsed_spec clen absMax 1
  obtain ⟨-, -, hmax⟩ := maxUsed_spec clen absMax
  constructor
  · by_contra hlt
    exact hcount (hmin c hpos (Nat.lt_of_not_le hlt))
  · by_contra hlt
    exact hcount (hmax c (Nat.lt_of_not_le hlt) hle)

theorem nrClen_has {l : ℕ} (hmax : absMax ≤ maxCodelen) (hl : l ≤ absMax) :
    (nrClen absMax clen).Has l (clen.count l) := by
  have hlt : l < totalCodes := by
    unfold maxCodelen at hmax
    unfold totalCodes
    omega
  rw [Table.Has, nrClen, List.getElem?_map, List.getElem?_range hlt]
  simp [hl]

theorem firstCode_le (clen : List ℕ) (l : ℕ) :
    firstCode clen l ≤ 2 ^ l * shorterCount clen l := by
  induction l with
  | zero => simp [firstCode]
  | succ l ih =>
    have hpow : 0 < 2 ^ l := Nat.two_pow_pos l
    rw [firstCode, shorterCount_succ, pow_succ', Nat.mul_assoc, Nat.mul_add (2 ^ l)]
    have := Nat.le_mul_of_pos_left (lengthCount clen l) hpow
    omega

theorem firstCode_lt {l : ℕ} (hl : l ≤ 21) (hlen : clen.length ≤ 256) :
    firstCode clen l ≤ 2 ^ 29 := by
  have hshort := (shorterCount_le_length clen l).trans hlen
  calc firstCode clen l ≤ 2 ^ l * shorterCount clen l := firstCode_le clen l
    _ ≤ 2 ^ 21 * 256 := Nat.mul_le_mul (Nat.pow_le_pow_right (by decide) hl) hshort
    _ = 2 ^ 29 := rfl

/-- The tables are filled for the lengths from `lo` to `hi`. -/
structure Filling.Upto (t : Filling) (clen : List ℕ) (lo hi : ℕ) : Prop where
  tmpBase : ∀ l, lo ≤ l → l ≤ hi → t.tmpBase.Has l (shorterCount clen l)
  base : ∀ l, lo ≤ l → l ≤ hi → t.base.Has l (firstCode clen l - shorterCount clen l)
  limit : ∀ l, lo ≤ l → l ≤ hi → t.limit.Has l (firstCode clen l + lengthCount clen l - 1)

/-- Writing the next entry of a table that holds a function. -/
theorem write_next {t : Table ℕ} {f : ℕ → ℕ} {lo hi v : ℕ}
    (h : ∀ l, lo ≤ l → l ≤ hi → t.Has l (f l)) (hlt : hi + 1 < t.length) (hv : v = f (hi + 1)) :
    ∃ t', t.write (hi + 1) v = .done t' ∧ t'.length = t.length ∧
      ∀ l, lo ≤ l → l ≤ hi + 1 → t'.Has l (f l) := by
  refine ⟨_, Table.write_eq hlt v, List.length_set, fun l hlo hhi => ?_⟩
  by_cases hl : l = hi + 1
  · rw [hl, hv]
    exact Table.has_set_self hlt _
  · exact (h l hlo (by omega)).set_ne (Ne.symm hl) _

theorem usize_sub_eq {a b : ℕ} (ha : a ≤ 2 ^ 32) (h : b ≤ a) : usize.sub a b = a - b :=
  Width.sub_eq _ (lt_of_le_of_lt ha (by decide)) h

theorem Filling.Upto.step {t : Filling} {lo hi : ℕ} (h : t.Upto clen lo hi) (hlo : 0 < lo)
    (hle : lo ≤ hi) (hmax : absMax ≤ maxCodelen) (hhi : hi + 1 ≤ absMax)
    (hpos : 0 < firstCode clen hi + lengthCount clen hi) (hlen : clen.length ≤ 256)
    (htmp : hi + 1 < t.tmpBase.length) (hbase : hi + 1 < t.base.length)
    (hlimit : hi + 1 < t.limit.length) :
    ∃ t', fillStep (nrClen absMax clen) t (hi + 1) = .done t' ∧ t'.Upto clen lo (hi + 1) ∧
      t'.tmpBase.length = t.tmpBase.length ∧ t'.base.length = t.base.length ∧
      t'.limit.length = t.limit.length := by
  have hcode : 20 = maxCodelen := rfl
  have hfirst := firstCode_lt (l := hi + 1) (by omega) hlen
  have hshort := shorterCount_le_firstCode clen (hi + 1)
  have hcount : clen.count (hi + 1) ≤ 256 := List.count_le_length.trans hlen
  have hlast : (firstCode clen hi + lengthCount clen hi - 1 + 1) <<< 1 =
      firstCode clen (hi + 1) := by
    rw [Nat.sub_add_cancel hpos, Nat.shiftLeft_eq, pow_one, Nat.mul_comm, firstCode]
  have htmpNext : shorterCount clen hi + clen.count hi = shorterCount clen (hi + 1) := by
    rw [shorterCount_succ, lengthCount_pos (by omega)]
  have hnext : lengthCount clen (hi + 1) = clen.count (hi + 1) := lengthCount_pos (by omega)
  have hpos' : 0 < firstCode clen (hi + 1) := by
    rw [firstCode]
    omega
  obtain ⟨tmpBases, htmpWrite, htmpLen, htmpHas⟩ := write_next h.tmpBase htmp htmpNext
  obtain ⟨limits, hlimitWrite, hlimitLen, hlimitHas⟩ := write_next h.limit hlimit
    (v := usize.sub (firstCode clen (hi + 1) + clen.count (hi + 1)) 1)
    (by rw [usize_sub_eq (by omega) (by omega), hnext])
  obtain ⟨bases, hbaseWrite, hbaseLen, hbaseHas⟩ := write_next h.base hbase
    (v := usize.sub (firstCode clen (hi + 1)) (shorterCount clen (hi + 1)))
    (by rw [usize_sub_eq (by omega) hshort])
  refine ⟨⟨tmpBases, bases, limits⟩, ?_, ⟨htmpHas, hbaseHas, hlimitHas⟩, htmpLen, hbaseLen,
    hlimitLen⟩
  rw [fillStep, Nat.add_sub_cancel, (h.limit hi hle le_rfl).read, (h.tmpBase hi hle le_rfl).read,
    (nrClen_has hmax (by omega)).read, (nrClen_has hmax hhi).read]
  simp only [Attempt.andThen_done, hlast, htmpNext]
  rw [htmpNext] at htmpWrite
  rw [htmpWrite, Attempt.andThen_done, hlimitWrite, Attempt.andThen_done, hbaseWrite,
    Attempt.andThen_done]

theorem Filling.Upto.loop {t : Filling} {lo hi n : ℕ} (h : t.Upto clen lo hi) (hlo : 0 < lo)
    (hle : lo ≤ hi) (hmax : absMax ≤ maxCodelen) (hhi : hi + n ≤ absMax)
    (hpos : 0 < firstCode clen hi + lengthCount clen hi) (hlen : clen.length ≤ 256)
    (htmp : absMax < t.tmpBase.length) (hbase : absMax < t.base.length)
    (hlimit : absMax < t.limit.length) :
    ∃ t', fillLoop (nrClen absMax clen) (List.range' (hi + 1) n) t = .done t' ∧
      t'.Upto clen lo (hi + n) := by
  induction n generalizing t hi with
  | zero => exact ⟨t, rfl, h⟩
  | succ n ih =>
    obtain ⟨t', hstep, hupto, htmp', hbase', hlimit'⟩ := h.step hlo hle hmax (by omega) hpos hlen
      (by omega) (by omega) (by omega)
    have hpos' : 0 < firstCode clen (hi + 1) + lengthCount clen (hi + 1) := by
      rw [firstCode]
      omega
    obtain ⟨t'', hloop, hupto'⟩ := ih hupto (by omega) (by omega) hpos' (by omega) (by omega)
      (by omega)
    refine ⟨t'', ?_, by rwa [Nat.add_right_comm, Nat.add_assoc] at hupto'⟩
    rw [List.range'_succ, fillLoop, hstep, Attempt.andThen_done, hloop]

theorem fillFirst_used {t : Filling} {m : ℕ} (hm : 0 < m) (hmax : absMax ≤ maxCodelen)
    (hle : m ≤ absMax) (hused : clen.count m ≠ 0) (hunused : ∀ c ∈ clen, 0 < c → m ≤ c)
    (hlen : clen.length ≤ 256) (htmp : m < t.tmpBase.length) (hbase : m < t.base.length)
    (hlimit : m < t.limit.length) :
    ∃ t', fillFirst (nrClen absMax clen) m t = .done t' ∧ t'.Upto clen m m ∧
      t'.tmpBase.length = t.tmpBase.length ∧ t'.base.length = t.base.length ∧
      t'.limit.length = t.limit.length := by
  have hhas := @nrClen_has clen absMax m hmax hle
  have hcount : clen.count m ≤ 256 := List.count_le_length.trans hlen
  have hfirst := firstCode_of_unused hunused
  have hshort := shorterCount_of_unused hunused
  have hone : ∀ {t : Table ℕ} {v : ℕ} {f : ℕ → ℕ}, m < t.length → v = f m →
      ∀ l, m ≤ l → l ≤ m → Table.Has (t.set m (some v)) l (f l) := by
    intro t v f hlt hv l h1 h2
    rw [Nat.le_antisymm h2 h1, hv]
    exact Table.has_set_self hlt _
  refine ⟨⟨t.tmpBase.set m (some 0), t.base.set m (some 0),
    t.limit.set m (some (usize.sub (clen.count m) 1))⟩, ?_, ⟨?_, ?_, ?_⟩, List.length_set,
    List.length_set, List.length_set⟩
  · rw [fillFirst, Table.write_eq htmp, Attempt.andThen_done, Table.write_eq hbase,
      Attempt.andThen_done, hhas.read, Attempt.andThen_done, Table.write_eq hlimit,
      Attempt.andThen_done]
  · exact hone htmp hshort.symm
  · exact hone (f := fun l => firstCode clen l - shorterCount clen l) hbase (by rw [hfirst, hshort])
  · apply hone (f := fun l => firstCode clen l + lengthCount clen l - 1) hlimit
    rw [usize_sub_eq (by omega) (by omega), hfirst, lengthCount_pos hm, Nat.zero_add]

theorem nrClen_unset {l : ℕ} (hl : absMax < l) : (nrClen absMax clen).read l = .fault := by
  unfold Table.read nrClen
  rw [List.getElem?_map]
  cases h : (List.range totalCodes)[l]? with
  | none => rfl
  | some k =>
    obtain ⟨-, rfl⟩ := List.getElem?_eq_some_iff.1 h
    rw [List.getElem_range, Option.map_some, if_neg (Nat.not_le.2 hl)]

theorem fillFirst_unset {t : Filling} {m : ℕ} (hm : absMax < m) :
    fillFirst (nrClen absMax clen) m t = .fault := by
  rw [fillFirst, nrClen_unset hm]
  unfold Table.write Attempt.require
  split_ifs <;> rfl

def place (clen : List ℕ) (s : ℕ) : ℕ := shorterCount clen (clen.getD s 0) + rank clen s

theorem shorterCount_mono (clen : List ℕ) {k l : ℕ} (h : k ≤ l) :
    shorterCount clen k ≤ shorterCount clen l := by
  apply List.countP_mono_left
  intro c _ hc
  simp only [decide_eq_true_eq] at hc ⊢
  omega

theorem place_lt {s k : ℕ} (hs : s < clen.length) (hpos : 0 < clen.getD s 0)
    (hk : clen.getD s 0 < k) : place clen s < shorterCount clen k := by
  have hrank := rank_lt hs
  have hmono := shorterCount_mono clen hk
  rw [Nat.succ_eq_add_one, shorterCount_succ, lengthCount_pos hpos] at hmono
  unfold place
  omega

theorem place_ne {s i : ℕ} (hlt : s < i) (hi : i < clen.length) (hs : 0 < clen.getD s 0)
    (hpos : 0 < clen.getD i 0) : place clen s ≠ place clen i := by
  rcases Nat.lt_trichotomy (clen.getD s 0) (clen.getD i 0) with hc | hc | hc
  · have := place_lt (hlt.trans hi) hs hc
    unfold place at this ⊢
    omega
  · have hrank : rank clen s < rank clen i := by
      rw [rank, rank, ← hc]
      have hsplit : clen.take i = clen.take s ++ clen.getD s 0 :: (clen.take i).drop (s + 1) := by
        have htake : s < (clen.take i).length := by
          rw [List.length_take]
          omega
        have hget : clen.getD s 0 = (clen.take i)[s] := by
          rw [List.getElem_take, List.getD_eq_getElem _ _ (hlt.trans hi)]
        rw [hget, List.getElem_cons_drop]
        conv_lhs => rw [← List.take_append_drop s (clen.take i)]
        rw [List.take_take, Nat.min_eq_left hlt.le]
      have hcount := congrArg (List.count (clen.getD s 0)) hsplit
      rw [List.count_append, List.count_cons_self] at hcount
      omega
    unfold place
    rw [hc]
    omega
  · have := place_lt hi hpos hc
    unfold place at this ⊢
    omega

/-- Every symbol of a length other than zero goes to its place. -/
theorem inorderLoop_spec (hlen : clen.length ≤ 256) (hmax : ∀ c ∈ clen, c ≤ absMax)
    {inorder tmpBase : Table ℕ} {before rest : List ℕ} (hsplit : clen = before ++ rest)
    (htmp : ∀ c ∈ clen, 0 < c → tmpBase.Has c (shorterCount clen c + before.count c))
    (hroom : shorterCount clen (absMax + 1) ≤ inorder.length)
    (hin : ∀ s < before.length, 0 < clen.getD s 0 → inorder.Has (place clen s) s) :
    ∃ inorder', inorderLoop rest before.length tmpBase inorder = .done inorder' ∧
      ∀ s < clen.length, 0 < clen.getD s 0 → inorder'.Has (place clen s) s := by
  induction rest generalizing inorder tmpBase before with
  | nil =>
    rw [List.append_nil] at hsplit
    exact ⟨inorder, rfl, hsplit ▸ hin⟩
  | cons l rest ih =>
    have hnext : clen = (before ++ [l]) ++ rest := by rw [hsplit, List.append_assoc]; rfl
    have hlast : (before ++ [l]).length = before.length + 1 := List.length_append
    have hget : clen.getD before.length 0 = l := by rw [hsplit]; simp
    have hlt : before.length < clen.length := by rw [hsplit]; simp
    have hmem : l ∈ clen := by rw [hsplit]; simp
    rw [inorderLoop]
    by_cases hl : l ≠ 0
    · have hpos : 0 < l := Nat.pos_of_ne_zero hl
      have hplace : shorterCount clen l + before.count l = place clen before.length := by
        have htake : clen.take before.length = before := by rw [hsplit, List.take_left]
        rw [place, rank, hget, htake]
      have hwrite : place clen before.length < inorder.length := by
        refine lt_of_lt_of_le (place_lt hlt (by omega) ?_) hroom
        rw [hget]
        exact Nat.lt_succ_of_le (hmax l hmem)
      have hread := htmp l hmem hpos
      rw [if_pos hl, hread.read, Attempt.andThen_done, hplace, Table.write_eq hwrite,
        Attempt.andThen_done, Table.write_eq hread.lt, Attempt.andThen_done, ← hlast,
        Nat.mod_eq_of_lt (by omega)]
      apply ih hnext
      · intro c hc hcpos
        by_cases hcl : c = l
        · rw [hcl, List.count_append, List.count_singleton_self, ← Nat.add_assoc, hplace]
          exact Table.has_set_self hread.lt _
        · rw [List.count_append, List.count_singleton, beq_eq_false_iff_ne.2 (Ne.symm hcl)]
          exact (htmp c hc hcpos).set_ne (Ne.symm hcl) _
      · rw [List.length_set]
        exact hroom
      · intro s hs hspos
        by_cases heq : s = before.length
        · rw [heq]
          exact Table.has_set_self hwrite _
        · have hbefore : s < before.length := by omega
          have hne := place_ne hbefore hlt hspos (by omega)
          exact (hin s hbefore hspos).set_ne (Ne.symm hne) _
    · rw [if_neg hl, ← hlast]
      have hzero : l = 0 := not_not.1 hl
      apply ih hnext
      · intro c hc hcpos
        have hcl : ¬ l = c := by omega
        rw [List.count_append, List.count_singleton, beq_eq_false_iff_ne.2 hcl]
        exact htmp c hc hcpos
      · exact hroom
      · intro s hs hspos
        have hbefore : s < before.length := by
          rcases Nat.lt_succ_iff_lt_or_eq.1 (hlast ▸ hs) with hlt' | rfl
          · exact hlt'
          · omega
        exact hin s hbefore hspos

/-- What the tables hold of a vector of code lengths. -/
structure Decoder.Right (d : Decoder) (clen : List ℕ) : Prop where
  min_le : ∀ c ∈ clen, 0 < c → d.minClen ≤ c
  le_max : ∀ c ∈ clen, 0 < c → c ≤ d.maxClen
  max_le : d.maxClen ≤ maxCodelen
  limit : ∀ l, d.minClen ≤ l → l ≤ d.maxClen →
    d.limit.Has l (firstCode clen l + lengthCount clen l - 1) ∧
      0 < firstCode clen l + lengthCount clen l
  base : ∀ l, d.minClen ≤ l → l ≤ d.maxClen →
    d.base.Has l (firstCode clen l - shorterCount clen l)
  inorder : ∀ s < clen.length, 0 < clen.getD s 0 → d.inorder.Has (place clen s) s

theorem code_pos {m l : ℕ} (hm : 0 < lengthCount clen m) (hle : m ≤ l) :
    0 < firstCode clen l + lengthCount clen l := by
  induction l, hle using Nat.le_induction with
  | base => omega
  | succ l _ ih =>
    rw [firstCode]
    omega

/-- The decoder's tables are built without a fault, where a length is used. -/
theorem buildDecoder_spec {inorder base limit : Table ℕ} (hmax : absMax ≤ maxCodelen)
    (hle : ∀ c ∈ clen, c ≤ absMax) (hlen : clen.length ≤ 256) (hused : ∃ c ∈ clen, c ≠ 0)
    (hroom : clen.length ≤ inorder.length) (hbase : absMax + 1 < base.length)
    (hlimit : absMax + 1 < limit.length) :
    ∃ d, buildDecoder absMax clen inorder base limit = .done d ∧ d.Right clen := by
  have htotal : totalCodes = maxCodelen + 2 := rfl
  have htmp : (Table.blank totalCodes : Table ℕ).length = totalCodes := Table.length_blank _
  have hfits : shorterCount clen (absMax + 1) ≤ inorder.length :=
    (shorterCount_le_length clen _).trans hroom
  obtain ⟨hmin1, hminLast, hminUsed, hminNone⟩ := minUsed_spec clen absMax 1
  obtain ⟨hmaxLast, hmaxUsed, hmaxNone⟩ := maxUsed_spec clen absMax
  obtain ⟨c, hc, hcpos⟩ := hused
  have hbetween := used_between hc (Nat.pos_of_ne_zero hcpos) (hle c hc)
  have hcle := hle c hc
  have hunused : ∀ c ∈ clen, 0 < c → minUsed clen absMax 1 ≤ c :=
    fun c hc hcpos => (used_between hc hcpos (hle c hc)).1
  have hcount : clen.count (minUsed clen absMax 1) ≠ 0 := hminUsed (by omega)
  have hpos : 0 < lengthCount clen (minUsed clen absMax 1) := by
    rw [lengthCount_pos (by omega)]
    exact Nat.pos_of_ne_zero hcount
  obtain ⟨t, hfirst, hupto, htmp1, hbase1, hlimit1⟩ := fillFirst_used
    (t := ⟨Table.blank totalCodes, base, limit⟩) hmin1 hmax (by omega) hcount hunused hlen
    (show minUsed clen absMax 1 < (Table.blank totalCodes : Table ℕ).length by omega)
    (show minUsed clen absMax 1 < base.length by omega)
    (show minUsed clen absMax 1 < limit.length by omega)
  dsimp only at htmp1 hbase1 hlimit1
  obtain ⟨t', hloop, hupto'⟩ := hupto.loop (n := maxUsed clen absMax - minUsed clen absMax 1)
    hmin1 le_rfl hmax (by omega) (by omega) hlen (by omega) (by omega) (by omega)
  rw [Nat.add_sub_cancel' (by omega)] at hupto'
  obtain ⟨inorder', hinorder, hplaces⟩ := inorderLoop_spec hlen hle (List.nil_append clen).symm
    (fun c hc hcpos => hupto'.tmpBase c (hunused c hc hcpos) (used_between hc hcpos (hle c hc)).2)
    hfits (fun s hs => absurd hs (Nat.not_lt_zero s))
  refine ⟨⟨inorder', t'.base, t'.limit, minUsed clen absMax 1, maxUsed clen absMax⟩, ?_,
    hunused, fun c hc hcpos => (used_between hc hcpos (hle c hc)).2, hmaxLast.trans hmax,
    fun l h1 h2 => ⟨hupto'.limit l h1 h2, code_pos hpos h1⟩, hupto'.base, hplaces⟩
  rw [List.length_nil] at hinorder
  rw [buildDecoder, Attempt.require, if_pos hmax, Attempt.require, if_pos hle]
  simp only [hfirst, Attempt.andThen_done, hloop]
  rw [hinorder, Attempt.andThen_done]

/-- Where none is used, the count of a length beyond the greatest is read, and that was not set. -/
theorem buildDecoder_zero (hzero : ∀ c ∈ clen, c = 0) (inorder base limit : Table ℕ) :
    buildDecoder absMax clen inorder base limit = .fault := by
  obtain ⟨hmin1, hminLast, hminUsed, -⟩ := minUsed_spec clen absMax 1
  have hmin : absMax < minUsed clen absMax 1 := by
    by_contra hle
    refine hminUsed (by omega) (List.count_eq_zero.2 fun hmem => ?_)
    have := hzero _ hmem
    omega
  unfold buildDecoder Attempt.require
  split_ifs
  · dsimp only
    rw [fillFirst_unset hmin]
    rfl
  · rfl
  · rfl

end Xdelta.Djw
