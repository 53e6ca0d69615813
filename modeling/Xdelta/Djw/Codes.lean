import Xdelta.Lib.Table
import Xdelta.Second.Bits
import Mathlib.Algebra.BigOperators.Group.List.Basic
import Mathlib.Data.List.Count

/-!
# Canonical codes

The Huffman compressor numbers the codes of a vector of code lengths in order of
length and symbol. A symbol of length zero has no code.
-/
namespace Xdelta.Djw
open Second

/-- `DJW_MAX_CODELEN`. -/
def maxCodelen : ℕ := 20

/-- `DJW_TOTAL_CODES`. -/
def totalCodes : ℕ := 22

/-- The inner loop of `djw_build_codes`, from symbol `i` on: the codes of one length. -/
def codesOfLength (l : ℕ) : List ℕ → ℕ → Table ℕ → ℕ → Table ℕ × ℕ
  | [], _, codes, code => (codes, code)
  | c :: clen, i, codes, code =>
    if c = l then codesOfLength l clen (i + 1) (codes.set i (some code)) (code + 1)
    else codesOfLength l clen (i + 1) codes code

/-- The outer loop of `djw_build_codes`, over the lengths. -/
def codesOfLengths (clen : List ℕ) : List ℕ → Table ℕ → ℕ → Table ℕ
  | [], codes, _ => codes
  | l :: ls, codes, code =>
    let r := codesOfLength l clen 0 codes code
    codesOfLengths clen ls r.1 (r.2 <<< 1)

/-- The least length that is used, and the greatest, as `djw_build_codes` finds them. -/
def usedLengths (clen : List ℕ) : ℕ × ℕ :=
  (clen.foldl (fun m c => if 0 < c ∧ c < m then c else m) maxCodelen, clen.foldl max 0)

/-- `djw_build_codes`, into an array of which nothing need have been written. -/
def buildCodes (codes : Table ℕ) (clen : List ℕ) : Table ℕ :=
  let used := usedLengths clen
  codesOfLengths clen (List.range' used.1 (used.2 + 1 - used.1)) codes 0

def lengthCount (clen : List ℕ) (l : ℕ) : ℕ := if l = 0 then 0 else clen.count l

def shorterCount (clen : List ℕ) (l : ℕ) : ℕ := clen.countP fun c => 0 < c ∧ c < l

def firstCode (clen : List ℕ) : ℕ → ℕ
  | 0 => 0
  | l + 1 => 2 * (firstCode clen l + lengthCount clen l)

def rank (clen : List ℕ) (s : ℕ) : ℕ := (clen.take s).count (clen.getD s 0)

def codeOf (clen : List ℕ) (s : ℕ) : ℕ := firstCode clen (clen.getD s 0) + rank clen s

variable {clen : List ℕ}

theorem lengthCount_pos {l : ℕ} (h : 0 < l) : lengthCount clen l = clen.count l :=
  if_neg (Nat.ne_of_gt h)

theorem shorterCount_succ (clen : List ℕ) (l : ℕ) :
    shorterCount clen (l + 1) = shorterCount clen l + lengthCount clen l := by
  induction clen with
  | nil => simp [shorterCount, lengthCount]
  | cons c clen ih =>
    have hone : (if 0 < c ∧ c < l + 1 then 1 else 0) =
        (if 0 < c ∧ c < l then 1 else 0) + if l = 0 then 0 else if c = l then 1 else 0 := by
      split_ifs <;> omega
    simp only [shorterCount, lengthCount, List.countP_cons, List.count_cons, beq_iff_eq,
      decide_eq_true_eq] at ih ⊢
    rw [ih, hone]
    split_ifs <;> omega

theorem shorterCount_le_length (clen : List ℕ) (l : ℕ) : shorterCount clen l ≤ clen.length :=
  List.countP_le_length

/-- There are no more shorter symbols than codes before the first of a length. -/
theorem shorterCount_le_firstCode (clen : List ℕ) (l : ℕ) :
    shorterCount clen l ≤ firstCode clen l := by
  induction l with
  | zero => simp [shorterCount]
  | succ l ih =>
    rw [shorterCount_succ, firstCode]
    omega

theorem firstCode_of_unused {l : ℕ} (h : ∀ c ∈ clen, 0 < c → l ≤ c) : firstCode clen l = 0 := by
  induction l with
  | zero => rfl
  | succ l ih =>
    have hcount : lengthCount clen l = 0 := by
      unfold lengthCount
      split_ifs with hl
      · rfl
      · rw [List.count_eq_zero]
        intro hmem
        have := h l hmem (by omega)
        omega
    rw [firstCode, hcount, ih fun c hc hpos => (Nat.le_of_succ_le (h c hc hpos))]

theorem shorterCount_of_unused {l : ℕ} (h : ∀ c ∈ clen, 0 < c → l ≤ c) :
    shorterCount clen l = 0 := by
  rw [shorterCount, List.countP_eq_zero]
  intro c hc hlt
  simp only [decide_eq_true_eq] at hlt
  have := h c hc hlt.1
  omega

/-- The codes of a length, cut to a shorter one, are beyond the codes of that length. -/
theorem firstCode_between (clen : List ℕ) (k d : ℕ) :
    (firstCode clen k + lengthCount clen k) * 2 ^ (d + 1) ≤ firstCode clen (k + 1 + d) := by
  induction d with
  | zero =>
    rw [Nat.add_zero, firstCode]
    omega
  | succ d ih =>
    rw [← Nat.add_assoc, firstCode, pow_succ, ← Nat.mul_assoc]
    omega

theorem rank_lt {s : ℕ} (h : s < clen.length) : rank clen s < clen.count (clen.getD s 0) := by
  have hsplit : clen = clen.take s ++ clen.getD s 0 :: clen.drop (s + 1) := by
    rw [List.getD_eq_getElem _ _ h, List.getElem_cons_drop, List.take_append_drop]
  have hcount := congrArg (List.count (clen.getD s 0)) hsplit
  rw [List.count_append, List.count_cons_self] at hcount
  rw [rank]
  omega

/-- The symbol of a length that has so many of it before it. -/
theorem exists_rank {c k : ℕ} (h : k < clen.count c) :
    ∃ s < clen.length, clen.getD s 0 = c ∧ rank clen s = k := by
  induction clen generalizing k with
  | nil => exact absurd h (Nat.not_lt_zero k)
  | cons a clen ih =>
    by_cases ha : a = c
    · cases k with
      | zero => exact ⟨0, Nat.succ_pos _, ha, rfl⟩
      | succ k =>
        rw [ha, List.count_cons_self] at h
        obtain ⟨s, hs, hc, hrank⟩ := ih (Nat.lt_of_succ_lt_succ h)
        refine ⟨s + 1, Nat.succ_lt_succ hs, hc, ?_⟩
        rw [rank, List.getD_cons_succ, List.take_succ_cons, hc, ha, List.count_cons_self]
        rw [rank, hc] at hrank
        rw [hrank]
    · rw [List.count_cons_of_ne ha] at h
      obtain ⟨s, hs, hc, hrank⟩ := ih h
      refine ⟨s + 1, Nat.succ_lt_succ hs, hc, ?_⟩
      rw [rank, List.getD_cons_succ, List.take_succ_cons, hc, List.count_cons_of_ne ha]
      rwa [rank, hc] at hrank

theorem codesOfLength_spec (l : ℕ) (clen : List ℕ) (i : ℕ) (codes : Table ℕ) (code : ℕ) :
    (codesOfLength l clen i codes code).2 = code + clen.count l ∧
      (codesOfLength l clen i codes code).1.length = codes.length ∧
      (∀ j, (j < i ∨ clen[j - i]? ≠ some l) →
        (codesOfLength l clen i codes code).1[j]? = codes[j]?) ∧
      ∀ j, clen[j]? = some l → i + j < codes.length →
        (codesOfLength l clen i codes code).1.Has (i + j) (code + (clen.take j).count l) := by
  induction clen generalizing i codes code with
  | nil => simp [codesOfLength]
  | cons c clen ih =>
    rw [codesOfLength]
    by_cases hc : c = l
    · rw [if_pos hc]
      obtain ⟨hcode, hlen, hsame, hhas⟩ := ih (i + 1) (codes.set i (some code)) (code + 1)
      rw [List.length_set] at hlen hhas
      refine ⟨?_, hlen, ?_, ?_⟩
      · rw [hcode, hc, List.count_cons_self]
        omega
      · intro j hj
        have hne : i ≠ j := by
          rintro rfl
          simp [hc] at hj
        rw [hsame j, List.getElem?_set_ne hne]
        by_cases hlt : j < i + 1
        · exact Or.inl hlt
        · refine Or.inr ?_
          have hsub : j - i = (j - (i + 1)) + 1 := by omega
          rw [hsub, List.getElem?_cons_succ] at hj
          exact hj.resolve_left (by omega)
      · intro j hj hlt
        cases j with
        | zero =>
          simp only [Nat.add_zero, List.take_zero, List.count_nil] at hlt ⊢
          rw [Table.Has, hsame i (Or.inl (Nat.lt_succ_self i))]
          exact Table.has_set_self hlt code
        | succ j =>
          rw [List.getElem?_cons_succ] at hj
          have := hhas j hj (by omega)
          rw [hc, List.take_succ_cons, List.count_cons_self]
          rwa [Nat.add_right_comm, Nat.add_assoc i, Nat.add_assoc code, Nat.add_comm 1] at this
    · rw [if_neg hc]
      obtain ⟨hcode, hlen, hsame, hhas⟩ := ih (i + 1) codes code
      refine ⟨?_, hlen, ?_, ?_⟩
      · rw [hcode, List.count_cons_of_ne hc]
      · intro j hj
        apply hsame
        by_cases hlt : j < i + 1
        · exact Or.inl hlt
        · refine Or.inr ?_
          have hsub : j - i = (j - (i + 1)) + 1 := by omega
          rw [hsub, List.getElem?_cons_succ] at hj
          exact hj.resolve_left (by omega)
      · intro j hj hlt
        cases j with
        | zero => exact absurd (Option.some.inj hj) hc
        | succ j =>
          rw [List.getElem?_cons_succ] at hj
          have := hhas j hj (by omega)
          rw [List.take_succ_cons, List.count_cons_of_ne hc]
          rwa [Nat.add_right_comm, Nat.add_assoc i] at this

theorem codeOf_eq {s c : ℕ} (h : clen[s]? = some c) :
    codeOf clen s = firstCode clen c + (clen.take s).count c := by
  rw [codeOf, rank, List.getD_eq_getElem?_getD, h]
  rfl

/-- Once the shorter symbols have their codes, the loop gives the others theirs. -/
theorem codesOfLengths_spec (clen : List ℕ) (n l : ℕ) (codes : Table ℕ) (hpos : 0 < l)
    (hlen : codes.length = clen.length)
    (hdone : ∀ s c, clen[s]? = some c → 0 < c → c < l → codes.Has s (codeOf clen s)) {s c : ℕ}
    (hs : clen[s]? = some c) (hc : 0 < c) (hlt : c < l + n) :
    (codesOfLengths clen (List.range' l n) codes (firstCode clen l)).Has s (codeOf clen s) := by
  induction n generalizing l codes with
  | zero => exact hdone s c hs hc hlt
  | succ n ih =>
    obtain ⟨hcode, hlength, hsame, hhas⟩ := codesOfLength_spec l clen 0 codes (firstCode clen l)
    have hnext : (codesOfLength l clen 0 codes (firstCode clen l)).2 <<< 1 =
        firstCode clen (l + 1) := by
      rw [hcode, firstCode, lengthCount_pos hpos, Nat.shiftLeft_eq, pow_one, Nat.mul_comm]
    rw [List.range'_succ, codesOfLengths]
    rw [hnext]
    apply ih (l + 1) _ (Nat.succ_pos l) (hlength.trans hlen) _ (by omega)
    intro s' c' hs' hc' hlt'
    by_cases heq : c' = l
    · have hin : 0 + s' < codes.length := by
        rw [hlen, Nat.zero_add]
        exact (List.getElem?_eq_some_iff.1 hs').1
      subst heq
      have := hhas s' hs' hin
      rwa [Nat.zero_add, ← codeOf_eq hs'] at this
    · rw [Table.Has, hsame s' (Or.inr (by rw [Nat.sub_zero, hs']; simpa using heq))]
      exact hdone s' c' hs' hc' (by omega)

theorem usedLengths_min (clen : List ℕ) (m : ℕ) :
    (0 < m → 0 < clen.foldl (fun m c => if 0 < c ∧ c < m then c else m) m) ∧
      clen.foldl (fun m c => if 0 < c ∧ c < m then c else m) m ≤ m ∧
      ∀ c ∈ clen, 0 < c → clen.foldl (fun m c => if 0 < c ∧ c < m then c else m) m ≤ c := by
  induction clen generalizing m with
  | nil => simp
  | cons c clen ih =>
    obtain ⟨hpos, hle, hall⟩ := ih (if 0 < c ∧ c < m then c else m)
    rw [List.foldl_cons]
    refine ⟨fun hm => hpos ?_, hle.trans ?_, ?_⟩
    · split_ifs with h
      · exact h.1
      · exact hm
    · split_ifs <;> omega
    · rintro c' (_ | ⟨_, hmem⟩) hc'
      · refine hle.trans ?_
        split_ifs <;> omega
      · exact hall c' hmem hc'

theorem le_usedLengths_max {c : ℕ} (h : c ∈ clen) : c ≤ (usedLengths clen).2 := by
  have hle : ∀ (clen : List ℕ) (m : ℕ), m ≤ clen.foldl max m ∧ ∀ c ∈ clen, c ≤ clen.foldl max m := by
    intro clen
    induction clen with
    | nil => simp
    | cons c clen ih =>
      intro m
      obtain ⟨hm, hall⟩ := ih (max m c)
      refine ⟨(le_max_left m c).trans hm, ?_⟩
      rintro c' (_ | ⟨_, hmem⟩)
      · exact (le_max_right m c).trans hm
      · exact hall c' hmem
  exact (hle clen 0).2 c h

/-- Every symbol of a length other than zero gets its canonical code. -/
theorem buildCodes_spec (codes : Table ℕ) (hlen : codes.length = clen.length) {s c : ℕ}
    (hs : clen[s]? = some c) (hc : 0 < c) : (buildCodes codes clen).Has s (codeOf clen s) := by
  obtain ⟨hpos, -, hmin⟩ := usedLengths_min clen maxCodelen
  have hmem : c ∈ clen := List.mem_of_getElem? hs
  have hmax := le_usedLengths_max hmem
  have hfirst : firstCode clen (usedLengths clen).1 = 0 := firstCode_of_unused hmin
  have hspec := codesOfLengths_spec clen ((usedLengths clen).2 + 1 - (usedLengths clen).1)
    (usedLengths clen).1 codes (hpos (by decide)) hlen
    (fun s' c' hs' hc' hlt => absurd (hmin c' (List.mem_of_getElem? hs') hc') (Nat.not_le.2 hlt))
    hs hc (by omega)
  rw [hfirst] at hspec
  exact hspec

end Xdelta.Djw
