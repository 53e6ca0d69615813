import Xdelta.AddressCache
import Mathlib.Tactic.NormNum.Pow

/-!
# The shortest address code

The encoder scans the distances of its modes for the least one and stops early
at a distance that looks like one byte. The test for one byte has a 32-bit mask,
so that it may also stop at a distance of 2^32 or more.
-/
namespace Xdelta

/-- The mask keeps bits 7 to 31, so that the test sees the low 32 bits only. -/
theorem smallestInt_iff (x : ℕ) : smallestInt x = true ↔ x % 2 ^ 32 < 128 := by
  have hand : x &&& 0xffffff80 = (x / 128 % 2 ^ 25) * 128 := and_mask x 25 7
  rw [smallestInt, beq_iff_eq, hand]
  omega

/-- The least distance so far, and whether the scan stopped at one that passes for one byte. -/
def scanDistances : ℕ → List ℕ → ℕ × Bool
  | best, [] => (best, false)
  | best, d :: ds =>
    if d < best then if smallestInt d then (d, true) else scanDistances d ds
    else scanDistances best ds

/-- The distances to the NEAR slots not above `addr`, from slot `i` on. -/
def nearDistances (c : AddrCache) (addr n i : ℕ) : List ℕ :=
  ((List.range' i n).filter (fun j => c.nearArray j ≤ addr)).map (addr - c.nearArray ·)

def distances (c : AddrCache) (addr here : ℕ) : List ℕ :=
  addr :: (here - addr) :: nearDistances c addr c.sNear 0

def Candidate.scanned : Candidate → ℕ × Bool
  | .good d _ => (d, true)
  | .best d _ => (d, false)

theorem searchNear_scanned (c : AddrCache) (addr n i bestd bestm : ℕ) :
    (searchNear c addr n i bestd bestm).scanned = scanDistances bestd (nearDistances c addr n i) := by
  induction n generalizing i bestd bestm with
  | zero => rfl
  | succ n ih =>
    rw [searchNear, nearDistances, List.range'_succ, List.filter_cons]
    by_cases hle : c.nearArray i ≤ addr
    · rw [if_pos hle, if_pos (decide_eq_true hle), List.map_cons, scanDistances]
      dsimp only
      split
      · split
        · rfl
        · exact ih _ _ _
      · exact ih _ _ _
    · rw [if_neg hle, if_neg (by simpa using hle)]
      exact ih _ _ _

theorem searchMode_scanned (c : AddrCache) (addr here : ℕ) :
    (searchMode c addr here).scanned = scanDistances (addr + 1) (distances c addr here) := by
  rw [searchMode, distances, scanDistances, if_pos (Nat.lt_succ_self _), scanDistances]
  split
  · rfl
  · split
    · split
      · rfl
      · exact searchNear_scanned _ _ _ _ _ _
    · exact searchNear_scanned _ _ _ _ _ _

/-- `d` comes in the list at a place where all before it are larger. -/
def NewLeast (l : List ℕ) (d : ℕ) : Prop := ∃ pre suf, l = pre ++ d :: suf ∧ ∀ e ∈ pre, d < e

theorem scanDistances_stopped {best : ℕ} {l : List ℕ} (h : (scanDistances best l).2 = true) :
    NewLeast l (scanDistances best l).1 ∧ smallestInt (scanDistances best l).1 = true ∧
      (scanDistances best l).1 < best := by
  induction l generalizing best with
  | nil => cases h
  | cons d l ih =>
    rw [scanDistances] at h ⊢
    by_cases hlt : d < best
    · rw [if_pos hlt] at h ⊢
      by_cases hsmall : smallestInt d = true
      · rw [if_pos hsmall]
        exact ⟨⟨[], l, rfl, fun e he => absurd he List.not_mem_nil⟩, hsmall, hlt⟩
      · rw [if_neg hsmall] at h ⊢
        obtain ⟨⟨pre, suf, hl, hpre⟩, hs, hb⟩ := ih h
        refine ⟨⟨d :: pre, suf, congrArg (d :: ·) hl, fun e he => ?_⟩, hs, hb.trans hlt⟩
        rcases List.mem_cons.mp he with rfl | he
        · exact hb
        · exact hpre e he
    · rw [if_neg hlt] at h ⊢
      obtain ⟨⟨pre, suf, hl, hpre⟩, hs, hb⟩ := ih h
      refine ⟨⟨d :: pre, suf, congrArg (d :: ·) hl, fun e he => ?_⟩, hs, hb⟩
      rcases List.mem_cons.mp he with rfl | he
      · exact lt_of_lt_of_le hb (Nat.le_of_not_lt hlt)
      · exact hpre e he

theorem scanDistances_ran {best : ℕ} {l : List ℕ} (h : (scanDistances best l).2 = false) :
    (scanDistances best l).1 ≤ best ∧ ∀ e ∈ l, (scanDistances best l).1 ≤ e := by
  induction l generalizing best with
  | nil => exact ⟨le_refl _, fun e he => absurd he List.not_mem_nil⟩
  | cons d l ih =>
    rw [scanDistances] at h ⊢
    by_cases hlt : d < best
    · rw [if_pos hlt] at h ⊢
      by_cases hsmall : smallestInt d = true
      · rw [if_pos hsmall] at h
        cases h
      · rw [if_neg hsmall] at h ⊢
        obtain ⟨hb, hl⟩ := ih h
        exact ⟨hb.trans hlt.le, List.forall_mem_cons.mpr ⟨hb, hl⟩⟩
    · rw [if_neg hlt] at h ⊢
      obtain ⟨hb, hl⟩ := ih h
      exact ⟨hb, List.forall_mem_cons.mpr ⟨hb.trans (Nat.le_of_not_lt hlt), hl⟩⟩

/-- A new least distance that passes for one byte is not gone past. -/
theorem scanDistances_newLeast {best d : ℕ} {l : List ℕ} (hd : NewLeast l d) (hbest : d < best)
    (hsmall : smallestInt d = true) :
    (scanDistances best l).2 = true ∧ d ≤ (scanDistances best l).1 := by
  obtain ⟨pre, suf, rfl, hpre⟩ := hd
  induction pre generalizing best with
  | nil =>
    rw [List.nil_append, scanDistances, if_pos hbest, if_pos hsmall]
    exact ⟨rfl, le_refl _⟩
  | cons e pre ih =>
    have he : d < e := hpre e List.mem_cons_self
    have hrest {b : ℕ} (hb : d < b) := ih hb fun x hx => hpre x (List.mem_cons_of_mem _ hx)
    rw [List.cons_append, scanDistances]
    split
    · split
      · exact ⟨rfl, he.le⟩
      · exact hrest he
    · exact hrest hbest

/-- The modes that can represent `addr`, with the number of bytes each takes. -/
inductive Coding (c : AddrCache) (addr here : ℕ) : ℕ → ℕ → Prop
  | distance {d m} : ModeOk c addr here d m → Coding c addr here m (emitInteger d).length
  | same : 0 < c.sSame → c.sameArray (addr % (c.sSame * 256)) = addr →
      Coding c addr here (c.sNear + 2 + addr % (c.sSame * 256) / 256) 1

/-- No mode takes fewer bytes than the encoder's. -/
def ShortestCode (c : AddrCache) (addr here : ℕ) : Prop :=
  ∀ m n, Coding c addr here m n → (encodeAddress c addr here).1.length ≤ n

/-- The decoder, at any place of a section, reads back the address, takes exactly
the bytes emitted and leaves the cache the encoder left. -/
def ReadsBack (W : Width) (c : AddrCache) (addr here : ℕ) : Prop :=
  ∀ (pre rest : List UInt8) (maxp : ℕ),
    pre.length + (encodeAddress c addr here).1.length ≤ maxp →
    decodeAddress W c here (encodeAddress c addr here).2.1
        (pre ++ ((encodeAddress c addr here).1 ++ rest)) pre.length maxp =
      .value addr (pre.length + (encodeAddress c addr here).1.length)
        (encodeAddress c addr here).2.2

/-- Where the scan comes to a new least distance of 2^32 or more whose low 32 bits
pass for one byte, no distance is shorter and the SAME slot does not hold the address. -/
def CutsHarmless (W : Width) (c : AddrCache) (addr here : ℕ) : Prop :=
  ∀ d, NewLeast (distances c addr here) d → 2 ^ 32 ≤ d → d % 2 ^ 32 < 128 →
    (∀ e ∈ distances c addr here, sizeofInteger W d ≤ sizeofInteger W e) ∧
      ¬(0 < c.sSame ∧ c.sameArray (addr % (c.sSame * 256)) = addr)

section Shortest

variable {W : Width} {c : AddrCache} {addr here : ℕ}

theorem mem_distances_iff {d : ℕ} :
    d ∈ distances c addr here ↔ ∃ m, ModeOk c addr here d m := by
  rw [distances, List.mem_cons, List.mem_cons, nearDistances, List.mem_map]
  constructor
  · rintro (rfl | rfl | ⟨j, hj, rfl⟩)
    · exact ⟨_, .self⟩
    · exact ⟨_, .here⟩
    · rw [List.mem_filter, List.mem_range'_1] at hj
      exact ⟨_, .near (by omega) (of_decide_eq_true hj.2)⟩
  · rintro ⟨m, hm⟩
    cases hm with
    | self => exact .inl rfl
    | here => exact .inr (.inl rfl)
    | near hi hle =>
      refine .inr (.inr ⟨_, List.mem_filter.mpr ⟨?_, decide_eq_true hle⟩, rfl⟩)
      exact List.mem_range'_1.mpr ⟨Nat.zero_le _, by omega⟩

theorem distances_lt (hlt : addr < here) (hhere : here < W.modulus) {d : ℕ}
    (hd : d ∈ distances c addr here) : d < W.modulus := by
  obtain ⟨m, hm⟩ := mem_distances_iff.mp hd
  cases hm <;> omega

theorem Width.modulus_le (W : Width) : W.modulus ≤ 2 ^ 64 := by cases W <;> decide

theorem NewLeast.mem {l : List ℕ} {d : ℕ} (h : NewLeast l d) : d ∈ l := by
  obtain ⟨pre, suf, rfl, -⟩ := h
  exact List.mem_append_right _ List.mem_cons_self

abbrev SameHolds (c : AddrCache) (addr : ℕ) : Prop :=
  0 < c.sSame ∧ c.sameArray (addr % (c.sSame * 256)) = addr

theorem encodeAddress_length (c : AddrCache) (addr here : ℕ) :
    (encodeAddress c addr here).1.length =
      if (scanDistances (addr + 1) (distances c addr here)).2 = false ∧ SameHolds c addr then 1
      else (emitInteger (scanDistances (addr + 1) (distances c addr here)).1).length := by
  rw [← searchMode_scanned, encodeAddress]
  cases searchMode c addr here with
  | good d m => rw [if_neg fun h => Bool.noConfusion h.1]; rfl
  | best d m =>
    dsimp only
    by_cases hs : SameHolds c addr
    · rw [if_pos hs, if_pos ⟨rfl, hs⟩]
      rfl
    · rw [if_neg hs, if_neg fun h => hs h.2]
      rfl

theorem ShortestCode.length_le (h : ShortestCode c addr here) {d : ℕ}
    (hd : d ∈ distances c addr here) :
    (encodeAddress c addr here).1.length ≤ (emitInteger d).length := by
  obtain ⟨m, hm⟩ := mem_distances_iff.mp hd
  exact h _ _ (.distance hm)

theorem CutsHarmless.of_shortest (hlt : addr < here) (hhere : here < W.modulus)
    (h : ShortestCode c addr here) : CutsHarmless W c addr here := by
  intro d hd hlarge hsmall
  have hle : d ≤ addr := by
    obtain ⟨pre, suf, hl, hpre⟩ := hd
    cases pre with
    | nil => exact (List.cons.inj hl).1 ▸ le_refl _
    | cons e pre => exact ((List.cons.inj hl).1 ▸ hpre e List.mem_cons_self).le
  obtain ⟨hstop, hge⟩ := scanDistances_newLeast hd (Nat.lt_succ_of_le hle)
    ((smallestInt_iff d).mpr hsmall)
  have hscan := scanDistances_stopped hstop
  generalize hr : scanDistances (addr + 1) (distances c addr here) = r at hstop hge hscan
  have hlen : (encodeAddress c addr here).1.length = (emitInteger r.1).length := by
    rw [encodeAddress_length, hr, if_neg fun hs => Bool.noConfusion (hstop.symm.trans hs.1)]
  have hr64 : r.1 < 2 ^ 64 :=
    lt_of_lt_of_le (distances_lt hlt hhere hscan.1.mem) W.modulus_le
  refine ⟨fun e he => ?_, fun hs => ?_⟩
  · rw [← emitInteger_length W (distances_lt hlt hhere hd.mem),
      ← emitInteger_length W (distances_lt hlt hhere he)]
    exact (emitInteger_length_mono hr64 hge).trans (hlen ▸ h.length_le he)
  · have hone := h _ _ (.same hs.1 hs.2)
    have hfour := (emitInteger_length_iff hr64 Nat.one_pos).mp (by omega)
    omega

theorem CutsHarmless.shortest (hlt : addr < here) (hhere : here < W.modulus)
    (h : CutsHarmless W c addr here) : ShortestCode c addr here := by
  have h64 : ∀ d ∈ distances c addr here, d < 2 ^ 64 :=
    fun d hd => lt_of_lt_of_le (distances_lt hlt hhere hd) W.modulus_le
  have hpos : ∀ {m n}, Coding c addr here m n → 1 ≤ n := by
    intro m n hn
    cases hn with
    | distance hm => exact emitInteger_length_pos (h64 _ (mem_distances_iff.mpr ⟨_, hm⟩))
    | same => exact le_refl _
  intro m n hn
  rw [encodeAddress_length]
  cases hstop : (scanDistances (addr + 1) (distances c addr here)).2 with
  | false =>
    obtain ⟨-, hmin⟩ := scanDistances_ran hstop
    split
    · exact hpos hn
    · rename_i hsame
      cases hn with
      | distance hm =>
        have hmem := mem_distances_iff.mpr ⟨_, hm⟩
        exact emitInteger_length_mono (h64 _ hmem) (hmin _ hmem)
      | same hs hslot => exact absurd ⟨rfl, hs, hslot⟩ hsame
  | true =>
    obtain ⟨hnew, hsmall, -⟩ := scanDistances_stopped hstop
    rw [if_neg fun hs => Bool.noConfusion hs.1]
    generalize (scanDistances (addr + 1) (distances c addr here)).1 = d at hnew hsmall
    rw [smallestInt_iff] at hsmall
    by_cases hlarge : 2 ^ 32 ≤ d
    · obtain ⟨hleast, hslot⟩ := h d hnew hlarge hsmall
      cases hn with
      | distance hm =>
        have hmem := mem_distances_iff.mpr ⟨_, hm⟩
        rw [emitInteger_length W (distances_lt hlt hhere hnew.mem),
          emitInteger_length W (distances_lt hlt hhere hmem)]
        exact hleast _ hmem
      | same hs hsl => exact absurd ⟨hs, hsl⟩ hslot
    · have hone : (emitInteger d).length ≤ 1 := by
        rw [emitInteger_length_iff (h64 d hnew.mem) Nat.one_pos]
        omega
      exact hone.trans (hpos hn)

end Shortest

/-- The cache after any addresses, from `xd3_init_cache` on. -/
def AddrCache.after (c : AddrCache) (addrs : List ℕ) : AddrCache :=
  addrs.foldl AddrCache.update c.init

/-- The code of an address is read back and is the shortest exactly when no early
exit of the scan at a distance of 2^32 or more costs bytes. -/
theorem encodeAddress_shortest_iff (W : Width) (c : AddrCache) (addrs : List ℕ) {addr here : ℕ}
    (hlt : addr < here) (hhere : here < W.modulus) :
    (ReadsBack W (c.after addrs) addr here ∧ ShortestCode (c.after addrs) addr here) ↔
      CutsHarmless W (c.after addrs) addr here :=
  ⟨fun h => .of_shortest hlt hhere h.2,
    fun h => ⟨fun pre rest _ hm => decodeAddress_encodeAddress W _ hlt hhere pre rest hm,
      h.shortest hlt hhere⟩⟩

theorem encodeAddress_shortest_iff_rfc3284 :
    (1000 < 2000 ∧ 2000 < Width.w32.modulus) ∧
      ((ReadsBack .w32 (AddrCache.rfc3284.after [7, 900]) 1000 2000 ∧
          ShortestCode (AddrCache.rfc3284.after [7, 900]) 1000 2000) ↔
        CutsHarmless .w32 (AddrCache.rfc3284.after [7, 900]) 1000 2000) :=
  ⟨⟨by decide, by decide⟩, encodeAddress_shortest_iff .w32 _ _ (by decide) (by decide)⟩

/-- One below `here`, an address above 2^32 is still written in full. -/
theorem encodeAddress_not_shortest :
    ¬ ∀ (W : Width) (c : AddrCache) (addrs : List ℕ) (addr here : ℕ),
      addr < here → here < W.modulus →
      ReadsBack W (c.after addrs) addr here ∧ ShortestCode (c.after addrs) addr here := by
  intro hall
  have hshort := (hall .w64 AddrCache.rfc3284 [] (2 ^ 32 + 5) (2 ^ 32 + 6) (by decide)
    (by decide)).2 _ _ (.distance .here)
  have hlong : ¬ (encodeAddress (AddrCache.rfc3284.after []) (2 ^ 32 + 5) (2 ^ 32 + 6)).1.length ≤
      (emitInteger (2 ^ 32 + 6 - (2 ^ 32 + 5))).length := by decide
  exact hlong hshort

/-- With a 32-bit `usize_t` the code is always the shortest. -/
theorem cutsHarmless_w32 (c : AddrCache) {addr here : ℕ} (hlt : addr < here)
    (hhere : here < Width.w32.modulus) : CutsHarmless .w32 c addr here := by
  intro d hd hlarge
  exact absurd (distances_lt hlt hhere hd.mem) (Nat.not_lt.mpr hlarge)

end Xdelta
