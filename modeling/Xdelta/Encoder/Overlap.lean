import Xdelta.Encoder.Queue

/-!
# Overlapping instructions

The first loop of `xd3_iopt_flush_instructions` with the assertions it makes, for a
queue that is emptied, and what it leaves of a queue of true matches.
-/
namespace Xdelta

def xd3Assert (p : Prop) [Decidable p] : Option Unit := if p then some () else none

theorem xd3Assert_bind {p : Prop} [Decidable p] {α : Type} (h : p) (k : Unit → Option α) :
    (xd3Assert p).bind k = k () := by
  rw [xd3Assert, if_pos h, Option.bind_some]

/-- The end of the else branch, where `r2` is shortened. -/
def shortenSecond (r1 r2 : Rinst) (adjust1 : ℕ) : Option (Rinst × Rinst) :=
  (xd3Assert (adjust1 < r2.size)).bind fun _ =>
  let r2 := r2.advance adjust1
  (xd3Assert (minMatch ≤ r1.size)).bind fun _ =>
  (xd3Assert (minMatch ≤ r2.size)).bind fun _ =>
  some (r1, r2)

/-- How much of `r1` is kept and how much of `r2` is taken off, asserting as the source does. -/
def shortenChecked (r1 r2 : Rinst) : Option (Rinst × Rinst) :=
  let r1end := usize.add r1.pos r1.size
  let r2end := usize.add r2.pos r2.size
  let gap := usize.sub r2end r1.pos
  (xd3Assert (r2.pos < r1end ∧ r1.pos < r2end)).bind fun _ =>
  let newsize := min maxMatchSplit (usize.sub gap (gap / 2))
  if r1.size < newsize then shortenSecond r1 r2 (usize.sub r1end r2.pos)
  else if r2.size < newsize then
    let adjust1 := usize.sub r1end r2.pos
    (xd3Assert (adjust1 < r1.size)).bind fun _ =>
    shortenSecond { r1 with size := usize.sub r1.size adjust1 } r2 0
  else
    let adjust1 := usize.sub r1.size newsize
    let adjust1 :=
      if usize.sub r1end adjust1 < r2.pos then
        usize.sub adjust1 (usize.sub r2.pos (usize.sub r1end adjust1))
      else adjust1
    (xd3Assert (adjust1 < r1.size)).bind fun _ =>
    let r1 := { r1 with size := usize.sub r1.size adjust1 }
    (xd3Assert (r2.pos ≤ usize.add r1.pos r1.size)).bind fun _ =>
    shortenSecond r1 r2 (usize.sub (usize.add r1.pos r1.size) r2.pos)

/-- One round with `force`, `none` where an assertion fails. -/
def overlapRoundChecked (r1 r2 : Rinst) (rest : List Rinst) : Option (List Rinst × List Rinst) :=
  let r1end := usize.add r1.pos r1.size
  let r2end := usize.add r2.pos r2.size
  if r1end ≤ r2.pos then some ([r1], r2 :: rest)
  else
    (xd3Assert (r1end < r2end)).bind fun _ =>
    if rest.head?.any fun r3 => decide (r3.pos ≤ r1end + 1) then some ([], r1 :: rest)
    else if usize.sub r2end r1.pos < 2 * minMatch ∨ usize.sub r2end r1end ≤ 2 ∨
        usize.sub r2.pos r1.pos ≤ 2 then
      if r1.size < r2.size then some ([], r2 :: rest) else some ([r1], rest)
    else (shortenChecked r1 r2).map fun r => ([r.1], r.2 :: rest)

/-- The loop with `force`; `none` also where it does not end within `fuel` rounds. -/
def compactFromChecked : ℕ → List Rinst → Option (List Rinst)
  | 0, _ :: _ :: _ => none
  | fuel + 1, r1 :: r2 :: rest =>
    (overlapRoundChecked r1 r2 rest).bind fun r =>
    (compactFromChecked fuel r.2).map (r.1 ++ ·)
  | _, rs => some rs

def compactChecked (rs : List Rinst) : Option (List Rinst) := compactFromChecked rs.length rs

/-- An instruction as the matcher enters it: long enough, and within the window. -/
structure Rinst.Fit (r : Rinst) : Prop where
  size : minMatch ≤ r.size
  within : r.pos + r.size < usize.modulus
  addr : r.addr < xoff.modulus

/-- `a` starts before `b` and ends before it. -/
structure Rinst.Before (a b : Rinst) : Prop where
  pos : a.pos < b.pos
  ends : a.pos + a.size < b.pos + b.size

/-- The starts and the ends of the instructions increase. -/
structure Queued (rs : List Rinst) : Prop where
  fit : ∀ r ∈ rs, r.Fit
  before : rs.Pairwise Rinst.Before

/-- `s` is `r` with its start moved forward, the address along with it, and its end moved back. -/
structure SubRange (s r : Rinst) : Prop where
  type : s.type = r.type
  xtra : s.xtra = r.xtra
  range : ∃ d, s.pos = r.pos + d ∧ s.addr = xoff.add r.addr d ∧ s.pos + s.size ≤ r.pos + r.size

/-- The byte `i` of the instruction is the target's. -/
def Rinst.Agrees (source target : List UInt8) (r : Rinst) (i : ℕ) : Prop :=
  match r.type with
  | .run => target[r.pos + i]? = some (UInt8.ofNat r.xtra)
  | .cpy _ =>
    (if r.xtra ≠ 0 then source[xoff.add r.addr i]? else target[xoff.add r.addr i]?) =
      target[r.pos + i]? ∧ r.pos + i < target.length
  | _ => True

/-- A match or a run of the window `target` against itself and the source. -/
def TrueMatch (source target : List UInt8) (r : Rinst) : Prop :=
  ∀ i < r.size, r.Agrees source target i

section Overlap

variable {r r1 r2 s t : Rinst}

theorem xoff_add_add (a d e : ℕ) : xoff.add (xoff.add a d) e = xoff.add a (d + e) := by
  rw [Width.add, Width.add, Width.add, Nat.mod_add_mod, Nat.add_assoc]

theorem SubRange.refl (h : r.Fit) : SubRange r r :=
  ⟨rfl, rfl, 0, rfl, (Nat.mod_eq_of_lt h.addr).symm, le_refl _⟩

theorem SubRange.trans (h : SubRange s t) (h' : SubRange t r) : SubRange s r := by
  obtain ⟨d, hpos, haddr, hend⟩ := h.range
  obtain ⟨e, hpos', haddr', hend'⟩ := h'.range
  refine ⟨h.type.trans h'.type, h.xtra.trans h'.xtra, e + d, ?_, ?_, hend.trans hend'⟩
  · omega
  · rw [haddr, haddr', xoff_add_add]

theorem SubRange.trueMatch {source target : List UInt8} (h : SubRange s r)
    (hr : TrueMatch source target r) : TrueMatch source target s := by
  obtain ⟨d, hpos, haddr, hend⟩ := h.range
  intro i hi
  have hbyte := hr (d + i) (by omega)
  unfold Rinst.Agrees at hbyte ⊢
  rw [h.type, h.xtra, haddr, hpos, xoff_add_add, Nat.add_assoc]
  exact hbyte

theorem Rinst.advance_eq (h : r.Fit) {d : ℕ} (hd : d ≤ r.size) :
    r.advance d = { r with size := r.size - d, pos := r.pos + d, addr := xoff.add r.addr d } := by
  have hin := h.within
  rw [Rinst.advance, usize.sub_eq (by omega) hd, usize.add_eq (by omega)]

theorem Rinst.advance_subRange (h : r.Fit) {d : ℕ} (hd : d ≤ r.size) : SubRange (r.advance d) r := by
  rw [Rinst.advance_eq h hd]
  exact ⟨rfl, rfl, d, rfl, rfl, by dsimp only; omega⟩

theorem Rinst.advance_fit (h : r.Fit) {d : ℕ} (hd : d + minMatch ≤ r.size) : (r.advance d).Fit := by
  have hin := h.within
  rw [Rinst.advance_eq h (by omega)]
  exact ⟨by dsimp only; omega, by dsimp only; omega, xoff.add_lt _ _⟩

theorem shortenSecond_eq (h2 : r2.Fit) {d : ℕ} (hs : minMatch ≤ r1.size)
    (hd : d + minMatch ≤ r2.size) : shortenSecond r1 r2 d = some (r1, r2.advance d) := by
  have hmin : 0 < minMatch := by decide
  rw [shortenSecond, xd3Assert_bind (by omega), xd3Assert_bind hs,
    xd3Assert_bind (Rinst.advance_fit h2 hd).size]

/-- Two overlapping instructions are shortened so that the first ends where the second
starts, with no assertion failing. -/
theorem shortenChecked_eq (h1 : r1.Fit) (h2 : r2.Fit) (hb : r1.Before r2)
    (hover : r2.pos < r1.pos + r1.size)
    (hgap : 2 * minMatch ≤ r2.pos + r2.size - r1.pos) :
    ∃ n d, minMatch ≤ n ∧ n ≤ r1.size ∧ d + minMatch ≤ r2.size ∧ r2.pos + d = r1.pos + n ∧
      shortenChecked r1 r2 = some ({ r1 with size := n }, r2.advance d) ∧
      shorten r1 r2 = ({ r1 with size := n }, r2.advance d) := by
  obtain ⟨hs1, hw1, -⟩ := h1
  obtain ⟨hs2, hw2, -⟩ := id h2
  obtain ⟨hpos, hend⟩ := hb
  have hmin : minMatch = 4 := rfl
  have hend1 : usize.add r1.pos r1.size = r1.pos + r1.size := usize.add_eq hw1
  have hend2 : usize.add r2.pos r2.size = r2.pos + r2.size := usize.add_eq hw2
  have hgap' : usize.sub (r2.pos + r2.size) r1.pos = r2.pos + r2.size - r1.pos :=
    usize.sub_eq hw2 (by omega)
  have hover' : usize.sub (r1.pos + r1.size) r2.pos = r1.pos + r1.size - r2.pos :=
    usize.sub_eq hw1 hover.le
  have hhalf : ∀ g, g < usize.modulus → usize.sub g (g / 2) = g - g / 2 :=
    fun g hg => usize.sub_eq hg (Nat.div_le_self _ _)
  rw [shortenChecked, shorten, hend1, hend2, hgap', hhalf _ (by omega), hover',
    xd3Assert_bind ⟨hover, by omega⟩]
  generalize hnew : min maxMatchSplit
    (r2.pos + r2.size - r1.pos - (r2.pos + r2.size - r1.pos) / 2) = newsize
  rw [maxMatchSplit] at hnew
  by_cases hlt1 : r1.size < newsize
  · -- `r1` stays whole
    refine ⟨r1.size, r1.pos + r1.size - r2.pos, hs1, le_refl _, by omega, by omega, ?_, ?_⟩
    · rw [if_pos hlt1, shortenSecond_eq h2 hs1 (by omega)]
    · rw [if_pos hlt1]
  · by_cases hlt2 : r2.size < newsize
    · -- `r2` stays whole
      have hcut : usize.sub r1.size (r1.pos + r1.size - r2.pos) = r2.pos - r1.pos := by
        rw [usize.sub_eq (by omega) (by omega)]
        omega
      refine ⟨r2.pos - r1.pos, 0, by omega, by omega, by omega, by omega, ?_, ?_⟩
      · rw [if_neg hlt1, if_pos hlt2, xd3Assert_bind (by omega), hcut,
          shortenSecond_eq h2 (by dsimp only; omega) (by omega)]
      · rw [if_neg hlt1, if_pos hlt2, hcut]
    · -- both are cut, `r1` to `newsize` unless `r2` starts later
      have hcut : usize.sub r1.size newsize = r1.size - newsize := usize.sub_eq (by omega) (by omega)
      have hmeet : usize.sub (r1.pos + r1.size) (r1.size - newsize) = r1.pos + newsize := by
        rw [usize.sub_eq hw1 (by omega)]
        omega
      rw [if_neg hlt1, if_neg hlt2, if_neg hlt1, if_neg hlt2, hcut]
      dsimp only
      rw [hmeet]
      by_cases hlate : r1.pos + newsize < r2.pos
      · have hback : usize.sub (r1.size - newsize) (usize.sub r2.pos (r1.pos + newsize)) =
            r1.pos + r1.size - r2.pos := by
          rw [usize.sub_eq (by omega) hlate.le, usize.sub_eq (by omega) (by omega)]
          omega
        have hrest : usize.sub r1.size (r1.pos + r1.size - r2.pos) = r2.pos - r1.pos := by
          rw [usize.sub_eq (by omega) (by omega)]
          omega
        have hend1' : usize.add r1.pos (r2.pos - r1.pos) = r2.pos := by
          rw [usize.add_eq (by omega)]
          omega
        have hzero : usize.sub r2.pos r2.pos = 0 := by
          rw [usize.sub_eq (by omega) (le_refl _), Nat.sub_self]
        rw [if_pos hlate, hback, hrest, hend1', hzero]
        refine ⟨r2.pos - r1.pos, 0, by omega, by omega, by omega, by omega, ?_, rfl⟩
        rw [xd3Assert_bind (by omega), xd3Assert_bind (le_refl _),
          shortenSecond_eq h2 (by dsimp only; omega) (by omega)]
      · have hrest : usize.sub r1.size (r1.size - newsize) = newsize := by
          rw [usize.sub_eq (by omega) (by omega)]
          omega
        have hend1' : usize.add r1.pos newsize = r1.pos + newsize := usize.add_eq (by omega)
        have htake : usize.sub (r1.pos + newsize) r2.pos = r1.pos + newsize - r2.pos :=
          usize.sub_eq (by omega) (by omega)
        rw [if_neg hlate, hrest, hend1', htake]
        refine ⟨newsize, r1.pos + newsize - r2.pos, by omega, by omega, by omega, by omega, ?_, rfl⟩
        rw [xd3Assert_bind (by omega), xd3Assert_bind (by omega),
          shortenSecond_eq h2 (by dsimp only; omega) (by omega)]

/-- A round settles one instruction of the queue `rs` or none, and leaves a shorter queue
behind it. -/
structure Settles (rs settled left : List Rinst) : Prop where
  length : left.length < rs.length
  queued : Queued left
  parts : ∀ t ∈ settled ++ left, ∃ r ∈ rs, SubRange t r
  one : settled = [] ∨
    ∃ s, settled = [s] ∧ minMatch ≤ s.size ∧ ∀ t ∈ left, s.pos + s.size ≤ t.pos

theorem Queued.fit_head {rs : List Rinst} (h : Queued (r :: rs)) : r.Fit :=
  h.fit r List.mem_cons_self

theorem Queued.tail {rs : List Rinst} (h : Queued (r :: rs)) : Queued rs :=
  ⟨fun t ht => h.fit t (List.mem_cons_of_mem _ ht), (List.pairwise_cons.mp h.before).2⟩

theorem Queued.cons {rs : List Rinst} (h : Queued rs) (hr : r.Fit) (hb : ∀ t ∈ rs, r.Before t) :
    Queued (r :: rs) :=
  ⟨List.forall_mem_cons.mpr ⟨hr, h.fit⟩, List.pairwise_cons.mpr ⟨hb, h.before⟩⟩

theorem Queued.before_of_mem {rs : List Rinst} (h : Queued (r :: rs)) (ht : t ∈ rs) : r.Before t :=
  (List.pairwise_cons.mp h.before).1 t ht

/-- The round keeps `r1` as it is: what is left starts after it. -/
theorem Queued.settles_first {rs left : List Rinst} (h : Queued (r1 :: rs))
    (hl : left <:+ rs) (hafter : ∀ t ∈ left, r1.pos + r1.size ≤ t.pos) (hq : Queued left) :
    Settles (r1 :: rs) [r1] left where
  length := Nat.lt_succ_of_le hl.length_le
  queued := hq
  parts := List.forall_mem_cons.mpr ⟨⟨r1, List.mem_cons_self, .refl h.fit_head⟩,
    fun t ht => ⟨t, List.mem_cons_of_mem _ (hl.subset ht), .refl (hq.fit t ht)⟩⟩
  one := .inr ⟨r1, rfl, h.fit_head.size, hafter⟩

/-- Two instructions that overlap are shortened until they meet. -/
theorem Queued.settles_shortened {rest : List Rinst} (h : Queued (r1 :: r2 :: rest)) {n d : ℕ}
    (hfar : ∀ t ∈ rest, r1.pos + r1.size < t.pos) (hn : minMatch ≤ n) (hn1 : n ≤ r1.size)
    (hd : d + minMatch ≤ r2.size) (hmeet : r2.pos + d = r1.pos + n) :
    Settles (r1 :: r2 :: rest) [{ r1 with size := n }] (r2.advance d :: rest) := by
  have h1 := h.fit_head
  have h2 := h.tail.fit_head
  have hadv := Rinst.advance_eq h2 (by omega : d ≤ r2.size)
  have hstart : (r2.advance d).pos = r1.pos + n := by rw [hadv, ← hmeet]
  have hbefore : ∀ t ∈ rest, (r2.advance d).Before t := by
    intro t ht
    have hft := hfar t ht
    have htb := (h.tail.before_of_mem ht).ends
    rw [hadv]
    exact ⟨by dsimp only; omega, by dsimp only; omega⟩
  refine ⟨Nat.lt_succ_self _, h.tail.tail.cons (Rinst.advance_fit h2 hd) hbefore,
    List.forall_mem_cons.mpr ⟨⟨r1, List.mem_cons_self, ?_⟩, List.forall_mem_cons.mpr
      ⟨⟨r2, by simp, Rinst.advance_subRange h2 (by omega)⟩, fun t ht => ?_⟩⟩,
    .inr ⟨_, rfl, hn, List.forall_mem_cons.mpr ⟨hstart.ge, fun t ht => ?_⟩⟩⟩
  · exact ⟨rfl, rfl, 0, rfl, (Nat.mod_eq_of_lt h1.addr).symm, by dsimp only; omega⟩
  · exact ⟨t, List.mem_cons_of_mem _ (List.mem_cons_of_mem _ ht), .refl (h.tail.tail.fit t ht)⟩
  · have hft := hfar t ht
    dsimp only
    omega

/-- The third instruction starts after the end of the first, and so do all later ones. -/
theorem Queued.far {rest : List Rinst} (h : Queued rest) {stop : ℕ}
    (hthird : ¬ (rest.head?.any fun r3 => decide (r3.pos ≤ stop + 1)) = true) :
    ∀ t ∈ rest, stop < t.pos := by
  cases rest with
  | nil => exact fun t ht => absurd ht List.not_mem_nil
  | cons r3 rest =>
    simp only [List.head?_cons, Option.any_some, decide_eq_true_eq] at hthird
    refine List.forall_mem_cons.mpr ⟨by omega, fun t ht => ?_⟩
    have hpos := (h.before_of_mem ht).pos
    omega

/-- The step: a round fails no assertion and settles the first instruction, or drops one. -/
theorem overlapRound_settles {rest : List Rinst} (h : Queued (r1 :: r2 :: rest)) :
    ∃ settled left, overlapRoundChecked r1 r2 rest = some (settled, left) ∧
      overlapRound true r1 r2 rest = some (settled, left) ∧
      Settles (r1 :: r2 :: rest) settled left := by
  have h1 := h.fit_head
  have h2 := h.tail.fit_head
  have hb : r1.Before r2 := h.before_of_mem List.mem_cons_self
  have hend1 : usize.add r1.pos r1.size = r1.pos + r1.size := usize.add_eq h1.within
  have hend2 : usize.add r2.pos r2.size = r2.pos + r2.size := usize.add_eq h2.within
  rw [overlapRoundChecked, overlapRound, hend1, hend2]
  by_cases hover : r1.pos + r1.size ≤ r2.pos
  · rw [if_pos hover, if_pos hover]
    refine ⟨_, _, rfl, rfl, h.settles_first (List.suffix_refl _) ?_ h.tail⟩
    refine List.forall_mem_cons.mpr ⟨hover, fun t ht => ?_⟩
    have hpos := (h.tail.before_of_mem ht).pos
    omega
  · rw [if_neg hover, if_neg hover, xd3Assert_bind hb.ends]
    by_cases hthird : (rest.head?.any fun r3 => decide (r3.pos ≤ r1.pos + r1.size + 1)) = true
    · -- the second instruction is not needed
      rw [if_pos hthird, if_pos hthird]
      have hq : Queued (r1 :: rest) := h.tail.tail.cons h1 fun t ht =>
        h.before_of_mem (List.mem_cons_of_mem _ ht)
      refine ⟨_, _, rfl, rfl, Nat.lt_succ_self _, hq, fun t ht => ⟨t, ?_, .refl (hq.fit t ht)⟩,
        .inl rfl⟩
      rcases List.mem_cons.mp ht with rfl | ht
      · exact List.mem_cons_self
      · exact List.mem_cons_of_mem _ (List.mem_cons_of_mem _ ht)
    · have hfar := h.tail.tail.far hthird
      have hforced : ¬ (rest.isEmpty && !true) = true := by simp
      rw [if_neg hthird, if_neg hthird, if_neg hforced]
      by_cases hsmall : usize.sub (r2.pos + r2.size) r1.pos < 2 * minMatch ∨
          usize.sub (r2.pos + r2.size) (r1.pos + r1.size) ≤ 2 ∨ usize.sub r2.pos r1.pos ≤ 2
      · rw [if_pos hsmall, if_pos hsmall]
        by_cases hlonger : r1.size < r2.size
        · rw [if_pos hlonger]
          exact ⟨_, _, rfl, rfl, Nat.lt_succ_self _, h.tail,
            fun t ht => ⟨t, List.mem_cons_of_mem _ ht, .refl (h.tail.fit t ht)⟩, .inl rfl⟩
        · rw [if_neg hlonger]
          exact ⟨_, _, rfl, rfl, h.settles_first (List.suffix_cons _ _)
            (fun t ht => (hfar t ht).le) h.tail.tail⟩
      · have hend := hb.ends
        have hpos := hb.pos
        have hin := h2.within
        have hgap : 2 * minMatch ≤ r2.pos + r2.size - r1.pos := by
          rw [usize.sub_eq hin (by omega)] at hsmall
          omega
        obtain ⟨n, d, hn, hn1, hd, hmeet, hcheck, hshort⟩ :=
          shortenChecked_eq h1 h2 hb (Nat.lt_of_not_le hover) hgap
        rw [if_neg hsmall, if_neg hsmall, hcheck, hshort]
        exact ⟨_, _, rfl, rfl, h.settles_shortened hfar hn hn1 hd hmeet⟩

/-- What the loop makes of a queue: parts of its instructions that do not overlap, none too
short. -/
structure Compacted (rs out : List Rinst) : Prop where
  apart : out.Pairwise fun a b => a.pos + a.size ≤ b.pos
  sized : ∀ s ∈ out, minMatch ≤ s.size
  parts : ∀ s ∈ out, ∃ r ∈ rs, SubRange s r

theorem Settles.compacted {rs settled left out : List Rinst} (h : Settles rs settled left)
    (hout : Compacted left out) : Compacted rs (settled ++ out) := by
  have hparts : ∀ s ∈ out, ∃ r ∈ rs, SubRange s r := by
    intro s hs
    obtain ⟨t, ht, hst⟩ := hout.parts s hs
    obtain ⟨r, hr, htr⟩ := h.parts t (List.mem_append_right _ ht)
    exact ⟨r, hr, hst.trans htr⟩
  rcases h.one with rfl | ⟨s, rfl, hsize, hafter⟩
  · exact ⟨hout.apart, hout.sized, hparts⟩
  · refine ⟨List.pairwise_cons.mpr ⟨fun t ht => ?_, hout.apart⟩,
      List.forall_mem_cons.mpr ⟨hsize, hout.sized⟩,
      List.forall_mem_cons.mpr ⟨h.parts s List.mem_cons_self, hparts⟩⟩
    obtain ⟨r, hr, htr⟩ := hout.parts t ht
    obtain ⟨d, hd, -, -⟩ := htr.range
    have hsr := hafter r hr
    omega

/-- The run: the loop fails no assertion and ends within as many rounds as there are
instructions. -/
theorem compactFrom_compacted {fuel : ℕ} {rs : List Rinst} (hfuel : rs.length ≤ fuel)
    (h : Queued rs) : compactFromChecked fuel rs = some (compactFrom true fuel rs) ∧
      Compacted rs (compactFrom true fuel rs) := by
  have hwhole : ∀ {rs : List Rinst}, Queued rs → rs.length ≤ 1 → Compacted rs rs := by
    intro rs h hlen
    refine ⟨?_, fun s hs => (h.fit s hs).size, fun s hs => ⟨s, hs, .refl (h.fit s hs)⟩⟩
    match rs, hlen with
    | [], _ => exact .nil
    | [r], _ => exact List.pairwise_singleton _ _
  induction fuel generalizing rs with
  | zero =>
    cases List.length_eq_zero_iff.mp (Nat.le_zero.mp hfuel)
    exact ⟨rfl, hwhole h (Nat.zero_le _)⟩
  | succ fuel ih =>
    match rs, hfuel, h with
    | [], _, h => exact ⟨rfl, hwhole h (Nat.zero_le _)⟩
    | [r1], _, h => exact ⟨rfl, hwhole h (le_refl _)⟩
    | r1 :: r2 :: rest, hfuel, h =>
      obtain ⟨settled, left, hchecked, hround, hset⟩ := overlapRound_settles h
      have hlen : left.length ≤ fuel :=
        Nat.le_of_lt_succ (lt_of_lt_of_le hset.length hfuel)
      obtain ⟨hrest, hout⟩ := ih hlen hset.queued
      rw [compactFromChecked, compactFrom, hchecked, hround, Option.bind_some, hrest]
      exact ⟨rfl, hset.compacted hout⟩

/-- The first loop of `xd3_iopt_flush_instructions` with `force` ends without failing an
assertion and leaves an ordered list of parts of the instructions that do not overlap,
none shorter than `MIN_MATCH`; true matches stay true. -/
theorem compact_resolves {rs : List Rinst} (h : Queued rs) :
    compactChecked rs = some (compact true rs) ∧
      (compact true rs).Pairwise (fun a b => a.pos + a.size ≤ b.pos) ∧
      (∀ s ∈ compact true rs, minMatch ≤ s.size ∧ ∃ r ∈ rs, SubRange s r) ∧
      ∀ source target, (∀ r ∈ rs, TrueMatch source target r) →
        ∀ s ∈ compact true rs, TrueMatch source target s := by
  obtain ⟨hchecked, hout⟩ := compactFrom_compacted (le_refl _) h
  refine ⟨hchecked, hout.apart, fun s hs => ⟨hout.sized s hs, hout.parts s hs⟩, ?_⟩
  intro source target htrue s hs
  obtain ⟨r, hr, hsr⟩ := hout.parts s hs
  exact hsr.trueMatch (htrue r hr)

end Overlap

def overlappingMatches : List Rinst :=
  [{ type := .cpy 0, pos := 0, size := 20, addr := 100 },
    { type := .cpy 0, pos := 10, size := 20, addr := 300 },
    { type := .cpy 0, pos := 24, size := 40, addr := 700 }]

theorem overlappingMatches_queued : Queued overlappingMatches where
  fit := List.forall_mem_cons.mpr ⟨⟨by decide, by decide, by decide⟩, List.forall_mem_cons.mpr
    ⟨⟨by decide, by decide, by decide⟩, List.forall_mem_singleton.mpr
      ⟨by decide, by decide, by decide⟩⟩⟩
  before := List.pairwise_cons.mpr ⟨List.forall_mem_cons.mpr ⟨⟨by decide, by decide⟩,
    List.forall_mem_singleton.mpr ⟨by decide, by decide⟩⟩, List.pairwise_cons.mpr
      ⟨List.forall_mem_singleton.mpr ⟨by decide, by decide⟩, List.pairwise_singleton _ _⟩⟩

theorem compact_resolves_overlapping :
    compactChecked overlappingMatches = some (compact true overlappingMatches) ∧
      (compact true overlappingMatches).Pairwise (fun a b => a.pos + a.size ≤ b.pos) ∧
      (∀ s ∈ compact true overlappingMatches,
        minMatch ≤ s.size ∧ ∃ r ∈ overlappingMatches, SubRange s r) ∧
      ∀ source target, (∀ r ∈ overlappingMatches, TrueMatch source target r) →
        ∀ s ∈ compact true overlappingMatches, TrueMatch source target s :=
  compact_resolves overlappingMatches_queued

end Xdelta
