import Xdelta.Djw.Mtf

/-!
# The code lengths of an input

The header of a compressed section without tables: a symbol is looked for among the canonical
codes of a vector, and the values are kept in lists. The decoder with its tables reads the same,
as long as it builds them from vectors in which a length is used.
-/
namespace Xdelta.Djw
open Second Attempt

/-- The symbol whose code is `code`, of `l` bits. -/
def symbolOf (clen : List ℕ) (l code : ℕ) : Option ℕ :=
  (List.range clen.length).find? fun s => clen.getD s 0 = l ∧ codeOf clen s = code

def readSymbolFrom (clen : List ℕ) : ℕ → ℕ → ℕ → BitReader → Attempt (ℕ × BitReader)
  | 0, _, _, _ => .fail
  | left + 1, bits, code, r =>
    r.load.andThen fun r =>
      let code' := code <<< 1 ||| r.bit.toNat
      match symbolOf clen (bits + 1) code' with
      | some s => .done (s, r.shift)
      | none => readSymbolFrom clen left (bits + 1) code' r.shift

def readSymbol (clen : List ℕ) (r : BitReader) : Attempt (ℕ × BitReader) :=
  readSymbolFrom clen maxCodelen 0 0 r

/-- Numbers of `nbits` bits, one after the other. -/
def readNumbers (nbits : ℕ) : ℕ → BitReader → Attempt (List ℕ × BitReader)
  | 0, r => .done ([], r)
  | n + 1, r =>
    (decodeBits nbits r).andThen fun p =>
      (readNumbers nbits n p.2).andThen fun q => .done (p.1 :: q.1, q.2)

/-- Values that are read: the number of times that the first of `order` is still to be repeated, the
place of the value that comes next, and how many run codes came in a row. -/
structure Expansion where
  values : List ℕ
  rep : ℕ
  mtf : ℕ
  s : ℕ
  order : List ℕ
  reader : BitReader

def Expansion.push (x : Expansion) (v : ℕ) : Expansion := { x with values := x.values ++ [v] }

/-- The next value or code. A value is zero where it was zero `skip` places before. -/
def Expansion.step (clen : List ℕ) (skip : ℕ) (x : Expansion) : Attempt Expansion :=
  if (skip ≠ 0 ∧ skip ≤ x.values.length) ∧ x.values.getD (x.values.length - skip) 0 = 0 then
    .done (x.push 0)
  else if x.rep ≠ 0 then .done { x.push (x.order.getD 0 0) with rep := x.rep - 1 }
  else if x.mtf ≠ 0 then
    let v := x.order.getD x.mtf 0
    .done { x.push v with order := v :: x.order.eraseIdx x.mtf, mtf := 0 }
  else
    (readSymbol clen x.reader).andThen fun p =>
      if p.1 ≤ 1 then
        .done { x with rep := (p.1 + 1) * 2 ^ x.s, mtf := 0, s := x.s + 1, reader := p.2 }
      else .done { x with mtf := p.1 - 1, s := 0, reader := p.2 }

def Expansion.loop (clen : List ℕ) (elts skip : ℕ) : ℕ → Expansion → Attempt Expansion
  | 0, _ => .fail
  | fuel + 1, x =>
    if x.values.length < elts then (x.step clen skip).andThen (loop clen elts skip fuel)
    else .done x

def readValues (clen order : List ℕ) (elts skip : ℕ) (r : BitReader) :
    Attempt (List ℕ × BitReader) :=
  (Expansion.loop clen elts skip (2 * elts + 2) ⟨[], 0, 0, 0, order, r⟩).andThen fun x =>
    if x.rep ≠ 0 then .fail else .done (x.values, x.reader)

def readGroups (r : BitReader) : Attempt (ℕ × BitReader) :=
  (decodeBits 3 r).andThen fun g =>
    if 1 < g.1 + 1 then (decodeBits 5 g.2).andThen fun p => .done (g.1 + 1, p.2)
    else .done (g.1 + 1, g.2)

/-- The lengths of the codes for the lengths; those that are left out are zero. -/
def readClclen (r : BitReader) : Attempt (List ℕ × BitReader) :=
  (decodeBits 4 r).andThen fun p =>
    (readNumbers 4 (p.1 + 7) p.2).andThen fun q =>
      .done (q.1 ++ List.replicate (totalCodes - (p.1 + 7)) 0, q.2)

def clenOrder : List ℕ := 0 :: encode12basic ++ encode12extra

def groupLengths (lengths : List ℕ) (gp : ℕ) : List ℕ :=
  (lengths.drop (gp * alphabetSize)).take alphabetSize

def orNone {α : Type} (x : Attempt α) (f : α → List (List ℕ)) : List (List ℕ) :=
  match x with
  | .done a => f a
  | _ => []

/-- The vectors of code lengths in the input, as far as they can be read: the one for the lengths
themselves, one for each group, and the one for the selectors of the groups. -/
def encodedLengths (input : List UInt8) : List (List ℕ) :=
  orNone (readGroups ⟨.decodeInit, input⟩) fun g =>
    orNone (readClclen g.2) fun cl =>
      cl.1 :: orNone (readValues cl.1 clenOrder (alphabetSize * g.1) alphabetSize cl.2) fun p =>
        (List.range g.1).map (groupLengths p.1) ++
          if 1 < g.1 then orNone (readNumbers 3 (g.1 + 1) p.2) fun q => [q.1] else []

section Symbols
variable {clen : List ℕ} {d : Decoder} {l code s : ℕ}

theorem symbolOf_some (h : symbolOf clen l code = some s) :
    s < clen.length ∧ clen.getD s 0 = l ∧ codeOf clen s = code := by
  have hmem := List.mem_range.1 (List.mem_of_find?_eq_some h)
  have hcode := List.find?_some h
  exact ⟨hmem, of_decide_eq_true hcode⟩

theorem symbolOf_none (h : symbolOf clen l code = none) (hs : s < clen.length)
    (hl : clen.getD s 0 = l) : codeOf clen s ≠ code := by
  intro hcode
  have hnot := List.find?_eq_none.1 h s (List.mem_range.2 hs)
  exact hnot (decide_eq_true ⟨hl, hcode⟩)

theorem symbolOf_unused (h : l ∉ clen) : symbolOf clen l code = none := by
  rw [symbolOf, List.find?_eq_none]
  intro s hs hcode
  obtain ⟨hl, -⟩ := of_decide_eq_true hcode
  rw [List.mem_range] at hs
  refine h ?_
  rw [← hl, List.getD_eq_getElem _ _ hs]
  exact List.getElem_mem hs

theorem symbolOf_isSome (hl : 0 < l) (hfirst : firstCode clen l ≤ code)
    (hlast : code < firstCode clen l + lengthCount clen l) : ∃ s, symbolOf clen l code = some s := by
  rw [lengthCount_pos hl] at hlast
  obtain ⟨s, hs, hget, hrank⟩ :=
    @exists_rank clen l (code - firstCode clen l) (by omega)
  cases hfind : symbolOf clen l code with
  | some s => exact ⟨s, rfl⟩
  | none =>
    refine absurd ?_ (symbolOf_none hfind hs hget)
    rw [codeOf, hget, hrank]
    omega

theorem symbolOf_none_of_le (hlast : firstCode clen l + lengthCount clen l ≤ code) (hl : 0 < l) :
    symbolOf clen l code = none := by
  cases hfind : symbolOf clen l code with
  | none => rfl
  | some s =>
    obtain ⟨hs, hget, hcode⟩ := symbolOf_some hfind
    have hrank := rank_lt hs
    rw [hget] at hrank
    rw [codeOf, hget] at hcode
    rw [lengthCount_pos hl] at hlast
    omega

theorem readSymbolFrom_beyond {bits : ℕ} (h : ∀ c ∈ clen, c ≤ bits) (left : ℕ) (r : BitReader) :
    readSymbolFrom clen left bits code r = .fail := by
  induction left generalizing bits code r with
  | zero => rfl
  | succ left ih =>
    rw [readSymbolFrom]
    cases hload : r.load with
    | done r' =>
      rw [andThen_done]
      dsimp only
      rw [symbolOf_unused fun hmem => absurd (h _ hmem) (Nat.not_succ_le_self bits)]
      exact ih (fun c hc => Nat.le_succ_of_le (h c hc)) r'.shift
    | fail => rfl
    | fault =>
      have := load_always r
      rw [hload] at this
      exact this.elim

theorem load_fails (r : BitReader) :
    ((r.load).andThen fun _ => (.fail : Attempt (ℕ × BitReader))) = .fail := by
  have hload := load_always r
  cases h : r.load with
  | done r' => rfl
  | fail => rfl
  | fault =>
    rw [h] at hload
    exact hload.elim

theorem decodeSymbolLoop_matches (hd : d.Right clen) {maxSym : ℕ} (hsym : clen.length ≤ maxSym + 1)
    {k left bits : ℕ} (hleft : bits + left = d.maxClen) (hk : bits + k = maxCodelen)
    (hcode : firstCode clen bits + lengthCount clen bits ≤ code) (r : BitReader) :
    (decodeSymbolLoop d maxSym left bits code r).Matches (fun p q => p = q ∧ p.1 < clen.length)
      (readSymbolFrom clen k bits code r) := by
  induction left generalizing k bits code r with
  | zero =>
    have hall : ∀ c ∈ clen, c ≤ bits := by
      intro c hc
      rcases Nat.eq_zero_or_pos c with rfl | hpos
      · exact Nat.zero_le bits
      · exact (hd.le_max c hc hpos).trans (le_of_eq hleft.symm)
    rw [readSymbolFrom_beyond hall, decodeSymbolLoop, load_fails]
    trivial
  | succ left ih =>
    have hmax := hd.max_le
    obtain ⟨k, rfl⟩ : ∃ k', k = k' + 1 := ⟨k - 1, by omega⟩
    rw [decodeSymbolLoop, readSymbolFrom]
    refine (load_always r).matches.andThen ?_
    rintro r' _ ⟨rfl, -⟩
    dsimp only
    -- the codes of this length begin at or before the bits so far
    have hfirst : firstCode clen (bits + 1) ≤ code <<< 1 ||| r'.bit.toNat := by
      refine le_trans ?_ Nat.left_le_or
      rw [firstCode, Nat.shiftLeft_eq, pow_one]
      omega
    generalize code <<< 1 ||| r'.bit.toNat = code' at hfirst ⊢
    by_cases hmin : d.minClen ≤ bits + 1
    · obtain ⟨hlimit, hpos⟩ := hd.limit (bits + 1) hmin (by omega)
      rw [if_pos hmin, hlimit.read, andThen_done]
      by_cases hle : code' ≤ firstCode clen (bits + 1) + lengthCount clen (bits + 1) - 1
      · obtain ⟨s, hfind⟩ := symbolOf_isSome (l := bits + 1) (by omega) hfirst (by omega)
        obtain ⟨hs, hget, hof⟩ := symbolOf_some hfind
        rw [if_pos hle, hfind, ← hof, symbolAt_code hd hs hget (Nat.succ_pos bits) hsym]
        exact ⟨rfl, hs⟩
      · rw [if_neg hle, symbolOf_none_of_le (l := bits + 1) (by omega) (by omega)]
        exact ih (by omega) (by omega) (by omega) _
    · have hunused : bits + 1 ∉ clen := fun hmem => hmin (hd.min_le _ hmem (Nat.succ_pos bits))
      have hcount : lengthCount clen (bits + 1) = 0 := by
        rw [lengthCount_pos (Nat.succ_pos bits), List.count_eq_zero.2 hunused]
      rw [if_neg hmin, symbolOf_unused hunused]
      exact ih (by omega) (by omega) (by omega) _

/-- With its tables, the decoder finds the symbol that is read without them. -/
theorem decodeSymbol_matches (hd : d.Right clen) {maxSym : ℕ} (hsym : clen.length ≤ maxSym + 1)
    (r : BitReader) :
    (decodeSymbol d maxSym r).Matches (fun p q => p = q ∧ p.1 < clen.length)
      (readSymbol clen r) :=
  decodeSymbolLoop_matches hd hsym (Nat.zero_add _) (Nat.zero_add _) (Nat.le_refl 0) r

end Symbols

def Expansion.rounds (elts : ℕ) (x : Expansion) : ℕ :=
  2 * (elts - x.values.length) + if x.rep = 0 ∧ x.mtf = 0 then 1 else 0

/-- What holds before every round. A run code is no longer than what it can stand for. -/
structure Expansion.Good (M elts : ℕ) (P : ℕ → Prop) (x : Expansion) : Prop where
  order_length : x.order.length = M
  order : ∀ v ∈ x.order, P v
  values : ∀ v ∈ x.values, P v
  within : x.values.length ≤ elts
  mtf_lt : x.mtf < M
  runs : 2 ^ x.s ≤ x.values.length + x.rep + 1

def Expansion.unrun (mtfvals values : Table ℕ) (x : Expansion) : Unrun :=
  ⟨x.values.length, x.rep, x.mtf, x.s, Table.overlay x.order mtfvals,
    Table.overlay x.values values, x.reader⟩

section Values
variable {clen : List ℕ} {d : Decoder} {M elts : ℕ} {P : ℕ → Prop} {x : Expansion}
  {mtfvals values : Table ℕ}

theorem Expansion.unrun_emit (h : x.values.length < values.length) (v : ℕ) :
    (x.unrun mtfvals values).emit v = .done ((x.push v).unrun mtfvals values) := by
  unfold Unrun.emit unrun push
  rw [Table.overlay_push h, andThen_done, List.length_append, List.length_singleton]

theorem Expansion.unrun_skips (skip : ℕ) : (x.unrun mtfvals values).skips skip =
    .done (decide ((skip ≠ 0 ∧ skip ≤ x.values.length) ∧
      x.values.getD (x.values.length - skip) 0 = 0)) := by
  unfold Unrun.skips unrun
  dsimp only
  by_cases h : skip ≠ 0 ∧ skip ≤ x.values.length
  · have hlt : x.values.length - skip < x.values.length := by omega
    rw [if_pos h, Table.overlay_read (List.getElem?_eq_getElem hlt), andThen_done,
      List.getD_eq_getElem _ _ hlt]
    congr 1
    simp only [h, and_true, ne_eq, not_false_eq_true, true_and]
  · rw [if_neg h]
    congr 1
    exact (decide_eq_false fun hboth => h hboth.1).symm

theorem Expansion.Good.push (h : x.Good M elts P) (hn : x.values.length < elts) {v : ℕ}
    (hv : P v) : (x.push v).Good M elts P where
  order_length := h.order_length
  order := h.order
  values := List.forall_mem_append.2 ⟨h.values, List.forall_mem_singleton.2 hv⟩
  within := by
    change (x.values ++ [v]).length ≤ elts
    rw [List.length_append, List.length_singleton]
    omega
  mtf_lt := h.mtf_lt
  runs := by
    have hruns := h.runs
    change 2 ^ x.s ≤ (x.values ++ [v]).length + x.rep + 1
    rw [List.length_append, List.length_singleton]
    omega

theorem Expansion.length_push (x : Expansion) (v : ℕ) :
    (x.push v).values.length = x.values.length + 1 := by
  unfold push
  rw [List.length_append, List.length_singleton]

theorem Expansion.rounds_lt {y : Expansion} (hn : x.values.length < elts)
    (h : y.values.length = x.values.length + 1) : y.rounds elts < x.rounds elts := by
  unfold rounds
  rw [h]
  split_ifs <;> omega

/-- A symbol or a run code: the shift stays within the width. -/
theorem Expansion.Good.next (h : x.Good M elts P) (hd : d.Right clen)
    (hclen : clen.length ≤ totalCodes + 1) (hM : clen.length ≤ M + 1)
    (hn : x.values.length < elts) (helts : elts < 2 ^ 63) (hrep : x.rep = 0) (hmtf : x.mtf = 0) :
    ((x.unrun mtfvals values).next d).Matches
      (fun u y => u = y.unrun mtfvals values ∧ y.Good M elts P ∧ y.rounds elts < x.rounds elts)
      ((readSymbol clen x.reader).andThen fun p =>
        if p.1 ≤ 1 then
          .done { x with rep := (p.1 + 1) * 2 ^ x.s, mtf := 0, s := x.s + 1, reader := p.2 }
        else .done { x with mtf := p.1 - 1, s := 0, reader := p.2 }) := by
  have hpos := h.mtf_lt
  have hruns := h.runs
  have hwithin := h.within
  rw [Unrun.next]
  refine (decodeSymbol_matches hd hclen x.reader).andThen ?_
  rintro p _ ⟨rfl, hp⟩
  by_cases hrun : p.1 ≤ 1
  · have hs : x.s < 63 := by
      by_contra hge
      have := Nat.pow_le_pow_right (show 0 < 2 by decide) (Nat.le_of_not_lt hge)
      omega
    have hshift : ((p.1 + 1) <<< x.s) % usize.modulus = (p.1 + 1) * 2 ^ x.s := by
      rw [Nat.shiftLeft_eq]
      apply Nat.mod_eq_of_lt
      have hle : (p.1 + 1) * 2 ^ x.s ≤ 2 * 2 ^ x.s := Nat.mul_le_mul_right _ (by omega)
      have : usize.modulus = 2 ^ 64 := rfl
      omega
    have hbig : 2 ^ x.s ≤ (p.1 + 1) * 2 ^ x.s := Nat.le_mul_of_pos_left _ (Nat.succ_pos _)
    have hone := Nat.two_pow_pos x.s
    rw [if_pos hrun, if_pos hrun]
    change Matches _ (require (x.s < usize.bits) _) _
    rw [require, if_pos (lt_trans hs (by decide))]
    refine ⟨?_, ⟨h.order_length, h.order, h.values, h.within, by dsimp only; omega, ?_⟩, ?_⟩
    · change Unrun.mk _ (((p.1 + 1) <<< x.s) % usize.modulus) _ _ _ _ _ = _
      rw [hshift]
      rfl
    · dsimp only
      rw [pow_succ]
      omega
    · unfold rounds
      dsimp only
      split_ifs <;> omega
  · rw [if_neg hrun, if_neg hrun]
    refine ⟨rfl, ⟨h.order_length, h.order, h.values, h.within, by dsimp only; omega, ?_⟩, ?_⟩
    · dsimp only
      omega
    · unfold rounds
      dsimp only
      split_ifs <;> omega

theorem Expansion.Good.step (h : x.Good M elts P) (hd : d.Right clen)
    (hclen : clen.length ≤ totalCodes + 1) (hM : clen.length ≤ M + 1) (hzero : P 0)
    (hn : x.values.length < elts) (helts : elts < 2 ^ 63) (hroom : elts ≤ values.length)
    (skip : ℕ) :
    ((x.unrun mtfvals values).step d skip).Matches
      (fun u y => u = y.unrun mtfvals values ∧ y.Good M elts P ∧ y.rounds elts < x.rounds elts)
      (x.step clen skip) := by
  have hpos := h.mtf_lt
  have hlen := h.order_length
  have hwrite : x.values.length < values.length := hn.trans_le hroom
  rw [Unrun.step, unrun_skips, andThen_done, Expansion.step]
  by_cases hskip : (skip ≠ 0 ∧ skip ≤ x.values.length) ∧
      x.values.getD (x.values.length - skip) 0 = 0
  · rw [if_pos (decide_eq_true hskip), if_pos hskip, unrun_emit hwrite]
    exact ⟨rfl, h.push hn hzero, rounds_lt hn (length_push x 0)⟩
  rw [if_neg (by simpa only [decide_eq_true_eq] using hskip), if_neg hskip]
  by_cases hrep : x.rep ≠ 0
  · have hfirst : 0 < x.order.length := by omega
    have hP : P x.order[0] := h.order _ (List.getElem_mem hfirst)
    have hgood := h.push hn hP
    have hruns := h.runs
    rw [if_pos (show (x.unrun mtfvals values).rep ≠ 0 from hrep), if_pos hrep,
      List.getD_eq_getElem _ _ hfirst]
    change Matches _ ((Table.read (Table.overlay x.order mtfvals) 0).andThen _) _
    rw [Table.overlay_read (List.getElem?_eq_getElem hfirst), andThen_done, unrun_emit hwrite,
      andThen_done]
    refine ⟨rfl, { hgood with runs := ?_ }, rounds_lt hn (length_push x _)⟩
    change 2 ^ x.s ≤ (x.push x.order[0]).values.length + (x.rep - 1) + 1
    rw [length_push]
    omega
  rw [if_neg (show ¬ (x.unrun mtfvals values).rep ≠ 0 from hrep), if_neg hrep]
  by_cases hmtf : x.mtf ≠ 0
  · have hplace : x.mtf < x.order.length := by omega
    have hP : P x.order[x.mtf] := h.order _ (List.getElem_mem hplace)
    have hmoved : (x.order[x.mtf] :: x.order.eraseIdx x.mtf).length = M := by
      rw [List.length_cons, List.length_eraseIdx_of_lt hplace]
      omega
    have hmid : ({ x with order := x.order[x.mtf] :: x.order.eraseIdx x.mtf } : Expansion).Good
        M elts P :=
      ⟨hmoved, List.forall_mem_cons.2 ⟨hP, fun v hv => h.order v (List.mem_of_mem_eraseIdx hv)⟩,
        h.values, h.within, hpos, h.runs⟩
    have hgood := hmid.push hn hP
    rw [if_pos (show (x.unrun mtfvals values).mtf ≠ 0 from hmtf), if_pos hmtf,
      List.getD_eq_getElem _ _ hplace]
    change Matches _ ((updateMtf (Table.overlay x.order mtfvals) x.mtf).andThen _) _
    rw [updateMtf_at hplace, andThen_done]
    have hemit := @Expansion.unrun_emit { x with order := x.order[x.mtf] :: x.order.eraseIdx x.mtf }
      mtfvals values hwrite x.order[x.mtf]
    change Matches _ (((({ x with order := x.order[x.mtf] :: x.order.eraseIdx x.mtf } :
      Expansion).unrun mtfvals values).emit x.order[x.mtf]).andThen _) _
    rw [hemit, andThen_done]
    exact ⟨rfl, { hgood with mtf_lt := Nat.zero_lt_of_lt hpos }, rounds_lt hn (length_push x _)⟩
  rw [if_neg (show ¬ (x.unrun mtfvals values).mtf ≠ 0 from hmtf), if_neg hmtf]
  exact h.next hd hclen hM hn helts (not_not.1 hrep) (not_not.1 hmtf)

theorem Expansion.Good.loop (hd : d.Right clen) (hclen : clen.length ≤ totalCodes + 1)
    (hM : clen.length ≤ M + 1) (hzero : P 0) (helts : elts < 2 ^ 63)
    (hroom : elts ≤ values.length) (skip : ℕ) {fuel : ℕ} (h : x.Good M elts P)
    (hfuel : x.rounds elts < fuel) :
    (Unrun.loop d elts skip fuel (x.unrun mtfvals values)).Matches
      (fun u y => u = y.unrun mtfvals values ∧ y.Good M elts P ∧ y.values.length = elts)
      (Expansion.loop clen elts skip fuel x) := by
  induction fuel generalizing x with
  | zero => exact absurd hfuel (Nat.not_lt_zero _)
  | succ fuel ih =>
    rw [Unrun.loop, Expansion.loop]
    by_cases hn : x.values.length < elts
    · rw [if_pos (show (x.unrun mtfvals values).n < elts from hn), if_pos hn]
      refine (h.step hd hclen hM hzero hn helts hroom skip).andThen ?_
      rintro _ y ⟨rfl, hy, hrounds⟩
      exact ih hy (by omega)
    · rw [if_neg (show ¬ (x.unrun mtfvals values).n < elts from hn), if_neg hn]
      exact ⟨rfl, h, Nat.le_antisymm h.within (Nat.le_of_not_lt hn)⟩

/-- All the values are decoded as they are read without tables, or an error is found. -/
theorem decode12_matches (hd : d.Right clen) (hclen : clen.length ≤ totalCodes + 1)
    {order : List ℕ} (hM : clen.length ≤ order.length + 1) (hpos : order ≠ [])
    (horder : ∀ v ∈ order, P v) (hzero : P 0) (helts : elts < 2 ^ 63)
    (hroom : elts ≤ values.length) (skip : ℕ) (r : BitReader) :
    (decode12 d (Table.overlay order mtfvals) elts skip values r).Matches
      (fun p q => p = (Table.overlay q.1 values, q.2) ∧ q.1.length = elts ∧ ∀ v ∈ q.1, P v)
      (readValues clen order elts skip r) := by
  have hgood : Expansion.Good order.length elts P ⟨[], 0, 0, 0, order, r⟩ :=
    ⟨rfl, horder, fun v hv => absurd hv List.not_mem_nil, Nat.zero_le _,
      List.length_pos_iff.2 hpos, le_rfl⟩
  have hfuel : Expansion.rounds elts ⟨[], 0, 0, 0, order, r⟩ < 2 * elts + 2 := by
    unfold Expansion.rounds
    rw [if_pos ⟨rfl, rfl⟩, List.length_nil]
    omega
  rw [decode12, readValues]
  refine (hgood.loop hd hclen hM hzero helts hroom skip hfuel).andThen ?_
  rintro _ y ⟨rfl, hy, hlen⟩
  by_cases hrep : y.rep ≠ 0
  · rw [if_pos hrep, if_pos (show (y.unrun mtfvals values).rep ≠ 0 from hrep)]
    trivial
  · rw [if_neg hrep, if_neg (show ¬ (y.unrun mtfvals values).rep ≠ 0 from hrep)]
    exact ⟨rfl, hlen, hy.values⟩

end Values

end Xdelta.Djw
