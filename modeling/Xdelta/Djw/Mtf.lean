import Xdelta.Lib.MoveToFront
import Xdelta.Djw.Canonical
import Xdelta.Djw.Huff

/-!
# Move to front, with runs

`djw_compute_mtf_1_2` replaces each symbol by its place in a list that moves it to the
front, and each run of the front symbol by digits. `djw_decode_1_2`, fed the codes, gives
the symbols back.
-/
namespace Xdelta.Djw
open Second MoveToFront

/-- The greatest `int`. -/
def intMax : ℕ := 2 ^ 31 - 1

/-- The variables of `djw_compute_mtf_1_2`; `mtfRun` is an `int`. -/
structure Mtf12 where
  mtf : Table ℕ
  mtfRun : ℕ
  mtfI : ℕ
  mtfsym : Table ℕ
  freq : Table ℕ

def Mtf12.code (m : Mtf12) (code : ℕ) : Attempt Mtf12 :=
  (m.mtfsym.write m.mtfI (code % 256)).andThen fun mtfsym =>
    (m.freq.read code).andThen fun n =>
      (m.freq.write code ((n + 1) % 2 ^ 32)).andThen fun freq =>
        .done { m with mtfI := m.mtfI + 1, mtfsym := mtfsym, freq := freq }

/-- The loop of `djw_update_1_2`; a run that is not above zero would not end it. -/
def Mtf12.update12 : ℕ → Mtf12 → Attempt Mtf12
  | 0, _ => .fault
  | fuel + 1, m =>
    let run := m.mtfRun - 1
    (m.code (if run &&& 1 ≠ 0 then 1 else 0)).andThen fun m =>
      if 1 ≤ run >>> 1 then update12 fuel { m with mtfRun := run >>> 1 }
      else .done { m with mtfRun := 0 }

def Mtf12.flush (m : Mtf12) : Attempt Mtf12 :=
  if 0 < m.mtfRun then m.update12 m.mtfRun else .done m

def findMtf (mtf : Table ℕ) (sym : ℕ) : ℕ → ℕ → Attempt ℕ
  | 0, _ => .fault
  | fuel + 1, j =>
    (mtf.read j).andThen fun v => if v ≠ sym then findMtf mtf sym fuel (j + 1) else .done j

/-- One symbol; an `int` that is counted past the greatest is a fault. -/
def Mtf12.step (nsym : ℕ) (m : Mtf12) (sym : ℕ) : Attempt Mtf12 :=
  (findMtf m.mtf sym (m.mtf.length + 1) 0).andThen fun j =>
    .require (j ≤ nsym) <|
      (mtfLoop j m.mtf).andThen fun mtf => (mtf.write 0 sym).andThen fun mtf =>
        let m := { m with mtf := mtf }
        if j = 0 then .require (m.mtfRun < intMax) (.done { m with mtfRun := m.mtfRun + 1 })
        else m.flush.andThen fun m => m.code (j + 1)

def Mtf12.loop (nsym : ℕ) : List ℕ → Mtf12 → Attempt Mtf12
  | [], m => .done m
  | sym :: syms, m => (m.step nsym sym).andThen (loop nsym syms)

/-- `djw_compute_mtf_1_2` of the symbols of a prefix. -/
def computeMtf12 (symbol : List ℕ) (mtf mtfsym freqOut : Table ℕ) (nsym : ℕ) : Attempt Mtf12 :=
  (fill (List.replicate (nsym + 2) 0) 0 freqOut).andThen fun freq =>
    (Mtf12.loop nsym symbol ⟨mtf, 0, 0, mtfsym, freq⟩).andThen Mtf12.flush

section
variable {order : List ℕ} {t : Table ℕ}

/-- The entries below `k` move up by one. -/
theorem mtfLoop_over {k : ℕ} (hk : k < order.length) :
    mtfLoop k (Table.overlay order t) =
      .done (Table.overlay (order.take 1 ++ order.take k ++ order.drop (k + 1)) t) := by
  induction k generalizing order with
  | zero =>
    rw [mtfLoop, List.take_zero, List.append_nil, List.take_append_drop]
  | succ k ih =>
    have hkl : k < order.length := by omega
    rw [mtfLoop, Table.overlay_read (List.getElem?_eq_getElem hkl), Attempt.andThen_done,
      Table.overlay_write hk, Attempt.andThen_done, ih (by rw [List.length_set]; omega)]
    have htake : (order.set (k + 1) order[k]).drop (k + 1) = order[k] :: order.drop (k + 2) := by
      rw [List.drop_eq_getElem_cons (by rwa [List.length_set]), List.getElem_set_self,
        List.drop_set_of_lt (by omega)]
    rw [List.take_set_of_le (by omega), List.take_set_of_le (by omega), htake,
      List.take_succ_eq_append_getElem hkl, List.append_assoc, List.append_assoc, List.append_assoc]
    rfl

/-- A value comes to the front in the place of one that is taken out. -/
theorem moveToFront_at {k : ℕ} (hk : k < order.length) (v : ℕ) :
    (mtfLoop k (Table.overlay order t)).andThen (·.write 0 v) =
      .done (Table.overlay (v :: order.eraseIdx k) t) := by
  obtain ⟨a, rest, rfl⟩ := List.exists_cons_of_length_pos (Nat.zero_lt_of_lt hk)
  rw [mtfLoop_over hk, Attempt.andThen_done, Table.overlay_write (by simp),
    List.eraseIdx_eq_take_drop_succ]
  simp

/-- `djw_update_mtf`: the symbol comes to the front. -/
theorem moveToFront_over {sym : ℕ} (hsym : sym ∈ order) :
    (mtfLoop (order.idxOf sym) (Table.overlay order t)).andThen (·.write 0 sym) =
      .done (Table.overlay (sym :: order.erase sym) t) := by
  rw [moveToFront_at (List.idxOf_lt_length_of_mem hsym), List.erase_eq_eraseIdx_of_idxOf rfl]

/-- The order both sides begin the code lengths with. -/
example : initClenMtf (Table.blank totalCodes) =
    .done (Table.overlay (0 :: encode12basic ++ encode12extra) (Table.blank totalCodes)) := rfl

theorem updateMtf_at {k : ℕ} (hk : k < order.length) :
    updateMtf (Table.overlay order t) k =
      .done (order[k], Table.overlay (order[k] :: order.eraseIdx k) t) := by
  obtain ⟨mtf, hloop, hwrite⟩ := Attempt.andThen_eq_done (@moveToFront_at order t k hk order[k])
  rw [updateMtf, Table.overlay_read (List.getElem?_eq_getElem hk), Attempt.andThen_done, hloop,
    Attempt.andThen_done, hwrite, Attempt.andThen_done]

theorem updateMtf_over {sym : ℕ} (hsym : sym ∈ order) :
    updateMtf (Table.overlay order t) (order.idxOf sym) =
      .done (sym, Table.overlay (sym :: order.erase sym) t) := by
  rw [updateMtf_at (List.idxOf_lt_length_of_mem hsym), List.getElem_idxOf,
    List.erase_eq_eraseIdx_of_idxOf rfl]

theorem findMtf_over {sym : ℕ} (hsym : sym ∈ order) (fuel j : ℕ) (hj : j ≤ order.idxOf sym)
    (hfuel : order.idxOf sym < j + fuel) :
    findMtf (Table.overlay order t) sym fuel j = .done (order.idxOf sym) := by
  induction fuel generalizing j with
  | zero => omega
  | succ fuel ih =>
    have hlt := List.idxOf_lt_length_of_mem hsym
    have hjl : j < order.length := by omega
    rw [findMtf, Table.overlay_read (List.getElem?_eq_getElem hjl), Attempt.andThen_done]
    by_cases heq : j = order.idxOf sym
    · have hat : order[j] = sym := by
        simp [heq]
      rw [if_neg (not_not_intro hat), heq]
    · have hne : order[j] ≠ sym := by
        intro hat
        have hnot := List.not_of_lt_findIdx (show j < order.findIdx (· == sym) by
          have hidx : order.findIdx (· == sym) = order.idxOf sym := rfl
          omega)
        exact absurd (beq_iff_eq.2 hat) (by simpa using hnot)
      rw [if_pos hne]
      exact ih (j + 1) (by omega) (by omega)

end

def counts (nsym : ℕ) (out : List ℕ) : List ℕ :=
  (List.range (nsym + 2)).map fun c => out.count c % 2 ^ 32

theorem counts_push {nsym c : ℕ} (hc : c < nsym + 2) (out : List ℕ) :
    (counts nsym out).set c ((out.count c % 2 ^ 32 + 1) % 2 ^ 32) = counts nsym (out ++ [c]) := by
  apply List.ext_getElem?
  intro i
  by_cases hi : c = i
  · subst hi
    simp [counts, hc]
  · by_cases hn : i < nsym + 2
    · simp [counts, hi, hn, List.count_append, List.count_cons, beq_iff_eq]
    · simp [counts, hn]

/-- The arrays the encoder is given, large enough for its symbols and codes. -/
structure Room where
  nsym : ℕ
  scount : ℕ
  mtf : Table ℕ
  mtfsym : Table ℕ
  freq : Table ℕ
  mtfsym_le : scount ≤ mtfsym.length
  freq_le : nsym + 2 ≤ freq.length

namespace Room
variable (b : Room) {order out : List ℕ} {a run c sym : ℕ}

def state (order : List ℕ) (run : ℕ) (out : List ℕ) : Mtf12 :=
  ⟨Table.overlay order b.mtf, run, out.length, Table.overlay out b.mtfsym,
    Table.overlay (counts b.nsym out) b.freq⟩

theorem code_state (hout : out.length < b.scount) (hc : c < b.nsym + 2) (hbyte : c < 256) :
    (b.state order run out).code c = .done (b.state order run (out ++ [c])) := by
  have hroom : out.length < b.mtfsym.length := hout.trans_le b.mtfsym_le
  have hget : (counts b.nsym out)[c]? = some (out.count c % 2 ^ 32) := by
    simp [counts, hc]
  have hlen : c < (counts b.nsym out).length := by
    simpa [counts] using hc
  rw [Mtf12.code, Nat.mod_eq_of_lt hbyte]
  dsimp only [state]
  rw [Table.overlay_push hroom, Attempt.andThen_done, Table.overlay_read hget, Attempt.andThen_done,
    Table.overlay_write hlen, Attempt.andThen_done, counts_push hc, List.length_append]
  rfl

theorem update12_state (fuel : ℕ) (hrun : 0 < run) (hfuel : run ≤ fuel)
    (hroom : out.length + (digits run).length ≤ b.scount) :
    (b.state order run out).update12 fuel = .done (b.state order 0 (out ++ digits run)) := by
  induction fuel generalizing run out with
  | zero => omega
  | succ fuel ih =>
    obtain ⟨r, rfl⟩ : ∃ r, run = r + 1 := ⟨run - 1, by omega⟩
    rw [digits, List.length_cons] at hroom
    have hdigit : (if r &&& 1 ≠ 0 then 1 else 0) = r % 2 := by
      rw [Nat.and_one_is_mod]
      split_ifs <;> omega
    have hstate : (b.state order (r + 1) out).mtfRun - 1 = r := rfl
    rw [Mtf12.update12, hstate, hdigit, b.code_state (by omega) (by omega) (by omega), Attempt.andThen_done,
      Nat.shiftRight_one, digits]
    by_cases hmore : 1 ≤ r / 2
    · have hnext := @ih (out ++ [r % 2]) (r / 2) (by omega) (by omega)
        (by rw [List.length_append, List.length_singleton]; omega)
      rw [List.append_assoc] at hnext
      rw [if_pos hmore]
      exact hnext
    · rw [if_neg hmore, show r / 2 = 0 by omega, digits]
      rfl

theorem flush_state (hroom : out.length + (digits run).length ≤ b.scount) :
    (b.state order run out).flush = .done (b.state order 0 (out ++ digits run)) := by
  have hstate : (b.state order run out).mtfRun = run := rfl
  rw [Mtf12.flush, hstate]
  by_cases hrun : 0 < run
  · rw [if_pos hrun]
    exact b.update12_state run hrun (le_refl run) hroom
  · rw [if_neg hrun, show run = 0 by omega, digits, List.append_nil]

/-- Up to the move, both kinds of symbols are treated alike. -/
theorem step_state (hsym : sym ∈ order) (hlen : order.length ≤ b.nsym + 1) :
    (b.state order run out).step b.nsym sym =
      if order.idxOf sym = 0 then
        .require (run < intMax) (.done (b.state (sym :: order.erase sym) (run + 1) out))
      else (b.state (sym :: order.erase sym) run out).flush.andThen (·.code (order.idxOf sym + 1)) := by
  have hi := List.idxOf_lt_length_of_mem hsym
  have hle : order.idxOf sym < (Table.overlay order b.mtf).length := by
    rw [Table.overlay, List.length_append, List.length_map]
    omega
  obtain ⟨mtf, hloop, hwrite⟩ := Attempt.andThen_eq_done (@moveToFront_over order b.mtf sym hsym)
  rw [Mtf12.step]
  dsimp only [state]
  rw [findMtf_over hsym _ 0 (Nat.zero_le _) (by omega), Attempt.andThen_done, Attempt.require,
    if_pos (show order.idxOf sym ≤ b.nsym by omega), hloop, Attempt.andThen_done, hwrite,
    Attempt.andThen_done]

theorem step_front {rest : List ℕ} (hlen : (a :: rest).length ≤ b.nsym + 1) :
    (b.state (a :: rest) run out).step b.nsym a =
      .require (run < intMax) (.done (b.state (a :: rest) (run + 1) out)) := by
  rw [b.step_state List.mem_cons_self hlen, List.idxOf_cons_self, if_pos rfl,
    List.erase_cons_head]

theorem step_other {rest : List ℕ} (hsym : sym ∈ a :: rest) (hne : sym ≠ a)
    (hlen : (a :: rest).length ≤ b.nsym + 1) (hbyte : (a :: rest).length ≤ 255)
    (hroom : out.length + run < b.scount) :
    (b.state (a :: rest) run out).step b.nsym sym =
      .done (b.state (sym :: (a :: rest).erase sym) 0
        (out ++ digits run ++ [(a :: rest).idxOf sym + 1])) := by
  have hi := List.idxOf_lt_length_of_mem hsym
  have hd := length_digits_le run
  have hpos : (a :: rest).idxOf sym ≠ 0 := by
    rw [List.idxOf_cons_ne rest hne.symm]
    exact Nat.succ_ne_zero _
  rw [b.step_state hsym hlen, if_neg hpos, b.flush_state (by omega), Attempt.andThen_done]
  exact b.code_state (by rw [List.length_append]; omega) (by omega) (by omega)

theorem codes_other {rest syms : List ℕ} (hne : sym ≠ a) :
    codes run (places (a :: rest) (sym :: syms)) =
      digits run ++ ((a :: rest).idxOf sym + 1) ::
        codes 0 (places (sym :: (a :: rest).erase sym) syms) := by
  rw [places, List.idxOf_cons_ne rest hne.symm, codes]

theorem codes_front {rest syms : List ℕ} :
    codes run (places (a :: rest) (a :: syms)) = codes (run + 1) (places (a :: rest) syms) := by
  rw [places, List.idxOf_cons_self, codes, List.erase_cons_head]

/-- While the runs fit an `int`, the codes of the places are written. -/
theorem loop_state {rest syms : List ℕ} (hmem : ∀ s ∈ syms, s ∈ a :: rest)
    (hlen : (a :: rest).length ≤ b.nsym + 1) (hbyte : (a :: rest).length ≤ 255)
    (hruns : RunsWithin intMax a run syms) (hroom : out.length + run + syms.length ≤ b.scount) :
    ∃ order, (Mtf12.loop b.nsym syms (b.state (a :: rest) run out)).andThen Mtf12.flush =
      .done (b.state order 0 (out ++ codes run (places (a :: rest) syms))) := by
  induction syms generalizing a rest run out with
  | nil =>
    have hd := length_digits_le run
    refine ⟨a :: rest, ?_⟩
    rw [Mtf12.loop, Attempt.andThen_done, places, codes]
    exact b.flush_state (by simp at hroom; omega)
  | cons sym syms ih =>
    have hsym := hmem sym List.mem_cons_self
    have htail : ∀ s ∈ syms, s ∈ a :: rest := fun s hs => hmem s (List.mem_cons_of_mem _ hs)
    rw [List.length_cons] at hroom
    rw [RunsWithin] at hruns
    rw [Mtf12.loop]
    by_cases hfront : sym = a
    · subst hfront
      rw [if_pos rfl] at hruns
      rw [b.step_front hlen, Attempt.require, if_pos hruns.1, Attempt.andThen_done, codes_front]
      exact ih htail hlen hbyte hruns.2 (by omega)
    · rw [if_neg hfront] at hruns
      have hd := length_digits_le run
      have hmoved := length_moved hsym
      obtain ⟨order, hrun⟩ := @ih (out ++ digits run ++ [(a :: rest).idxOf sym + 1]) sym 0
        ((a :: rest).erase sym)
        (fun s hs => (mem_moved hsym).2 (htail s hs)) (by omega) (by omega) hruns
        (by simp only [List.length_append, List.length_singleton]; omega)
      refine ⟨order, ?_⟩
      rw [b.step_other hsym hfront hlen hbyte (by omega), Attempt.andThen_done, hrun,
        codes_other hfront]
      simp

theorem loop_fault {rest syms : List ℕ} (hmem : ∀ s ∈ syms, s ∈ a :: rest)
    (hlen : (a :: rest).length ≤ b.nsym + 1) (hbyte : (a :: rest).length ≤ 255)
    (hruns : ¬ RunsWithin intMax a run syms)
    (hroom : out.length + run + syms.length ≤ b.scount) :
    Mtf12.loop b.nsym syms (b.state (a :: rest) run out) = .fault := by
  induction syms generalizing a rest run out with
  | nil => exact absurd trivial hruns
  | cons sym syms ih =>
    have hsym := hmem sym List.mem_cons_self
    have htail : ∀ s ∈ syms, s ∈ a :: rest := fun s hs => hmem s (List.mem_cons_of_mem _ hs)
    rw [List.length_cons] at hroom
    rw [RunsWithin] at hruns
    rw [Mtf12.loop]
    by_cases hfront : sym = a
    · subst hfront
      rw [if_pos rfl] at hruns
      rw [b.step_front hlen, Attempt.require]
      by_cases hlt : run < intMax
      · rw [if_pos hlt, Attempt.andThen_done]
        exact ih htail hlen hbyte (fun h => hruns ⟨hlt, h⟩) (by omega)
      · rw [if_neg hlt]
        rfl
    · rw [if_neg hfront] at hruns
      have hd := length_digits_le run
      have hmoved := length_moved hsym
      rw [b.step_other hsym hfront hlen hbyte (by omega), Attempt.andThen_done]
      exact ih (fun s hs => (mem_moved hsym).2 (htail s hs)) (by omega) (by omega) hruns
        (by simp only [List.length_append, List.length_singleton]; omega)

end Room

inductive Feeds (d : Decoder) : List ℕ → BitReader → BitReader → Prop
  | nil (r : BitReader) : Feeds d [] r r
  | cons {c : ℕ} {cs : List ℕ} {r r₁ r₂ : BitReader} :
      decodeSymbol d totalCodes r = .done (c, r₁) → Feeds d cs r₁ r₂ → Feeds d (c :: cs) r r₂

theorem Feeds.split {d : Decoder} {as bs : List ℕ} {r r₂ : BitReader}
    (h : Feeds d (as ++ bs) r r₂) : ∃ r₁, Feeds d as r r₁ ∧ Feeds d bs r₁ r₂ := by
  induction as generalizing r with
  | nil => exact ⟨r, .nil r, h⟩
  | cons a as ih =>
    cases h with
    | cons hdecode htail =>
      obtain ⟨r₁, hleft, hright⟩ := ih htail
      exact ⟨r₁, .cons hdecode hleft, hright⟩

def Unrun.Goes (d : Decoder) (elts k : ℕ) (u v : Unrun) : Prop :=
  ∀ fuel, Unrun.loop d elts 0 (k + fuel) u = Unrun.loop d elts 0 fuel v

theorem Unrun.Goes.trans {d : Decoder} {elts k l : ℕ} {u v w : Unrun} (huv : u.Goes d elts k v)
    (hvw : v.Goes d elts l w) : u.Goes d elts (k + l) w := by
  intro fuel
  rw [Nat.add_assoc, huv, hvw]

theorem Unrun.Goes.one {d : Decoder} {elts : ℕ} {u v : Unrun} (hn : u.n < elts)
    (h : u.step d 0 = .done v) : u.Goes d elts 1 v := by
  intro fuel
  rw [Nat.add_comm, Unrun.loop, if_pos hn, h, Attempt.andThen_done]

section
variable {d : Decoder} {elts : ℕ} {mtfvals values : Table ℕ} {order out rest : List ℕ} {a s : ℕ}
  {r r₁ r₂ : BitReader}

def unrunAt (mtfvals values : Table ℕ) (order out : List ℕ) (rep s : ℕ) (r : BitReader) : Unrun :=
  ⟨out.length, rep, 0, s, Table.overlay order mtfvals, Table.overlay out values, r⟩

section
variable {u : Unrun}

/-- With no previous group, none of the lengths is known. -/
theorem step_skip (d : Decoder) (u : Unrun) : u.step d 0 =
    if u.rep ≠ 0 then
      (u.mtfvals.read 0).andThen fun v =>
        (u.emit v).andThen fun u => .done { u with rep := u.rep - 1 }
    else if u.mtf ≠ 0 then
      (updateMtf u.mtfvals u.mtf).andThen fun p =>
        ({ u with mtfvals := p.2 }.emit p.1).andThen fun u => .done { u with mtf := 0 }
    else u.next d := by
  rw [Unrun.step, Unrun.skips, if_neg (fun h => h.1 rfl), Attempt.andThen_done,
    if_neg Bool.false_ne_true]

theorem step_rep (h : u.rep ≠ 0) : u.step d 0 =
    (u.mtfvals.read 0).andThen fun v =>
      (u.emit v).andThen fun u => .done { u with rep := u.rep - 1 } := by
  rw [step_skip, if_pos h]

theorem step_mtf (hrep : u.rep = 0) (h : u.mtf ≠ 0) : u.step d 0 =
    (updateMtf u.mtfvals u.mtf).andThen fun p =>
      ({ u with mtfvals := p.2 }.emit p.1).andThen fun u => .done { u with mtf := 0 } := by
  rw [step_skip, if_neg (not_not_intro hrep), if_pos h]

theorem loop_stop (h : ¬ u.n < elts) (fuel : ℕ) : Unrun.loop d elts 0 (fuel + 1) u = .done u := by
  rw [Unrun.loop, if_neg h]

theorem step_next (hrep : u.rep = 0) (hmtf : u.mtf = 0) : u.step d 0 = u.next d := by
  rw [step_skip, if_neg (not_not_intro hrep), if_neg (not_not_intro hmtf)]

end

theorem goes_rep (helts : elts ≤ values.length) (k : ℕ) (hroom : out.length + k ≤ elts) :
    (unrunAt mtfvals values (a :: rest) out k s r).Goes d elts k
      (unrunAt mtfvals values (a :: rest) (out ++ List.replicate k a) 0 s r) := by
  induction k generalizing out with
  | zero =>
    rw [List.replicate_zero, List.append_nil]
    intro fuel
    rw [Nat.zero_add]
  | succ k ih =>
    have hstep : (unrunAt mtfvals values (a :: rest) out (k + 1) s r).step d 0 =
        .done (unrunAt mtfvals values (a :: rest) (out ++ [a]) k s r) := by
      rw [step_rep (Nat.succ_ne_zero k)]
      dsimp only [unrunAt]
      rw [Table.overlay_read rfl, Attempt.andThen_done, Unrun.emit, Table.overlay_push (by omega),
        Attempt.andThen_done, Attempt.andThen_done, List.length_append]
      rfl
    have htail := @ih (out ++ [a]) (by rw [List.length_append, List.length_singleton]; omega)
    have hgoes := (Unrun.Goes.one (show out.length < elts by omega) hstep).trans htail
    rw [List.append_assoc, Nat.add_comm] at hgoes
    exact hgoes

theorem goes_digit {c : ℕ} (helts : elts ≤ values.length) (hc : c ≤ 1)
    (hr : decodeSymbol d totalCodes r = .done (c, r₁)) (hlt : (c + 1) * 2 ^ s < 2 ^ 63)
    (hroom : out.length + (c + 1) * 2 ^ s ≤ elts) :
    (unrunAt mtfvals values (a :: rest) out 0 s r).Goes d elts (1 + (c + 1) * 2 ^ s)
      (unrunAt mtfvals values (a :: rest) (out ++ List.replicate ((c + 1) * 2 ^ s) a) 0 (s + 1)
        r₁) := by
  have hpow : 2 ^ s ≤ (c + 1) * 2 ^ s := Nat.le_mul_of_pos_left _ (Nat.succ_pos c)
  have hs : s < 63 := (Nat.pow_lt_pow_iff_right (by decide)).1 (hpow.trans_lt hlt)
  have hpos := Nat.two_pow_pos s
  have hrep : ((c + 1) <<< s) % usize.modulus = (c + 1) * 2 ^ s := by
    rw [Nat.shiftLeft_eq]
    exact Nat.mod_eq_of_lt (hlt.trans (by decide))
  have hstep : (unrunAt mtfvals values (a :: rest) out 0 s r).step d 0 =
      .done (unrunAt mtfvals values (a :: rest) out ((c + 1) * 2 ^ s) (s + 1) r₁) := by
    rw [step_next rfl rfl, Unrun.next]
    dsimp only [unrunAt]
    rw [hr, Attempt.andThen_done, if_pos hc, hrep]
    exact if_pos (show s < usize.bits from hs.trans (by decide))
  exact (Unrun.Goes.one (show out.length < elts by omega) hstep).trans
    (goes_rep helts _ hroom)

/-- The digits of a number repeat the symbol in front so many times. -/
theorem goes_digits {ds : List ℕ} (helts : elts ≤ values.length) (hds : ∀ c ∈ ds, c ≤ 1)
    (hr : Feeds d ds r r₁) (hlt : value ds * 2 ^ s < 2 ^ 63)
    (hroom : out.length + value ds * 2 ^ s ≤ elts) :
    ∃ k s', k ≤ 2 * (value ds * 2 ^ s) ∧
      (unrunAt mtfvals values (a :: rest) out 0 s r).Goes d elts k
        (unrunAt mtfvals values (a :: rest) (out ++ List.replicate (value ds * 2 ^ s) a) 0 s'
          r₁) := by
  induction ds generalizing out s r with
  | nil =>
    cases hr
    refine ⟨0, s, Nat.zero_le _, ?_⟩
    rw [value, Nat.zero_mul, List.replicate_zero, List.append_nil]
    intro fuel
    rw [Nat.zero_add]
  | cons c ds ih =>
    cases hr with
    | @cons _ _ _ r₀ _ hdecode htail =>
      have hsplit : value (c :: ds) * 2 ^ s = (c + 1) * 2 ^ s + value ds * 2 ^ (s + 1) := by
        rw [value, Nat.add_mul, pow_succ, Nat.mul_comm 2, Nat.mul_assoc, Nat.mul_comm 2]
      have hpos : 0 < (c + 1) * 2 ^ s := Nat.mul_pos (Nat.succ_pos c) (Nat.two_pow_pos s)
      rw [hsplit] at hlt hroom ⊢
      have hdigit := @goes_digit d elts mtfvals values out rest a s r r₀ c helts
        (hds c List.mem_cons_self) hdecode (by omega) (by omega)
      obtain ⟨k, s', hk, hgoes⟩ := @ih (out ++ List.replicate ((c + 1) * 2 ^ s) a) (s + 1) r₀
        (fun c' hc' => hds c' (List.mem_cons_of_mem _ hc')) htail (by omega)
        (by rw [List.length_append, List.length_replicate]; omega)
      refine ⟨1 + (c + 1) * 2 ^ s + k, s', by omega, ?_⟩
      rw [List.replicate_add, ← List.append_assoc]
      exact hdigit.trans hgoes

theorem goes_symbol {sym : ℕ} (helts : elts ≤ values.length) (hsym : sym ∈ order)
    (hplace : order.idxOf sym ≠ 0)
    (hr : decodeSymbol d totalCodes r = .done (order.idxOf sym + 1, r₁))
    (hroom : out.length < elts) :
    (unrunAt mtfvals values order out 0 s r).Goes d elts 2
      (unrunAt mtfvals values (sym :: order.erase sym) (out ++ [sym]) 0 0 r₁) := by
  have hread : (unrunAt mtfvals values order out 0 s r).step d 0 =
      .done { unrunAt mtfvals values order out 0 0 r₁ with mtf := order.idxOf sym } := by
    rw [step_next rfl rfl, Unrun.next]
    dsimp only [unrunAt]
    rw [hr, Attempt.andThen_done, if_neg (by dsimp only; omega)]
    rfl
  have hmove : Unrun.step d 0 { unrunAt mtfvals values order out 0 0 r₁ with
      mtf := order.idxOf sym } =
      .done (unrunAt mtfvals values (sym :: order.erase sym) (out ++ [sym]) 0 0 r₁) := by
    rw [step_mtf rfl hplace]
    dsimp only [unrunAt]
    rw [updateMtf_over hsym, Attempt.andThen_done, Unrun.emit, Table.overlay_push (by omega),
      Attempt.andThen_done, Attempt.andThen_done, List.length_append]
    rfl
  exact (Unrun.Goes.one hroom hread).trans (Unrun.Goes.one hroom hmove)

theorem goes_run {run : ℕ} (helts : elts ≤ values.length) (hrun : run ≤ intMax)
    (hr : Feeds d (digits run) r r₁) (hroom : out.length + run ≤ elts) :
    ∃ k s', k ≤ 2 * run ∧
      (unrunAt mtfvals values (a :: rest) out 0 0 r).Goes d elts k
        (unrunAt mtfvals values (a :: rest) (out ++ List.replicate run a) 0 s' r₁) := by
  have hvalue : value (digits run) * 2 ^ 0 = run := by
    rw [value_digits, pow_zero, Nat.mul_one]
  have hlt : run < 2 ^ 63 := hrun.trans_lt (by decide)
  have hgoes := @goes_digits d elts mtfvals values out rest a 0 r r₁ (digits run) helts
    (fun c hc => digits_le_one hc) hr (by omega) (by omega)
  rwa [hvalue] at hgoes

/-- Fed the codes of the places, the decoder makes the same moves and gives the symbols. -/
theorem goes_codes {syms : List ℕ} {run : ℕ} (helts : elts ≤ values.length)
    (hmem : ∀ x ∈ syms, x ∈ a :: rest) (hrun : run ≤ intMax) (hruns : RunsWithin intMax a run syms)
    (hr : Feeds d (codes run (places (a :: rest) syms)) r r₂)
    (hroom : out.length + run + syms.length ≤ elts) :
    ∃ k order s', k ≤ 2 * (run + syms.length) ∧
      (unrunAt mtfvals values (a :: rest) out 0 0 r).Goes d elts k
        (unrunAt mtfvals values order (out ++ List.replicate run a ++ syms) 0 s' r₂) := by
  induction syms generalizing a rest run out r with
  | nil =>
    rw [places, codes] at hr
    obtain ⟨k, s', hk, hgoes⟩ := @goes_run d elts mtfvals values out rest a r r₂ run helts hrun hr
      (by omega)
    rw [List.append_nil]
    exact ⟨k, a :: rest, s', hk, hgoes⟩
  | cons sym syms ih =>
    have hsym := hmem sym List.mem_cons_self
    have htail : ∀ x ∈ syms, x ∈ a :: rest := fun x hx => hmem x (List.mem_cons_of_mem _ hx)
    rw [List.length_cons] at hroom ⊢
    rw [RunsWithin] at hruns
    by_cases hfront : sym = a
    · subst hfront
      rw [if_pos rfl] at hruns
      rw [Room.codes_front] at hr
      obtain ⟨k, order, s', hk, hgoes⟩ := @ih out rest sym r (run + 1) htail hruns.1 hruns.2 hr
        (by omega)
      refine ⟨k, order, s', by omega, ?_⟩
      rw [List.replicate_succ', ← List.append_assoc, List.append_assoc] at hgoes
      exact hgoes
    · rw [if_neg hfront] at hruns
      rw [Room.codes_other hfront] at hr
      obtain ⟨r₀, hdigits, hrest⟩ := hr.split
      cases hrest with
      | @cons _ _ _ r₁ _ hdecode hcodes =>
        have hplace : (a :: rest).idxOf sym ≠ 0 := by
          rw [List.idxOf_cons_ne rest (Ne.symm hfront)]
          exact Nat.succ_ne_zero _
        obtain ⟨k₁, s₁, hk₁, hgoes₁⟩ := @goes_run d elts mtfvals values out rest a r r₀ run helts
          hrun hdigits (by omega)
        have hgoes₂ := @goes_symbol d elts mtfvals values (a :: rest)
          (out ++ List.replicate run a) s₁ r₀ r₁ sym helts hsym hplace hdecode
          (by rw [List.length_append, List.length_replicate]; omega)
        obtain ⟨k₃, order, s', hk₃, hgoes₃⟩ := @ih (out ++ List.replicate run a ++ [sym])
          ((a :: rest).erase sym) sym r₁ 0 (fun x hx => (mem_moved hsym).2 (htail x hx))
          (Nat.zero_le _) hruns hcodes
          (by simp only [List.length_append, List.length_replicate, List.length_singleton]; omega)
        refine ⟨k₁ + 2 + k₃, order, s', by omega, ?_⟩
        rw [List.replicate_zero, List.append_nil] at hgoes₃
        rw [List.append_cons]
        exact (hgoes₁.trans hgoes₂).trans hgoes₃

end

/-- With the room and the rounds it has, the decoder ends with the symbols and no run over. -/
theorem decode12_codes {d : Decoder} {mtfvals values : Table ℕ} {order syms : List ℕ}
    {r r₂ : BitReader} (hvalues : syms.length ≤ values.length) (hmem : ∀ x ∈ syms, x ∈ order)
    (hruns : ∀ a ∈ order.head?, RunsWithin intMax a 0 syms)
    (hr : Feeds d (codes 0 (places order syms)) r r₂) :
    decode12 d (Table.overlay order mtfvals) syms.length 0 values r =
      .done (Table.overlay syms values, r₂) := by
  have hrun : ∃ k order' s', k ≤ 2 * syms.length ∧
      (unrunAt mtfvals values order [] 0 0 r).Goes d syms.length k
        (unrunAt mtfvals values order' syms 0 s' r₂) := by
    cases order with
    | nil =>
      obtain rfl : syms = [] := List.eq_nil_iff_forall_not_mem.2 fun x hx =>
        List.not_mem_nil (hmem x hx)
      rw [places, codes, digits] at hr
      cases hr
      exact ⟨0, [], 0, Nat.zero_le _, fun fuel => by rw [Nat.zero_add]⟩
    | cons a rest =>
      obtain ⟨k, order', s', hk, hgoes⟩ := @goes_codes d syms.length mtfvals values [] rest a r r₂
        syms 0 hvalues hmem (Nat.zero_le _) (hruns a rfl) hr (by simp)
      exact ⟨k, order', s', by omega, hgoes⟩
  obtain ⟨k, order', s', hk, hgoes⟩ := hrun
  have hstop : ¬ (unrunAt mtfvals values order' syms 0 s' r₂).n < syms.length :=
    Nat.lt_irrefl syms.length
  have hloop : Unrun.loop d syms.length 0 (2 * syms.length + 2)
      ⟨0, 0, 0, 0, Table.overlay order mtfvals, values, r⟩ =
        .done (unrunAt mtfvals values order' syms 0 s' r₂) := by
    rw [show 2 * syms.length + 2 = k + (2 * syms.length + 1 - k + 1) by omega]
    exact (hgoes _).trans (loop_stop hstop _)
  rw [decode12, hloop, Attempt.andThen_done]
  exact if_neg (not_not_intro rfl)

/-- The codes of a sequence of symbols are no more than the symbols, and give them back. -/
def Mtf12Right (nsym : ℕ) (order syms : List ℕ) : Prop :=
  ∀ mtf mtfsym freqOut : Table ℕ, syms.length ≤ mtfsym.length → nsym + 2 ≤ freqOut.length →
    ∃ m cs, computeMtf12 syms (Table.overlay order mtf) mtfsym freqOut nsym = .done m ∧
      m.mtfI = cs.length ∧ m.mtfsym = Table.overlay cs mtfsym ∧ cs.length ≤ syms.length ∧
        ∀ d r r₂ mtfvals values, syms.length ≤ List.length values → Feeds d cs r r₂ →
          decode12 d (Table.overlay order mtfvals) syms.length 0 values r =
            .done (Table.overlay syms values, r₂)

theorem fill_over {vs l : List ℕ} {t : Table ℕ} (h : l.length + vs.length ≤ t.length) :
    fill vs l.length (Table.overlay l t) = .done (Table.overlay (l ++ vs) t) := by
  induction vs generalizing l with
  | nil => rw [List.append_nil, fill]
  | cons v vs ih =>
    rw [List.length_cons] at h
    have hnext := @ih (l ++ [v]) (by rw [List.length_append, List.length_singleton]; omega)
    rw [List.length_append, List.append_assoc] at hnext
    rw [fill, Table.overlay_push (by omega), Attempt.andThen_done]
    exact hnext

theorem counts_nil (nsym : ℕ) : counts nsym [] = List.replicate (nsym + 2) 0 := by
  simp [counts, List.map_const']

theorem Room.compute_state (b : Room) (order syms : List ℕ) :
    computeMtf12 syms (Table.overlay order b.mtf) b.mtfsym b.freq b.nsym =
      (Mtf12.loop b.nsym syms (b.state order 0 [])).andThen Mtf12.flush := by
  have hfill := @fill_over (List.replicate (b.nsym + 2) 0) [] b.freq (by simpa using b.freq_le)
  rw [List.length_nil, Table.overlay_nil, List.nil_append, ← counts_nil] at hfill
  rw [computeMtf12, ← counts_nil, hfill, Attempt.andThen_done]
  rfl

section
variable {order syms : List ℕ}

/-- The counter stays an `int`. -/
theorem runs_iff (hmem : ∀ x ∈ syms, x ∈ order) :
    (∀ a ∈ order.head?, RunsWithin intMax a 0 syms) ↔
      ¬ ∃ v, List.replicate (2 ^ 31 + 1) v <:+: order.take 1 ++ syms := by
  cases order with
  | nil =>
    obtain rfl : syms = [] := List.eq_nil_iff_forall_not_mem.2 fun x hx =>
      List.not_mem_nil (hmem x hx)
    refine ⟨fun _ ⟨v, hv⟩ => ?_, fun _ a ha => by simp at ha⟩
    have hle := hv.length_le
    rw [List.length_replicate] at hle
    exact absurd hle (by simp)
  | cons a rest =>
    have hiff := @runsWithin_iff ℕ _ intMax 0 a syms (Nat.zero_le _)
    exact Iff.trans ⟨fun h => h a rfl, fun h b hb => by cases hb; exact h⟩ hiff

theorem Mtf12Right.of_runs {nsym : ℕ} (hmem : ∀ x ∈ syms, x ∈ order)
    (hlen : order.length ≤ nsym + 1) (hbyte : order.length ≤ 255)
    (hruns : ∀ a ∈ order.head?, RunsWithin intMax a 0 syms) : Mtf12Right nsym order syms := by
  intro mtf mtfsym freqOut hsyms hfreq
  let b : Room := ⟨nsym, syms.length, mtf, mtfsym, freqOut, hsyms, hfreq⟩
  have hcodes : ∃ order', (Mtf12.loop b.nsym syms (b.state order 0 [])).andThen Mtf12.flush =
      .done (b.state order' 0 (codes 0 (places order syms))) := by
    cases order with
    | nil =>
      obtain rfl : syms = [] := List.eq_nil_iff_forall_not_mem.2 fun x hx =>
        List.not_mem_nil (hmem x hx)
      refine ⟨[], ?_⟩
      rw [Mtf12.loop, Attempt.andThen_done, places, codes]
      exact b.flush_state (by rw [digits]; exact Nat.zero_le _)
    | cons a rest =>
      have h := @Room.loop_state b [] a 0 rest syms hmem hlen hbyte (hruns a rfl) (by simp [b])
      exact h
  obtain ⟨order', hrun⟩ := hcodes
  refine ⟨_, codes 0 (places order syms), (b.compute_state order syms).trans hrun, rfl, rfl, ?_, ?_⟩
  · simpa using length_codes_le 0 (places order syms)
  · intro d r r₂ mtfvals values hvalues hfeeds
    exact decode12_codes hvalues hmem hruns hfeeds

theorem Mtf12Right.runs {nsym : ℕ} (hmem : ∀ x ∈ syms, x ∈ order)
    (hlen : order.length ≤ nsym + 1) (hbyte : order.length ≤ 255) (h : Mtf12Right nsym order syms) :
    ∀ a ∈ order.head?, RunsWithin intMax a 0 syms := by
  intro a ha
  obtain ⟨rest, rfl⟩ : ∃ rest, order = a :: rest := by
    cases order with
    | nil => cases ha
    | cons a' rest => cases ha; exact ⟨rest, rfl⟩
  by_contra hlong
  let b : Room := ⟨nsym, syms.length, [], Table.blank syms.length, Table.blank (nsym + 2),
    (Table.length_blank _).ge, (Table.length_blank _).ge⟩
  have hfault := @Room.loop_fault b [] a 0 rest syms hmem hlen hbyte hlong (by simp [b])
  obtain ⟨m, cs, hdone, -⟩ := h [] (Table.blank syms.length) (Table.blank (nsym + 2)) b.mtfsym_le
    b.freq_le
  have hcompute := b.compute_state (a :: rest) syms
  rw [hfault] at hcompute
  exact absurd (hcompute.symm.trans hdone) (by simp [Attempt.andThen])

end

/-- The run counter is an `int`: everything is right exactly where no symbol, counting the one in
front at the start, stands more than 2^31 times in a row. -/
theorem mtf12_right (nsym : ℕ) (order syms : List ℕ) (hmem : ∀ x ∈ syms, x ∈ order)
    (hlen : order.length ≤ nsym + 1) (hbyte : order.length ≤ 255) :
    Mtf12Right nsym order syms ↔
      ¬ ∃ v, List.replicate (2 ^ 31 + 1) v <:+: order.take 1 ++ syms := by
  rw [← runs_iff hmem]
  exact ⟨fun h => h.runs hmem hlen hbyte, fun h => .of_runs hmem hlen hbyte h⟩

/-- The order of the code lengths. -/
theorem mtf12_right_clen :
    Mtf12Right maxCodelen (0 :: encode12basic ++ encode12extra) [8, 8, 8, 8, 20, 0, 0] ↔
      ¬ ∃ v, List.replicate (2 ^ 31 + 1) v <:+:
        (0 :: encode12basic ++ encode12extra).take 1 ++ [8, 8, 8, 8, 20, 0, 0] :=
  mtf12_right maxCodelen (0 :: encode12basic ++ encode12extra) [8, 8, 8, 8, 20, 0, 0]
    (by decide) (by decide) (by decide)

/-- The group selectors of 2^31 sectors, all of the first group. -/
theorem mtf12_overflows : ¬ Mtf12Right 2 [0, 1] (List.replicate (2 ^ 31) 0) := by
  generalize hn : 2 ^ 31 = n
  intro h
  have hmem : ∀ x ∈ List.replicate n 0, x ∈ [0, 1] := by
    intro x hx
    rw [List.eq_of_mem_replicate hx]
    exact List.mem_cons_self
  have hshort := (runs_iff hmem).1 (h.runs hmem (by decide) (by decide))
  rw [hn] at hshort
  refine hshort ⟨0, ?_⟩
  rw [List.replicate_succ]
  exact List.infix_rfl

theorem feeds_of_agrees {codes : Table ℕ} {clen : List ℕ} {d : Decoder} {out : List UInt8}
    {cs : List ℕ} {w : BitWriter} {r : BitReader} (h : Agrees codes clen d totalCodes out cs w r) :
    ∃ r₂, Feeds d cs r r₂ := by
  induction cs generalizing w r with
  | nil => exact ⟨r, .nil r⟩
  | cons c cs ih =>
    obtain ⟨-, w', r', -, hdecode, htail⟩ := h
    obtain ⟨r₂, hfeeds⟩ := ih htail
    exact ⟨r₂, .cons hdecode hfeeds⟩

/-- Written with the canonical codes and read with the tables for them, the places of a sequence
of symbols give the symbols. -/
theorem decode12_written (v : CodeLengths) {codeTable inorder base limit : Table ℕ}
    (hcodes : codeTable.length = v.clen.length) (hinorder : v.clen.length ≤ inorder.length)
    (hbase : v.absMax + 1 < base.length) (hlimit : v.absMax + 1 < limit.length)
    (hsym : v.clen.length ≤ totalCodes + 1) {order syms : List ℕ} (hmem : ∀ x ∈ syms, x ∈ order)
    (hruns : ∀ a ∈ order.head?, RunsWithin intMax a 0 syms)
    (hused : ∀ c ∈ codes 0 (places order syms), 0 < v.clen.getD c 0) {w : BitWriter}
    (hready : w.Ready) :
    ∃ d w', buildDecoder v.absMax v.clen inorder base limit = .done d ∧
      writeSymbols (buildCodes codeTable v.clen) v.clen (codes 0 (places order syms)) w =
        .done w' ∧
      ∀ (rest : List UInt8) (r : BitReader) (mtfvals values : Table ℕ),
        InStep (flushBits w' ++ rest) w r → syms.length ≤ values.length →
          ∃ r₂, decode12 d (Table.overlay order mtfvals) syms.length 0 values r =
            .done (Table.overlay syms values, r₂) := by
  obtain ⟨d, hbuild, hd⟩ := buildDecoder_spec v.absMax_le v.le_absMax v.length_le v.used hinorder
    hbase hlimit
  obtain ⟨w', hwrite, hready', hagrees⟩ := agrees_of_right v hd hsym
    (fun s c hs hc => buildCodes_spec codeTable hcodes hs hc) hused hready
  refine ⟨d, w', hbuild, hwrite, fun rest r mtfvals values hstep hvalues => ?_⟩
  obtain ⟨r₂, hfeeds⟩ :=
    feeds_of_agrees ((hagrees _ (hready'.extends_flushBits rest)).2 r hstep)
  exact ⟨r₂, decode12_codes hvalues hmem hruns hfeeds⟩

end Xdelta.Djw
