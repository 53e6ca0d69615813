import Xdelta.Merge.Agreement
import Xdelta.Merge.Inputs

/-!
# Merged deltas compose

The merge of two deltas does to the base file what the second does to the output of the
first. A copy of the second that begins inside the first but ends beyond it makes the
merge run past the last instruction of the first; nothing else does.
-/
namespace Xdelta
open Chunked Delta

section Loop
variable {source : WholeState} {recurse : Winst → Merge}

private theorem Copied.reposition {addr size p q : ℕ} {st st' : WholeState}
    (h : Copied source addr size p st st') (hpq : q + size < xoff.modulus → p = q) :
    Copied source addr size q st st' := by
  obtain ⟨bytes, new, rfl, hlen, hlaid, hrest⟩ := h
  exact ⟨bytes, new, rfl, hlen, fun hq => hpq hq ▸ hlaid (hpq hq ▸ hq), hrest⟩

private def StandsAt (pre sinsts : List Winst) (addr : ℕ) : Prop :=
  addr = lengths pre ∨ ∃ i is, sinsts = i :: is ∧ lengths pre ≤ addr ∧
    addr < lengths pre + i.size

/-- One round of the loop: a piece is copied, and the loop goes on behind it. -/
private theorem mergeSourceCopyLoop_step (hs : source.Wf) {bound : ℕ}
    (hrec : Resolves source bound recurse) {pre sinsts : List Winst} {sinst : Winst}
    (hinst : source.inst = pre ++ sinst :: sinsts) {iinst : Winst} (hne : iinst.size ≠ 0)
    (hat : StandsAt pre (sinst :: sinsts) iinst.addr)
    (hbound : min (iinst.addr + iinst.size) source.length ≤ bound) (st : WholeState) :
    ∃ take st', take ≤ iinst.size ∧ iinst.addr + take ≤ source.length ∧
      (iinst.size = take ∨ StandsAt (pre ++ [sinst]) sinsts (iinst.addr + take)) ∧
      Copied source iinst.addr take iinst.position st st' ∧
      mergeSourceCopyLoop source recurse (sinst :: sinsts) iinst st =
        mergeSourceCopyLoop source recurse sinsts
          { iinst with
            position := xoff.add iinst.position take
            addr := iinst.addr + take
            size := iinst.size - take } st' := by
  have htotal : lengths pre + sinst.size ≤ source.length := by
    rw [hs.length_eq, hinst, lengths_append, lengths_cons]
    omega
  have hbelow := hs.below
  have hposn : sinst.position = lengths pre := by
    have hlaid := hs.laid
    rw [hinst, laid_append] at hlaid
    have := hlaid.2.1
    omega
  have hlo : lengths pre ≤ iinst.addr := by
    rcases hat with h | ⟨i, is, _, h, _⟩
    · exact h.ge
    · exact h
  have hhi : iinst.addr ≤ lengths pre + sinst.size := by
    rcases hat with h | ⟨i, is, hi, _, h⟩
    · omega
    · cases hi
      exact h.le
  have hoff : xoff.sub iinst.addr sinst.position = iinst.addr - lengths pre := by
    rw [hposn, xoff.sub_eq (by omega) hlo]
  have htake : (∀ i ∈ source.inst, i.size ≠ 0) →
      min iinst.size (sinst.size - (iinst.addr - lengths pre)) ≠ 0 := by
    intro hz
    have hsize := hz sinst (by rw [hinst]; simp)
    rcases hat with h | ⟨i, is, hi, _, h⟩
    · omega
    · cases hi
      omega
  have hle : iinst.addr - lengths pre +
      min iinst.size (sinst.size - (iinst.addr - lengths pre)) ≤ sinst.size := by omega
  obtain ⟨st', hok, hcopied⟩ := mergePiece_ok hs hinst hrec hle htake (by omega) iinst st
  rw [show lengths pre + (iinst.addr - lengths pre) = iinst.addr by omega] at hcopied
  refine ⟨_, st', Nat.min_le_left _ _, by omega, ?_, hcopied, ?_⟩
  · by_cases hle : iinst.size ≤ sinst.size - (iinst.addr - lengths pre)
    · exact .inl (Nat.min_eq_left hle).symm
    · refine .inr (.inl ?_)
      rw [lengths_append, lengths_cons, lengths_nil]
      omega
  · rw [mergeSourceCopyLoop]
    dsimp only
    rw [if_neg hne, hoff, if_neg (by omega), hok, Outcome.andThen_ok,
      xoff.add_eq (a := iinst.addr) (by omega)]

private theorem mergeSourceCopyLoop_zero {iinst : Winst} (h : iinst.size = 0)
    (sinsts : List Winst) (st : WholeState) :
    mergeSourceCopyLoop source recurse sinsts iinst st = .ok () st := by
  cases sinsts <;> exact if_pos h

theorem mergeSourceCopyLoop_ok (hs : source.Wf) {bound : ℕ}
    (hrec : Resolves source bound recurse) {pre sinsts : List Winst}
    (hinst : source.inst = pre ++ sinsts) {iinst : Winst}
    (hat : iinst.size = 0 ∨ StandsAt pre sinsts iinst.addr)
    (hend : iinst.addr + iinst.size ≤ source.length) (hbound : iinst.addr + iinst.size ≤ bound)
    (st : WholeState) : ∃ st', mergeSourceCopyLoop source recurse sinsts iinst st = .ok () st' ∧
      Copied source iinst.addr iinst.size iinst.position st st' := by
  induction sinsts generalizing pre iinst st with
  | nil =>
    have h0 : iinst.size = 0 := by
      rcases hat with h | h | ⟨i, is, h, _⟩
      · exact h
      · have := hs.length_eq
        rw [hinst, List.append_nil] at this
        omega
      · cases h
    exact ⟨st, mergeSourceCopyLoop_zero h0 _ st, h0 ▸ Copied.nil ..⟩
  | cons sinst sinsts ih =>
    by_cases h0 : iinst.size = 0
    · exact ⟨st, mergeSourceCopyLoop_zero h0 _ st, h0 ▸ Copied.nil ..⟩
    · obtain ⟨take, st1, htake, hin, hat1, hcopied, heq⟩ := mergeSourceCopyLoop_step hs hrec hinst
        h0 (hat.resolve_left h0) (by omega) st
      have hnext : source.inst = (pre ++ [sinst]) ++ sinsts := by rw [hinst]; simp
      have hat2 : iinst.size - take = 0 ∨ StandsAt (pre ++ [sinst]) sinsts (iinst.addr + take) :=
        hat1.imp_left fun h => by omega
      obtain ⟨st2, hok, hcopied2⟩ := @ih _ hnext
        { iinst with
          position := xoff.add iinst.position take
          addr := iinst.addr + take
          size := iinst.size - take } hat2 (by dsimp only; omega) (by dsimp only; omega) st1
      refine ⟨st2, heq.trans hok, ?_⟩
      have hsum : take + (iinst.size - take) = iinst.size := by omega
      rw [← hsum]
      exact hcopied.append (hcopied2.reposition fun h => xoff.add_eq (by dsimp only at h; omega))

/-- A copy that begins inside the source and ends beyond it runs past its instructions. -/
theorem mergeSourceCopyLoop_fault (hs : source.Wf) {bound : ℕ}
    (hrec : Resolves source bound recurse) {pre sinsts : List Winst}
    (hinst : source.inst = pre ++ sinsts) {iinst : Winst} (hat : StandsAt pre sinsts iinst.addr)
    (hend : source.length < iinst.addr + iinst.size) (hle : iinst.addr ≤ source.length)
    (hbound : source.length ≤ bound) (st : WholeState) :
    mergeSourceCopyLoop source recurse sinsts iinst st = .fault := by
  induction sinsts generalizing pre iinst st with
  | nil => exact if_neg (by omega)
  | cons sinst sinsts ih =>
    obtain ⟨take, st1, htake, hin, hat1, -, heq⟩ := mergeSourceCopyLoop_step hs hrec hinst
      (by omega) hat (by omega) st
    rw [heq]
    have hnext : source.inst = (pre ++ [sinst]) ++ sinsts := by rw [hinst]; simp
    exact ih hnext (hat1.resolve_left (by omega)) (by dsimp only; omega) hin st1

private theorem at_of_find {pre post : List Winst} {i : Winst} {addr : ℕ}
    (hlo : lengths pre ≤ addr) (hhi : addr < lengths pre + i.size) : StandsAt pre (i :: post) addr :=
  .inr ⟨i, post, rfl, hlo, hhi⟩

/-- A copy is looked up again at most once for each position below its end. -/
theorem mergeSourceCopy_resolves (hs : source.Wf) (depth : ℕ) :
    Resolves source depth (mergeSourceCopy source depth) := by
  induction depth with
  | zero => exact fun j st _ _ h => absurd h (Nat.not_lt_zero _)
  | succ depth ih =>
    intro j st hlt hend hbound
    obtain ⟨pre, i, post, hinst, hlo, hhi, hfind⟩ := mergeFindPosition_ok hs hlt st
    rw [mergeSourceCopy]
    dsimp only
    rw [hfind, Outcome.andThen_ok, hinst, List.drop_left]
    exact mergeSourceCopyLoop_ok hs ih hinst (.inr (at_of_find hlo hhi)) hend (by omega) st

/-- What `xd3_merge_source_copy` does with any copy. -/
theorem mergeSourceCopy_fault (hs : source.Wf) {depth : ℕ} (hdepth : source.length < depth)
    {j : Winst} (hlt : j.addr < source.length) (hend : source.length < j.addr + j.size)
    (st : WholeState) : mergeSourceCopy source depth j st = .fault := by
  obtain ⟨depth, rfl⟩ := Nat.exists_eq_succ_of_ne_zero (Nat.ne_of_gt (Nat.zero_lt_of_lt hdepth))
  obtain ⟨pre, i, post, hinst, hlo, hhi, hfind⟩ := mergeFindPosition_ok hs hlt st
  rw [mergeSourceCopy]
  dsimp only
  rw [hfind, Outcome.andThen_ok, hinst, List.drop_left]
  exact mergeSourceCopyLoop_fault hs (mergeSourceCopy_resolves hs depth) hinst
    (at_of_find hlo hhi) hend hlt.le (by omega) st

theorem mergeSourceCopy_refused {depth : ℕ} (hdepth : depth ≠ 0) {j : Winst}
    (h : source.length ≤ j.addr) (st : WholeState) : mergeSourceCopy source depth j st =
      .stop ⟨.invalidInput, some "Invalid copy offset in merge"⟩ st := by
  obtain ⟨depth, rfl⟩ := Nat.exists_eq_succ_of_ne_zero hdepth
  rw [mergeSourceCopy, mergeFindPosition, if_pos h]
  rfl

end Loop

/-- A copy from the source file, which `xd3_merge_inputs` looks up in the other delta. -/
def Winst.FromSource (i : Winst) : Prop := i.type ≠ .run ∧ i.type ≠ .add ∧ i.mode ≠ 0

section Inst
variable {depth : ℕ} {source input : WholeState} {i : Winst}

theorem mergeInst_run (h : i.type = .run) :
    mergeInst depth source input i = mergeRun input i := by
  unfold mergeInst
  rw [h]

theorem mergeInst_add (h : i.type = .add) :
    mergeInst depth source input i = mergeAdd input i := by
  unfold mergeInst
  rw [h]

private theorem mergeInst_copy (hrun : i.type ≠ .run) (hadd : i.type ≠ .add) (st : WholeState) :
    mergeInst depth source input i st =
      ((if i.mode = 0 then mergeTargetCopy i
        else if i.mode = vcdTarget then Routine.stop ⟨.invalidInput, none⟩
        else mergeSourceCopy source depth i) st).mapState fun st =>
          { st with length := xoff.add st.length i.size } := by
  unfold mergeInst
  cases ht : i.type with
  | run => exact absurd ht hrun
  | add => exact absurd ht hadd
  | noop => rfl
  | cpy m => rfl

theorem mergeInst_source (h : i.FromSource) (hmode : i.mode ≠ vcdTarget) (st : WholeState) :
    mergeInst depth source input i st = (mergeSourceCopy source depth i st).mapState
      fun st => { st with length := xoff.add st.length i.size } := by
  rw [mergeInst_copy h.1 h.2.1, if_neg h.2.2, if_neg hmode]

theorem mergeInst_target (hrun : i.type ≠ .run) (hadd : i.type ≠ .add) (hmode : i.mode = 0)
    (st : WholeState) : mergeInst depth source input i st =
      .ok () { st.push [] i with length := xoff.add st.length i.size } := by
  rw [mergeInst_copy hrun hadd, if_pos hmode]
  rfl

theorem mergeInst_vcdTarget (h : i.FromSource) (hmode : i.mode = vcdTarget) (st : WholeState) :
    mergeInst depth source input i st = .stop ⟨.invalidInput, none⟩
      { st with length := xoff.add st.length i.size } := by
  rw [mergeInst_copy h.1 h.2.1, if_neg h.2.2, if_pos hmode]
  rfl

theorem mergeInst_other (h : ¬(i.FromSource ∧ i.mode ≠ vcdTarget)) (depth' : ℕ)
    (st : WholeState) :
    mergeInst depth source input i st = mergeInst depth' source input i st := by
  by_cases hrun : i.type = .run
  · rw [mergeInst_run hrun, mergeInst_run hrun]
  · by_cases hadd : i.type = .add
    · rw [mergeInst_add hadd, mergeInst_add hadd]
    · rw [mergeInst_copy hrun hadd, mergeInst_copy hrun hadd]
      by_cases hmode : i.mode = 0
      · rw [if_pos hmode, if_pos hmode]
      · rw [if_pos (not_not.mp fun hc => h ⟨⟨hrun, hadd, hmode⟩, hc⟩),
          if_pos (not_not.mp fun hc => h ⟨⟨hrun, hadd, hmode⟩, hc⟩)]

end Inst

section Depth
variable {source : WholeState}

private theorem mergePiece_mono {r r' : Winst → Merge}
    (h : ∀ j st, r j st ≠ .fault → r' j st = r j st) {sinst iinst : Winst} {offset take : ℕ}
    {st : WholeState} (hok : mergePiece source r sinst offset take iinst st ≠ .fault) :
    mergePiece source r' sinst offset take iinst st =
      mergePiece source r sinst offset take iinst st := by
  unfold mergePiece at hok ⊢
  cases ht : sinst.type with
  | run => rfl
  | add => rfl
  | noop =>
    rw [ht] at hok
    dsimp only at hok ⊢
    split
    · rfl
    · rename_i hmode
      rw [if_neg hmode] at hok
      exact h _ _ hok
  | cpy m =>
    rw [ht] at hok
    dsimp only at hok ⊢
    split
    · rfl
    · rename_i hmode
      rw [if_neg hmode] at hok
      exact h _ _ hok

private theorem mergeSourceCopyLoop_mono {r r' : Winst → Merge}
    (h : ∀ j st, r j st ≠ .fault → r' j st = r j st) {sinsts : List Winst} {iinst : Winst}
    {st : WholeState} (hok : mergeSourceCopyLoop source r sinsts iinst st ≠ .fault) :
    mergeSourceCopyLoop source r' sinsts iinst st =
      mergeSourceCopyLoop source r sinsts iinst st := by
  induction sinsts generalizing iinst st with
  | nil => rfl
  | cons sinst sinsts ih =>
    unfold mergeSourceCopyLoop at hok ⊢
    dsimp only at hok ⊢
    generalize xoff.sub iinst.addr sinst.position = off at hok ⊢
    split
    · rfl
    · rename_i h0
      rw [if_neg h0] at hok
      split
      · rfl
      · rename_i hoff
        rw [if_neg hoff] at hok
        exact Outcome.andThen_of_ne_fault (mergePiece_mono h) (fun _ _ => ih) hok

/-- A copy resolved to some depth is resolved in the same way to any greater one. -/
theorem mergeSourceCopy_mono {depth depth' : ℕ} (hle : depth ≤ depth') {j : Winst}
    {st : WholeState} (hok : mergeSourceCopy source depth j st ≠ .fault) :
    mergeSourceCopy source depth' j st = mergeSourceCopy source depth j st := by
  induction depth generalizing depth' j st with
  | zero => exact absurd rfl hok
  | succ depth ih =>
    obtain ⟨n, rfl⟩ := Nat.exists_eq_add_of_le' hle
    exact Outcome.andThen_of_ne_fault (fun _ => rfl)
      (fun _ _ => mergeSourceCopyLoop_mono fun _ _ => ih (Nat.le_add_left depth n)) hok

theorem mergeInst_mono {depth depth' : ℕ} (hle : depth ≤ depth') {input : WholeState}
    {iinst : Winst} {st : WholeState} (hok : mergeInst depth source input iinst st ≠ .fault) :
    mergeInst depth' source input iinst st = mergeInst depth source input iinst st := by
  by_cases h : iinst.FromSource ∧ iinst.mode ≠ vcdTarget
  · rw [mergeInst_source h.1 h.2] at hok ⊢
    rw [mergeInst_source h.1 h.2, mergeSourceCopy_mono hle]
    intro hf
    rw [hf] at hok
    exact hok rfl
  · exact mergeInst_other h depth st

theorem mergeInsts_mono {depth depth' : ℕ} (hle : depth ≤ depth') {input : WholeState}
    {is : List Winst} {st : WholeState} (hok : mergeInsts depth source input is st ≠ .fault) :
    mergeInsts depth' source input is st = mergeInsts depth source input is st := by
  induction is generalizing st with
  | nil => rfl
  | cons i is ih =>
    exact Outcome.andThen_of_ne_fault (mergeInst_mono hle) (fun _ _ => ih) hok

end Depth

/-- A whole delta whose instructions all write something. -/
structure WholeState.Proper (s : WholeState) : Prop extends s.Wf where
  pos : ∀ i ∈ s.inst, i.size ≠ 0

/-- What has been merged of the instructions `is` of `input`. -/
structure Merged (source input : WholeState) (is : List Winst) (st : WholeState) : Prop where
  laid : Laid 0 st.inst
  lengths_eq : lengths st.inst = lengths is
  length_eq : st.length = lengths is
  sound : ∀ i ∈ st.inst, i.Sound st.adds
  pos : ∀ i ∈ st.inst, i.size ≠ 0
  wininfo : st.wininfo = input.wininfo
  meaning : ∀ base word, source.interp base = some word →
    interpFrom st.adds base st.inst [] = interpFrom input.adds word is []

section Compose
variable {source input : WholeState} {is : List Winst} {st : WholeState}

/-- New instructions that do what the next instruction of the input does. -/
private theorem Merged.extend (h : Merged source input is st) {i : Winst} {bytes : List UInt8}
    {new : List Winst} (hlen : lengths new = i.size) (hlaid : Laid (lengths is) new)
    (hbelow : lengths is + i.size < xoff.modulus)
    (hsound : ∀ j ∈ new, j.Sound (st.adds ++ bytes)) (hpos : ∀ j ∈ new, j.size ≠ 0)
    (hmean : ∀ base word, source.interp base = some word → ∀ out,
      interpFrom (st.adds ++ bytes) base new out = interpFrom input.adds word [i] out) :
    Merged source input (is ++ [i]) { st with
      adds := st.adds ++ bytes
      inst := st.inst ++ new
      length := xoff.add st.length i.size } where
  laid := laid_append.mpr ⟨h.laid, by rwa [h.lengths_eq, Nat.zero_add]⟩
  lengths_eq := by
    rw [lengths_append, lengths_append, h.lengths_eq, hlen, lengths_cons, lengths_nil]
    omega
  length_eq := by
    dsimp only
    rw [h.length_eq, xoff.add_eq hbelow, lengths_append, lengths_cons, lengths_nil, Nat.add_zero]
  sound j hj := (List.mem_append.mp hj).elim (fun hj => (h.sound j hj).append _) (hsound j)
  pos j hj := (List.mem_append.mp hj).elim (h.pos j) (hpos j)
  wininfo := h.wininfo
  meaning base word hw := by
    dsimp only
    rw [interpFrom_append, interpFrom_append_adds h.sound, h.meaning base word hw,
      interpFrom_append]
    exact congrArg _ (funext (hmean base word hw))

/-- One instruction that does what the next one of the input does. -/
private theorem Merged.push (h : Merged source input is st) {i j : Winst} {bytes : List UInt8}
    (hsize : j.size = i.size) (hposn : j.position = lengths is)
    (hbelow : lengths is + i.size < xoff.modulus) (hpos : i.size ≠ 0)
    (hsound : j.Sound (st.adds ++ bytes))
    (hop : j.op (st.adds ++ bytes) = i.op input.adds)
    (happ : ∀ o, i.op input.adds = some o → ∀ base word out, o.apply base out = o.apply word out) :
    Merged source input (is ++ [i])
      { st.push bytes j with length := xoff.add st.length i.size } := by
  have hlen : lengths [j] = i.size := by rw [lengths_cons, lengths_nil, hsize, Nat.add_zero]
  refine h.extend hlen ⟨hposn, trivial⟩ hbelow ?_ ?_ fun base word _ out => ?_
  · intro k hk
    rw [List.mem_singleton.mp hk]
    exact hsound
  · intro k hk
    rw [List.mem_singleton.mp hk, hsize]
    exact hpos
  · rw [interpFrom, interpFrom, hop]
    cases ho : i.op input.adds with
    | none => rfl
    | some o =>
      rw [Option.bind_some, Option.bind_some, happ o ho base word]
      rfl

private theorem Winst.sound_run {adds : List UInt8} {i : Winst} (h : i.type = .run)
    (hlt : i.addr < adds.length) : i.Sound adds := by
  refine ⟨?_, fun _ => hlt, ?_, ?_, ?_⟩ <;> intros <;> simp_all

private theorem Winst.sound_add {adds : List UInt8} {i : Winst} (h : i.type = .add)
    (hle : i.addr + i.size ≤ adds.length) : i.Sound adds := by
  refine ⟨?_, ?_, fun _ => hle, ?_, ?_⟩ <;> intros <;> simp_all

/-- One round of `xd3_merge_inputs`. -/
theorem mergeInst_ok (hs : source.Proper) {depth : ℕ} (hdepth : source.length < depth)
    (h : Merged source input is st) {i : Winst} (hi : i.Sound input.adds) (hpos : i.size ≠ 0)
    (hposn : i.position = lengths is) (hbelow : lengths is + i.size < xoff.modulus)
    (hcopy : i.FromSource → i.mode ≠ vcdTarget ∧ i.addr + i.size ≤ source.length) :
    ∃ st', mergeInst depth source input i st = .ok () st' ∧
      Merged source input (is ++ [i]) st' := by
  cases ht : i.type with
  | noop => exact absurd ht hi.ne
  | run =>
    have hlt := hi.run ht
    have hop : ∀ j : Winst, j.type = .run → j.size = i.size → j.addr = st.adds.length →
        j.op (st.adds ++ [input.adds[i.addr]]) = i.op input.adds := by
      intro j hj hsize haddr
      rw [Winst.op_run ht, Winst.op_run hj, haddr, hsize, List.getElem?_eq_getElem hlt,
        List.getElem?_append_right (Nat.le_refl _), Nat.sub_self]
      rfl
    rw [mergeInst_run ht, mergeRun, List.getElem?_eq_getElem hlt]
    refine ⟨_, rfl, h.push rfl h.length_eq hbelow hpos ?_ (hop _ ht rfl rfl)
      fun o ho base word out => ?_⟩
    · exact Winst.sound_run ht (by simp)
    · rw [Winst.op_run ht, List.getElem?_eq_getElem hlt] at ho
      cases ho
      rfl
  | add =>
    have hle := hi.add ht
    have hslice : slice input.adds i.addr i.size =
        some ((input.adds.drop i.addr).take i.size) := by
      unfold slice
      rw [if_neg hpos, if_pos hle]
    have hlen : ((input.adds.drop i.addr).take i.size).length = i.size :=
      List.length_take_of_le (by rw [List.length_drop]; omega)
    have hop : ∀ j : Winst, j.type = .add → j.size = i.size → j.addr = st.adds.length →
        j.op (st.adds ++ (input.adds.drop i.addr).take i.size) = i.op input.adds := by
      intro j hj hsize haddr
      rw [Winst.op_add ht, if_pos hle, Winst.op_add hj, haddr, hsize,
        if_pos (by rw [List.length_append, hlen]), List.drop_left, List.take_of_length_le hlen.le]
    rw [mergeInst_add ht, mergeAdd, hslice]
    refine ⟨_, rfl, h.push rfl h.length_eq hbelow hpos ?_ (hop _ ht rfl rfl)
      fun o ho base word out => ?_⟩
    · exact Winst.sound_add ht (by simp only [List.length_append]; omega)
    · rw [Winst.op_add ht, if_pos hle] at ho
      cases ho
      rfl
  | cpy m =>
    have hrun : i.type ≠ .run := by
      rw [ht]
      exact RType.noConfusion
    have hadd : i.type ≠ .add := by
      rw [ht]
      exact RType.noConfusion
    by_cases hmode : i.mode = 0
    · rw [mergeInst_target hrun hadd hmode]
      refine ⟨_, rfl, h.push rfl hposn hbelow hpos ⟨hi.ne, fun hr => absurd hr hrun,
        fun ha => absurd ha hadd, hi.target, hi.source⟩ ?_ fun o ho base word out => ?_⟩
      · rw [Winst.op_cpy ht, Winst.op_cpy ht]
      · rw [Winst.op_cpy ht, if_pos hmode] at ho
        cases ho
        rfl
    · obtain ⟨hkind, hend⟩ := hcopy ⟨hrun, hadd, hmode⟩
      rw [mergeInst_source ⟨hrun, hadd, hmode⟩ hkind]
      obtain ⟨st', hok, bytes, new, rfl, hlen, hlaid, hsound, hpos', hmean⟩ :=
        mergeSourceCopy_resolves hs.toWf depth i st (by omega) hend (by omega)
      rw [hok]
      refine ⟨_, rfl, h.extend hlen (hposn ▸ hlaid (by omega)) hbelow hsound (hpos' hs.pos)
        fun base word hw out => ?_⟩
      have hword : word.length = source.length := by
        rw [length_interpFrom hw, hs.length_eq, List.length_nil, Nat.zero_add]
      rw [hmean base word hw, interpFrom, Winst.op_cpy ht, if_neg hmode, Option.bind_some,
        Op.apply_source_of_le (by omega)]
      rfl

theorem mergeInsts_ok (hs : source.Proper) {depth : ℕ} (hdepth : source.length < depth)
    (hi : input.Proper) (hcopy : ∀ i ∈ input.inst, i.FromSource →
      i.mode ≠ vcdTarget ∧ i.addr + i.size ≤ source.length)
    {rest : List Winst} (hrest : input.inst = is ++ rest) (h : Merged source input is st) :
    ∃ st', mergeInsts depth source input rest st = .ok () st' ∧
      Merged source input input.inst st' := by
  induction rest generalizing is st with
  | nil =>
    rw [List.append_nil] at hrest
    exact ⟨st, rfl, hrest ▸ h⟩
  | cons i rest ih =>
    have hmem : i ∈ input.inst := by
      rw [hrest]
      exact List.mem_append_right _ List.mem_cons_self
    have hlaid := hi.laid
    rw [hrest, laid_append, Nat.zero_add] at hlaid
    have hbelow := hi.below
    rw [hi.length_eq, hrest, lengths_append, lengths_cons] at hbelow
    obtain ⟨st1, hok, h1⟩ := mergeInst_ok hs hdepth h (hi.sound i hmem) (hi.pos i hmem)
      hlaid.2.1 (by omega) (hcopy i hmem)
    obtain ⟨st2, hok2, h2⟩ := ih (by rw [hrest, List.append_assoc]; rfl) h1
    refine ⟨st2, ?_, h2⟩
    rw [mergeInsts]
    dsimp only
    rw [hok, Outcome.andThen_ok, hok2]

/-- Merging two deltas succeeds, and the result does to the base file what the second delta
does to the output of the first. -/
theorem mergeInputs_interp (hs : source.Proper) (hi : input.Proper)
    (hcopy : ∀ i ∈ input.inst, i.FromSource →
      i.mode ≠ vcdTarget ∧ i.addr + i.size ≤ source.length) :
    ∃ st, (∀ depth, source.length < depth → mergeInputs depth source input {} = .ok () st) ∧
      st.Proper ∧ st.length = input.length ∧ st.wininfo = input.wininfo ∧
      ∀ base word, source.interp base = some word → st.interp base = input.interp word := by
  have hstart : Merged source input [] { wininfo := input.wininfo } :=
    ⟨trivial, rfl, rfl, nofun, nofun, rfl, fun _ _ _ => rfl⟩
  obtain ⟨st, hok, h⟩ := mergeInsts_ok hs (Nat.lt_succ_self _) hi hcopy rfl hstart
  refine ⟨st, fun depth hdepth => ?_, ⟨⟨h.laid, ?_, ?_, h.sound⟩, h.pos⟩, ?_, h.wininfo,
    h.meaning⟩
  · have hne : mergeInsts (source.length + 1) source input input.inst
        { wininfo := input.wininfo } ≠ .fault := by
      rw [hok]
      exact nofun
    exact (mergeInsts_mono hdepth hne).trans hok
  · rw [h.length_eq, h.lengths_eq]
  · rw [h.length_eq, ← hi.length_eq]
    exact hi.below
  · rw [h.length_eq, hi.length_eq]

end Compose

def repeated : WholeState where
  adds := [1, 2]
  inst := [⟨.add, 0, 2, 0, 0⟩, ⟨.cpy 0, 0, 4, 0, 2⟩]
  length := 6

def cutOut : WholeState where
  adds := [7]
  inst := [⟨.run, 0, 2, 0, 0⟩, ⟨.cpy 3, 1, 4, 1, 2⟩]
  wininfo := [⟨0, 6, 0⟩]
  length := 6

theorem repeated_proper : repeated.Proper where
  laid := ⟨rfl, rfl, trivial⟩
  length_eq := rfl
  below := by decide
  sound i hi := by
    rcases List.mem_cons.mp hi with rfl | hi
    · exact Winst.sound_add rfl (by decide)
    · rw [List.mem_singleton.mp hi]
      exact ⟨nofun, nofun, nofun, fun _ _ _ => by decide, fun _ _ h => absurd rfl h⟩
  pos := by decide

theorem cutOut_proper : cutOut.Proper where
  laid := ⟨rfl, rfl, trivial⟩
  length_eq := rfl
  below := by decide
  sound i hi := by
    rcases List.mem_cons.mp hi with rfl | hi
    · exact Winst.sound_run rfl (by decide)
    · rw [List.mem_singleton.mp hi]
      exact ⟨nofun, nofun, nofun, fun _ _ h => absurd h (by decide), fun _ _ _ => by decide⟩
  pos := by decide

private theorem cutOut_inside : ∀ i ∈ cutOut.inst, i.FromSource →
    i.mode ≠ vcdTarget ∧ i.addr + i.size ≤ repeated.length := by
  intro i hi hf
  rcases List.mem_cons.mp hi with rfl | hi
  · exact absurd rfl hf.1
  · rw [List.mem_singleton.mp hi]
    decide

/-- The two merged: the copy is cut at the end of the first instruction, and its second piece
is looked up again. -/
theorem mergeInputs_interp_cutOut :
    ∃ st, (∀ depth, 6 < depth → mergeInputs depth repeated cutOut {} = .ok () st) ∧
      st.Proper ∧ st.length = 6 ∧ st.wininfo = [⟨0, 6, 0⟩] ∧
      ∀ base word, repeated.interp base = some word → st.interp base = cutOut.interp word :=
  mergeInputs_interp repeated_proper cutOut_proper cutOut_inside

example : mergeInputs 7 repeated cutOut {} = .ok ()
    { adds := [7, 2, 1, 2, 1]
      inst := [⟨.run, 0, 2, 0, 0⟩, ⟨.add, 0, 1, 1, 2⟩, ⟨.add, 0, 2, 2, 3⟩, ⟨.add, 0, 1, 4, 5⟩]
      wininfo := [⟨0, 6, 0⟩]
      length := 6 } := by rfl

/-- A copy that the merge refuses: of the wrong kind, or beginning beyond the source. -/
def Winst.Refused (source : WholeState) (i : Winst) : Prop :=
  i.FromSource ∧ (i.mode = vcdTarget ∨ source.length ≤ i.addr)

section Bounds
variable {source input : WholeState} {i : Winst}

theorem mergeInst_refused {depth : ℕ} (hdepth : depth ≠ 0) (h : i.Refused source)
    (st : WholeState) : ∃ e st', mergeInst depth source input i st = .stop e st' := by
  by_cases hmode : i.mode = vcdTarget
  · exact ⟨_, _, mergeInst_vcdTarget h.1 hmode st⟩
  · rw [mergeInst_source h.1 hmode,
      mergeSourceCopy_refused hdepth (h.2.resolve_left hmode)]
    exact ⟨_, _, rfl⟩

theorem mergeInst_inside (hs : source.Wf) {depth : ℕ} (hdepth : source.length < depth)
    (hi : i.Sound input.adds) (hr : ¬i.Refused source)
    (hend : i.FromSource → i.addr + i.size ≤ source.length) (st : WholeState) :
    ∃ st', mergeInst depth source input i st = .ok () st' := by
  by_cases hf : i.FromSource
  · have hmode : i.mode ≠ vcdTarget := fun h => hr ⟨hf, .inl h⟩
    have hlt : i.addr < source.length := Nat.lt_of_not_le fun h => hr ⟨hf, .inr h⟩
    have hin := hend hf
    obtain ⟨st', hok, -⟩ := mergeSourceCopy_resolves hs depth i st hlt hin (by omega)
    rw [mergeInst_source hf hmode, hok]
    exact ⟨_, rfl⟩
  · by_cases hrun : i.type = .run
    · rw [mergeInst_run hrun, mergeRun, List.getElem?_eq_getElem (hi.run hrun)]
      exact ⟨_, rfl⟩
    · by_cases hadd : i.type = .add
      · have hslice : ∃ bytes, slice input.adds i.addr i.size = some bytes := by
          unfold slice
          split
          · exact ⟨_, rfl⟩
          · rw [if_pos (hi.add hadd)]
            exact ⟨_, rfl⟩
        obtain ⟨bytes, hbytes⟩ := hslice
        rw [mergeInst_add hadd, mergeAdd, hbytes]
        exact ⟨_, rfl⟩
      · exact ⟨_, mergeInst_target hrun hadd (not_not.mp fun h => hf ⟨hrun, hadd, h⟩) st⟩

theorem mergeInst_fault (hs : source.Wf) {depth : ℕ} (hdepth : source.length < depth)
    (hf : i.FromSource) (hr : ¬i.Refused source) (hend : source.length < i.addr + i.size)
    (st : WholeState) : mergeInst depth source input i st = .fault := by
  have hlt : i.addr < source.length := Nat.lt_of_not_le fun h => hr ⟨hf, .inr h⟩
  rw [mergeInst_source hf fun h => hr ⟨hf, .inl h⟩, mergeSourceCopy_fault hs hdepth hlt hend]
  rfl

/-- Before the first copy that is refused, every copy from the source ends inside it. -/
def StaysInside (source : WholeState) (is : List Winst) : Prop :=
  ∀ pre i post, is = pre ++ i :: post → (∀ j ∈ pre ++ [i], ¬j.Refused source) →
    i.FromSource → i.addr + i.size ≤ source.length

private theorem staysInside_cons {is : List Winst} : StaysInside source (i :: is) ↔
    (i.Refused source ∨ ((i.FromSource → i.addr + i.size ≤ source.length) ∧
      StaysInside source is)) := by
  constructor
  · intro h
    by_cases hr : i.Refused source
    · exact .inl hr
    · refine .inr ⟨h [] i is rfl fun j hj => ?_, fun pre k post hk hpre => ?_⟩
      · rw [List.mem_singleton.mp hj]
        exact hr
      · refine h (i :: pre) k post (by rw [hk]; rfl) fun j hj => ?_
        rcases List.mem_cons.mp hj with rfl | hj
        · exact hr
        · exact hpre j hj
  · rintro h pre k post hk hpre hf
    cases pre with
    | nil =>
      obtain ⟨rfl, rfl⟩ := List.cons.inj hk
      rcases h with h | ⟨h, -⟩
      · exact absurd h (hpre _ (by simp))
      · exact h hf
    | cons j pre =>
      obtain ⟨rfl, rfl⟩ := List.cons.inj hk
      rcases h with h | ⟨-, h⟩
      · exact absurd h (hpre _ (by simp))
      · exact h pre k post rfl (fun j' hj' => hpre j' (List.mem_cons_of_mem _ hj')) hf

theorem mergeInsts_ne_fault_iff (hs : source.Wf) {depth : ℕ} (hdepth : source.length < depth)
    {is : List Winst} (hsound : ∀ i ∈ is, i.Sound input.adds) (st : WholeState) :
    mergeInsts depth source input is st ≠ .fault ↔ StaysInside source is := by
  induction is generalizing st with
  | nil => exact ⟨fun _ pre i post h => by simp at h, fun _ => nofun⟩
  | cons i is ih =>
    rw [staysInside_cons, mergeInsts]
    dsimp only
    by_cases hr : i.Refused source
    · obtain ⟨e, st', hstop⟩ : ∃ e st', mergeInst depth source input i st = .stop e st' :=
        mergeInst_refused (Nat.ne_of_gt (Nat.zero_lt_of_lt hdepth)) hr st
      rw [hstop]
      exact ⟨fun _ => .inl hr, fun _ => nofun⟩
    · by_cases hend : i.FromSource → i.addr + i.size ≤ source.length
      · obtain ⟨st', hok⟩ := mergeInst_inside hs hdepth (hsound i List.mem_cons_self) hr hend st
        rw [hok, Outcome.andThen_ok, ih (fun j hj => hsound j (List.mem_cons_of_mem i hj))]
        exact ⟨fun h => .inr ⟨hend, h⟩, fun h => (h.resolve_left hr).2⟩
      · rw [Classical.not_imp, Nat.not_le] at hend
        rw [mergeInst_fault hs hdepth hend.1 hr hend.2]
        refine ⟨fun h => absurd rfl h, fun h => ?_⟩
        have := (h.resolve_left hr).1 hend.1
        omega

/-- Merging accesses nothing outside its inputs exactly if, before the first copy it
refuses, every copy from the source ends inside it. -/
theorem mergeInputs_ne_fault_iff (hs : source.Wf) (hi : input.Wf) :
    (∀ depth, source.length < depth → mergeInputs depth source input {} ≠ .fault) ↔
      StaysInside source input.inst := by
  constructor
  · intro h
    exact (mergeInsts_ne_fault_iff hs (Nat.lt_succ_self _) hi.sound _).mp
      (h _ (Nat.lt_succ_self _))
  · intro h depth hdepth
    exact (mergeInsts_ne_fault_iff hs hdepth hi.sound _).mpr h

end Bounds

def fiveBytes : Window where
  decTgtlen := 5
  decMaxpos := 5
  dataSect := { mem := [1, 2, 3, 4, 5], bufMax := 5, size := 5 }
  instSect := { mem := [6], bufMax := 1, size := 1 }
  acache := AddrCache.rfc3284

def tenBytes : Window where
  decWinInd := vcdSource
  decCpylen := 10
  decTgtlen := 10
  decPosition := 10
  decMaxpos := 20
  instSect := { mem := [26], bufMax := 1, size := 1 }
  addrSect := { mem := [0], bufMax := 1, size := 1 }
  acache := AddrCache.rfc3284

theorem fiveBytes_ready : fiveBytes.Ready where
  buf_le k := by cases k <;> decide
  max_le k := by cases k <;> decide
  near := rfl
  same := rfl
  settled := ⟨rfl, rfl⟩
  position := rfl
  maxpos := rfl
  below := by decide
  offset := by decide
  indicated := .inl rfl
  tgtlen := by decide

theorem tenBytes_ready : tenBytes.Ready where
  buf_le k := by cases k <;> decide
  max_le k := by cases k <;> decide
  near := rfl
  same := rfl
  settled := ⟨rfl, rfl⟩
  position := rfl
  maxpos := rfl
  below := by decide
  offset := by decide
  indicated := .inr rfl
  tgtlen := by decide

/-- The whole delta of `fiveBytes`. -/
def fiveBytesWhole : WholeState where
  adds := [1, 2, 3, 4, 5]
  inst := [⟨.add, 0, 5, 0, 0⟩]
  wininfo := [⟨0, 5, 0⟩]
  length := 5

/-- The whole delta of `tenBytes`. -/
def tenBytesWhole : WholeState where
  inst := [⟨.cpy 0, vcdSource, 10, 0, 0⟩]
  wininfo := [⟨0, 10, 0⟩]
  length := 10

theorem fiveBytesWhole_wf : fiveBytesWhole.Wf where
  laid := ⟨rfl, trivial⟩
  length_eq := rfl
  below := by decide
  sound i hi := by
    rw [List.mem_singleton.mp hi]
    exact Winst.sound_add rfl (by decide)

theorem tenBytesWhole_wf : tenBytesWhole.Wf where
  laid := ⟨rfl, trivial⟩
  length_eq := rfl
  below := by decide
  sound i hi := by
    rw [List.mem_singleton.mp hi]
    exact ⟨nofun, nofun, nofun, fun _ _ h => absurd h (by decide), fun _ _ _ => by decide⟩

/-- What `xd3_whole_append_window` makes of a window by itself, if it succeeds. -/
def Window.whole (w : Window) : Option WholeState :=
  match wholeAppendWindow 0 ⟨w, {}⟩ with
  | .ok _ g => some g.whole
  | _ => none

/-- The ten bytes, merged with a source of five: after the only instruction of the source
there are five more to copy. -/
theorem mergeInputs_reads_past_end :
    (fiveBytes.Ready ∧ fiveBytes.whole = some fiveBytesWhole) ∧
    (tenBytes.Ready ∧ tenBytes.whole = some tenBytesWhole) ∧
    ∀ depth, 5 < depth → mergeInputs depth fiveBytesWhole tenBytesWhole {} = .fault := by
  refine ⟨⟨fiveBytes_ready, by decide⟩, ⟨tenBytes_ready, by decide⟩, fun depth hdepth => ?_⟩
  have hfrom : Winst.FromSource ⟨.cpy 0, vcdSource, 10, 0, 0⟩ := by
    refine ⟨nofun, nofun, by decide⟩
  have hfault : ∀ st, mergeInst depth fiveBytesWhole tenBytesWhole
      ⟨.cpy 0, vcdSource, 10, 0, 0⟩ st = .fault :=
    mergeInst_fault fiveBytesWhole_wf hdepth hfrom
      (fun h => h.2.elim (by decide) (by decide)) (by decide)
  exact congrArg (fun o => Outcome.andThen o _) (hfault _)

/-- A whole delta that copies the last four of five bytes, adds one, and copies two from
beyond the five. -/
def fourBytesWhole : WholeState where
  adds := [9]
  inst := [⟨.cpy 0, vcdSource, 4, 1, 0⟩, ⟨.add, 0, 1, 0, 4⟩, ⟨.cpy 0, vcdSource, 2, 5, 5⟩]
  wininfo := [⟨0, 7, 0⟩]
  length := 7

theorem fourBytesWhole_wf : fourBytesWhole.Wf where
  laid := ⟨rfl, rfl, rfl, trivial⟩
  length_eq := rfl
  below := by decide
  sound i hi := by
    rcases List.mem_cons.mp hi with rfl | hi
    · exact ⟨nofun, nofun, nofun, fun _ _ h => absurd h (by decide), fun _ _ _ => by decide⟩
    rcases List.mem_cons.mp hi with rfl | hi
    · exact Winst.sound_add rfl (by decide)
    rw [List.mem_singleton.mp hi]
    exact ⟨nofun, nofun, nofun, fun _ _ h => absurd h (by decide), fun _ _ _ => by decide⟩

theorem fourBytesWhole_staysInside : StaysInside fiveBytesWhole fourBytesWhole.inst := by
  refine staysInside_cons.mpr (.inr ⟨fun _ => by decide, ?_⟩)
  refine staysInside_cons.mpr (.inr ⟨fun h => absurd rfl h.2.1, ?_⟩)
  exact staysInside_cons.mpr (.inl ⟨⟨nofun, nofun, by decide⟩, .inr (by decide)⟩)

theorem mergeInputs_ne_fault_iff_fourBytes :
    (∀ depth, 5 < depth → mergeInputs depth fiveBytesWhole fourBytesWhole {} ≠ .fault) ∧
    ¬∀ depth, 5 < depth → mergeInputs depth fiveBytesWhole tenBytesWhole {} ≠ .fault := by
  refine ⟨(mergeInputs_ne_fault_iff fiveBytesWhole_wf fourBytesWhole_wf).mpr
    fourBytesWhole_staysInside, fun h => ?_⟩
  have hinside := (mergeInputs_ne_fault_iff fiveBytesWhole_wf tenBytesWhole_wf).mp h
  have hend := hinside [] _ [] rfl
    (fun j hj hr => by
      rw [List.nil_append, List.mem_singleton] at hj
      subst hj
      exact hr.2.elim (by decide) (by decide))
    ⟨nofun, nofun, by decide⟩
  exact absurd hend (by decide)

end Xdelta
