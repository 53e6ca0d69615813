import Xdelta.Merge.Whole

/-!
# Merging two deltas

`xd3_merge_inputs` applies one whole delta to another: every copy of the second from its
source is replaced by what the first has there. A piece that falls on a copy of the
first from its own target is looked up again, at a lower position.
-/
namespace Xdelta
open Chunked Delta

/-- The loop of `xd3_merge_find_position` between `low` and `high`. -/
def searchPosition (source : WholeState) (address : ℕ) :
    ℕ → ℕ → ℕ → Routine WholeState Stop ℕ
  | 0, _, _ => Routine.fault
  | fuel + 1, low, high =>
    if low = high then fail .internal "Internal error in merge"
    else
      let mid := low + (high - low) / 2
      match source.inst[mid]? with
      | none => Routine.fault
      | some inst =>
        if address < inst.position then searchPosition source address fuel low mid
        else if xoff.add inst.position inst.size ≤ address then
          searchPosition source address fuel (mid + 1) high
        else pure mid

def mergeFindPosition (source : WholeState) (address : ℕ) : Routine WholeState Stop ℕ :=
  if source.length ≤ address then fail .invalidInput "Invalid copy offset in merge"
  else searchPosition source address (source.inst.length + 1) 0 source.inst.length

/-- What one round of `xd3_merge_source_copy` outputs for `take` bytes at `offset` of the
instruction `sinst` of the source. A copy from the source's own target is given to
`recurse`, and the instruction allocated for the round is given up. -/
def mergePiece (source : WholeState) (recurse : Winst → Merge) (sinst : Winst)
    (offset take : ℕ) (iinst : Winst) : Merge := fun st =>
  match sinst.type with
  | .run =>
    match source.adds[sinst.addr]? with
    | none => .fault
    | some b => .ok () (st.push [b] ⟨.run, 0, take, st.adds.length, iinst.position⟩)
  | .add =>
    match slice source.adds (sinst.addr + offset) take with
    | none => .fault
    | some bytes => .ok () (st.push bytes ⟨.add, 0, take, st.adds.length, iinst.position⟩)
  | type =>
    if sinst.mode ≠ 0 then
      .ok () (st.push [] ⟨type, sinst.mode, take, xoff.add sinst.addr offset, iinst.position⟩)
    else recurse ⟨.cpy 0, iinst.mode, take, xoff.add sinst.addr offset, iinst.position⟩ st

/-- The loop of `xd3_merge_source_copy` over the instructions of the source from
`sinst_num` on. Running past the last of them is a fault, and so is a position beyond the
end of the instruction, where `sinst_left` would underflow. -/
def mergeSourceCopyLoop (source : WholeState) (recurse : Winst → Merge) :
    List Winst → Winst → Merge
  | [], iinst => fun st => if iinst.size = 0 then .ok () st else .fault
  | sinst :: sinsts, iinst => fun st =>
    if iinst.size = 0 then .ok () st
    else
      let offset := xoff.sub iinst.addr sinst.position
      if sinst.size < offset then .fault
      else
        let take := min iinst.size (sinst.size - offset)
        (mergePiece source recurse sinst offset take iinst st).andThen fun _ =>
        mergeSourceCopyLoop source recurse sinsts
          { iinst with
            position := xoff.add iinst.position take
            addr := xoff.add iinst.addr take
            size := iinst.size - take }

/-- `xd3_merge_source_copy`, to a given depth of its recursion. -/
def mergeSourceCopy (source : WholeState) : ℕ → Winst → Merge
  | 0, _ => Routine.fault
  | depth + 1, iinst => fun st =>
    (mergeFindPosition source iinst.addr st).andThen fun num =>
    mergeSourceCopyLoop source (mergeSourceCopy source depth) (source.inst.drop num) iinst

def mergeRun (target : WholeState) (iinst : Winst) : Merge := fun st =>
  match target.adds[iinst.addr]? with
  | none => .fault
  | some b =>
    .ok () { st.push [b] { iinst with addr := st.adds.length, position := st.length } with
      length := xoff.add st.length iinst.size }

def mergeAdd (target : WholeState) (iinst : Winst) : Merge := fun st =>
  match slice target.adds iinst.addr iinst.size with
  | none => .fault
  | some bytes =>
    .ok () { st.push bytes { iinst with addr := st.adds.length, position := st.length } with
      length := xoff.add st.length iinst.size }

def mergeTargetCopy (iinst : Winst) : Merge := fun st => .ok () (st.push [] iinst)

/-- One round of the loop of `xd3_merge_inputs`; the length is advanced after a copy,
whether it succeeded or not. -/
def mergeInst (depth : ℕ) (source input : WholeState) (iinst : Winst) : Merge :=
  match iinst.type with
  | .run => mergeRun input iinst
  | .add => mergeAdd input iinst
  | _ => fun st =>
    ((if iinst.mode = 0 then mergeTargetCopy iinst
      else if iinst.mode = vcdTarget then Routine.stop ⟨.invalidInput, none⟩
      else mergeSourceCopy source depth iinst) st).mapState fun st =>
        { st with length := xoff.add st.length iinst.size }

def mergeInsts (depth : ℕ) (source input : WholeState) : List Winst → Merge
  | [] => pure ()
  | iinst :: rest => fun st =>
    (mergeInst depth source input iinst st).andThen fun _ =>
    mergeInsts depth source input rest

def mergeInputs (depth : ℕ) (source input : WholeState) : Merge := fun st =>
  mergeInsts depth source input input.inst { st with wininfo := st.wininfo ++ input.wininfo }

section Find
variable {source : WholeState}

/-- The search ends at the instruction that contains the address. -/
theorem searchPosition_ok (hs : source.Wf) {pre post : List Winst} {i : Winst}
    (hinst : source.inst = pre ++ i :: post) {address : ℕ} (hlo : lengths pre ≤ address)
    (hhi : address < lengths pre + i.size) (st : WholeState) {fuel low high : ℕ}
    (hlow : low ≤ pre.length) (hhigh : pre.length < high) (hle : high ≤ source.inst.length)
    (hfuel : high - low < fuel) : searchPosition source address fuel low high st =
      .ok pre.length st := by
  induction fuel generalizing low high with
  | zero => omega
  | succ fuel ih =>
    have hne : low ≠ high := by omega
    have hmid : low + (high - low) / 2 < source.inst.length := by omega
    rw [searchPosition, if_neg hne, List.getElem?_eq_getElem hmid]
    dsimp only
    obtain ⟨pre', post', hsplit, hlen⟩ : ∃ pre' post', source.inst = pre' ++
        source.inst[low + (high - low) / 2] :: post' ∧ pre'.length = low + (high - low) / 2 :=
      ⟨source.inst.take (low + (high - low) / 2), source.inst.drop (low + (high - low) / 2 + 1),
        by rw [← List.drop_eq_getElem_cons hmid, List.take_append_drop],
        List.length_take_of_le hmid.le⟩
    generalize source.inst[low + (high - low) / 2] = inst at hsplit
    have hlaid := hs.laid
    rw [hsplit, laid_append] at hlaid
    have hposn : inst.position = lengths pre' := by
      have := hlaid.2.1
      omega
    have htotal : lengths pre' + inst.size ≤ source.length := by
      rw [hs.length_eq, hsplit, lengths_append, lengths_cons]
      omega
    have hbelow := hs.below
    rw [xoff.add_eq (by omega), hposn]
    -- the two ways of cutting the list, compared
    have hcmp : (pre'.length < pre.length → lengths pre' + inst.size ≤ lengths pre) ∧
        (pre.length < pre'.length → lengths pre + i.size ≤ lengths pre') ∧
        (pre.length = pre'.length → pre = pre' ∧ i = inst) := by
      have heq := hinst.symm.trans hsplit
      refine ⟨fun hlt => ?_, fun hlt => ?_, fun he => ?_⟩
      · have h1 : pre' ++ [inst] <+: pre ++ i :: post := by
          rw [heq]
          exact ⟨post', by rw [List.append_assoc]; rfl⟩
        obtain ⟨t, rfl⟩ := List.prefix_of_prefix_length_le h1 (List.prefix_append pre _)
          (by rw [List.length_append]; exact hlt)
        rw [lengths_append, lengths_append, lengths_cons, lengths_nil]
        omega
      · have h1 : pre ++ [i] <+: pre' ++ inst :: post' := by
          rw [← heq]
          exact ⟨post, by rw [List.append_assoc]; rfl⟩
        obtain ⟨t, rfl⟩ := List.prefix_of_prefix_length_le h1 (List.prefix_append pre' _)
          (by rw [List.length_append]; exact hlt)
        rw [lengths_append, lengths_append, lengths_cons, lengths_nil]
        omega
      · obtain ⟨h1, h2⟩ := List.append_inj heq he
        exact ⟨h1, (List.cons.inj h2).1⟩
    obtain ⟨hlt, hgt, heq⟩ := hcmp
    split
    · rename_i hbefore
      refine ih hlow ?_ (by omega) (by omega)
      by_contra hc
      rcases Nat.lt_or_eq_of_le (Nat.le_of_not_lt hc) with h | h
      · have := hlt (by omega)
        omega
      · obtain ⟨rfl, rfl⟩ := heq (by omega)
        omega
    · rename_i hafter
      split
      · rename_i hend
        refine ih ?_ hhigh hle (by omega)
        by_contra hc
        rcases Nat.lt_or_eq_of_le (Nat.le_of_lt_succ (Nat.lt_of_not_le hc)) with h | h
        · have := hgt (by omega)
          omega
        · obtain ⟨rfl, rfl⟩ := heq (by omega)
          omega
      · rename_i hin
        have : pre.length = pre'.length := by
          rcases Nat.lt_trichotomy pre.length pre'.length with h | h | h
          · have := hgt h
            omega
          · exact h
          · have := hlt h
            omega
        rw [← hlen, ← this]
        rfl

/-- Every position below the length lies in an instruction. -/
theorem exists_at (is : List Winst) {address : ℕ} (h : address < lengths is) :
    ∃ pre i post, is = pre ++ i :: post ∧ lengths pre ≤ address ∧
      address < lengths pre + i.size := by
  induction is generalizing address with
  | nil => exact absurd h (Nat.not_lt_zero _)
  | cons i is ih =>
    by_cases hlt : address < i.size
    · exact ⟨[], i, is, rfl, Nat.zero_le _, by rw [lengths_nil]; omega⟩
    · rw [lengths_cons] at h
      obtain ⟨pre, j, post, rfl, hlo, hhi⟩ := ih (by omega : address - i.size < lengths is)
      refine ⟨i :: pre, j, post, rfl, ?_, ?_⟩
      · rw [lengths_cons]
        omega
      · rw [lengths_cons]
        omega

theorem mergeFindPosition_ok (hs : source.Wf) {address : ℕ} (h : address < source.length)
    (st : WholeState) : ∃ pre i post, source.inst = pre ++ i :: post ∧ lengths pre ≤ address ∧
      address < lengths pre + i.size ∧
      mergeFindPosition source address st = .ok pre.length st := by
  obtain ⟨pre, i, post, hinst, hlo, hhi⟩ := exists_at source.inst (hs.length_eq ▸ h)
  refine ⟨pre, i, post, hinst, hlo, hhi, ?_⟩
  rw [mergeFindPosition, if_neg (Nat.not_le.mpr h)]
  have hlen : pre.length < source.inst.length := by
    rw [hinst, List.length_append, List.length_cons]
    omega
  exact searchPosition_ok hs hinst hlo hhi st (Nat.zero_le _) hlen le_rfl (by omega)

end Find

/-- `size` bytes of a word from position `addr` on. -/
def segment (word : List UInt8) (addr size : ℕ) : List UInt8 := (word.drop addr).take size

theorem segment_add (word : List UInt8) (addr m n : ℕ) :
    segment word addr (m + n) = segment word addr m ++ segment word (addr + m) n := by
  rw [segment, segment, segment, ← List.drop_drop, ← List.take_add]

/-- A stretch of the bytes that one instruction contributes. -/
theorem segment_of_append {word added : List UInt8} {p n off take : ℕ}
    (h : word.take (p + n) = word.take p ++ added) (hp : p ≤ word.length)
    (hle : off + take ≤ n) : segment word (p + off) take = segment added off take := by
  have hcut : segment word (p + off) take = segment (word.take (p + n)) (p + off) take := by
    rw [segment, segment, List.drop_take, List.take_take, Nat.min_eq_left (by omega)]
  have hlen : (word.take p).length = p := List.length_take_of_le hp
  rw [hcut, h, segment, segment, ← List.drop_drop, List.drop_append_of_le_length hlen.ge,
    List.drop_eq_nil_of_le hlen.le, List.nil_append]

/-- The output has grown by instructions that write the `size` bytes which the source has
at `addr`, and that are laid out from `position` on. -/
structure Copied (source : WholeState) (addr size position : ℕ) (st st' : WholeState) : Prop where
  grown : ∃ bytes new, st' = { st with adds := st.adds ++ bytes, inst := st.inst ++ new } ∧
    lengths new = size ∧ (position + size < xoff.modulus → Laid position new) ∧
    (∀ i ∈ new, i.Sound (st.adds ++ bytes)) ∧
    ((∀ i ∈ source.inst, i.size ≠ 0) → ∀ i ∈ new, i.size ≠ 0) ∧
    ∀ base word, source.interp base = some word → ∀ out,
      interpFrom (st.adds ++ bytes) base new out = some (out ++ segment word addr size)

theorem Copied.nil (source : WholeState) (addr position : ℕ) (st : WholeState) :
    Copied source addr 0 position st st := by
  refine ⟨[], [], ?_, rfl, fun _ => trivial, nofun, fun _ => nofun, fun base word _ out => ?_⟩
  · rw [List.append_nil, List.append_nil]
  · rw [interpFrom, segment, List.take_zero, List.append_nil]

theorem interpFrom_append_adds {adds : List UInt8} {is : List Winst}
    (h : ∀ i ∈ is, i.Sound adds) (more base out : List UInt8) :
    interpFrom (adds ++ more) base is out = interpFrom adds base is out := by
  induction is generalizing out with
  | nil => rfl
  | cons i is ih =>
    rw [interpFrom, interpFrom, (h i List.mem_cons_self).op_append]
    cases i.op adds with
    | none => rfl
    | some o =>
      rw [Option.bind_some, Option.bind_some]
      cases o.apply base out with
      | none => rfl
      | some mid => exact ih (fun j hj => h j (List.mem_cons_of_mem i hj)) mid

theorem Winst.Sound.append {adds : List UInt8} {i : Winst} (h : i.Sound adds)
    (more : List UInt8) : i.Sound (adds ++ more) where
  ne := h.ne
  run ht := by
    have := h.run ht
    rw [List.length_append]
    omega
  add ht := by
    have := h.add ht
    rw [List.length_append]
    omega
  target := h.target
  source := h.source

theorem Copied.append {source : WholeState} {addr position m n : ℕ} {st st' st'' : WholeState}
    (h1 : Copied source addr m position st st')
    (h2 : Copied source (addr + m) n (position + m) st' st'') :
    Copied source addr (m + n) position st st'' := by
  obtain ⟨bytes, new, rfl, hlen, hlaid, hsound, hpos, hmean⟩ := h1
  obtain ⟨bytes', new', rfl, hlen', hlaid', hsound', hpos', hmean'⟩ := h2
  refine ⟨bytes ++ bytes', new ++ new', ?_, ?_, fun hlt => ?_, fun i hi => ?_, fun hz i hi => ?_,
    fun base word hw out => ?_⟩
  · simp only [List.append_assoc]
  · rw [lengths_append, hlen, hlen']
  · rw [laid_append, hlen]
    exact ⟨hlaid (by omega), hlaid' (by omega)⟩
  · rw [← List.append_assoc]
    rcases List.mem_append.mp hi with h | h
    · exact (hsound i h).append _
    · exact hsound' i h
  · rcases List.mem_append.mp hi with h | h
    · exact hpos hz i h
    · exact hpos' hz i h
  · rw [← List.append_assoc, interpFrom_append, interpFrom_append_adds hsound, hmean base word hw,
      Option.bind_some]
    exact (hmean' base word hw _).trans (by rw [segment_add, List.append_assoc])

theorem Copied.push {source : WholeState} {addr size position : ℕ} {st : WholeState}
    {bytes : List UInt8} {i : Winst} (hsize : i.size = size) (hpos : i.position = position)
    (hne : (∀ i ∈ source.inst, i.size ≠ 0) → size ≠ 0) (hsound : i.Sound (st.adds ++ bytes))
    (hmean : ∀ base word, source.interp base = some word → ∃ o, i.op (st.adds ++ bytes) = some o ∧
      ∀ out, o.apply base out = some (out ++ segment word addr size)) :
    Copied source addr size position st (st.push bytes i) := by
  refine ⟨bytes, [i], rfl, ?_, fun _ => ⟨hpos, trivial⟩, fun j hj => ?_, fun hz j hj => ?_,
    fun base word hw out => ?_⟩
  · rw [lengths_cons, lengths_nil, hsize, Nat.add_zero]
  · rw [List.mem_singleton.mp hj]
    exact hsound
  · rw [List.mem_singleton.mp hj, hsize]
    exact hne hz
  · obtain ⟨o, ho, happ⟩ := hmean base word hw
    rw [interpFrom, ho, Option.bind_some, happ]
    rfl

section Copy
variable {source : WholeState}

/-- Copies that end below `bound` are resolved by `recurse`. -/
def Resolves (source : WholeState) (bound : ℕ) (recurse : Winst → Merge) : Prop :=
  ∀ (j : Winst) (st : WholeState), j.addr < source.length → j.addr + j.size ≤ source.length →
    j.addr + j.size < bound →
    ∃ st', recurse j st = .ok () st' ∧ Copied source j.addr j.size j.position st st'

private theorem exists_segment {base word : List UInt8} {pre post : List Winst}
    {sinst : Winst} (hinst : source.inst = pre ++ sinst :: post)
    (hw : source.interp base = some word) : ∃ o added, sinst.op source.adds = some o ∧
      o.apply base (word.take (lengths pre)) = some (word.take (lengths pre) ++ added) ∧
      word.take (lengths pre + sinst.size) = word.take (lengths pre) ++ added ∧
      added.length = sinst.size ∧ lengths pre + sinst.size ≤ word.length := by
  have hlen := length_interpFrom hw
  rw [hinst, List.length_nil, Nat.zero_add, lengths_append, lengths_cons] at hlen
  rw [WholeState.interp, hinst] at hw
  obtain ⟨o, ho, happ⟩ := interpFrom_split hw
  obtain ⟨added, hadded, hadd⟩ := Op.apply_eq_some happ
  exact ⟨o, added, ho, hadded ▸ happ, hadded, hadd.trans (Winst.op_size ho), by omega⟩

section Piece
variable (hs : source.Wf) {pre post : List Winst} {sinst : Winst}
  (hinst : source.inst = pre ++ sinst :: post) {recurse : Winst → Merge} {off take : ℕ}
  (hle : off + take ≤ sinst.size)
  (htake : (∀ i ∈ source.inst, i.size ≠ 0) → take ≠ 0) (iinst : Winst) (st : WholeState)
include hs hinst hle htake

private theorem mergePiece_run (ht : sinst.type = .run) :
    ∃ st', mergePiece source recurse sinst off take iinst st = .ok () st' ∧
      Copied source (lengths pre + off) take iinst.position st st' := by
  have hsound : sinst.Sound source.adds := hs.sound sinst (by rw [hinst]; simp)
  have hlt := hsound.run ht
  unfold mergePiece
  rw [ht]
  dsimp only
  rw [List.getElem?_eq_getElem hlt]
  refine ⟨_, rfl, Copied.push rfl rfl htake ⟨nofun, fun _ => ?_, nofun, nofun, nofun⟩ ?_⟩
  · simp
  · intro base word hw
    obtain ⟨o, added, ho, happ, hadded, -, hlen⟩ := exists_segment hinst hw
    rw [Winst.op_run ht, List.getElem?_eq_getElem hlt] at ho
    cases ho
    have hrep : added = List.replicate sinst.size source.adds[sinst.addr] :=
      (List.append_cancel_left (Option.some.inj happ)).symm
    refine ⟨.run take source.adds[sinst.addr], ?_, fun out => ?_⟩
    · rw [Winst.op_run rfl, List.getElem?_append_right (Nat.le_refl _), Nat.sub_self]
      rfl
    · rw [segment_of_append hadded (by omega) hle, hrep, segment, List.drop_replicate,
        List.take_replicate, Nat.min_eq_left (by omega)]
      rfl

private theorem mergePiece_add (ht : sinst.type = .add) :
    ∃ st', mergePiece source recurse sinst off take iinst st = .ok () st' ∧
      Copied source (lengths pre + off) take iinst.position st st' := by
  have hsound : sinst.Sound source.adds := hs.sound sinst (by rw [hinst]; simp)
  have hlt := hsound.add ht
  have hslice : slice source.adds (sinst.addr + off) take =
      some (segment source.adds (sinst.addr + off) take) := by
    unfold slice
    split
    · rename_i h0
      rw [h0, segment, List.take_zero]
    · rw [if_pos (by omega)]
      rfl
  have hlen : (segment source.adds (sinst.addr + off) take).length = take :=
    List.length_take_of_le (by rw [List.length_drop]; omega)
  unfold mergePiece
  rw [ht]
  dsimp only
  rw [hslice]
  refine ⟨_, rfl, Copied.push rfl rfl htake ⟨nofun, nofun, fun _ => ?_, nofun, nofun⟩ ?_⟩
  · rw [List.length_append, hlen]
  · intro base word hw
    obtain ⟨o, added, ho, happ, hadded, -, hlen'⟩ := exists_segment hinst hw
    rw [Winst.op_add ht, if_pos hlt] at ho
    cases ho
    have hadd : added = (source.adds.drop sinst.addr).take sinst.size :=
      (List.append_cancel_left (Option.some.inj happ)).symm
    refine ⟨.add (segment source.adds (sinst.addr + off) take), ?_, fun out => ?_⟩
    · rw [Winst.op_add rfl, if_pos (by rw [List.length_append, hlen]), List.drop_left,
        List.take_of_length_le hlen.le]
    · rw [segment_of_append hadded (by omega) hle, hadd, segment, segment, List.drop_take,
        List.take_take, Nat.min_eq_left (by omega), List.drop_drop]
      rfl

private theorem mergePiece_source {m : ℕ} (ht : sinst.type = .cpy m) (hmode : sinst.mode ≠ 0) :
    ∃ st', mergePiece source recurse sinst off take iinst st = .ok () st' ∧
      Copied source (lengths pre + off) take iinst.position st st' := by
  have hsound : sinst.Sound source.adds := hs.sound sinst (by rw [hinst]; simp)
  have hlt := hsound.source m ht hmode
  have hadd : xoff.add sinst.addr off = sinst.addr + off := xoff.add_eq (by omega)
  unfold mergePiece
  rw [ht]
  dsimp only
  rw [if_pos hmode]
  refine ⟨_, rfl, Copied.push rfl rfl htake ⟨nofun, nofun, nofun, fun _ _ h => absurd h hmode,
    fun _ _ _ => ?_⟩ ?_⟩
  · dsimp only
    rw [hadd]
    omega
  · intro base word hw
    obtain ⟨o, added, ho, happ, hadded, -, hlen⟩ := exists_segment hinst hw
    rw [Winst.op_cpy ht, if_neg hmode] at ho
    cases ho
    refine ⟨.source (sinst.addr + off) take, ?_, fun out => ?_⟩
    · rw [Winst.op_cpy rfl, hadd]
      exact congrArg some (if_neg hmode)
    · rw [Op.apply] at happ
      split at happ
      · rename_i hbase
        have hcopy : added = (base.drop sinst.addr).take sinst.size :=
          (List.append_cancel_left (Option.some.inj happ)).symm
        rw [Op.apply_source_of_le (by omega), segment_of_append hadded (by omega) hle, hcopy,
          segment, List.drop_take, List.take_take, Nat.min_eq_left (by omega), List.drop_drop]
      · cases happ

end Piece

/-- What an instruction copies from its own target is a lower part of it. -/
private theorem segment_target {word : List UInt8} {p addr size off take : ℕ}
    (hword : copyOverlap (word.take p) addr size = some (word.take (p + size)))
    (hbefore : addr < p) (hle : off + take ≤ size) (hlen : p + size ≤ word.length) :
    segment word (addr + off) take = segment word (p + off) take := by
  have hprelen : (word.take p).length = p := List.length_take_of_le (by omega)
  apply List.ext_getElem?
  intro k
  rw [segment, segment, List.getElem?_take, List.getElem?_take, List.getElem?_drop,
    List.getElem?_drop]
  split
  · rename_i hk
    have := copyOverlap_getElem hword (k := off + k) (by omega)
    rw [hprelen, List.getElem?_take_of_lt (by omega), List.getElem?_take_of_lt (by omega)] at this
    rw [Nat.add_assoc, Nat.add_assoc, this]
  · rfl

/-- The source's own target is looked up again, at a lower position. -/
private theorem mergePiece_target (hs : source.Wf) {pre post : List Winst} {sinst : Winst}
    (hinst : source.inst = pre ++ sinst :: post) {recurse : Winst → Merge} {bound : ℕ}
    (hrec : Resolves source bound recurse) {off take : ℕ} (hle : off + take ≤ sinst.size)
    (hbound : lengths pre + off + take ≤ bound) (iinst : Winst) (st : WholeState) {m : ℕ}
    (ht : sinst.type = .cpy m) (hmode : sinst.mode = 0) :
    ∃ st', mergePiece source recurse sinst off take iinst st = .ok () st' ∧
      Copied source (lengths pre + off) take iinst.position st st' := by
  have hsound : sinst.Sound source.adds := hs.sound sinst (by rw [hinst]; simp)
  have htotal : lengths pre + sinst.size ≤ source.length := by
    rw [hs.length_eq, hinst, lengths_append, lengths_cons]
    omega
  have hbelow := hs.below
  have hposn : sinst.position = lengths pre := by
    have hlaid := hs.laid
    rw [hinst, laid_append] at hlaid
    have := hlaid.2.1
    omega
  have hbefore := hsound.target m ht hmode
  have hadd : xoff.add sinst.addr off = sinst.addr + off := xoff.add_eq (by omega)
  unfold mergePiece
  rw [ht]
  dsimp only
  rw [if_neg (not_not_intro hmode)]
  obtain ⟨st', hok, hcopied⟩ := hrec ⟨.cpy 0, iinst.mode, take, xoff.add sinst.addr off,
    iinst.position⟩ st (by dsimp only; omega) (by dsimp only; omega) (by dsimp only; omega)
  refine ⟨st', hok, ?_⟩
  obtain ⟨bytes, new, rfl, hl, hlaid, hsnd, hpos, hmean⟩ := hcopied
  refine ⟨bytes, new, rfl, hl, hlaid, hsnd, hpos, fun base word hw out => ?_⟩
  obtain ⟨o, added, ho, happ, hadded, -, hlen⟩ := exists_segment hinst hw
  rw [Winst.op_cpy ht, if_pos hmode] at ho
  cases ho
  have hword : copyOverlap (word.take (lengths pre)) sinst.addr sinst.size =
      some (word.take (lengths pre + sinst.size)) := by
    rw [hadded]
    exact happ
  rw [hmean base word hw out]
  dsimp only
  rw [hadd, segment_target hword (by omega) hle hlen]

theorem mergePiece_ok (hs : source.Wf) {pre post : List Winst} {sinst : Winst}
    (hinst : source.inst = pre ++ sinst :: post) {recurse : Winst → Merge} {bound : ℕ}
    (hrec : Resolves source bound recurse) {off take : ℕ} (hle : off + take ≤ sinst.size)
    (htake : (∀ i ∈ source.inst, i.size ≠ 0) → take ≠ 0)
    (hbound : lengths pre + off + take ≤ bound) (iinst : Winst) (st : WholeState) :
    ∃ st', mergePiece source recurse sinst off take iinst st = .ok () st' ∧
      Copied source (lengths pre + off) take iinst.position st st' := by
  cases ht : sinst.type with
  | noop => exact absurd ht (hs.sound sinst (by rw [hinst]; simp)).ne
  | run => exact mergePiece_run hs hinst hle htake iinst st ht
  | add => exact mergePiece_add hs hinst hle htake iinst st ht
  | cpy m =>
    by_cases hmode : sinst.mode = 0
    · exact mergePiece_target hs hinst hrec hle hbound iinst st ht hmode
    · exact mergePiece_source hs hinst hle htake iinst st ht hmode

end Copy

end Xdelta
