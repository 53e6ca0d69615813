import Xdelta.Merge.Rewrite
import Mathlib.Algebra.Order.BigOperators.Group.List

/-!
# Merging a chain of deltas

`main_merge_arguments` applies each delta to what the deltas before it have been merged to, and
`main_merge_output` does so with the last before it writes the result.
-/
namespace Xdelta
open Chunked Delta

/-- `xd3_merge_input_output`: `input`, applied to `source`, is returned. The merge is done in a
stream of its own, so that an error leaves nothing behind. -/
def mergeInputOutput {σ : Type} (depth : ℕ) (source input : WholeState) :
    Routine σ Stop WholeState := fun s =>
  match mergeInputs depth source input {} with
  | .ok _ merged => .ok merged s
  | .starved _ => .starved s
  | .stop e _ => .stop e s
  | .fault => .fault

/-- The loop of `main_merge_arguments` over the deltas it has read; `merge_input` is not set before
the first. -/
def mergeArguments {σ : Type} (depth : ℕ) :
    Option WholeState → List WholeState → Routine σ Stop (Option WholeState)
  | mergeInput, [] => pure mergeInput
  | none, delta :: deltas => mergeArguments depth (some delta) deltas
  | some source, delta :: deltas => fun s =>
    (mergeInputOutput depth source delta s).andThen fun merged =>
    mergeArguments depth (some merged) deltas

/-- The merge command, once the deltas have been read: `merges` are those given by `-m`. -/
def mainMerge (depth : ℕ) (s : MergeSettings) (header : Main.MergeHeader)
    (merges : List WholeState) (delta : WholeState) : Outcome MergeOutput Stop (List UInt8) :=
  (mergeArguments depth none merges ⟨recodeStream none, s.bdata, 0, 0, none⟩).andThen
    fun mergeStream w =>
  (match mergeStream with
    | none => Outcome.ok delta w
    | some source => mergeInputOutput depth source delta w).andThen fun whole _ =>
  mainMergeOutput s header whole

def Winst.own (i : Winst) : ℕ :=
  match i.type with
  | .run => 1
  | .add => i.size
  | _ => 0

/-- What has been output has no bytes that no instruction owns, and copies from the target only
where they are among `targets`. -/
structure WholeState.Drawn (targets : List Winst) (st : WholeState) : Prop where
  own : st.adds.length = (st.inst.map Winst.own).sum
  target : ∀ i ∈ st.inst, ∀ m, i.type = .cpy m → i.mode = 0 → i ∈ targets

section Drawn
variable {targets : List Winst} {st : WholeState} {source input : WholeState}

theorem WholeState.Drawn.push (h : st.Drawn targets) {bytes : List UInt8} {i : Winst}
    (hlen : bytes.length = i.own) (htarget : ∀ m, i.type = .cpy m → i.mode = 0 → i ∈ targets) :
    (st.push bytes i).Drawn targets where
  own := by
    change (st.adds ++ bytes).length = ((st.inst ++ [i]).map Winst.own).sum
    rw [List.length_append, List.map_append, List.sum_append, h.own, hlen]
    rfl
  target := List.forall_mem_append.mpr ⟨h.target, List.forall_mem_singleton.mpr htarget⟩

theorem length_slice {mem bytes : List UInt8} {pos len : ℕ} (h : slice mem pos len = some bytes) :
    bytes.length = len := by
  unfold slice at h
  split at h
  · rename_i hzero
    cases h
    exact hzero.symm
  · split at h
    · cases h
      exact List.length_take_of_le (by rw [List.length_drop]; omega)
    · cases h

theorem mergePiece_drawn {recurse : Winst → Merge}
    (hrec : ∀ j st, st.Drawn targets → (recurse j st).Keeps (WholeState.Drawn targets))
    (sinst : Winst) (offset take : ℕ) (iinst : Winst) (h : st.Drawn targets) :
    (mergePiece source recurse sinst offset take iinst st).Keeps (WholeState.Drawn targets) := by
  have hcopy : ∀ type, (type = .noop ∨ ∃ m, type = .cpy m) →
      Outcome.Keeps (WholeState.Drawn targets) (if sinst.mode ≠ 0 then
        .ok () (st.push [] ⟨type, sinst.mode, take, xoff.add sinst.addr offset, iinst.position⟩)
      else recurse ⟨.cpy 0, iinst.mode, take, xoff.add sinst.addr offset, iinst.position⟩ st) := by
    intro type htype
    split
    · rename_i hmode
      refine h.push ?_ fun m _ hzero => absurd hzero hmode
      rcases htype with rfl | ⟨m, rfl⟩ <;> rfl
    · exact hrec _ _ h
  unfold mergePiece
  cases ht : sinst.type with
  | run =>
    dsimp only
    split
    · trivial
    · exact h.push rfl fun m hm => RType.noConfusion hm
  | add =>
    dsimp only
    split
    · trivial
    · rename_i bytes hbytes
      exact h.push (length_slice hbytes) fun m hm => RType.noConfusion hm
  | noop => exact hcopy _ (.inl rfl)
  | cpy m => exact hcopy _ (.inr ⟨m, rfl⟩)

theorem mergeSourceCopyLoop_drawn {recurse : Winst → Merge}
    (hrec : ∀ j st, st.Drawn targets → (recurse j st).Keeps (WholeState.Drawn targets))
    (sinsts : List Winst) (iinst : Winst) (h : st.Drawn targets) :
    (mergeSourceCopyLoop source recurse sinsts iinst st).Keeps (WholeState.Drawn targets) := by
  induction sinsts generalizing iinst st with
  | nil =>
    unfold mergeSourceCopyLoop
    split
    · exact h
    · trivial
  | cons sinst sinsts ih =>
    unfold mergeSourceCopyLoop
    split
    · exact h
    · dsimp only
      split
      · trivial
      · exact (mergePiece_drawn hrec sinst _ _ iinst h).andThen fun _ _ h => ih _ h

theorem searchPosition_drawn (address : ℕ) (h : st.Drawn targets) (fuel low high : ℕ) :
    (searchPosition source address fuel low high st).Keeps (WholeState.Drawn targets) := by
  induction fuel generalizing low high with
  | zero => trivial
  | succ fuel ih =>
    unfold searchPosition
    split
    · exact h
    · dsimp only
      cases source.inst[low + (high - low) / 2]? with
      | none => trivial
      | some inst =>
        dsimp only
        split
        · exact ih _ _
        · split
          · exact ih _ _
          · exact h

theorem mergeSourceCopy_drawn (depth : ℕ) (iinst : Winst) (h : st.Drawn targets) :
    (mergeSourceCopy source depth iinst st).Keeps (WholeState.Drawn targets) := by
  induction depth generalizing iinst st with
  | zero => trivial
  | succ depth ih =>
    unfold mergeSourceCopy
    have hfind : (mergeFindPosition source iinst.addr st).Keeps (WholeState.Drawn targets) := by
      unfold mergeFindPosition
      split
      · exact h
      · exact searchPosition_drawn _ h _ _ _
    exact hfind.andThen fun _ _ h => mergeSourceCopyLoop_drawn (fun j _ h => ih j h) _ _ h

/-- One instruction of the input; only it may be a new copy from the target. -/
theorem mergeInst_drawn {depth : ℕ} {i : Winst} (hi : i ∈ targets) (h : st.Drawn targets) :
    (mergeInst depth source input i st).Keeps (WholeState.Drawn targets) := by
  have hlength : ∀ {st : WholeState} (n : ℕ), st.Drawn targets →
      ({ st with length := n } : WholeState).Drawn targets := fun _ h => ⟨h.own, h.target⟩
  by_cases hrun : i.type = .run
  · rw [mergeInst_run hrun]
    unfold mergeRun
    split
    · trivial
    · refine hlength _ (h.push ?_ fun m hm => RType.noConfusion (hrun.symm.trans hm))
      unfold Winst.own
      dsimp only
      rw [hrun]
      rfl
  · by_cases hadd : i.type = .add
    · rw [mergeInst_add hadd]
      unfold mergeAdd
      split
      · trivial
      · rename_i bytes hbytes
        refine hlength _ (h.push ?_ fun m hm => RType.noConfusion (hadd.symm.trans hm))
        rw [length_slice hbytes]
        unfold Winst.own
        dsimp only
        rw [hadd]
    · by_cases hmode : i.mode = 0
      · rw [mergeInst_target hrun hadd hmode]
        refine hlength _ (h.push ?_ fun _ _ _ => hi)
        unfold Winst.own
        cases ht : i.type with
        | run => exact absurd ht hrun
        | add => exact absurd ht hadd
        | noop => rfl
        | cpy m => rfl
      · by_cases hkind : i.mode = vcdTarget
        · rw [mergeInst_vcdTarget ⟨hrun, hadd, hmode⟩ hkind]
          exact hlength _ h
        · rw [mergeInst_source ⟨hrun, hadd, hmode⟩ hkind]
          exact ((mergeSourceCopy_drawn depth i h).mono (fun _ _ h => ⟨h.own, h.target⟩)
            (fun _ h => ⟨h.own, h.target⟩) (fun _ _ h => ⟨h.own, h.target⟩)).mapState

theorem mergeInsts_drawn {depth : ℕ} {is : List Winst} (his : ∀ i ∈ is, i ∈ targets)
    (h : st.Drawn targets) :
    (mergeInsts depth source input is st).Keeps (WholeState.Drawn targets) := by
  induction is generalizing st with
  | nil => exact h
  | cons i is ih =>
    exact (mergeInst_drawn (his i List.mem_cons_self) h).andThen fun _ _ h =>
      ih (fun j hj => his j (.tail _ hj)) h

end Drawn

def applyDeltas (base : List UInt8) (deltas : List WholeState) : Option (List UInt8) :=
  deltas.foldlM (fun file delta => delta.interp file) base

/-- A delta without windows whose segment is of the target file. -/
structure WholeState.Mergeable (s : WholeState) : Prop extends s.Proper where
  modes : ∀ i ∈ s.inst, i.FromSource → i.mode ≠ vcdTarget

/-- A delta of which all windows have been read. -/
structure WholeState.Complete (s : WholeState) : Prop extends s.Mergeable, s.Windowed where
  windows : s.wininfo ≠ []
  tiles : Tiles 0 s.wininfo s.length
  own : s.adds.length ≤ s.length

/-- What the deltas up to `input` have been merged to. -/
structure WholeState.Result (base word : List UInt8) (input whole : WholeState) : Prop
    extends whole.Proper where
  interp_eq : whole.interp base = some word
  keeps : whole.length = input.length ∧ whole.wininfo = input.wininfo
  own : whole.adds.length ≤ whole.length
  target : ∀ i ∈ whole.inst, ∀ m, i.type = .cpy m → i.mode = 0 → i ∈ input.inst

section Chain
variable {base mid word : List UInt8} {source input whole : WholeState}

/-- A copy that can be carried out ends inside the source file. -/
theorem inside_of_interp (hi : input.Proper) (h : input.interp mid = some word) {i : Winst}
    (hmem : i ∈ input.inst) (hf : i.FromSource) : i.addr + i.size ≤ mid.length := by
  obtain ⟨pre, post, hsplit⟩ := List.append_of_mem hmem
  unfold WholeState.interp at h
  rw [hsplit] at h
  obtain ⟨o, ho, happ⟩ := interpFrom_split h
  cases ht : i.type with
  | noop => exact absurd ht (hi.sound i hmem).ne
  | run => exact absurd ht hf.1
  | add => exact absurd ht hf.2.1
  | cpy m =>
    rw [Winst.op_cpy ht, if_neg hf.2.2] at ho
    cases ho
    by_contra hout
    rw [Op.apply_source_of_lt (hi.pos i hmem) (Nat.lt_of_not_le hout)] at happ
    cases happ

theorem Winst.own_le {i : Winst} (h : i.size ≠ 0) : i.own ≤ i.size := by
  unfold own
  split <;> omega

theorem own_le_lengths {is : List Winst} (h : ∀ i ∈ is, i.size ≠ 0) :
    (is.map Winst.own).sum ≤ lengths is :=
  List.sum_le_sum fun i hi => Winst.own_le (h i hi)

theorem mergeInputOutput_ok {σ : Type} (hs : source.Proper) (hi : input.Mergeable)
    (hmid : source.interp base = some mid) (hword : input.interp mid = some word) :
    ∃ merged, input.Result base word merged ∧ ∀ depth, source.length < depth → ∀ s : σ,
      mergeInputOutput depth source input s = .ok merged s := by
  have hlen : mid.length = source.length := by
    rw [length_interpFrom hmid, hs.length_eq, List.length_nil, Nat.zero_add]
  have hstart : Merged source input [] { wininfo := input.wininfo } :=
    ⟨trivial, rfl, rfl, fun _ h => absurd h List.not_mem_nil,
      fun _ h => absurd h List.not_mem_nil, rfl, fun _ _ _ => rfl⟩
  have hnone : ({ wininfo := input.wininfo } : WholeState).Drawn input.inst :=
    ⟨rfl, fun _ h => absurd h List.not_mem_nil⟩
  obtain ⟨merged, hok, h⟩ := mergeInsts_ok hs (Nat.lt_succ_self _) hi.toProper
    (fun i hmem hf => ⟨hi.modes i hmem hf,
      (inside_of_interp hi.toProper hword hmem hf).trans hlen.le⟩) rfl hstart
  have hdrawn : (Outcome.ok () merged : Outcome WholeState Stop Unit).Keeps
      (WholeState.Drawn input.inst) :=
    hok ▸ mergeInsts_drawn (fun _ hi => hi) hnone
  have hsize : merged.length = lengths merged.inst := h.length_eq.trans h.lengths_eq.symm
  have hsame : merged.length = input.length := h.length_eq.trans hi.length_eq.symm
  refine ⟨merged, ⟨⟨⟨h.laid, hsize, hsame ▸ hi.below, h.sound⟩, h.pos⟩,
    (h.meaning base mid hmid).trans hword, ⟨hsame, h.wininfo⟩, ?_, hdrawn.target⟩,
    fun depth hdepth s => ?_⟩
  · rw [hdrawn.own, hsize]
    exact own_le_lengths h.pos
  · have hne : mergeInsts (source.length + 1) source input input.inst
        { wininfo := input.wininfo } ≠ .fault := by
      rw [hok]
      exact fun h => by cases h
    have hmerge : mergeInputs depth source input {} = .ok () merged :=
      (mergeInsts_mono hdepth hne).trans hok
    unfold mergeInputOutput
    rw [hmerge]

/-- The deltas given as arguments; the result has the length of the last. -/
theorem mergeArguments_ok {σ : Type} {deltas : List WholeState} (hs : source.Proper)
    (hdeltas : ∀ d ∈ deltas, d.Mergeable) (hmid : source.interp base = some mid)
    (hword : applyDeltas mid deltas = some word) :
    ∃ merged, merged.Proper ∧ merged.interp base = some word ∧
      (∃ d ∈ source :: deltas, merged.length = d.length) ∧
      ∀ depth, (∀ d ∈ source :: deltas, d.length < depth) → ∀ s : σ,
        mergeArguments depth (some source) deltas s = .ok (some merged) s := by
  induction deltas generalizing source mid with
  | nil =>
    cases hword
    exact ⟨source, hs, hmid, ⟨source, List.mem_cons_self, rfl⟩, fun _ _ _ => rfl⟩
  | cons delta deltas ih =>
    unfold applyDeltas at hword
    rw [List.foldlM_cons] at hword
    obtain ⟨file, hfile, hword⟩ := Option.bind_eq_some_iff.mp hword
    have hdelta := hdeltas delta List.mem_cons_self
    obtain ⟨merged, hres, hmerge⟩ := mergeInputOutput_ok (σ := σ) hs hdelta hmid hfile
    obtain ⟨last, hproper, hinterp, ⟨d, hd, hlen⟩, hlast⟩ := ih hres.toProper
      (fun d hd => hdeltas d (.tail _ hd)) hres.interp_eq hword
    refine ⟨last, hproper, hinterp, ?_, fun depth hdepth s => ?_⟩
    · rcases List.mem_cons.mp hd with rfl | hd
      · exact ⟨delta, .tail _ List.mem_cons_self, hlen.trans hres.keeps.1⟩
      · exact ⟨d, .tail _ (.tail _ hd), hlen⟩
    · have hlater : ∀ d ∈ merged :: deltas, d.length < depth := List.forall_mem_cons.mpr
        ⟨hres.keeps.1 ▸ hdepth delta (.tail _ List.mem_cons_self),
          fun d hd => hdepth d (.tail _ (.tail _ hd))⟩
      unfold mergeArguments
      rw [hmerge depth (hdepth source List.mem_cons_self), Outcome.andThen_ok]
      exact hlast depth hlater s

/-- What has been merged is cut into the windows of the last delta. -/
theorem WholeState.Result.writable {s : MergeSettings} (h : input.Result base word whole)
    (hi : input.Complete) (hroom : base.length + hardMaxWinsize < usize.modulus)
    (hsums : s.checked = true → ∀ info ∈ input.wininfo,
      info.adler32 = adler32 1 (segment word info.offset info.length)) :
    whole.Writable s base word where
  toProper := h.toProper
  hard := h.keeps.2 ▸ hi.hard
  stays i hmem m ht hm := h.keeps.2 ▸ hi.stays i (h.target i hmem m ht hm) m ht hm
  windows := h.keeps.2 ▸ hi.windows
  tiles := h.keeps.1 ▸ h.keeps.2 ▸ hi.tiles
  denotes := h.interp_eq
  adds := h.own.trans_lt h.below
  room := hroom
  sums := h.keeps.2 ▸ hsums

theorem mainMerge_ok {merges : List WholeState} (hmerges : ∀ d ∈ merges, d.Mergeable)
    (hi : input.Complete) (hword : applyDeltas base (merges ++ [input]) = some word) :
    ∃ whole : WholeState, input.Result base word whole ∧
      ∀ depth, (∀ d ∈ merges, d.length < depth) → ∀ s header,
        mainMerge depth s header merges input = mainMergeOutput s header whole := by
  unfold applyDeltas at hword
  rw [List.foldlM_append] at hword
  obtain ⟨mid, hmid, hword⟩ := Option.bind_eq_some_iff.mp hword
  have hlast : input.interp mid = some word := by
    rw [List.foldlM_cons] at hword
    obtain ⟨file, hfile, hword⟩ := Option.bind_eq_some_iff.mp hword
    cases hword
    exact hfile
  cases merges with
  | nil =>
    cases hmid
    exact ⟨input, ⟨hi.toProper, hlast, ⟨rfl, rfl⟩, hi.own, fun i hmem _ _ _ => hmem⟩,
      fun _ _ _ _ => rfl⟩
  | cons first rest =>
    rw [List.foldlM_cons] at hmid
    obtain ⟨file, hfile, hmid⟩ := Option.bind_eq_some_iff.mp hmid
    obtain ⟨merged, hproper, hinterp, ⟨d, hd, hlen⟩, hargs⟩ := mergeArguments_ok
      (σ := MergeOutput) (hmerges first List.mem_cons_self).toProper
      (fun d hd => hmerges d (.tail _ hd)) hfile hmid
    obtain ⟨whole, hres, hmerge⟩ := mergeInputOutput_ok (σ := MergeOutput) hproper
      hi.toMergeable hinterp hlast
    refine ⟨whole, hres, fun depth hdepth s header => ?_⟩
    unfold mainMerge mergeArguments
    rw [hargs depth hdepth, Outcome.andThen_ok]
    dsimp only
    rw [hmerge depth (hlen ▸ hdepth d hd), Outcome.andThen_ok]

/-- Deltas merged to one that is written do what the deltas do one after the other: decoded
against the base file, in any chunks, it gives the file that the last of them makes. -/
theorem mainMerge_decodes {σ : Type} {env : Env σ} {app : AppSource} {s : MergeSettings}
    (hsec : ∀ id, env.secondary id = none) (hd : Delivery base env.getblk app)
    (hnone : ∀ ret, app ret none = none) {flags : Flags} (hflags : flags.Emits) {src : Source}
    (hsrc : src.Faithful base) {merges : List WholeState} (hmerges : ∀ d ∈ merges, d.Mergeable)
    (hi : input.Complete) (hword : applyDeltas base (merges ++ [input]) = some word)
    (hroom : base.length + hardMaxWinsize < usize.modulus)
    (hsums : s.checked = true → ∀ info ∈ input.wininfo,
      info.adler32 = adler32 1 (segment word info.offset info.length))
    {header : Main.MergeHeader} (hheader : header ≠ .refuse)
    (hfits : (mergedFileHdr header).Fits) :
    ∃ out w' windows ews, (∀ depth, (∀ d ∈ merges, d.length < depth) →
        mainMerge depth s header merges input = .ok out w') ∧
      StandFor base windows ews ∧ windows.flatten = word ∧
      ∀ cs : List (List UInt8), cs.flatten = out → ∃ tr : List (Event σ),
        (decodeDriver env app).Run (initStream flags (some src)) cs tr ∧
        tr.filterMap Event.seen = sessionShown windows ews ++ [.closed none] := by
  obtain ⟨whole, hres, hmerge⟩ := mainMerge_ok hmerges hi hword
  obtain ⟨windows, ews, w', hok, hstand, hne, hflat, hlimits⟩ :=
    mainMergeOutput_standFor (hres.writable hi hroom hsums) hheader hfits
  refine ⟨_, w', windows, ews, fun depth hdepth => (hmerge depth hdepth s header).trans hok, hstand,
    hflat, fun cs hcs => ?_⟩
  have hplain : (mergedFileHdr header).secId = none := by
    cases header <;> rfl
  exact hstand.decodes hsec hd hnone hflags
    (fun t ht => by
      obtain rfl := Option.some.inj ht
      exact hsrc) hfits hplain hne (fun _ _ _ => rfl) hlimits hcs

end Chain

theorem spanning_mergeable : spanning.Mergeable where
  toProper := spanning_writable.toProper
  modes := List.forall_mem_cons.mpr ⟨fun h => absurd rfl h.2.1,
    List.forall_mem_cons.mpr ⟨fun _ => by decide,
    List.forall_mem_singleton.mpr fun h => absurd rfl h.2.2⟩⟩

theorem cutOut_complete : cutOut.Complete where
  toProper := cutOut_proper
  modes := List.forall_mem_cons.mpr ⟨fun h => absurd rfl h.1,
    List.forall_mem_singleton.mpr fun _ => by decide⟩
  hard := by decide
  stays := List.forall_mem_cons.mpr ⟨fun _ h => RType.noConfusion h,
    List.forall_mem_singleton.mpr fun _ _ h => absurd h (by decide)⟩
  windows := List.cons_ne_nil _ _
  tiles := ⟨rfl, rfl⟩
  own := by decide

/-- `cutOut` is applied to the eight bytes that `spanning` makes. -/
theorem mainMerge_decodes_cutOut : ∃ out w' windows ews,
    (∀ depth, (∀ d ∈ [spanning], d.length < depth) →
      mainMerge depth plainSettings .plain [spanning] cutOut = .ok out w') ∧
      StandFor [104, 105, 106, 107] windows ews ∧ windows.flatten = [7, 7, 33, 104, 105, 106] ∧
      ∀ cs : List (List UInt8), cs.flatten = out → ∃ tr : List (Event Unit),
        (decodeDriver {} (answerRequests [104, 105, 106, 107])).Run
          (initStream {} (some (freshSource 0))) cs tr ∧
        tr.filterMap Event.seen = sessionShown windows ews ++ [.closed none] := by
  refine mainMerge_decodes (fun _ => rfl) (delivery_answerRequests _) (fun ret => ?_)
    ⟨rfl, rfl, rfl⟩ (freshSource_faithful _ (by decide))
    (List.forall_mem_singleton.mpr spanning_mergeable) cutOut_complete (by decide) (by decide)
    (fun h => Bool.noConfusion h) Main.MergeHeader.noConfusion ?_
  · unfold answerRequests
    split <;> rfl
  · exact fun _ h => by cases h

end Xdelta
