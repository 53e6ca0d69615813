import Xdelta.Decoder.Script

/-!
# What a window means

The instructions of a window, carried out one after the other on the data section and
the source, deliver the target window or nothing. The decoder's output loop, which may
be interrupted for source blocks and then continues, delivers the same.
-/
namespace Xdelta
open Chunked Delta

/-- Where the execution of a window is: the output so far and the data still to be used. -/
structure Spot where
  out : List UInt8
  data : List UInt8

/-- A half as an instruction on the source file, with the data that is then left. -/
def Hinst.op (e : Extent) (i : Hinst) (data : List UInt8) : Option (Op UInt8 × List UInt8) :=
  match i.type with
  | .noop => none
  | .run =>
    match data with
    | [] => none
    | b :: rest => some (.run i.size b, rest)
  | .add =>
    if i.size ≤ data.length then some (.add (data.take i.size), data.drop i.size) else none
  | .cpy _ =>
    some (if i.addr < e.cpylen then .source (e.cpyoff + i.addr) i.size
      else .target (i.addr - e.cpylen) i.size, data)

def Hinst.carry (file : List UInt8) (e : Extent) (i : Hinst) (s : Spot) : Option Spot :=
  (i.op e s.data).bind fun p => (p.1.apply file s.out).map fun out => ⟨out, p.2⟩

def delivered (file : List UInt8) (e : Extent) : List Hinst → Spot → Option (List UInt8)
  | [], s => if s.out.length = e.tgtlen ∧ s.data = [] then some s.out else none
  | i :: is, s => (i.carry file e s).bind (delivered file e is)

def sizes (is : List Hinst) : ℕ := (is.map Hinst.size).sum

/-- What the halves take to be carried out: each byte, and the end of each half. -/
def effort (is : List Hinst) : ℕ := (is.map fun i => i.size + 1).sum

@[simp] theorem effort_nil : effort [] = 0 := rfl

@[simp] theorem effort_append (is js : List Hinst) : effort (is ++ js) = effort is + effort js := by
  rw [effort, List.map_append, List.sum_append]
  rfl

section Carry
variable {file : List UInt8} {e : Extent}

theorem Hinst.op_run_nil {i : Hinst} (h : i.type = .run) : i.op e [] = none := by
  unfold op
  rw [h]

theorem Hinst.op_run_cons {i : Hinst} (h : i.type = .run) (b : UInt8) (rest : List UInt8) :
    i.op e (b :: rest) = some (.run i.size b, rest) := by
  unfold op
  rw [h]

theorem Hinst.op_add {i : Hinst} (h : i.type = .add) (data : List UInt8) :
    i.op e data = if i.size ≤ data.length then some (.add (data.take i.size), data.drop i.size)
      else none := by
  unfold op
  rw [h]

theorem Hinst.op_cpy {i : Hinst} {m : ℕ} (h : i.type = .cpy m) (data : List UInt8) :
    i.op e data = some (if i.addr < e.cpylen then .source (e.cpyoff + i.addr) i.size
      else .target (i.addr - e.cpylen) i.size, data) := by
  unfold op
  rw [h]

theorem Hinst.op_size {i : Hinst} {data : List UInt8} {p : Op UInt8 × List UInt8}
    (h : i.op e data = some p) : p.1.size = i.size := by
  unfold op at h
  split at h
  · cases h
  · split at h
    · cases h
    · cases h
      rfl
  · split at h
    · rename_i hle
      cases h
      exact List.length_take_of_le hle
    · cases h
  · cases h
    dsimp only
    split <;> rfl

theorem Hinst.carry_length {i : Hinst} {s s' : Spot} (h : i.carry file e s = some s') :
    s'.out.length = s.out.length + i.size := by
  obtain ⟨p, hp, h⟩ := Option.bind_eq_some_iff.mp h
  obtain ⟨out, hout, rfl⟩ := Option.map_eq_some_iff.mp h
  rw [Op.length_apply hout, op_size hp]

/-- Instructions that write more than the window holds deliver nothing. -/
theorem delivered_over {is : List Hinst} {s : Spot} (h : e.tgtlen < s.out.length + sizes is) :
    delivered file e is s = none := by
  induction is generalizing s with
  | nil => exact if_neg fun hc => absurd hc.1 (Nat.ne_of_gt h)
  | cons i is ih =>
    rw [delivered]
    cases hc : i.carry file e s with
    | none => rfl
    | some s' =>
      refine ih ?_
      rw [Hinst.carry_length hc]
      rwa [sizes, List.map_cons, List.sum_cons, ← Nat.add_assoc] at h

theorem delivered_none {i : Hinst} {s : Spot} (h : i.carry file e s = none) (is : List Hinst) :
    delivered file e (i :: is) s = none := by
  rw [delivered, h]
  rfl

theorem delivered_some {i : Hinst} {s s' : Spot} (h : i.carry file e s = some s')
    (is : List Hinst) : delivered file e (i :: is) s = delivered file e is s' := by
  rw [delivered, h]
  rfl

@[simp] theorem Hinst.norm_op (i : Hinst) (data : List UInt8) : i.norm.op e data = i.op e data := by
  by_cases h : ∃ m, i.type = .cpy m
  · obtain ⟨m, hm⟩ := h
    rw [norm_cpy hm]
  · rw [norm_of_ne (not_exists.mp h)]
    unfold op
    cases ht : i.type with
    | cpy m => exact absurd ⟨m, ht⟩ h
    | noop => rfl
    | run => rfl
    | add => rfl

@[simp] theorem Hinst.norm_carry (i : Hinst) (s : Spot) :
    i.norm.carry file e s = i.carry file e s := by
  rw [carry, norm_op]
  rfl

theorem Hinst.carry_cut {i : Hinst} {m : ℕ} (h : i.type = .cpy m) {k : ℕ} (hk : k < i.size)
    (hin : i.addr + i.size ≤ e.cpylen) {s : Spot}
    (hfile : e.cpyoff + i.addr + k ≤ file.length) :
    i.carry file e s = ({ i with size := i.size - k, addr := i.addr + k } : Hinst).carry file e
      ⟨s.out ++ (file.drop (e.cpyoff + i.addr)).take k, s.data⟩ := by
  have hcut : ({ i with size := i.size - k, addr := i.addr + k } : Hinst).op e s.data =
      some (.source (e.cpyoff + i.addr + k) (i.size - k), s.data) := by
    rw [op_cpy (i := { i with size := i.size - k, addr := i.addr + k }) h,
      if_pos (by dsimp only; omega), Nat.add_assoc]
  have hadd : k + (i.size - k) = i.size := by omega
  rw [carry, carry, hcut, op_cpy h, if_pos (by omega), Option.bind_some, Option.bind_some, ← hadd,
    Op.apply_source_add, Op.apply_source_of_le (.inr hfile), Option.bind_some, hadd]

end Carry

/-- The bytes at an offset of a block are those of the file. -/
theorem slice_block (file : List UInt8) (blksize blkno off take : ℕ)
    (h : take = 0 ∨ off + take ≤ (Source.block file blksize blkno).length) :
    slice (Source.block file blksize blkno) off take =
      some ((file.drop (blkno * blksize + off)).take take) := by
  unfold slice
  by_cases h0 : take = 0
  · rw [if_pos h0, h0, List.take_zero]
  · have hle := h.resolve_left h0
    have hb := Source.block_length_le file blksize blkno
    rw [if_neg h0, if_pos hle, Source.block, List.drop_take, List.take_take, List.drop_drop,
      Nat.min_eq_left (by omega)]

/-- How blocks of `file` reach the decoder: whenever a block asked for is there, the source
holds it; `P` is kept, and a block that is refused satisfies `F`. -/
structure Delivers (file : List UInt8) (app : Option GetblkFunc) (P : Source → Prop)
    (F : ℕ → Prop) : Prop where
  faithful : ∀ s, P s → s.Faithful file
  locate : ∀ s blocks blkoff, P s → P { s with cpyoffBlocks := blocks, cpyoffBlkoff := blkoff }
  getblk : ∀ s blkno, P s → (getblk app blkno s).Ends
    (fun _ s' => P s' ∧ s'.blksize = s.blksize ∧ s'.cpyoffBlocks = s.cpyoffBlocks ∧
      s'.cpyoffBlkoff = s.cpyoffBlkoff ∧ s'.curblk.isSome = true ∧ s'.curblkno = blkno)
    (fun _ => False)
    (fun _ s' => P s' ∧ s'.blksize = s.blksize ∧ s'.cpyoffBlocks = s.cpyoffBlocks ∧
      s'.cpyoffBlkoff = s.cpyoffBlkoff ∧ F blkno)

namespace Window

def spot (w : Window) : Spot := ⟨w.out, w.dataSect.left⟩

def unwritten (w : Window) : Window :=
  { w with
    src := none
    decCurrent1 := {}
    decCurrent2 := {}
    dataSect := { w.dataSect with buf := 0 }
    out := [] }

/-- The window after some output of half `h`. -/
def written (w : Window) (h : Half) (src : Option Source) (buf : ℕ) (out : List UInt8)
    (left : Hinst) : Window :=
  { w with src := src, dataSect := { w.dataSect with buf := buf }, out := out }.setHalf h left

/-- What the checks of the header and of the parser guarantee of the copy window. -/
structure Placed (P : Source → Prop) (w : Window) : Prop where
  maxpos : w.decMaxpos = w.decCpylen + w.decTgtlen
  below : w.decCpylen + w.decTgtlen < usize.modulus
  offset : w.decCpyoff + w.decCpylen < xoff.modulus
  room : w.decTgtlen ≤ w.spaceOut
  serves : ∀ s, w.src = some s → P s
  located : ∀ s, w.src = some s → w.decCpylen ≠ 0 →
    s.cpyoffBlocks = w.decCpyoff / s.blksize ∧ s.cpyoffBlkoff = w.decCpyoff % s.blksize
  within : ∀ h m, (w.half h).type = .cpy m → (w.half h).addr < w.decCpylen →
    usize.add (w.half h).addr (w.half h).size ≤ w.decCpylen

section Written
variable (w : Window) (h : Half) (src : Option Source) (buf : ℕ) (out : List UInt8) (left : Hinst)

@[simp] theorem half_written : (w.written h src buf out left).half h = left := half_setHalf _ _ _

@[simp] theorem half_other_written :
    (w.written h src buf out left).half h.other = w.half h.other := by
  cases h <;> rfl

@[simp] theorem unwritten_written : (w.written h src buf out left).unwritten = w.unwritten := by
  cases h <;> rfl

@[simp] theorem out_written : (w.written h src buf out left).out = out := by
  cases h <;> rfl

@[simp] theorem src_written : (w.written h src buf out left).src = src := by
  cases h <;> rfl

@[simp] theorem left_written : (w.written h src buf out left).dataSect.left =
    w.dataSect.bytes.drop buf := by
  cases h <;> rfl

end Written

theorem Placed.written {P : Source → Prop} {w : Window} (hw : w.Placed P) (h : Half)
    {src : Option Source} (hsrc : ∀ s, src = some s → P s ∧ (w.decCpylen ≠ 0 →
      s.cpyoffBlocks = w.decCpyoff / s.blksize ∧ s.cpyoffBlkoff = w.decCpyoff % s.blksize))
    (buf : ℕ) (out : List UInt8) {left : Hinst}
    (hleft : ∀ m, left.type = .cpy m → left.addr < w.decCpylen →
      usize.add left.addr left.size ≤ w.decCpylen) :
    (w.written h src buf out left).Placed P := by
  have hwithin : ∀ k m, ((w.written h src buf out left).half k).type = .cpy m →
      ((w.written h src buf out left).half k).addr < w.decCpylen →
      usize.add ((w.written h src buf out left).half k).addr
        ((w.written h src buf out left).half k).size ≤ w.decCpylen := by
    intro k m hm
    have hk : k = h ∨ k = h.other := by cases h <;> cases k <;> simp [Half.other]
    rcases hk with rfl | rfl
    · rw [half_written] at hm ⊢
      exact hleft m hm
    · rw [half_other_written] at hm ⊢
      exact hw.within _ m hm
  cases h with
  | first =>
    exact ⟨hw.maxpos, hw.below, hw.offset, hw.room, fun s hs => (hsrc s hs).1,
      fun s hs => (hsrc s hs).2, hwithin⟩
  | second =>
    exact ⟨hw.maxpos, hw.below, hw.offset, hw.room, fun s hs => (hsrc s hs).1,
      fun s hs => (hsrc s hs).2, hwithin⟩

theorem Placed.source {P : Source → Prop} {w : Window} (hw : w.Placed P) (s : Source)
    (hs : w.src = some s) : P s ∧ (w.decCpylen ≠ 0 →
      s.cpyoffBlocks = w.decCpyoff / s.blksize ∧ s.cpyoffBlkoff = w.decCpyoff % s.blksize) :=
  ⟨hw.serves s hs, hw.located s hs⟩

end Window

/-- A copy of nothing succeeds wherever it points, but the decoder checks that the source
reaches that far. -/
def Hinst.Covered (file : List UInt8) (e : Extent) (i : Hinst) : Prop :=
  i.size ≠ 0 ∨ e.cpylen = 0 ∨ e.cpyoff + e.cpylen ≤ file.length

/-- Output of half `h` does what the instruction means: what is delivered stays the same. -/
structure Carries (file : List UInt8) (P : Source → Prop) (h : Half) (w w' : Window) : Prop where
  placed : w'.Placed P
  frame : w'.unwritten = w.unwritten
  other : w'.half h.other = w.half h.other
  delivered : ∀ is, delivered file w.extent (w.remaining h ++ is) w.spot =
    delivered file w.extent (w'.remaining h ++ is) w'.spot
  left : ∀ i ∈ w'.remaining h, i.size ≠ 0 ∨ i ∈ w.remaining h

/-- Output of half `h` is interrupted by the refusal of a block that is needed. -/
structure Interrupts (file : List UInt8) (P : Source → Prop) (F : ℕ → Prop) (h : Half)
    (w w' : Window) : Prop extends Carries file P h w w' where
  refused : ∃ s blkno, P s ∧ F blkno ∧ ((w.half h).size ≠ 0 →
    (∃ is out, Xdelta.delivered file w.extent (w.remaining h ++ is) w.spot = some out) →
    blkno * s.blksize < file.length)

/-- Half `h` is a source copy, and the block it needs is the one asked for. -/
def Window.Wants (w : Window) (h : Half) : Prop :=
  ∃ m s, (w.half h).type = .cpy m ∧ (w.half h).addr < w.decCpylen ∧ w.src = some s ∧
    s.getblkno = (s.blksizeAdd s.cpyoffBlocks s.cpyoffBlkoff (w.half h).addr).1

/-- The block that half `h`, as a source copy, needs is the one held. -/
def Window.Held (w : Window) (h : Half) : Prop :=
  ∃ s, w.src = some s ∧ s.curblk.isSome = true ∧
    s.curblkno = (s.blksizeAdd s.cpyoffBlocks s.cpyoffBlkoff (w.half h).addr).1

/-- Without a function of the application a block that is not held is asked for. -/
structure Requests (app : Option GetblkFunc) (h : Half) (e : Stop) (w w' : Window) : Prop where
  ret : app = none → e.ret = .getsrcblk
  wants : app = none → w'.Wants h
  fresh : app = none → effort (w'.remaining h) < effort (w.remaining h) ∨ ¬w.Held h
  less : effort (w'.remaining h) ≤ effort (w.remaining h)

/-- A step of output of half `h` as instructions see it. -/
def CarriesAt (file : List UInt8) (app : Option GetblkFunc) (P : Source → Prop) (F : ℕ → Prop)
    (h : Half) (w : Window) (f : Emit) : Prop :=
  (f w).Ends
    (fun _ w' => Carries file P h w w' ∧ ((w'.half h).type ≠ .noop → (w'.half h).size ≠ 0))
    (fun _ => False)
    (fun e w' => (Interrupts file P F h w w' ∧ Requests app h e w w') ∨
      (e.ret.ordinary = false ∧ ((w.half h).Covered file w.extent →
        ∀ is, delivered file w.extent (w.remaining h ++ is) w.spot = none)))

section Round
variable {file : List UInt8} {app : Option GetblkFunc} {P : Source → Prop} {F : ℕ → Prop}
  {w : Window} {h : Half}

private theorem Carries.done (hw : w.Placed P) (ht : (w.half h).type ≠ .noop) {buf : ℕ}
    {out : List UInt8} {i : Hinst} (hi : i.type = .noop)
    (hcarry : (w.half h).carry file w.extent w.spot =
      some ⟨out, w.dataSect.bytes.drop buf⟩) :
    Carries file P h w (w.written h w.src buf out i) ∧
      (((w.written h w.src buf out i).half h).type ≠ .noop →
        ((w.written h w.src buf out i).half h).size ≠ 0) := by
  have hhalf : ((w.written h w.src buf out i).half h).type = .noop := by
    rw [Window.half_written]
    exact hi
  refine ⟨⟨hw.written h hw.source buf out ?_, Window.unwritten_written .., Window.half_other_written ..,
    fun is => ?_, ?_⟩, fun hne => absurd hhalf hne⟩
  · intro m hm
    rw [hi] at hm
    cases hm
  · rw [Window.remaining_of_ne ht, Window.remaining_noop hhalf, List.singleton_append,
      List.nil_append]
    refine delivered_some ?_ is
    rw [Hinst.norm_carry, hcarry]
    unfold Window.spot
    rw [Window.out_written, Window.left_written]
  · rw [Window.remaining_noop hhalf]
    exact nofun

variable (hw : w.Sound file) (hp : w.Placed P) (ht : (w.half h).type ≠ .noop)
  (hroom : w.out.length + (w.half h).size ≤ w.spaceOut)
include hw hp ht hroom

theorem outputRun_carries (hrun : (w.half h).type = .run) :
    CarriesAt file app P F h w (outputRun h) := by
  have hle := hw.buf_le .data
  have hmax : w.dataSect.bytes.length = w.dataSect.bufMax := Desect.length_bytes (hw.max_le .data)
  simp only [Window.sect] at hle
  unfold CarriesAt outputRun
  by_cases hend : w.dataSect.buf = w.dataSect.bufMax
  · rw [if_pos hend]
    have hnil : w.spot.data = [] := List.drop_eq_nil_of_le (by omega)
    refine .inr ⟨rfl, fun _ is => ?_⟩
    rw [Window.remaining_of_ne ht]
    refine delivered_none ?_ is
    rw [Hinst.norm_carry, Hinst.carry, hnil, Hinst.op_run_nil hrun]
    rfl
  · have hlt : w.dataSect.buf < w.dataSect.bytes.length := by omega
    have hcons : w.spot.data = w.dataSect.bytes[w.dataSect.buf] ::
        w.dataSect.bytes.drop (w.dataSect.buf + 1) := List.drop_eq_getElem_cons hlt
    rw [if_neg hend, List.getElem?_eq_getElem hlt]
    dsimp only
    rw [writeOut_eq hw.buffer (by rwa [List.length_replicate]), Outcome.andThen_ok]
    refine Carries.done hp ht rfl ?_
    rw [Hinst.carry, hcons, Hinst.op_run_cons hrun]
    rfl

theorem outputAdd_carries (hadd : (w.half h).type = .add) :
    CarriesAt file app P F h w (outputAdd h) := by
  have hle := hw.buf_le .data
  have hmax : w.dataSect.bytes.length = w.dataSect.bufMax := Desect.length_bytes (hw.max_le .data)
  simp only [Window.sect] at hle
  have hleft : w.spot.data.length = w.dataSect.bufMax - w.dataSect.buf := by
    rw [← hmax]
    exact List.length_drop
  have hop : (w.half h).op w.extent w.spot.data = if (w.half h).size ≤ w.spot.data.length then
      some (.add (w.spot.data.take (w.half h).size), w.spot.data.drop (w.half h).size)
      else none := Hinst.op_add hadd _
  unfold CarriesAt outputAdd
  dsimp only
  by_cases h0 : (w.half h).size = 0
  · rw [if_pos h0]
    have hcarry : (w.half h).carry file w.extent w.spot =
        some ⟨w.out, w.dataSect.bytes.drop w.dataSect.buf⟩ := by
      rw [Hinst.carry, hop, h0, if_pos (Nat.zero_le _), Option.bind_some, List.take_zero]
      exact congrArg (fun out => some (Spot.mk out w.dataSect.left)) (List.append_nil _)
    have hdone := Carries.done hp ht (i := { w.half h with type := .noop }) rfl hcarry
    cases h <;> exact hdone
  · rw [if_neg h0]
    by_cases hshort : w.dataSect.buf = w.dataSect.bufMax ∨
        w.dataSect.bufMax - w.dataSect.buf < (w.half h).size
    · rw [if_pos hshort]
      refine .inr ⟨rfl, fun _ is => ?_⟩
      rw [Window.remaining_of_ne ht]
      refine delivered_none ?_ is
      rw [Hinst.norm_carry, Hinst.carry, hop, if_neg (by omega)]
      rfl
    · rw [if_neg hshort]
      have hbytes : slice w.dataSect.bytes w.dataSect.buf (w.half h).size =
          some (w.spot.data.take (w.half h).size) := by
        unfold slice
        rw [if_neg h0, if_pos (by omega)]
        rfl
      have hlen : (w.spot.data.take (w.half h).size).length = (w.half h).size :=
        List.length_take_of_le (by omega)
      rw [hbytes]
      dsimp only
      rw [writeOut_eq hw.buffer (by rwa [hlen]), Outcome.andThen_ok]
      refine Carries.done hp ht rfl ?_
      rw [Hinst.carry, hop, if_pos (by omega), Option.bind_some, ← List.drop_drop]
      rfl

theorem outputTargetCopy_carries {m : ℕ} (hcpy : (w.half h).type = .cpy m)
    (hord : h = .second → w.decCurrent1.type = .noop)
    (haddr : w.decCpylen ≤ (w.half h).addr) :
    CarriesAt file app P F h w (outputTargetCopy h) := by
  obtain ⟨bytes, hb, hlen⟩ :=
    copyOverlap_eq_some (hw.target_lt hcpy hord haddr) (w.half h).size
  have hop : (w.half h).op w.extent w.spot.data =
      some (.target ((w.half h).addr - w.decCpylen) (w.half h).size, w.spot.data) := by
    rw [Hinst.op_cpy hcpy, if_neg (show ¬(w.half h).addr < w.extent.cpylen from Nat.not_lt.mpr haddr)]
    rfl
  unfold CarriesAt outputTargetCopy
  dsimp only
  rw [hb]
  dsimp only
  rw [List.drop_left]
  have hcarry : (w.half h).carry file w.extent w.spot =
      some ⟨w.out ++ bytes, w.dataSect.bytes.drop w.dataSect.buf⟩ := by
    rw [Hinst.carry, hop, Option.bind_some]
    exact congrArg (Option.map fun out => Spot.mk out w.spot.data) hb
  have hdone := Carries.done hp ht (i := { w.half h with type := .noop, size := 0 }) rfl hcarry
  generalize hl : ({ w.half h with type := .noop, size := 0 } : Hinst) = left at hdone
  have hwr : writeOut bytes (w.setHalf h left) =
      .ok () ({ w with out := w.out ++ bytes }.setHalf h left) := by
    cases h <;> exact writeOut_eq hw.buffer (by simp only [Window.setHalf]; omega)
  rw [hwr]
  cases h <;> exact hdone

end Round

section Source
variable {file : List UInt8} {app : Option GetblkFunc} {P : Source → Prop} {F : ℕ → Prop}
  {w : Window} {h : Half}

/-- Where a source copy that the window has room for lies in the file. -/
private theorem sourceCopy_position (hp : w.Placed P) {s : Source} (hs : w.src = some s)
    (hshape : s.Shaped) {m : ℕ} (hcpy : (w.half h).type = .cpy m)
    (haddr : (w.half h).addr < w.decCpylen)
    (hlim : w.out.length + (w.half h).size ≤ w.decTgtlen) :
    (w.half h).addr + (w.half h).size ≤ w.decCpylen ∧
      s.blksizeAdd s.cpyoffBlocks s.cpyoffBlkoff (w.half h).addr =
        ((w.decCpyoff + (w.half h).addr) / s.blksize,
          (w.decCpyoff + (w.half h).addr) % s.blksize) := by
  have hbelow := hp.below
  have hoffset := hp.offset
  obtain ⟨hblocks, hblkoff⟩ := hp.located s hs (by omega)
  have hwithin := hp.within h m hcpy haddr
  rw [usize.add_eq (by omega)] at hwithin
  refine ⟨hwithin, ?_⟩
  have hmod := Nat.mod_le w.decCpyoff s.blksize
  have hsum : w.decCpyoff / s.blksize + (w.decCpyoff % s.blksize + (w.half h).addr) / s.blksize =
      (w.decCpyoff + (w.half h).addr) / s.blksize := by
    have hpos : 0 < s.blksize := hshape.blksize_eq ▸ Nat.two_pow_pos _
    conv => rhs; rw [← Nat.div_add_mod w.decCpyoff s.blksize]
    rw [Nat.add_assoc, Nat.mul_add_div hpos]
  have hxoff : xoff.modulus = usize.modulus := rfl
  rw [hblocks, hblkoff, hshape.blksizeAdd_eq (by omega), hsum, Nat.mod_add_mod]
  rw [hsum]
  exact lt_of_le_of_lt (Nat.div_le_self _ _) (by omega)

/-- A half too large for the window delivers nothing, before and after some of it is output. -/
theorem delivered_too_large (ht : (w.half h).type ≠ .noop)
    (hlim : w.decTgtlen < w.out.length + (w.half h).size) (is : List Hinst) :
    delivered file w.extent (w.remaining h ++ is) w.spot = none := by
  refine delivered_over ?_
  rw [Window.remaining_of_ne ht, sizes, List.singleton_append, List.map_cons, List.sum_cons,
    Hinst.norm_size]
  exact lt_of_lt_of_le hlim (by rw [← Nat.add_assoc]; exact Nat.le_add_right _ _)

/-- Where there is no function, a block is refused because it is not the one held. -/
theorem getblk_none_stop {blkno : ℕ} {s s' : Source} {e : Stop}
    (h : getblk none blkno s = .stop e s') : e.ret = .getsrcblk ∧
      s' = { s with getblkno := blkno } ∧ (s.curblk.isSome = true → blkno ≠ s.curblkno) := by
  unfold getblk at h
  split at h
  · rename_i hne
    cases h
    refine ⟨rfl, rfl, fun hsome hno => ?_⟩
    rcases hne with hnone | hne
    · rw [hnone] at hsome
      cases hsome
    · exact hne hno
  · cases h

/-- The bytes of the block held are copied, and something may be left of the half. -/
private theorem copyBlock_carries (hw : w.Sound file) (hp : w.Placed P)
    (ht : (w.half h).type ≠ .noop) (hroom : w.out.length + (w.half h).size ≤ w.spaceOut)
    {s : Source} (hs : P s ∧ (w.decCpylen ≠ 0 →
      s.cpyoffBlocks = w.decCpyoff / s.blksize ∧ s.cpyoffBlkoff = w.decCpyoff % s.blksize))
    (hfaith : s.Faithful file) (hcur : s.curblk.isSome = true) {off take : ℕ} {i : Hinst}
    (hle : take = 0 ∨ off + take ≤ s.onblk) (htake : take ≤ (w.half h).size)
    (hwithin : ∀ m, i.type = .cpy m → i.addr < w.decCpylen →
      usize.add i.addr i.size ≤ w.decCpylen)
    (hpos : i.type ≠ .noop → i.size ≠ 0)
    (hcarry : ∀ is, delivered file w.extent (w.remaining h ++ is) w.spot =
      delivered file w.extent ((if i.type = .noop then [] else [i.norm]) ++ is)
        ⟨w.out ++ (file.drop (s.curblkno * s.blksize + off)).take take, w.dataSect.left⟩) :
    CarriesAt file app P F h w fun w => copyBlock h off take i { w with src := some s } := by
  obtain ⟨b, hb⟩ := Option.isSome_iff_exists.mp hcur
  obtain ⟨heq, hon⟩ := hfaith.holds b hb
  have hbytes : slice (b.take s.onblk) off take =
      some ((file.drop (s.curblkno * s.blksize + off)).take take) := by
    rw [hon, List.take_length, heq]
    exact slice_block _ _ _ _ _ (by rw [← heq, ← hon]; exact hle)
  have hlen : ((file.drop (s.curblkno * s.blksize + off)).take take).length ≤ take :=
    List.length_take_le _ _
  have hwr : writeOut ((file.drop (s.curblkno * s.blksize + off)).take take)
      (({ w with src := some s } : Window).setHalf h i) = .ok () (w.written h (some s)
        w.dataSect.buf (w.out ++ (file.drop (s.curblkno * s.blksize + off)).take take) i) := by
    cases h <;> exact writeOut_eq hw.buffer (by
      simp only [Window.setHalf]
      exact Nat.le_trans (Nat.add_le_add_left (hlen.trans htake) _) hroom)
  unfold CarriesAt copyBlock
  simp only [hb, hbytes]
  rw [hwr]
  refine ⟨⟨hp.written h (fun s' hs' => ?_) _ _ hwithin, Window.unwritten_written ..,
    Window.half_other_written .., fun is => ?_, ?_⟩, ?_⟩
  · cases hs'
    exact hs
  · rw [hcarry is, Window.remaining, Window.half_written]
    unfold Window.spot
    rw [Window.out_written, Window.left_written]
    rfl
  · rw [Window.remaining, Window.half_written]
    split
    · exact fun j hj => absurd hj List.not_mem_nil
    · rename_i hne
      intro j hj
      rw [List.mem_singleton.mp hj, Hinst.norm_size]
      exact .inl (hpos hne)
  · rw [Window.half_written]
    exact hpos

private theorem length_drop_take {file : List UInt8} {q bs off take : ℕ}
    (h : take = 0 ∨ off + take ≤ (Source.block file bs q).length) :
    ((file.drop (q * bs + off)).take take).length = take := by
  rw [Source.length_block] at h
  rw [List.length_take, List.length_drop]
  omega

private theorem sourceCopy_op {m : ℕ} (hcpy : (w.half h).type = .cpy m)
    (haddr : (w.half h).addr < w.decCpylen) : (w.half h).op w.extent w.spot.data =
      some (.source (w.decCpyoff + (w.half h).addr) (w.half h).size, w.spot.data) := by
  rw [Hinst.op_cpy hcpy, if_pos (show (w.half h).addr < w.extent.cpylen from haddr)]
  rfl

private theorem type_ne_noop {i : Hinst} {m : ℕ} (h : i.type = .cpy m) : i.type ≠ .noop := by
  rw [h]
  exact RType.noConfusion

private theorem sourceCopy_short {m : ℕ} (hcpy : (w.half h).type = .cpy m)
    (haddr : (w.half h).addr < w.decCpylen) (hne : (w.half h).size ≠ 0)
    (hend : file.length < w.decCpyoff + (w.half h).addr + (w.half h).size) (is : List Hinst) :
    delivered file w.extent (w.remaining h ++ is) w.spot = none := by
  rw [Window.remaining_of_ne (type_ne_noop hcpy)]
  refine delivered_none ?_ is
  rw [Hinst.norm_carry, Hinst.carry, sourceCopy_op hcpy haddr, Option.bind_some,
    Op.apply_source_of_lt hne hend]
  rfl

/-- A refused block interrupts the copy; if the copy can be carried out, the source has the
block. -/
private theorem sourceCopy_interrupts (hp : w.Placed P) {m : ℕ} (hcpy : (w.half h).type = .cpy m)
    (haddr : (w.half h).addr < w.decCpylen) {s s' : Source} (hsrc : w.src = some s)
    (hs' : P s' ∧ (w.decCpylen ≠ 0 → s'.cpyoffBlocks = w.decCpyoff / s'.blksize ∧
      s'.cpyoffBlkoff = w.decCpyoff % s'.blksize)) {blk : ℕ × ℕ} (hF : F blk.1)
    (hat : w.out.length + (w.half h).size ≤ w.decTgtlen →
      (w.half h).addr + (w.half h).size ≤ w.decCpylen ∧
        blk.1 * s.blksize + blk.2 = w.decCpyoff + (w.half h).addr) :
    Interrupts file P F h w { w with src := some s' } := by
  have hw' : ({ w with src := some s' } : Window) =
      w.written h (some s') w.dataSect.buf w.out (w.half h) := by cases h <;> rfl
  rw [hw']
  refine ⟨⟨hp.written h (fun t ht' => ?_) _ _ (hp.within h), Window.unwritten_written ..,
    Window.half_other_written .., fun is => ?_, ?_⟩, s, blk.1, hp.serves s hsrc, hF,
    fun hne ⟨is, out, hdel⟩ => ?_⟩
  · cases ht'
    exact hs'
  · unfold Window.remaining Window.spot
    rw [Window.half_written, Window.out_written, Window.left_written]
    rfl
  · unfold Window.remaining
    rw [Window.half_written]
    exact fun i hi => .inr hi
  · by_cases hlim : w.out.length + (w.half h).size ≤ w.decTgtlen
    · obtain ⟨hin, heq⟩ := hat hlim
      by_contra hge
      rw [sourceCopy_short hcpy haddr hne (by omega)] at hdel
      cases hdel
    · rw [delivered_too_large (type_ne_noop hcpy) (Nat.lt_of_not_le hlim)] at hdel
      cases hdel

/-- Without a function of the application the block of the copy is asked for. -/
private theorem sourceCopy_requests {m : ℕ} (hcpy : (w.half h).type = .cpy m)
    (haddr : (w.half h).addr < w.decCpylen) {s s' : Source} (hsrc : w.src = some s)
    {e e' : Stop} (hg : getblk app (s.blksizeAdd s.cpyoffBlocks s.cpyoffBlkoff (w.half h).addr).1 s =
      .stop e s') (he' : app = none → e'.ret = e.ret) :
    Requests app h e' w { w with src := some s' } := by
  have hhalf : ({ w with src := some s' } : Window).half h = w.half h := by cases h <;> rfl
  have hle : effort (({ w with src := some s' } : Window).remaining h) ≤
      effort (w.remaining h) := by
    unfold Window.remaining
    rw [hhalf]
  refine ⟨fun happ => ?_, fun happ => ?_, fun happ => .inr ?_, hle⟩
  all_goals
    have he := he' happ
    subst happ
    obtain ⟨hret, hs', hnot⟩ := getblk_none_stop hg
  · exact he.trans hret
  · refine ⟨m, s', hhalf ▸ hcpy, hhalf ▸ haddr, rfl, ?_⟩
    rw [hhalf, hs']
    rfl
  · rintro ⟨t, ht', hsome, hno⟩
    rw [hsrc] at ht'
    cases ht'
    exact hnot hsome hno.symm

/-- Half `h` is a source copy, and the block it begins in is held by `s`. -/
private structure CopyHeld (file : List UInt8) (P : Source → Prop) (h : Half) (w : Window)
    (s : Source) (blkoff m : ℕ) : Prop where
  cpy : (w.half h).type = .cpy m
  addr : (w.half h).addr < w.decCpylen
  source : P s ∧ (w.decCpylen ≠ 0 →
    s.cpyoffBlocks = w.decCpyoff / s.blksize ∧ s.cpyoffBlkoff = w.decCpyoff % s.blksize)
  faithful : s.Faithful file
  held : s.curblk.isSome = true
  blkoff_lt : blkoff < s.blksize
  position : w.out.length + (w.half h).size ≤ w.decTgtlen →
    (w.half h).addr + (w.half h).size ≤ w.decCpylen ∧
      s.curblkno * s.blksize + blkoff = w.decCpyoff + (w.half h).addr

section Held
variable {s : Source} {blkoff m : ℕ} (hc : CopyHeld file P h w s blkoff m)
include hc

private theorem CopyHeld.onblk_eq :
    s.onblk = min s.blksize (file.length - s.curblkno * s.blksize) := by
  obtain ⟨b, hb⟩ := Option.isSome_iff_exists.mp hc.held
  obtain ⟨heq, hon⟩ := hc.faithful.holds b hb
  rw [hon, heq, Source.length_block]

private theorem CopyHeld.blksize_le : s.blksize ≤ 2 ^ 63 := by
  rw [hc.faithful.blksize_eq]
  exact Nat.pow_le_pow_right (by decide) (Nat.le_of_lt_succ hc.faithful.shiftby_lt)

private theorem CopyHeld.length_taken {take : ℕ} (h : take = 0 ∨ blkoff + take ≤ s.onblk) :
    ((file.drop (s.curblkno * s.blksize + blkoff)).take take).length = take := by
  refine length_drop_take ?_
  rw [Source.length_block, ← hc.onblk_eq]
  exact h

private theorem CopyHeld.short (hshort : s.onblk ≠ s.blksize ∧ s.onblk < blkoff + (w.half h).size)
    (hcov : (w.half h).Covered file w.extent) (is : List Hinst) :
    delivered file w.extent (w.remaining h ++ is) w.spot = none := by
  have haddr := hc.addr
  by_cases hlim : w.out.length + (w.half h).size ≤ w.decTgtlen
  · obtain ⟨hin, heq⟩ := hc.position hlim
    have hlen := hc.onblk_eq
    have hend : file.length < w.decCpyoff + (w.half h).addr + (w.half h).size := by omega
    refine sourceCopy_short hc.cpy haddr ?_ hend is
    rcases hcov with hne | hzero | hle
    · exact hne
    · have hzero' : w.decCpylen = 0 := hzero
      omega
    · have hle' : w.decCpyoff + w.decCpylen ≤ file.length := hle
      omega
  · exact delivered_too_large (type_ne_noop hc.cpy) (Nat.lt_of_not_le hlim) is

private theorem CopyHeld.whole (hw : w.Sound file) (hp : w.Placed P)
    (hroom : w.out.length + (w.half h).size ≤ w.spaceOut)
    (hle : (w.half h).size = 0 ∨ blkoff + (w.half h).size ≤ s.onblk) :
    CarriesAt file app P F h w fun w' => copyBlock h blkoff (w.half h).size
      { w.half h with type := .noop, size := 0 } { w' with src := some s } := by
  have ht := type_ne_noop hc.cpy
  have hrem : w.remaining h = [(w.half h).norm] := Window.remaining_of_ne ht
  refine copyBlock_carries hw hp ht hroom hc.source hc.faithful hc.held hle le_rfl nofun
    (fun hne => absurd rfl hne) fun is => ?_
  rw [if_pos rfl, List.nil_append]
  by_cases hlim : w.out.length + (w.half h).size ≤ w.decTgtlen
  · obtain ⟨hin, heq⟩ := hc.position hlim
    have hlen := hc.onblk_eq
    rw [hrem, List.singleton_append]
    refine delivered_some ?_ is
    rw [Hinst.norm_carry, Hinst.carry, sourceCopy_op hc.cpy hc.addr, Option.bind_some, heq,
      Op.apply_source_of_le (by omega)]
    rfl
  · rw [delivered_too_large ht (Nat.lt_of_not_le hlim), delivered_over]
    dsimp only
    rw [List.length_append, hc.length_taken hle]
    exact lt_of_lt_of_le (Nat.lt_of_not_le hlim) (Nat.le_add_right _ _)

/-- The rest of the block held is copied, and the half continues in the next. -/
private theorem CopyHeld.part (hw : w.Sound file) (hp : w.Placed P)
    (hroom : w.out.length + (w.half h).size ≤ w.spaceOut)
    (hle : s.blksize - blkoff = 0 ∨ blkoff + (s.blksize - blkoff) ≤ s.onblk)
    (htake : s.blksize - blkoff < (w.half h).size) :
    CarriesAt file app P F h w fun w' => copyBlock h blkoff (s.blksize - blkoff)
      { w.half h with
        size := (w.half h).size - (s.blksize - blkoff)
        addr := usize.add (w.half h).addr (s.blksize - blkoff) } { w' with src := some s } := by
  have ht := type_ne_noop hc.cpy
  have hrem : w.remaining h = [(w.half h).norm] := Window.remaining_of_ne ht
  refine copyBlock_carries hw hp ht hroom hc.source hc.faithful hc.held hle htake.le
    (fun m' hm' hlt => ?_) (fun _ => ?_) fun is => ?_
  · dsimp only
    rw [Width.add, Width.add, Nat.mod_add_mod, Nat.add_assoc, Nat.add_sub_cancel' htake.le]
    exact hp.within h m hc.cpy hc.addr
  · dsimp only
    omega
  · rw [if_neg ht]
    by_cases hlim : w.out.length + (w.half h).size ≤ w.decTgtlen
    · obtain ⟨hin, heq⟩ := hc.position hlim
      have hlen := hc.onblk_eq
      have hbelow := hp.below
      have hadd : usize.add (w.half h).addr (s.blksize - blkoff) =
          (w.half h).addr + (s.blksize - blkoff) := usize.add_eq (by omega)
      have hfile : w.decCpyoff + (w.half h).addr + (s.blksize - blkoff) ≤ file.length := by
        have := hc.blkoff_lt
        omega
      rw [hrem, List.singleton_append, List.singleton_append, delivered, delivered,
        Hinst.norm_carry, Hinst.norm_carry, hadd, heq]
      exact congrArg (fun o => Option.bind o _) (Hinst.carry_cut hc.cpy htake hin hfile)
    · have hgt : w.decTgtlen < w.out.length + (w.half h).size := Nat.lt_of_not_le hlim
      rw [delivered_too_large ht hgt, delivered_over]
      dsimp only
      rw [List.length_append, hc.length_taken hle, List.singleton_append, sizes, List.map_cons,
        List.sum_cons, Hinst.norm_size]
      change w.decTgtlen < _
      dsimp only
      omega

end Held

theorem outputSourceCopy_carries (hd : Delivers file app P F) (hw : w.Sound file)
    (hp : w.Placed P) (hroom : w.out.length + (w.half h).size ≤ w.spaceOut) {m : ℕ}
    (hcpy : (w.half h).type = .cpy m) (haddr : (w.half h).addr < w.decCpylen) :
    CarriesAt file app P F h w (outputSourceCopy app h) := by
  obtain ⟨s, hsrc⟩ := Option.isSome_iff_exists.mp (hw.source (by omega))
  have hfaith := hd.faithful s (hp.serves s hsrc)
  unfold CarriesAt outputSourceCopy
  simp only [hsrc]
  have hoff : (s.blksizeAdd s.cpyoffBlocks s.cpyoffBlkoff (w.half h).addr).2 < s.blksize :=
    hfaith.blksizeAdd_lt _ _ _
  have hposn := sourceCopy_position hp hsrc hfaith.toShaped hcpy haddr
  have hreq := fun e s' => @sourceCopy_requests app w h m hcpy haddr s s' hsrc e
  generalize s.blksizeAdd s.cpyoffBlocks s.cpyoffBlkoff (w.half h).addr = blk at hoff hposn hreq
  -- where the copy lies, if the window has room for it
  have hat : w.out.length + (w.half h).size ≤ w.decTgtlen →
      (w.half h).addr + (w.half h).size ≤ w.decCpylen ∧
        blk.1 * s.blksize + blk.2 = w.decCpyoff + (w.half h).addr := by
    intro hlim
    obtain ⟨h1, h2⟩ := hposn hlim
    refine ⟨h1, ?_⟩
    rw [h2, Nat.mul_comm]
    exact Nat.div_add_mod _ _
  have hends := hd.getblk s blk.1 (hp.serves s hsrc)
  cases hg : getblk app blk.1 s with
  | starved s' =>
    rw [hg] at hends
    exact hends.elim
  | fault =>
    rw [hg] at hends
    exact hends.elim
  | stop e s' =>
    rw [hg] at hends
    obtain ⟨hP', hbs, hblocks, hblkoff, hF⟩ := hends
    have hs' : P s' ∧ (w.decCpylen ≠ 0 → s'.cpyoffBlocks = w.decCpyoff / s'.blksize ∧
        s'.cpyoffBlkoff = w.decCpyoff % s'.blksize) := by
      rw [hbs, hblocks, hblkoff]
      exact ⟨hP', (hp.source s hsrc).2⟩
    have hint : Interrupts file P F h w { w with src := some s' } :=
      sourceCopy_interrupts hp hcpy haddr hsrc hs' hF hat
    dsimp only
    split
    · rename_i hfar
      refine .inl ⟨hint, hreq e s' hg fun happ => ?_⟩
      subst happ
      rw [(getblk_none_stop hg).1] at hfar
      cases hfar
    · exact .inl ⟨hint, hreq e s' hg fun _ => rfl⟩
  | ok a s' =>
    rw [hg] at hends
    obtain ⟨hP', hbs, hblocks, hblkoff, hcur, hno⟩ := hends
    have hc : CopyHeld file P h w s' blk.2 m :=
      ⟨hcpy, haddr, by rw [hbs, hblocks, hblkoff]; exact ⟨hP', (hp.source s hsrc).2⟩,
        hd.faithful s' hP', hcur, by rw [hbs]; exact hoff, by rw [hno, hbs]; exact hat⟩
    have hspace := hw.space
    have hblk63 := hc.blksize_le
    have hmod : usize.modulus = 2 ^ 64 := rfl
    have hmax : hardMaxWinsize + allocSize < 2 ^ 63 := by decide
    have hlen := hc.onblk_eq
    dsimp only
    rw [← hbs]
    rw [← hbs] at hoff
    rw [usize.add_eq (by omega), usize.sub_eq (by omega) hoff.le]
    split
    · rename_i hshort
      exact .inr ⟨rfl, hc.short hshort⟩
    · rename_i hgood
      split
      · rename_i hfit
        exact hc.whole hw hp hroom (by omega)
      · rename_i hfit
        have htake : s'.blksize - blk.2 < (w.half h).size := by omega
        rw [usize.sub_eq (by omega) htake.le]
        exact hc.part hw hp hroom (by omega) htake

end Source

end Xdelta
