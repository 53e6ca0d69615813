import Xdelta.Encoder.Roundtrip
import Xdelta.Merge.Output

/-!
# A merged delta is written faithfully

What is put into the queue and the input of a window, instruction by instruction, stands for the
window's part of the output. The windows are then those of an encoding session.
-/
namespace Xdelta
open Chunked Delta

/-- The byte `j` that an instruction writes, when all of the output is `word`. -/
def Winst.byte (adds base word : List UInt8) (i : Winst) (j : ℕ) : Option UInt8 :=
  match i.type with
  | .run => adds[i.addr]?
  | .add => adds[i.addr + j]?
  | _ => if i.mode = 0 then word[i.addr + j]? else base[i.addr + j]?

/-- An instruction that writes what `word` has at `p`. A copy from the target stays in the window
that it begins in. -/
structure Winst.Writes (adds base word : List UInt8) (infos : List Wininfo) (p : ℕ) (i : Winst) :
    Prop where
  pos : 0 < i.size
  real : i.type ≠ .noop
  run : i.type = .run → i.addr < adds.length
  add : i.type = .add → i.addr + i.size ≤ adds.length
  source : ∀ m, i.type = .cpy m → i.mode ≠ 0 → i.addr + i.size ≤ base.length
  before : ∀ m, i.type = .cpy m → i.mode = 0 → i.addr < p
  stays : ∀ m, i.type = .cpy m → i.mode = 0 → ∀ info ∈ infos, info.offset ≤ p →
    p < info.offset + info.length → info.offset ≤ i.addr ∧ p + i.size ≤ info.offset + info.length
  bytes : ∀ j < i.size, i.byte adds base word j = word[p + j]?
  within : p + i.size ≤ word.length

/-- Instructions that write the rest of `word` from `p` on. -/
def WritesFrom (adds base word : List UInt8) (infos : List Wininfo) : ℕ → List Winst → Prop
  | p, [] => p = word.length
  | p, i :: is => i.Writes adds base word infos p ∧ WritesFrom adds base word infos (p + i.size) is

section Writes
variable {adds base word : List UInt8} {infos : List Wininfo} {p take : ℕ} {i : Winst}

theorem Winst.byte_run (h : i.type = .run) (j : ℕ) : i.byte adds base word j = adds[i.addr]? := by
  unfold byte
  rw [h]

theorem Winst.byte_add (h : i.type = .add) (j : ℕ) :
    i.byte adds base word j = adds[i.addr + j]? := by
  unfold byte
  rw [h]

theorem Winst.byte_cpy {m : ℕ} (h : i.type = .cpy m) (j : ℕ) : i.byte adds base word j =
    if i.mode = 0 then word[i.addr + j]? else base[i.addr + j]? := by
  unfold byte
  rw [h]

/-- The rest of an instruction that is not a copy from the target. -/
theorem Winst.Writes.cut (h : i.Writes adds base word infos p) (htake : take < i.size)
    (hadds : adds.length < xoff.modulus) (hbase : base.length < xoff.modulus)
    (hnot : ∀ m, i.type = .cpy m → i.mode ≠ 0) :
    (i.cut take).Writes adds base word infos (p + take) := by
  have hwithin := h.within
  have haddr : i.type ≠ .run → (i.cut take).addr = i.addr + take := by
    intro hrun
    unfold Winst.cut
    dsimp only
    rw [if_neg hrun]
    cases ht : i.type with
    | run => exact absurd ht hrun
    | noop => exact absurd ht h.real
    | add =>
      have := h.add ht
      exact xoff.add_eq (by omega)
    | cpy m =>
      have := h.source m ht (hnot m ht)
      exact xoff.add_eq (by omega)
  have hsize : (i.cut take).size = i.size - take := rfl
  refine ⟨by omega, h.real, fun ht => ?_, fun ht => ?_, fun m ht hm => ?_, fun m ht hm => ?_,
    fun m ht hm => ?_, fun j hj => ?_, by omega⟩
  · have haddr : (i.cut take).addr = i.addr := if_pos ht
    rw [haddr]
    exact h.run ht
  · have := h.add ht
    rw [haddr (by rw [show i.type = .add from ht]; exact RType.noConfusion)]
    omega
  · have := h.source m ht hm
    rw [haddr (by rw [show i.type = .cpy m from ht]; exact RType.noConfusion)]
    omega
  · exact absurd hm (hnot m ht)
  · exact absurd hm (hnot m ht)
  · have hbyte := h.bytes (take + j) (by omega)
    rw [Nat.add_assoc, ← hbyte]
    cases ht : i.type with
    | noop => exact absurd ht h.real
    | run =>
      have haddr : (i.cut take).addr = i.addr := if_pos ht
      rw [byte_run ht, byte_run (i := i.cut take) ht, haddr]
    | add =>
      rw [byte_add ht, byte_add (i := i.cut take) ht, haddr (by rw [ht]; exact RType.noConfusion),
        Nat.add_assoc]
    | cpy m =>
      rw [byte_cpy ht, byte_cpy (i := i.cut take) ht, haddr (by rw [ht]; exact RType.noConfusion),
        Nat.add_assoc]
      rfl

end Writes

/-- The whole delta is cut into windows, and copies from the target stay in theirs. -/
structure WholeState.Windowed (s : WholeState) : Prop where
  hard : ∀ info ∈ s.wininfo, info.length ≤ hardMaxWinsize
  stays : ∀ i ∈ s.inst, ∀ m, i.type = .cpy m → i.mode = 0 → ∀ info ∈ s.wininfo,
    info.offset ≤ i.position → i.position < info.offset + info.length →
    info.offset ≤ i.addr ∧ i.position + i.size ≤ info.offset + info.length

section Interp
variable {adds base word mid : List UInt8} {infos : List Wininfo} {p : ℕ} {i : Winst}

/-- An instruction that has been carried out has written the output. -/
theorem Winst.Sound.writes (h : i.Sound adds) (hposn : i.position = p) (hsize : i.size ≠ 0)
    (hp : p ≤ word.length) {o : Op UInt8} (ho : i.op adds = some o)
    (happ : o.apply base (word.take p) = some mid) (hmid : mid <+: word)
    (hstays : ∀ m, i.type = .cpy m → i.mode = 0 → ∀ info ∈ infos, info.offset ≤ p →
      p < info.offset + info.length →
      info.offset ≤ i.addr ∧ p + i.size ≤ info.offset + info.length) :
    i.Writes adds base word infos p := by
  have hlen : (word.take p).length = p := List.length_take_of_le hp
  have hmidlen : mid.length = p + i.size := by
    rw [Op.length_apply happ, hlen, Winst.op_size ho]
  have hget : ∀ k < p + i.size, mid[k]? = word[k]? := by
    intro k hk
    obtain ⟨rest, hrest⟩ := hmid
    rw [← hrest, List.getElem?_append_left (by omega)]
  have happended : ∀ bytes : List UInt8, mid = word.take p ++ bytes → ∀ j < i.size,
      bytes[j]? = word[p + j]? := by
    intro bytes heq j hj
    rw [← hget (p + j) (by omega), heq, List.getElem?_append_right (by omega), hlen,
      Nat.add_sub_cancel_left]
  refine ⟨Nat.pos_of_ne_zero hsize, h.ne, h.run, h.add, fun m ht hm => ?_,
    fun m ht hm => hposn ▸ h.target m ht hm, hstays, fun j hj => ?_, hmidlen ▸ hmid.length_le⟩
  · rw [Winst.op_cpy ht, if_neg hm] at ho
    cases ho
    by_contra hout
    rw [Op.apply_source_of_lt hsize (Nat.lt_of_not_le hout)] at happ
    cases happ
  · cases ht : i.type with
    | noop => exact absurd ht h.ne
    | run =>
      have hlt := h.run ht
      rw [Winst.op_run ht, List.getElem?_eq_getElem hlt] at ho
      cases ho
      rw [byte_run ht, ← happended _ (Option.some.inj happ).symm j hj,
        List.getElem?_replicate_of_lt hj, List.getElem?_eq_getElem hlt]
    | add =>
      have hle := h.add ht
      rw [Winst.op_add ht, if_pos hle] at ho
      cases ho
      rw [byte_add ht, ← happended _ (Option.some.inj happ).symm j hj, List.getElem?_take_of_lt hj,
        List.getElem?_drop]
    | cpy m =>
      rw [byte_cpy ht]
      rw [Winst.op_cpy ht] at ho
      split
      · rename_i hm
        have hbefore := h.target m ht hm
        rw [if_pos hm] at ho
        cases ho
        have hcopy := copyOverlap_getElem happ hj
        rw [hlen, hget _ (by omega), hget _ (by omega)] at hcopy
        exact hcopy.symm
      · rename_i hm
        rw [if_neg hm] at ho
        cases ho
        have hinside : i.addr + i.size ≤ base.length := by
          by_contra hout
          rw [Op.apply_source_of_lt hsize (Nat.lt_of_not_le hout)] at happ
          cases happ
        rw [Op.apply_source_of_le (.inr hinside)] at happ
        rw [← happended _ (Option.some.inj happ).symm j hj, List.getElem?_take_of_lt hj,
          List.getElem?_drop]

theorem writesFrom_of_interp {is : List Winst} (hlaid : Laid p is)
    (hsound : ∀ i ∈ is, i.Sound adds) (hpos : ∀ i ∈ is, i.size ≠ 0)
    (hstays : ∀ i ∈ is, ∀ m, i.type = .cpy m → i.mode = 0 → ∀ info ∈ infos,
      info.offset ≤ i.position → i.position < info.offset + info.length →
      info.offset ≤ i.addr ∧ i.position + i.size ≤ info.offset + info.length)
    (hp : p ≤ word.length) (h : interpFrom adds base is (word.take p) = some word) :
    WritesFrom adds base word infos p is := by
  induction is generalizing p with
  | nil =>
    have heq := congrArg List.length (Option.some.inj h)
    rw [List.length_take] at heq
    change p = word.length
    omega
  | cons i is ih =>
    obtain ⟨hposn, hlaid'⟩ := hlaid
    obtain ⟨o, ho, h⟩ := Option.bind_eq_some_iff.mp h
    obtain ⟨mid, happ, h⟩ := Option.bind_eq_some_iff.mp h
    have hmid := prefix_interpFrom h
    have hwrites := (hsound i List.mem_cons_self).writes hposn (hpos i List.mem_cons_self) hp ho
      happ hmid (hposn ▸ hstays i List.mem_cons_self)
    have hmidlen : mid.length = p + i.size := by
      rw [Op.length_apply happ, List.length_take_of_le hp, Winst.op_size ho]
    refine ⟨hwrites, ih hlaid' (fun j hj => hsound j (.tail _ hj)) (fun j hj => hpos j (.tail _ hj))
      (fun j hj => hstays j (.tail _ hj)) hwrites.within ?_⟩
    rw [← hmidlen, ← List.prefix_iff_eq_take.mp hmid]
    exact h

end Interp

/-- What has been entered of the window `win` into the stream `e`: true matches that do not overlap,
and the bytes between them. -/
structure MergeOutput.Part (base win : List UInt8) (e : Encoder) (w : MergeOutput) : Prop where
  enc : ∃ used free size, w.enc = { e with ioptUsed := used, ioptFree := free, ioptSize := size }
  kind : ∀ r ∈ w.enc.ioptUsed, r.type = .run ∨ r.type = .cpy 0
  pos : ∀ r ∈ w.enc.ioptUsed, 0 < r.size
  within : ∀ r ∈ w.enc.ioptUsed, r.pos + r.size ≤ w.windowPos
  holds : ∀ r ∈ w.enc.ioptUsed, TrueMatch base win r
  source : ∀ r ∈ w.enc.ioptUsed, r.type = .cpy 0 → r.xtra ≠ 0 → ∃ lo hi,
    w.windowSrc = some (lo, hi) ∧ lo ≤ r.addr ∧ r.addr + r.size ≤ hi
  target : ∀ r ∈ w.enc.ioptUsed, r.type = .cpy 0 → r.xtra = 0 → r.addr < r.pos
  apart : w.enc.ioptUsed.Pairwise fun a b => a.pos + a.size ≤ b.pos
  gaps : ∀ i < w.windowPos, (∀ r ∈ w.enc.ioptUsed, r.pos ≤ i → r.pos + r.size ≤ i) →
    w.bdata[i]? = win[i]?
  range : ∀ lo hi, w.windowSrc = some (lo, hi) → lo < hi ∧ hi ≤ base.length

theorem ioptGetSlot_unlimited {e : Encoder} (h : e.ioptUnlimited = true) (r : Rinst) :
    ∃ free size, ioptGetSlot r e = .ok () { e with
      ioptUsed := e.ioptUsed ++ [r], ioptFree := free, ioptSize := size } := by
  unfold ioptGetSlot
  by_cases hfree : e.ioptFree = 0
  · rw [if_pos hfree, if_pos h, Outcome.andThen_ok]
    exact ⟨_, _, if_neg (by decide : ioptElts ≠ 0)⟩
  · rw [if_neg hfree, Outcome.andThen_ok, if_neg hfree]
    exact ⟨_, _, rfl⟩

section Part
variable {base win : List UInt8} {e : Encoder} {w : MergeOutput}

theorem MergeOutput.Part.enter (h : w.Part base win e) (hun : e.ioptUnlimited = true) (r : Rinst)
    (range : Option (ℕ × ℕ)) {take : ℕ} (hpos : r.pos = w.windowPos) (hsize : r.size = take)
    (htake : 0 < take)
    (hkind : r.type = .run ∨ r.type = .cpy 0) (htrue : TrueMatch base win r)
    (hwide : ∀ lo hi, w.windowSrc = some (lo, hi) →
      ∃ lo' hi', range = some (lo', hi') ∧ lo' ≤ lo ∧ hi ≤ hi')
    (hsource : r.type = .cpy 0 → r.xtra ≠ 0 → ∃ lo hi, range = some (lo, hi) ∧ lo ≤ r.addr ∧
      r.addr + r.size ≤ hi) (htarget : r.type = .cpy 0 → r.xtra = 0 → r.addr < r.pos)
    (hrange : ∀ lo hi, range = some (lo, hi) → lo < hi ∧ hi ≤ base.length) :
    ∃ w', onRecode (ioptGetSlot r) { w with windowSrc := range } = .ok () w' ∧
      w'.bdata = w.bdata ∧ w'.windowPos = w.windowPos ∧ w'.outputPos = w.outputPos ∧
      ∀ out, ({ w' with windowPos := w.windowPos + take, outputPos := out } : MergeOutput).Part base
        win e := by
  obtain ⟨used, free, size, henc⟩ := h.enc
  obtain ⟨free', size', hslot⟩ := ioptGetSlot_unlimited (e := w.enc) (by rw [henc]; exact hun) r
  have hold := h.within
  refine ⟨_, congrArg (Outcome.mapState _) hslot, rfl, rfl, rfl, fun out => ?_⟩
  refine ⟨⟨w.enc.ioptUsed ++ [r], free', size', ?_⟩, ?_, ?_, ?_, ?_, ?_, ?_, ?_, fun i hi hq => ?_,
    hrange⟩
  · dsimp only
    rw [henc]
  · exact List.forall_mem_append.mpr ⟨h.kind, List.forall_mem_singleton.mpr hkind⟩
  · exact List.forall_mem_append.mpr ⟨h.pos, List.forall_mem_singleton.mpr (by omega)⟩
  · refine List.forall_mem_append.mpr ⟨fun s hs => ?_, List.forall_mem_singleton.mpr ?_⟩
    · have := hold s hs
      dsimp only
      omega
    · dsimp only
      omega
  · exact List.forall_mem_append.mpr ⟨h.holds, List.forall_mem_singleton.mpr htrue⟩
  · refine List.forall_mem_append.mpr ⟨fun s hs ht hx => ?_, List.forall_mem_singleton.mpr hsource⟩
    obtain ⟨lo, hi, hsrc, hlo, hhi⟩ := h.source s hs ht hx
    obtain ⟨lo', hi', hsrc', hlo', hhi'⟩ := hwide lo hi hsrc
    exact ⟨lo', hi', hsrc', hlo'.trans hlo, hhi.trans hhi'⟩
  · exact List.forall_mem_append.mpr ⟨h.target, List.forall_mem_singleton.mpr htarget⟩
  · refine List.pairwise_append.mpr ⟨h.apart, List.pairwise_singleton _ _, fun s hs t ht => ?_⟩
    rw [List.mem_singleton.mp ht, hpos]
    exact hold s hs
  · obtain ⟨hq, hlast⟩ := List.forall_mem_append.mp hq
    have := List.forall_mem_singleton.mp hlast
    dsimp only at hi
    exact h.gaps i (by omega) hq

theorem getElem?_store {buffer bytes : List UInt8} {pos : ℕ}
    (h : pos + bytes.length ≤ buffer.length)
    (i : ℕ) : (store buffer pos bytes)[i]? =
      if pos ≤ i ∧ i < pos + bytes.length then bytes[i - pos]? else buffer[i]? := by
  have hlen : (buffer.take pos).length = pos := List.length_take_of_le (by omega)
  unfold store
  rw [List.append_assoc]
  by_cases hlt : i < pos
  · rw [if_neg (by omega), List.getElem?_append_left (by omega), List.getElem?_take_of_lt hlt]
  · rw [List.getElem?_append_right (by omega), hlen]
    by_cases hin : i < pos + bytes.length
    · rw [if_pos ⟨by omega, hin⟩, List.getElem?_append_left (by omega)]
    · rw [if_neg (by omega), List.getElem?_append_right (by omega), List.getElem?_drop]
      congr 1
      omega

theorem length_store {buffer bytes : List UInt8} {pos : ℕ}
    (h : pos + bytes.length ≤ buffer.length) :
    (store buffer pos bytes).length = buffer.length := by
  unfold store
  rw [List.length_append, List.length_append, List.length_take, List.length_drop]
  omega

/-- The bytes of an ADD are stored at the end of what there is. -/
theorem MergeOutput.Part.fill (h : w.Part base win e) (bytes : List UInt8)
    (hroom : w.windowPos + bytes.length ≤ w.bdata.length)
    (hbytes : ∀ j < bytes.length, bytes[j]? = win[w.windowPos + j]?) (out : ℕ) :
    ({ w with
      bdata := store w.bdata w.windowPos bytes
      windowPos := w.windowPos + bytes.length
      outputPos := out } : MergeOutput).Part base win e := by
  refine ⟨h.enc, h.kind, h.pos, fun r hr => ?_, h.holds, h.source, h.target, h.apart,
    fun i hi hq => ?_, h.range⟩
  · have := h.within r hr
    dsimp only
    omega
  · dsimp only at hi hq ⊢
    rw [getElem?_store hroom]
    split
    · rename_i hin
      rw [hbytes _ (by omega)]
      congr 1
      omega
    · exact h.gaps i (by omega) hq

theorem widenRange_spec {range : Option (ℕ × ℕ)} {addr take : ℕ} (htake : 0 < take)
    (haddr : addr + take ≤ base.length) (hbase : base.length < xoff.modulus)
    (h : ∀ lo hi, range = some (lo, hi) → lo < hi ∧ hi ≤ base.length) :
    (widenRange range addr take).1 ≤ addr ∧ addr + take ≤ (widenRange range addr take).2 ∧
      (widenRange range addr take).1 < (widenRange range addr take).2 ∧
      (widenRange range addr take).2 ≤ base.length ∧
      ∀ lo hi, range = some (lo, hi) →
        (widenRange range addr take).1 ≤ lo ∧ hi ≤ (widenRange range addr take).2 := by
  unfold widenRange
  rw [xoff.add_eq (by omega)]
  cases range with
  | none => exact ⟨le_rfl, le_rfl, by dsimp only; omega, haddr, fun lo hi h => by cases h⟩
  | some r =>
    obtain ⟨lo, hi⟩ := r
    have := h lo hi rfl
    dsimp only
    refine ⟨by omega, by omega, by omega, by omega, fun lo' hi' h => ?_⟩
    cases h
    omega

variable {adds word : List UInt8} {infos : List Wininfo} {info : Wininfo} {i : Winst}

/-- One instruction, or the part of it that fits into the window. -/
theorem mergeOutputInst_ok (h : w.Part base win e) (hun : e.ioptUnlimited = true)
    (hi : i.Writes adds base word infos (info.offset + w.windowPos)) (hinfo : info ∈ infos)
    (hwin : win = segment word info.offset info.length)
    (hword : info.offset + info.length ≤ word.length) (hbelow : word.length < xoff.modulus)
    (hbase : base.length < xoff.modulus) (hbdata : info.length ≤ w.bdata.length) {take : ℕ}
    (htake : 0 < take)
    (hsize : take ≤ i.size) (hfits : w.windowPos + take ≤ info.length) :
    ∃ w', mergeOutputInst adds info.offset i take w = .ok () w' ∧
      w'.bdata.length = w.bdata.length ∧ w'.windowPos = w.windowPos ∧ w'.outputPos = w.outputPos ∧
      ∀ out, ({ w' with windowPos := w.windowPos + take, outputPos := out } : MergeOutput).Part base
        win e := by
  have hmod : xoff.modulus = usize.modulus := rfl
  have hlen : win.length = info.length := by
    rw [hwin, segment, List.length_take, List.length_drop]
    omega
  -- a byte of the window is one of the output
  have hget : ∀ j < info.length, win[j]? = word[info.offset + j]? := by
    intro j hj
    rw [hwin, segment, List.getElem?_take_of_lt hj, List.getElem?_drop]
  have hbyte : ∀ j < take, i.byte adds base word j = win[w.windowPos + j]? := by
    intro j hj
    rw [hget _ (by omega), hi.bytes j (by omega), Nat.add_assoc]
  unfold mergeOutputInst
  cases ht : i.type with
  | noop => exact absurd ht hi.real
  | run =>
    have hlt := hi.run ht
    dsimp only
    rw [List.getElem?_eq_getElem hlt]
    have htrue : TrueMatch base win
        { type := .run, xtra := adds[i.addr].toNat, pos := w.windowPos, size := take } := by
      intro j hj
      unfold Rinst.Agrees
      dsimp only
      rw [← hbyte j hj, Winst.byte_run ht, List.getElem?_eq_getElem hlt, UInt8.ofNat_toNat]
    obtain ⟨w', hw', hbd, hpos, hout, hpart⟩ := h.enter hun _ w.windowSrc rfl rfl htake (.inl rfl)
      htrue (fun lo hi h => ⟨lo, hi, h, le_rfl, le_rfl⟩) (fun h => RType.noConfusion h)
      (fun h => RType.noConfusion h) h.range
    exact ⟨w', hw', congrArg List.length hbd, hpos, hout, hpart⟩
  | add =>
    have hle := hi.add ht
    have hslice : slice adds i.addr take = some ((adds.drop i.addr).take take) := by
      unfold slice
      rw [if_neg (by omega), if_pos (by omega)]
    have hlen : ((adds.drop i.addr).take take).length = take :=
      List.length_take_of_le (by rw [List.length_drop]; omega)
    dsimp only
    rw [hslice]
    dsimp only
    rw [if_pos (by omega)]
    refine ⟨_, rfl, length_store (by omega), rfl, rfl, fun out => ?_⟩
    have hpart := h.fill ((adds.drop i.addr).take take) (by omega) (fun j hj => ?_) out
    · rwa [hlen] at hpart
    · rw [hlen] at hj
      rw [← hbyte j hj, Winst.byte_add ht, List.getElem?_take_of_lt hj, List.getElem?_drop]
  | cpy m =>
    dsimp only
    by_cases hmode : i.mode = 0
    · obtain ⟨hstart, hend⟩ := hi.stays m ht hmode info hinfo (by omega) (by omega)
      have hbefore := hi.before m ht hmode
      rw [if_neg (not_not_intro hmode), if_neg (Nat.not_lt.mpr hstart),
        xoff.sub_eq (by omega) hstart]
      have htrue : TrueMatch base win
          { type := .cpy 0, pos := w.windowPos, size := take, addr := i.addr - info.offset } := by
        intro j hj
        unfold Rinst.Agrees
        dsimp only at hj ⊢
        rw [if_neg (not_not_intro rfl), xoff.add_eq (by omega), ← hbyte j hj, Winst.byte_cpy ht,
          if_pos hmode, hget _ (by omega)]
        refine ⟨?_, by omega⟩
        congr 1
        omega
      obtain ⟨w', hw', hbd, hpos, hout, hpart⟩ := h.enter hun _ w.windowSrc rfl rfl htake
        (.inr rfl) htrue (fun lo hi h => ⟨lo, hi, h, le_rfl, le_rfl⟩) (fun _ h => absurd rfl h)
        (fun _ _ => by dsimp only; omega) h.range
      exact ⟨w', hw', congrArg List.length hbd, hpos, hout, hpart⟩
    · have haddr := hi.source m ht hmode
      rw [if_pos hmode]
      obtain ⟨hlo, hhi, hlt, hend, hwide⟩ := widenRange_spec htake
        (show i.addr + take ≤ base.length by omega) hbase h.range
      have htrue : TrueMatch base win
          { type := .cpy 0, xtra := 1, pos := w.windowPos, size := take, addr := i.addr } := by
        intro j hj
        unfold Rinst.Agrees
        dsimp only at hj ⊢
        rw [if_pos Nat.one_ne_zero, xoff.add_eq (by omega), ← hbyte j hj, Winst.byte_cpy ht,
          if_neg hmode]
        exact ⟨rfl, by omega⟩
      obtain ⟨w', hw', hbd, hpos, hout, hpart⟩ := h.enter hun _
        (some (widenRange w.windowSrc i.addr take)) rfl rfl htake (.inr rfl) htrue
        (fun lo hi h => ⟨_, _, rfl, hwide lo hi h⟩) (fun _ _ => ⟨_, _, rfl, hlo, hhi⟩)
        (fun _ h => absurd h Nat.one_ne_zero) (fun lo hi h => by
          obtain ⟨rfl, rfl⟩ := Prod.mk.inj (Option.some.inj h)
          exact ⟨hlt, hend⟩)
      exact ⟨w', hw', congrArg List.length hbd, hpos, hout, hpart⟩

/-- The loop over the instructions fills the window; what is left over writes the rest. -/
theorem mergeWindow_ok (hun : e.ioptUnlimited = true) (hinfo : info ∈ infos)
    (hwin : win = segment word info.offset info.length)
    (hword : info.offset + info.length ≤ word.length) (hbelow : word.length < xoff.modulus)
    (hadds : adds.length < xoff.modulus) (hbase : base.length < xoff.modulus) {insts : List Winst}
    (h : w.Part base win e)
    (hinsts : WritesFrom adds base word infos (info.offset + w.windowPos) insts)
    (hbdata : info.length ≤ w.bdata.length) (hpos : w.windowPos ≤ info.length)
    (hout : w.outputPos = info.offset + w.windowPos) :
    ∃ insts' w', mergeWindow adds info.offset info.length insts w = .ok insts' w' ∧
      w'.Part base win e ∧ w'.windowPos = info.length ∧ info.length ≤ w'.bdata.length ∧
      w'.outputPos = info.offset + info.length ∧
      WritesFrom adds base word infos (info.offset + info.length) insts' := by
  induction insts generalizing w with
  | nil =>
    have hend : info.offset + w.windowPos = word.length := hinsts
    have hfull : w.windowPos = info.length := by omega
    exact ⟨[], w, rfl, h, hfull, hbdata, hfull ▸ hout, hfull ▸ hinsts⟩
  | cons i insts ih =>
    obtain ⟨hi, hrest⟩ := hinsts
    have hsize := hi.pos
    have hwithin := hi.within
    unfold mergeWindow
    dsimp only
    by_cases hlt : w.windowPos < info.length
    · rw [if_pos hlt]
      have htake : 0 < min i.size (info.length - w.windowPos) := by omega
      obtain ⟨w', hw', hbd, hwpos, hwout, hpart⟩ := mergeOutputInst_ok h hun hi hinfo hwin hword
        hbelow hbase hbdata htake (by omega) (by omega)
      rw [hw', Outcome.andThen_ok, hwpos, hwout, hout, xoff.add_eq (by omega)]
      by_cases hwhole : min i.size (info.length - w.windowPos) = i.size
      · rw [if_pos hwhole]
        refine ih (hpart _) ?_ ?_ ?_ ?_
        · dsimp only
          rw [hwhole, ← Nat.add_assoc]
          exact hrest
        · exact hbdata.trans hbd.ge
        · dsimp only
          omega
        · dsimp only
          omega
      · rw [if_neg hwhole]
        have hnot : ∀ m, i.type = .cpy m → i.mode ≠ 0 := by
          intro m ht hm
          have := (hi.stays m ht hm info hinfo (by omega) (by omega)).2
          omega
        have heq : min i.size (info.length - w.windowPos) = info.length - w.windowPos := by omega
        rw [heq] at hpart ⊢
        have hfull : info.offset + w.windowPos + (info.length - w.windowPos) =
            info.offset + info.length := by omega
        refine ⟨_, _, rfl, hpart _, by dsimp only; omega, hbdata.trans hbd.ge, hfull, ?_, ?_⟩
        · have hrem : info.length - w.windowPos < i.size := by omega
          have hcut := hi.cut hrem hadds hbase hnot
          rwa [hfull] at hcut
        · rw [← hfull, show info.offset + w.windowPos + (info.length - w.windowPos) +
            (i.cut (info.length - w.windowPos)).size = info.offset + w.windowPos + i.size by
              change _ + (i.size - _) = _
              omega]
          exact hrest
    · have hfull : w.windowPos = info.length := by omega
      rw [if_neg hlt]
      exact ⟨_, w, rfl, h, hfull, hbdata, hfull ▸ hout, hfull ▸ ⟨hi, hrest⟩⟩

end Part

/-- Instructions that do not overlap are left as they are. -/
theorem compact_apart {rs : List Rinst} (hfit : ∀ r ∈ rs, r.pos + r.size < usize.modulus)
    (hapart : rs.Pairwise fun a b => a.pos + a.size ≤ b.pos) : compact true rs = rs := by
  suffices h : ∀ fuel, compactFrom true fuel rs = rs from h _
  intro fuel
  induction fuel generalizing rs with
  | zero => rfl
  | succ fuel ih =>
    match rs with
    | [] => rfl
    | [_] => rfl
    | r1 :: r2 :: rest =>
      obtain ⟨hfirst, hrest⟩ := List.pairwise_cons.mp hapart
      have hle := hfirst r2 List.mem_cons_self
      have hround : overlapRound true r1 r2 rest = some ([r1], r2 :: rest) := by
        unfold overlapRound
        dsimp only
        rw [usize.add_eq (hfit r1 List.mem_cons_self), if_pos hle]
      rw [compactFrom, hround]
      dsimp only
      rw [ih (fun r hr => hfit r (.tail _ hr)) hrest]
      rfl

/-- `recode_stream` between two windows. -/
structure MergeOutput.Between (s : MergeSettings) (w : MergeOutput) : Prop where
  rested : w.enc.Rested
  queue : w.enc.ioptUsed = []
  unlimited : w.enc.ioptUnlimited = true
  adler32 : w.enc.flags.adler32 = false
  recode : w.enc.flags.adler32Recode = true → s.checked = true
  encState : w.enc.encState = .input

theorem Encoder.winstart_eq (e : Encoder) (checked : Bool) (info : Wininfo)
    (h : e.flags.adler32Recode = true → checked = true) : ∃ flags sum,
      e.winstart checked info = { e with
        encState := .search
        acache := e.acache.init
        unencodedOffset := 0
        flags := flags
        recodeAdler32 := sum } ∧
      flags.adler32 = e.flags.adler32 ∧ (flags.adler32Recode = true → checked = true) ∧
      (checked = true → sum = info.adler32) ∧ (checked = false → sum = e.recodeAdler32) := by
  cases checked with
  | true => exact ⟨_, _, rfl, rfl, fun _ => rfl, fun _ => rfl, fun h => Bool.noConfusion h⟩
  | false => exact ⟨_, _, rfl, rfl, h, fun h => Bool.noConfusion h, fun _ => rfl⟩

section Window
variable {base win : List UInt8} {e : Encoder} {w : MergeOutput} {s : MergeSettings}
  {info : Wininfo}

theorem MergeOutput.ready_eq (w : MergeOutput) (source : Source) : ∃ decided src taroff,
    w.ready source = { w.enc with
      nextIn := w.bdata.take w.windowPos
      availIn := w.windowPos
      encState := .instr
      srcwinDecided := decided
      src := src
      taroff := taroff } := by
  unfold ready
  dsimp only
  split <;> exact ⟨_, _, _, rfl⟩

theorem MergeOutput.ready_source (w : MergeOutput) (source : Source) :
    (w.ready source).src ≠ .dead ∧ ((w.ready source).src = .null → (w.ready source).taroff = 0) ∧
      ∀ t, (w.ready source).src = .live t →
        (w.ready source).srcwinDecided = true ∧ (w.ready source).taroff = t.srclen := by
  unfold ready
  cases w.windowSrc with
  | none => exact ⟨SourceRef.noConfusion, fun _ => rfl, fun _ ht => SourceRef.noConfusion ht⟩
  | some r =>
    refine ⟨SourceRef.noConfusion, fun ht => SourceRef.noConfusion ht, fun t ht => ?_⟩
    cases ht
    exact ⟨rfl, rfl⟩

theorem MergeOutput.Part.compact_eq (h : w.Part base win e) (hhard : w.windowPos ≤ hardMaxWinsize) :
    compact true w.enc.ioptUsed = w.enc.ioptUsed := by
  have hmax : hardMaxWinsize < usize.modulus := by decide
  refine compact_apart (fun r hr => ?_) h.apart
  have := h.within r hr
  omega

/-- The segment of the base file that a filled window copies from. -/
theorem MergeOutput.Part.segment (h : w.Part base win e) (source : Source)
    (hbase : base.length < xoff.modulus) :
    (w.windowSrc = none ∧ (w.ready source).segment = (0, 0)) ∨
      ∃ lo hi, w.windowSrc = some (lo, hi) ∧ lo < hi ∧ hi ≤ base.length ∧
        (w.ready source).segment = (lo, hi - lo) := by
  unfold ready Encoder.segment
  cases hw : w.windowSrc with
  | none => exact .inl ⟨rfl, rfl⟩
  | some r =>
    obtain ⟨lo, hi⟩ := r
    have hrange := h.range lo hi hw
    dsimp only
    rw [xoff.sub_eq (by omega) (by omega), if_pos (.inl rfl)]
    exact .inr ⟨lo, hi, rfl, hrange.1, hrange.2, rfl⟩

theorem MergeOutput.Part.segment_fits (h : w.Part base win e) (source : Source)
    (hhard : w.windowPos ≤ hardMaxWinsize) (hroom : base.length + hardMaxWinsize < usize.modulus) :
    ((w.ready source).segment.2 = 0 ∨
        (w.ready source).segment.1 + (w.ready source).segment.2 ≤ base.length) ∧
      (w.ready source).segment.1 + (w.ready source).segment.2 < xoff.modulus ∧
      (w.ready source).segment.2 + w.windowPos < usize.modulus := by
  have hmod : xoff.modulus = usize.modulus := rfl
  rcases h.segment source (by omega) with ⟨-, hseg⟩ | ⟨lo, hi, -, hlo, hhi, hseg⟩
  all_goals
    rw [hseg]
    dsimp only
    omega

theorem MergeOutput.Part.taroff_ne_zero (h : w.Part base win e) (source : Source)
    (hbase : base.length < xoff.modulus) (hsome : w.windowSrc.isSome = true) :
    (w.ready source).taroff ≠ 0 := by
  obtain ⟨⟨lo, hi⟩, hw⟩ := Option.isSome_iff_exists.mp hsome
  have hrange := h.range lo hi hw
  unfold ready
  rw [hw]
  dsimp only
  rw [xoff.sub_eq (by omega) (by omega)]
  omega

/-- What has been entered may be encoded. -/
theorem MergeOutput.Part.takes (h : w.Part base win e) (source : Source)
    (hbase : base.length < xoff.modulus) {r : Rinst} (hmem : r ∈ w.enc.ioptUsed) :
    ((w.ready source).onInput win).Takes base r := by
  obtain ⟨decided, src, taroff, hready⟩ := w.ready_eq source
  have hkind := h.kind r hmem
  have hcpy : ∀ m, r.type = .cpy m → r.type = .cpy 0 := by
    intro m hm
    exact hkind.resolve_left fun hrun => RType.noConfusion (hm.symm.trans hrun)
  have havail : ((w.ready source).onInput win).availIn = w.windowPos := by
    rw [hready]
    rfl
  refine ⟨fun hn => ?_, h.pos r hmem, havail ▸ h.within r hmem, h.holds r hmem,
    fun m hm hx => ?_, fun m hm hx => h.target r hmem (hcpy m hm) hx⟩
  · rcases hkind with hk | hk <;> rw [hn] at hk <;> exact RType.noConfusion hk
  · obtain ⟨lo, hi, hw, hlo, hhi⟩ := h.source r hmem (hcpy m hm) hx
    rcases h.segment source hbase with ⟨hnone, -⟩ | ⟨lo', hi', hw', -, -, hseg⟩
    · cases hnone.symm.trans hw
    · cases hw.symm.trans hw'
      have hseg' : ((w.ready source).onInput win).segment = (lo, hi - lo) := hseg
      rw [hseg']
      dsimp only
      omega

/-- A window that has been filled is staged, had its input been the window. -/
theorem MergeOutput.Part.staged (hr : e.Rested)
    (hadler : e.flags.adler32 = false) (hrecode : e.flags.adler32Recode = true → s.checked = true)
    (h : w.Part base win (e.winstart s.checked info)) (hwin : win.length = w.windowPos)
    (hhard : w.windowPos ≤ hardMaxWinsize) (hroom : base.length + hardMaxWinsize < usize.modulus)
    (hsum : s.checked = true → info.adler32 = adler32 1 win) :
    ((w.ready s.source).onInput win).Staged base := by
  have hmod : xoff.modulus = usize.modulus := rfl
  obtain ⟨flags, sum, hstart, hflag, hflag', hsum₁, hsum₂⟩ :=
    e.winstart_eq s.checked info hrecode
  obtain ⟨used, free, size, henc⟩ := h.enc
  have hused : w.enc.ioptUsed = used := by rw [henc]
  obtain ⟨hdead, hnull, hlive⟩ := w.ready_source s.source
  obtain ⟨hinside, hbelow, hfits⟩ := h.segment_fits s.source hhard hroom
  have htakes := fun r => h.takes (r := r) s.source (by omega)
  have hcompact := h.compact_eq hhard
  obtain ⟨decided, src, taroff, hready⟩ := w.ready_eq s.source
  rw [henc, hstart] at hready
  rw [hready] at hdead hnull hlive hinside hbelow hfits htakes ⊢
  rw [hused] at hcompact htakes
  have hapart : Apart 0 (compact true used) := by
    rw [hcompact]
    exact ⟨fun _ _ => Nat.zero_le _, hused ▸ h.apart⟩
  refine ⟨.start ⟨hdead, fun _ _ => .inr rfl, hnull, fun t ht _ => (hlive t ht).2, hr.near, hr.same,
    hwin, hhard, Nat.zero_le _⟩ rfl (AddrCache.init_rfc3284 hr.near hr.same) hr.iout hr.data
    hr.inst hr.addr, fun r hr => htakes r (hcompact ▸ hr), hapart, hr.hdr, hr.secType,
    fun t ht hd => ?_, hinside, hbelow, hfits, ?_, hr.appheader, fun a ha => ?_⟩
  · exact Bool.noConfusion ((hlive t ht).1.symm.trans hd)
  · dsimp only
    cases hc : s.checked with
    | true =>
      rw [hsum₁ hc, hsum hc]
      exact adler32_lt _ _
    | false =>
      rw [hsum₂ hc]
      exact hr.recodeAdler32
  · unfold Encoder.sentAdler32 Encoder.onInput at ha
    dsimp only at ha
    rw [hflag, hadler, Bool.false_or] at ha
    split at ha
    · rename_i hset
      cases ha
      exact (hsum₁ (hflag' hset)).trans (hsum (hflag' hset))
    · cases ha

/-- The input need not be right where a match has been entered. -/
theorem MergeOutput.Part.gaps_ready (h : w.Part base win e) (hwin : win.length = w.windowPos) :
    SameGaps 0 w.enc.ioptUsed win (w.bdata.take w.windowPos) := by
  intro i _ hq
  by_cases hi : i < w.windowPos
  · rw [List.getElem?_take_of_lt hi]
    exact h.gaps i hi hq
  · rw [List.getElem?_take_eq_none (by omega), List.getElem?_eq_none (by omega)]

theorem Encoder.Rested.onInput (h : e.Rested) (input : List UInt8) : (e.onInput input).Rested :=
  ⟨h.src, h.cleared, h.decided, h.null, h.near, h.same, h.iout, h.hdr, h.data, h.inst, h.addr,
    h.secType, h.recodeAdler32, h.appheader⟩

theorem MergeOutput.Part.start (hq : e.ioptUsed = []) (hw : w.enc = e) (hpos : w.windowPos = 0)
    (hsrc : w.windowSrc = none) : w.Part base win e := by
  have hused : w.enc.ioptUsed = [] := hw ▸ hq
  have hnone : ∀ {p : Rinst → Prop}, ∀ r ∈ w.enc.ioptUsed, p r := fun r hr =>
    absurd (hused ▸ hr) List.not_mem_nil
  refine ⟨⟨_, _, _, hw⟩, hnone, hnone, hnone, hnone, hnone, hnone, hused ▸ .nil, fun i hi => ?_,
    fun lo hi h => ?_⟩
  · omega
  · cases hsrc.symm.trans h

variable {adds word : List UInt8} {infos : List Wininfo} {insts : List Winst}

/-- One window: what is written stands for its part of the output, and what is left over writes the
rest. -/
theorem mergeOutputWindow_ok (h : w.Between s) (hinfo : info ∈ infos)
    (hword : info.offset + info.length ≤ word.length) (hbelow : word.length < xoff.modulus)
    (hadds : adds.length < xoff.modulus) (hhard : info.length ≤ hardMaxWinsize)
    (hroom : base.length + hardMaxWinsize < usize.modulus)
    (hsum : s.checked = true →
      info.adler32 = adler32 1 (segment word info.offset info.length))
    (hinsts : WritesFrom adds base word infos info.offset insts)
    (hout : w.outputPos = info.offset) :
    ∃ insts' ew w', mergeOutputWindow s adds info insts w =
        .ok (insts', (if w.enc.currentWindow = 0 then w.enc.fileHdr.bytes else []) ++
          EncodedWindow.bytes ew) w' ∧
      ew.StandsFor base (segment word info.offset info.length) ∧ w'.Between s ∧
      w'.enc.currentWindow = w.enc.currentWindow + 1 ∧ w'.enc.fileHdr = w.enc.fileHdr ∧
      w'.outputPos = info.offset + info.length ∧
      WritesFrom adds base word infos (info.offset + info.length) insts' := by
  have hmod : xoff.modulus = usize.modulus := rfl
  obtain ⟨flags, sum, hstart, hflag, hflag', -⟩ := w.enc.winstart_eq s.checked info h.recode
  have hun : (w.enc.winstart s.checked info).ioptUnlimited = true := by
    rw [hstart]
    exact h.unlimited
  have hempty : (w.enc.winstart s.checked info).ioptUsed = [] := by
    rw [hstart]
    exact h.queue
  have hbdata : info.length ≤ (s.room w.bdata info.length).length := by
    unfold MergeSettings.room
    split
    · rw [List.length_map, List.length_range]
    · omega
  obtain ⟨insts', w₁, hloop, hpart, hpos, hbd, hout₁, hrest⟩ := mergeWindow_ok hun hinfo rfl hword
    hbelow hadds (by omega) (w := { w with
      enc := w.enc.winstart s.checked info
      bdata := s.room w.bdata info.length
      windowPos := 0
      windowSrc := none }) (.start hempty rfl rfl rfl) hinsts hbdata (Nat.zero_le _) hout
  have hlen : (segment word info.offset info.length).length = w₁.windowPos := by
    rw [segment, List.length_take, List.length_drop]
    omega
  have hstaged := hpart.staged h.rested h.adler32 h.recode hlen (hpos ▸ hhard) hroom hsum
  obtain ⟨used, free, size, henc⟩ := hpart.enc
  obtain ⟨decided, src, taroff, hready⟩ := w₁.ready_eq s.source
  have hkept : (w₁.ready s.source).flags = flags ∧
      (w₁.ready s.source).currentWindow = w.enc.currentWindow ∧
      (w₁.ready s.source).fileHdr = w.enc.fileHdr ∧ (w₁.ready s.source).ioptUnlimited = true ∧
      (w₁.ready s.source).nextIn = w₁.bdata.take w₁.windowPos := by
    rw [hready, henc, hstart]
    exact ⟨rfl, rfl, rfl, h.unlimited, rfl⟩
  have hqueued : ∀ input, ((w₁.ready s.source).onInput input).ioptUsed = w₁.enc.ioptUsed ∧
      ((w₁.ready s.source).onInput input).unencodedOffset = 0 := by
    rw [hready, henc, hstart]
    exact fun _ => ⟨rfl, rfl⟩
  obtain ⟨hflags, hcur, hfile, hun', hnext⟩ := hkept
  have hcompact := hpart.compact_eq (hpos ▸ hhard)
  obtain ⟨ew, e₁, hqueue, hstands, -, -, hemptied⟩ := hstaged.encodeQueue
  -- the stream as it is, with the input that there is
  have hreal : encodeQueue (w₁.ready s.source) = .ok
      ((if w.enc.currentWindow = 0 then w.enc.fileHdr.bytes else []) ++ ew.bytes)
      (e₁.onInput (w₁.bdata.take w₁.windowPos)) := by
    have hboth := hstaged.encodeQueue_onInput (w₁.bdata.take w₁.windowPos)
      (show (w₁.ready s.source).flags.adler32 = false by rw [hflags, hflag, h.adler32])
      (fun r hr => ?_) ?_
    · rw [hqueue, Outcome.mapState_ok, ← hnext] at hboth
      refine Eq.trans hboth ?_
      rw [hnext]
      exact congrArg (fun b => Outcome.ok (b ++ ew.bytes) _) (by
        change (if (w₁.ready s.source).currentWindow = 0 then (w₁.ready s.source).fileHdr.bytes
          else []) = _
        rw [hcur, hfile])
    · have hmem : r ∈ w₁.enc.ioptUsed := by
        rwa [(hqueued _).1, hcompact] at hr
      rcases hpart.kind r hmem with hk | hk <;> rw [hk] <;> exact RType.noConfusion
    · rw [(hqueued _).1, (hqueued _).2, hcompact]
      exact hpart.gaps_ready hlen
  have hsrcset : ¬((w₁.ready s.source).taroff = 0 ∧ w₁.windowSrc.isSome = true) :=
    fun h => hpart.taroff_ne_zero s.source (by omega) h.2 h.1
  refine ⟨insts', ew, { w₁ with enc := e₁.onInput (w₁.bdata.take w₁.windowPos) }, ?_, hstands, ?_,
    ?_, ?_, hout₁, hrest⟩
  · rw [hout] at hloop
    unfold mergeOutputWindow
    rw [if_neg (not_not_intro h.encState), if_neg (not_not_intro hout), hout, hloop,
      Outcome.andThen_ok, if_neg hsrcset]
    unfold onRecode
    dsimp only
    rw [hreal]
    rfl
  · refine ⟨hemptied.toRested.onInput _, hemptied.queue, hemptied.unlimited.trans hun', ?_, ?_,
      hemptied.encState⟩
    · exact (congrArg EncFlags.adler32 (hemptied.flags.trans hflags)).trans (hflag.trans h.adler32)
    · exact fun hset => hflag' ((congrArg EncFlags.adler32Recode
        (hemptied.flags.trans hflags)).symm.trans hset)
  · exact hemptied.currentWindow.trans (congrArg (· + 1) hcur)
  · exact hemptied.fileHdr.trans hfile

end Window

def Tiles : ℕ → List Wininfo → ℕ → Prop
  | lo, [], hi => lo = hi
  | lo, info :: infos, hi => info.offset = lo ∧ Tiles (lo + info.length) infos hi

theorem Tiles.le {lo hi : ℕ} {infos : List Wininfo} (h : Tiles lo infos hi) : lo ≤ hi := by
  induction infos generalizing lo with
  | nil => exact le_of_eq h
  | cons info infos ih =>
    have := ih h.2
    omega

section Windows
variable {base adds word : List UInt8} {s : MergeSettings} {all infos : List Wininfo}

theorem mergeOutputLoop_ok (hbelow : word.length < xoff.modulus)
    (hadds : adds.length < xoff.modulus) (hroom : base.length + hardMaxWinsize < usize.modulus)
    (hall : ∀ info ∈ all, info.length ≤ hardMaxWinsize ∧ (s.checked = true →
      info.adler32 = adler32 1 (segment word info.offset info.length)))
    (hsub : ∀ info ∈ infos, info ∈ all) {p : ℕ} (htiles : Tiles p infos word.length)
    {w : MergeOutput} (h : w.Between s) {once : Bool} (honce : once = false → infos ≠ [])
    {insts : List Winst} (hinsts : WritesFrom adds base word all p insts) (hout : w.outputPos = p) :
    ∃ windows ews w', mergeOutputLoop s adds infos once insts w =
        .ok ((if w.enc.currentWindow = 0 ∧ windows ≠ [] then w.enc.fileHdr.bytes else []) ++
          (ews.map EncodedWindow.bytes).flatten) w' ∧
      StandFor base windows ews ∧ (once = false → windows ≠ []) ∧ windows.flatten = word.drop p ∧
      WithinLimits p (windows.map List.length) := by
  induction infos generalizing p w insts once with
  | nil =>
    have hend : p = word.length := htiles
    have hset : once = true := by
      by_contra hnot
      exact honce (Bool.not_eq_true _ ▸ hnot) rfl
    cases insts with
    | nil =>
      refine ⟨[], [], w, ?_, .nil, fun hnot => absurd rfl (honce hnot), ?_, trivial⟩
      · rw [if_neg fun h => h.2 rfl]
        exact if_pos ⟨rfl, hset⟩
      · rw [List.drop_eq_nil_of_le hend.ge]
        rfl
    | cons i insts =>
      have := hinsts.1.within
      have := hinsts.1.pos
      omega
  | cons info infos ih =>
    by_cases hdone : insts = [] ∧ once = true
    · have hend : p = word.length := by
        rw [hdone.1] at hinsts
        exact hinsts
      refine ⟨[], [], w, ?_, .nil, fun hnot => Bool.noConfusion (hnot.symm.trans hdone.2), ?_,
        trivial⟩
      · rw [if_neg fun h => h.2 rfl]
        exact if_pos hdone
      · rw [List.drop_eq_nil_of_le hend.ge]
        rfl
    · obtain ⟨rfl, hlater⟩ := htiles
      obtain ⟨hhard, hsum⟩ := hall info (hsub info List.mem_cons_self)
      have hword := hlater.le
      obtain ⟨insts', ew, w₁, hw, hstands, h₁, hcur₁, -, hout₁, hrest⟩ := mergeOutputWindow_ok h
        (hsub info List.mem_cons_self) hword hbelow hadds hhard hroom hsum hinsts hout
      obtain ⟨windows, ews, w₂, hws, hstand, -, hflat, hlimits⟩ := ih
        (fun i hi => hsub i (.tail _ hi)) hlater h₁ (fun h : true = false => Bool.noConfusion h)
        hrest hout₁
      rw [if_neg fun h => by omega, List.nil_append] at hws
      refine ⟨segment word info.offset info.length :: windows, ew :: ews, w₂, ?_,
        .cons hstands hstand, fun _ => List.cons_ne_nil _ _, ?_, ?_⟩
      · rw [mergeOutputLoop]
        dsimp only
        rw [if_neg hdone, hw, Outcome.andThen_ok]
        dsimp only
        rw [hws, Outcome.andThen_ok, List.append_assoc]
        simp only [ne_eq, List.cons_ne_nil, not_false_eq_true, and_true]
        rfl
      · rw [List.flatten_cons, hflat, segment, ← List.drop_drop, List.take_append_drop]
      · have hlen : (segment word info.offset info.length).length = info.length := by
          rw [segment, List.length_take, List.length_drop]
          omega
        rw [List.map_cons, hlen]
        exact ⟨by omega, hhard, hlimits⟩

end Windows

section Merged
variable {base word : List UInt8} {s : MergeSettings} {whole : WholeState}

/-- What `main_merge_output` can write: a delta that is cut into windows, on files whose sizes leave
room for the positions; the checksums that are handed on are right. -/
structure WholeState.Writable (s : MergeSettings) (base word : List UInt8) (whole : WholeState) :
    Prop extends whole.Proper, whole.Windowed where
  windows : whole.wininfo ≠ []
  tiles : Tiles 0 whole.wininfo whole.length
  denotes : whole.interp base = some word
  adds : whole.adds.length < xoff.modulus
  room : base.length + hardMaxWinsize < usize.modulus
  sums : s.checked = true → ∀ info ∈ whole.wininfo,
    info.adler32 = adler32 1 (segment word info.offset info.length)

theorem recodeStream_between {apphead : Option (List UInt8)}
    (h : (recodeStream apphead).fileHdr.Fits)
    (s : MergeSettings) (bdata : List UInt8) :
    MergeOutput.Between s ⟨recodeStream apphead, bdata, 0, 0, none⟩ where
  rested := ⟨SourceRef.noConfusion, rfl, fun _ h => SourceRef.noConfusion h, fun _ => rfl, rfl, rfl,
    rfl, rfl, rfl, rfl, rfl, rfl, Nat.two_pow_pos 32, h⟩
  queue := rfl
  unlimited := rfl
  adler32 := rfl
  recode h := Bool.noConfusion h
  encState := rfl

def mergedFileHdr : Main.MergeHeader → FileHdr
  | .write apphead => (recodeStream (some apphead)).fileHdr
  | _ => (recodeStream none).fileHdr

/-- What is written is the file header and windows that stand for the output. -/
theorem mainMergeOutput_standFor (h : whole.Writable s base word) {header : Main.MergeHeader}
    (hheader : header ≠ .refuse) (hfits : (mergedFileHdr header).Fits) :
    ∃ windows ews w', mainMergeOutput s header whole =
        .ok ((mergedFileHdr header).bytes ++ (ews.map EncodedWindow.bytes).flatten) w' ∧
      StandFor base windows ews ∧ windows ≠ [] ∧ windows.flatten = word ∧
      WithinLimits 0 (windows.map List.length) := by
  have hlen : word.length = whole.length := by
    rw [length_interpFrom h.denotes, h.length_eq, List.length_nil, Nat.zero_add]
  have hinsts : WritesFrom whole.adds base word whole.wininfo 0 whole.inst := by
    refine writesFrom_of_interp h.laid h.sound h.pos h.stays (Nat.zero_le _) ?_
    rw [List.take_zero]
    exact h.denotes
  have hall : ∀ info ∈ whole.wininfo, info.length ≤ hardMaxWinsize ∧ (s.checked = true →
      info.adler32 = adler32 1 (segment word info.offset info.length)) :=
    fun info hi => ⟨h.hard info hi, fun hc => h.sums hc info hi⟩
  have hloop : ∀ apphead : Option (List UInt8), (recodeStream apphead).fileHdr.Fits →
      ∃ windows ews w', mergeOutputLoop s whole.adds whole.wininfo false whole.inst
          ⟨recodeStream apphead, s.bdata, 0, 0, none⟩ =
          .ok ((recodeStream apphead).fileHdr.bytes ++ (ews.map EncodedWindow.bytes).flatten) w' ∧
        StandFor base windows ews ∧ windows ≠ [] ∧ windows.flatten = word ∧
        WithinLimits 0 (windows.map List.length) := by
    intro apphead happ
    obtain ⟨windows, ews, w', hok, hstand, hne, hflat, hlimits⟩ := mergeOutputLoop_ok
      (hlen ▸ h.below) h.adds h.room hall (fun _ hi => hi) (hlen ▸ h.tiles)
      (recodeStream_between happ s s.bdata) (fun _ : false = false => h.windows) hinsts rfl
    refine ⟨windows, ews, w', hok.trans ?_, hstand, hne rfl, hflat, hlimits⟩
    rw [if_pos ⟨rfl, hne rfl⟩]
  cases header with
  | refuse => exact absurd rfl hheader
  | write apphead => exact hloop (some apphead) hfits
  | plain => exact hloop none hfits

/-- The merged delta, cut into any chunks, is decoded against the base file to the bytes that the
whole delta denotes, window by window. -/
theorem mainMergeOutput_decodes {σ : Type} {env : Env σ} {app : AppSource}
    (hsec : ∀ id, env.secondary id = none) (hd : Delivery base env.getblk app)
    (hnone : ∀ ret, app ret none = none) {flags : Flags} (hflags : flags.Emits) {src : Source}
    (hsrc : src.Faithful base) (h : whole.Writable s base word) {header : Main.MergeHeader}
    (hheader : header ≠ .refuse) (hfits : (mergedFileHdr header).Fits) :
    ∃ out w' windows ews, mainMergeOutput s header whole = .ok out w' ∧
      StandFor base windows ews ∧ windows.flatten = word ∧
      ∀ cs : List (List UInt8), cs.flatten = out → ∃ tr : List (Event σ),
        (decodeDriver env app).Run (initStream flags (some src)) cs tr ∧
        tr.filterMap Event.seen = sessionShown windows ews ++ [.closed none] := by
  obtain ⟨windows, ews, w', hok, hstand, hne, hflat, hlimits⟩ :=
    mainMergeOutput_standFor h hheader hfits
  refine ⟨_, w', windows, ews, hok, hstand, hflat, fun cs hcs => ?_⟩
  have hplain : (mergedFileHdr header).secId = none := by
    cases header <;> rfl
  exact hstand.decodes hsec hd hnone hflags
    (fun t ht => by
      obtain rfl := Option.some.inj ht
      exact hsrc) hfits hplain hne (fun _ _ _ => rfl) hlimits hcs

end Merged

/-- Two windows of four bytes: a copy from the source goes from the first into the second, where a
copy from the target repeats the end of it. -/
def spanning : WholeState where
  adds := [120, 33]
  inst := [⟨.add, 0, 2, 0, 0⟩, ⟨.cpy 0, vcdSource, 4, 0, 2⟩, ⟨.cpy 0, 0, 2, 4, 6⟩]
  wininfo := [⟨0, 4, 0⟩, ⟨4, 4, 0⟩]
  length := 8

/-- No checksum is handed on, and `main_bdata` is not there yet. -/
def plainSettings : MergeSettings := ⟨false, [], fun _ => 0, freshSource 0⟩

theorem spanning_writable : spanning.Writable plainSettings [104, 105, 106, 107]
    [120, 33, 104, 105, 106, 107, 106, 107] where
  laid := ⟨rfl, rfl, rfl, trivial⟩
  length_eq := rfl
  below := by decide
  sound := List.forall_mem_cons.mpr ⟨⟨RType.noConfusion, fun h => RType.noConfusion h,
      fun _ => by decide, fun _ h => RType.noConfusion h, fun _ h => RType.noConfusion h⟩,
    List.forall_mem_cons.mpr ⟨⟨RType.noConfusion, fun h => RType.noConfusion h,
      fun h => RType.noConfusion h, fun _ _ h => absurd h (by decide), fun _ _ _ => by decide⟩,
    List.forall_mem_singleton.mpr ⟨RType.noConfusion, fun h => RType.noConfusion h,
      fun h => RType.noConfusion h, fun _ _ _ => by decide, fun _ _ h => absurd rfl h⟩⟩⟩
  pos := by decide
  hard := by decide
  stays := List.forall_mem_cons.mpr ⟨fun _ h => RType.noConfusion h,
    List.forall_mem_cons.mpr ⟨fun _ _ h => absurd h (by decide),
    List.forall_mem_singleton.mpr fun _ _ _ => by decide⟩⟩
  windows := List.cons_ne_nil _ _
  tiles := ⟨rfl, rfl, rfl⟩
  denotes := by decide
  adds := by decide
  room := by decide
  sums h := Bool.noConfusion h

theorem mainMergeOutput_decodes_spanning : ∃ out w' windows ews,
    mainMergeOutput plainSettings .plain spanning = .ok out w' ∧
      StandFor [104, 105, 106, 107] windows ews ∧
      windows.flatten = [120, 33, 104, 105, 106, 107, 106, 107] ∧
      ∀ cs : List (List UInt8), cs.flatten = out → ∃ tr : List (Event Unit),
        (decodeDriver {} (answerRequests [104, 105, 106, 107])).Run
          (initStream {} (some (freshSource 0))) cs tr ∧
        tr.filterMap Event.seen = sessionShown windows ews ++ [.closed none] := by
  refine mainMergeOutput_decodes (fun _ => rfl) (delivery_answerRequests _) (fun ret => ?_)
    ⟨rfl, rfl, rfl⟩ (freshSource_faithful _ (by decide)) spanning_writable
    Main.MergeHeader.noConfusion ?_
  · unfold answerRequests
    split <;> rfl
  · exact fun _ h => by cases h

end Xdelta
