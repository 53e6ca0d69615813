import Xdelta.Decoder.Execution
import Xdelta.Merge.Whole

/-!
# Reading a window into a whole delta

`xd3_whole_append_window` reads the instructions of a window like the decoder does, but
checks neither that the data section holds the bytes they use nor, at the end, that the
sections are used up and the target window is complete.
-/
namespace Xdelta
open Chunked Delta

structure Gather where
  win : Window
  whole : WholeState

/-- `SRCORTGT` as a value. -/
def copyMode (winInd : ℕ) : ℕ :=
  if winInd &&& 3 = vcdSource then vcdSource
  else if winInd &&& 3 = vcdTarget then vcdTarget
  else 0

/-- `xd3_whole_append_inst`; a read at or past `buf_max` of the data section is a fault. -/
def wholeAppendInst (winstart : ℕ) (h : Half) : Routine Gather Stop Unit := fun g =>
  let w := g.win
  let inst := w.half h
  let position := g.whole.length
  let whole := { g.whole with length := xoff.add g.whole.length inst.size }
  match inst.type with
  | .run =>
    match w.dataSect.bytes[w.dataSect.buf]? with
    | none => .fault
    | some b =>
      .ok () ⟨{ w with dataSect := { w.dataSect with buf := w.dataSect.buf + 1 } },
        whole.push [b] ⟨.run, 0, inst.size, whole.adds.length, position⟩⟩
  | .add =>
    match slice w.dataSect.bytes w.dataSect.buf inst.size with
    | none => .fault
    | some bytes =>
      .ok () ⟨{ w with dataSect := { w.dataSect with buf := w.dataSect.buf + inst.size } },
        whole.push bytes ⟨.add, 0, inst.size, whole.adds.length, position⟩⟩
  | type =>
    if inst.addr < w.decCpylen then
      .ok () ⟨w, whole.push [] ⟨type, copyMode w.decWinInd, inst.size,
        xoff.add w.decCpyoff inst.addr, position⟩⟩
    else
      .ok () ⟨w, whole.push [] ⟨type, 0, inst.size,
        xoff.sub (xoff.add winstart inst.addr) w.decCpylen, position⟩⟩

def appendHalf (winstart : ℕ) (h : Half) : Routine Gather Stop Unit := fun g =>
  if (g.win.half h).type ≠ .noop then wholeAppendInst winstart h g else .ok () g

/-- The loop of `xd3_whole_append_window`. -/
def appendLoop (winstart : ℕ) : ℕ → Routine Gather Stop Unit
  | 0 => Routine.fault
  | fuel + 1 => fun g =>
    if g.win.instSect.buf < g.win.instSect.bufMax then
      ((decodeInstruction g.win).mapState fun w => { g with win := w }).andThen fun _ g =>
      (appendHalf winstart .first g).andThen fun _ g =>
      (appendHalf winstart .second g).andThen fun _ =>
      appendLoop winstart fuel
    else .ok () g

def wholeAppendWindow (winstart : ℕ) : Routine Gather Stop Unit := fun g =>
  appendLoop winstart (g.win.instSect.bufMax - g.win.instSect.buf + 1)
    { g with whole := { g.whole with
        wininfo := g.whole.wininfo ++ [⟨winstart, g.win.decTgtlen, g.win.decAdler32⟩] } }

def Hinst.bytes (i : Hinst) (data : List UInt8) : Option (List UInt8 × List UInt8) :=
  match i.type with
  | .run =>
    match data with
    | [] => none
    | b :: rest => some ([b], rest)
  | .add => if i.size ≤ data.length then some (data.take i.size, data.drop i.size) else none
  | _ => some ([], data)

def Hinst.winst (winstart mode : ℕ) (e : Extent) (i : Hinst) (addslen position : ℕ) : Winst :=
  match i.type with
  | .run => ⟨.run, 0, i.size, addslen, position⟩
  | .add => ⟨.add, 0, i.size, addslen, position⟩
  | type =>
    if i.addr < e.cpylen then ⟨type, mode, i.size, xoff.add e.cpyoff i.addr, position⟩
    else ⟨type, 0, i.size, xoff.sub (xoff.add winstart i.addr) e.cpylen, position⟩

def Hinst.append (winstart mode : ℕ) (e : Extent) (i : Hinst) (s : WholeState × List UInt8) :
    Option (WholeState × List UInt8) :=
  (i.bytes s.2).map fun p =>
    ({ s.1.push p.1 (i.winst winstart mode e s.1.adds.length s.1.length) with
        length := xoff.add s.1.length i.size }, p.2)

def appendAll (winstart mode : ℕ) (e : Extent) :
    List Hinst → WholeState × List UInt8 → Option (WholeState × List UInt8)
  | [], s => some s
  | i :: is, s => (i.append winstart mode e s).bind (appendAll winstart mode e is)

theorem appendAll_append (winstart mode : ℕ) (e : Extent) (is js : List Hinst)
    (s : WholeState × List UInt8) : appendAll winstart mode e (is ++ js) s =
      (appendAll winstart mode e is s).bind (appendAll winstart mode e js) := by
  induction is generalizing s with
  | nil => rfl
  | cons i is ih =>
    rw [List.cons_append, appendAll, appendAll]
    cases i.append winstart mode e s with
    | none => rfl
    | some s' => exact ih s'

theorem Hinst.norm_append (winstart mode : ℕ) (e : Extent) {i : Hinst} (h : i.type ≠ .noop)
    (s : WholeState × List UInt8) :
    i.norm.append winstart mode e s = i.append winstart mode e s := by
  cases ht : i.type with
  | cpy m => rw [norm_cpy ht]
  | noop => exact absurd ht h
  | run =>
    rw [norm_of_ne fun m hm => nomatch ht.symm.trans hm]
    unfold append bytes winst
    rw [ht]
  | add =>
    rw [norm_of_ne fun m hm => nomatch ht.symm.trans hm]
    unfold append bytes winst
    rw [ht]

section Half
variable {winstart mode addslen position : ℕ} {e : Extent} {i : Hinst}

theorem Hinst.bytes_run_nil (h : i.type = .run) : i.bytes [] = none := by
  unfold bytes
  rw [h]

theorem Hinst.bytes_run_cons (h : i.type = .run) (b : UInt8) (rest : List UInt8) :
    i.bytes (b :: rest) = some ([b], rest) := by
  unfold bytes
  rw [h]

theorem Hinst.bytes_add (h : i.type = .add) (data : List UInt8) :
    i.bytes data = if i.size ≤ data.length then some (data.take i.size, data.drop i.size)
      else none := by
  unfold bytes
  rw [h]

theorem Hinst.bytes_cpy {m : ℕ} (h : i.type = .cpy m) (data : List UInt8) :
    i.bytes data = some ([], data) := by
  unfold bytes
  rw [h]

theorem Hinst.winst_run (h : i.type = .run) :
    i.winst winstart mode e addslen position = ⟨.run, 0, i.size, addslen, position⟩ := by
  unfold winst
  rw [h]

theorem Hinst.winst_add (h : i.type = .add) :
    i.winst winstart mode e addslen position = ⟨.add, 0, i.size, addslen, position⟩ := by
  unfold winst
  rw [h]

theorem Hinst.winst_cpy {m : ℕ} (h : i.type = .cpy m) :
    i.winst winstart mode e addslen position =
      if i.addr < e.cpylen then ⟨.cpy m, mode, i.size, xoff.add e.cpyoff i.addr, position⟩
      else ⟨.cpy m, 0, i.size, xoff.sub (xoff.add winstart i.addr) e.cpylen, position⟩ := by
  unfold winst
  rw [h]

end Half

section Code
variable {winstart : ℕ} {g : Gather} {h : Half}

def Window.undrawn (w : Window) : Window := { w with dataSect := { w.dataSect with buf := 0 } }

/-- The cursor of the data section moves to what is left. -/
private theorem Window.cursors_draw {w : Window} (hw : w.Cursors) {b : ℕ}
    (hb : b ≤ w.dataSect.bufMax) :
    ({ w with dataSect := { w.dataSect with buf := b } } : Window).Cursors := by
  refine ⟨fun k => ?_, fun k => ?_, hw.near, hw.same⟩
  · cases k <;> [exact hb; exact hw.buf_le .inst; exact hw.buf_le .addr]
  · cases k <;> [exact hw.max_le .data; exact hw.max_le .inst; exact hw.max_le .addr]

/-- `xd3_whole_append_inst` appends the half; it reads past the data section exactly if the
section holds fewer bytes than the half uses. -/
theorem wholeAppendInst_decides (hw : g.win.Cursors) (hne : (g.win.half h).type ≠ .noop) :
    (wholeAppendInst winstart h g).Decides
      ((g.win.half h).append winstart (copyMode g.win.decWinInd) g.win.extent
        (g.whole, g.win.dataSect.left) = none)
      (fun _ g' => g'.win.Cursors ∧ g'.win.undrawn = g.win.undrawn ∧
        (g.win.half h).append winstart (copyMode g.win.decWinInd) g.win.extent
          (g.whole, g.win.dataSect.left) = some (g'.whole, g'.win.dataSect.left))
      (fun _ => False) (fun _ _ => False) := by
  have hle : g.win.dataSect.buf ≤ g.win.dataSect.bufMax := hw.buf_le .data
  have hmax : g.win.dataSect.bytes.length = g.win.dataSect.bufMax :=
    Desect.length_bytes (hw.max_le .data)
  cases ht : (g.win.half h).type with
  | noop => exact absurd ht hne
  | run =>
    unfold wholeAppendInst Hinst.append
    rw [Hinst.winst_run ht]
    dsimp only
    rw [ht]
    dsimp only
    by_cases hend : g.win.dataSect.buf = g.win.dataSect.bufMax
    · have hnil : g.win.dataSect.left = [] := List.drop_eq_nil_of_le (by omega)
      rw [List.getElem?_eq_none (by omega), hnil, Hinst.bytes_run_nil ht]
      rfl
    · have hlt : g.win.dataSect.buf < g.win.dataSect.bytes.length := by omega
      have hcons : g.win.dataSect.left = g.win.dataSect.bytes[g.win.dataSect.buf] ::
          g.win.dataSect.bytes.drop (g.win.dataSect.buf + 1) := List.drop_eq_getElem_cons hlt
      rw [List.getElem?_eq_getElem hlt, hcons, Hinst.bytes_run_cons ht]
      exact ⟨Window.cursors_draw hw (by omega), rfl, rfl⟩
  | add =>
    have hleft : g.win.dataSect.left.length = g.win.dataSect.bufMax - g.win.dataSect.buf := by
      rw [← hmax]
      exact List.length_drop
    unfold wholeAppendInst Hinst.append
    rw [Hinst.winst_add ht, Hinst.bytes_add ht]
    dsimp only
    rw [ht]
    dsimp only
    by_cases hin : (g.win.half h).size ≤ g.win.dataSect.left.length
    · have hslice : slice g.win.dataSect.bytes g.win.dataSect.buf (g.win.half h).size =
          some (g.win.dataSect.left.take (g.win.half h).size) := by
        unfold slice
        split
        · rename_i h0
          rw [h0, List.take_zero]
        · rw [if_pos (by omega)]
          rfl
      rw [hslice, if_pos hin, Desect.left, List.drop_drop]
      exact ⟨Window.cursors_draw hw (by omega), rfl, rfl⟩
    · have hslice : slice g.win.dataSect.bytes g.win.dataSect.buf (g.win.half h).size = none := by
        unfold slice
        rw [if_neg (by omega), if_neg (by omega)]
      rw [hslice, if_neg hin]
      rfl
  | cpy m =>
    unfold wholeAppendInst Hinst.append
    rw [Hinst.winst_cpy ht, Hinst.bytes_cpy ht]
    dsimp only
    rw [ht]
    dsimp only
    by_cases haddr : (g.win.half h).addr < g.win.decCpylen
    · rw [if_pos haddr, if_pos (show (g.win.half h).addr < g.win.extent.cpylen from haddr)]
      exact ⟨hw, rfl, rfl⟩
    · rw [if_neg haddr, if_neg (show ¬(g.win.half h).addr < g.win.extent.cpylen from haddr)]
      exact ⟨hw, rfl, rfl⟩

theorem appendHalf_decides (hw : g.win.Cursors) :
    (appendHalf winstart h g).Decides
      (appendAll winstart (copyMode g.win.decWinInd) g.win.extent (g.win.remaining h)
        (g.whole, g.win.dataSect.left) = none)
      (fun _ g' => g'.win.Cursors ∧ g'.win.undrawn = g.win.undrawn ∧
        appendAll winstart (copyMode g.win.decWinInd) g.win.extent (g.win.remaining h)
          (g.whole, g.win.dataSect.left) = some (g'.whole, g'.win.dataSect.left))
      (fun _ => False) (fun _ _ => False) := by
  unfold appendHalf
  split
  · rename_i hne
    have hall : appendAll winstart (copyMode g.win.decWinInd) g.win.extent (g.win.remaining h)
        (g.whole, g.win.dataSect.left) = (g.win.half h).append winstart
          (copyMode g.win.decWinInd) g.win.extent (g.whole, g.win.dataSect.left) := by
      rw [Window.remaining_of_ne hne, appendAll, Hinst.norm_append _ _ _ hne]
      exact Option.bind_fun_some _
    rw [hall]
    exact wholeAppendInst_decides hw hne
  · rename_i hn
    rw [Window.remaining_noop (not_not.mp hn)]
    exact ⟨hw, rfl, rfl⟩

private theorem Window.extent_of_undrawn {w w' : Window} (h : w'.undrawn = w.undrawn) :
    w'.extent = w.extent :=
  (congrArg Window.extent h : w'.undrawn.extent = w.undrawn.extent)

private theorem Window.script_of_undrawn {w w' : Window} (h : w'.undrawn = w.undrawn) :
    w'.script = w.script :=
  (congrArg Window.script h : w'.undrawn.script = w.undrawn.script)

private theorem Window.remaining_of_undrawn {w w' : Window} (h : w'.undrawn = w.undrawn)
    (k : Half) : w'.remaining k = w.remaining k := by
  have hk : w'.half k = w.half k := by
    cases k
    · exact (congrArg Window.decCurrent1 h : w'.undrawn.decCurrent1 = w.undrawn.decCurrent1)
    · exact (congrArg Window.decCurrent2 h : w'.undrawn.decCurrent2 = w.undrawn.decCurrent2)
  rw [remaining, remaining, hk]

private theorem Window.winInd_of_undrawn {w w' : Window} (h : w'.undrawn = w.undrawn) :
    w'.decWinInd = w.decWinInd :=
  (congrArg Window.decWinInd h : w'.undrawn.decWinInd = w.undrawn.decWinInd)

private theorem Window.maxpos_of_undrawn {w w' : Window} (h : w'.undrawn = w.undrawn) :
    w'.decMaxpos = w.decMaxpos :=
  (congrArg Window.decMaxpos h : w'.undrawn.decMaxpos = w.undrawn.decMaxpos)

theorem appendLoop_decides {fuel : ℕ} (hw : g.win.Cursors)
    (hmax : g.win.decMaxpos = g.win.decCpylen + g.win.decTgtlen)
    (hfuel : g.win.instSect.bufMax - g.win.instSect.buf < fuel) :
    (appendLoop winstart fuel g).Decides
      (appendAll winstart (copyMode g.win.decWinInd) g.win.extent
        (g.win.script.read g.win.extent).1 (g.whole, g.win.dataSect.left) = none)
      (fun _ g' => g'.win.Cursors ∧
        appendAll winstart (copyMode g.win.decWinInd) g.win.extent
          (g.win.script.read g.win.extent).1 (g.whole, g.win.dataSect.left) =
            some (g'.whole, g'.win.dataSect.left) ∧
        (g.win.script.read g.win.extent).2 = some g'.win.script.addr)
      (fun _ => False)
      (fun _ _ => (g.win.script.read g.win.extent).2 = none ∧
        appendAll winstart (copyMode g.win.decWinInd) g.win.extent
          (g.win.script.read g.win.extent).1 (g.whole, g.win.dataSect.left) ≠ none) := by
  induction fuel generalizing g with
  | zero => omega
  | succ fuel ih =>
    have hle : g.win.instSect.buf ≤ g.win.instSect.bufMax := hw.buf_le .inst
    unfold appendLoop
    split
    · rename_i hmore
      have hne : g.win.script.inst ≠ [] := by
        rw [Ne, Window.script_inst_nil hw]
        omega
      have hinst := (decodeInstruction_ends hw).and (decodeInstruction_script hw hmax)
      cases hd : decodeInstruction g.win with
      | starved w => rw [hd] at hinst; exact hinst.1.elim
      | fault => rw [hd] at hinst; exact hinst.elim
      | stop e w =>
        rw [hd] at hinst
        rw [Script.read_none hne hinst.2]
        exact ⟨rfl, nofun⟩
      | ok a w =>
        rw [hd] at hinst
        obtain ⟨hi, hs⟩ := hinst
        have hdata : w.dataSect = g.win.dataSect := (congrArg Window.dataSect hi.unparsed :
          w.unparsed.dataSect = g.win.unparsed.dataSect)
        have hind : w.decWinInd = g.win.decWinInd := (congrArg Window.decWinInd hi.unparsed :
          w.unparsed.decWinInd = g.win.unparsed.decWinInd)
        have hmax1 : w.decMaxpos = g.win.decMaxpos := (congrArg Window.decMaxpos hi.unparsed :
          w.unparsed.decMaxpos = g.win.unparsed.decMaxpos)
        have hext := Window.extent_of_unparsed hi.unparsed
        have hinstMax : w.instSect.bufMax = g.win.instSect.bufMax :=
          (congrArg (fun w => w.instSect.bufMax) hi.unparsed :
            w.unparsed.instSect.bufMax = g.win.unparsed.instSect.bufMax)
        rw [Script.read_some hs, Outcome.mapState_ok, Outcome.andThen_ok]
        simp only [appendAll_append]
        -- the first half
        have h1 : (appendHalf winstart .first { g with win := w }).Decides _ _ _ _ :=
          appendHalf_decides hi.cursors
        dsimp only at h1
        rw [hdata, hind, hext] at h1
        refine Outcome.Decides.andThen (h1.mono (fun hn => ?_) (fun _ _ h => h) (fun _ h => h)
          (fun _ _ h => h.elim)) fun _ g1 ⟨hw1, hu1, ha1⟩ => ?_
        · rw [hn]
          rfl
        rw [ha1, Option.bind_some]
        -- the second half
        have h2 : (appendHalf winstart .second g1).Decides _ _ _ _ := appendHalf_decides hw1
        rw [Window.winInd_of_undrawn hu1, Window.extent_of_undrawn hu1,
          Window.remaining_of_undrawn hu1, hind, hext] at h2
        refine Outcome.Decides.andThen (h2.mono (fun hn => ?_) (fun _ _ h => h) (fun _ h => h)
          (fun _ _ h => h.elim)) fun _ g2 ⟨hw2, hu2, ha2⟩ => ?_
        · rw [hn]
          rfl
        rw [ha2, Option.bind_some]
        -- the rest
        have hu := hu2.trans hu1
        have hsect : g2.win.instSect = w.instSect := (congrArg Window.instSect hu :
          g2.win.undrawn.instSect = w.undrawn.instSect)
        have hext2 := (Window.extent_of_undrawn hu).trans hext
        have hmax2 : g2.win.decMaxpos = g2.win.extent.cpylen + g2.win.extent.tgtlen := by
          rw [Window.maxpos_of_undrawn hu, hext2, hmax1, hmax]
          rfl
        have hcons := hi.consumed
        have h3 := ih hw2 hmax2 (by rw [hsect, hinstMax]; omega)
        rwa [Window.winInd_of_undrawn hu, hext2, Window.script_of_undrawn hu, hind] at h3
    · rename_i hdone
      have hnil : g.win.script.inst = [] := (Window.script_inst_nil hw).mpr (by omega)
      rw [Script.read_nil hnil]
      exact ⟨hw, rfl, rfl⟩

end Code

end Xdelta
