import Xdelta.Decoder.Chunks

/-!
# Sections that are there as a whole

When the input holds all bytes of the three sections, they are loaded as they are, and
what follows them is left for the next window. No routine of a window changes the flags.
-/
namespace Xdelta
open Chunked

variable {σ : Type}

/-- A section taken from the input at once; an empty one keeps the buffer it had. -/
def Desect.load (d : Desect) (bytes : List UInt8) : Desect :=
  if bytes = [] then { d with bufMax := d.buf, pos := 0 }
  else { d with mem := bytes, buf := 0, bufMax := bytes.length, pos := 0 }

theorem fillSection_load {k : Sect} (nstate : DecState) {c : Core σ} {bytes : List UInt8}
    (hpos : (c.win.sect k).pos = 0) (hsize : (c.win.sect k).size = bytes.length)
    (rest : List UInt8) (t p : ℕ) :
    ∃ wb, fillSection k nstate ⟨⟨bytes ++ rest, t, p⟩, c⟩ =
      .ok () ⟨⟨rest, t + bytes.length, p⟩, { c with
        decState := nstate
        decWinbytes := wb
        win := c.win.setSect k ((c.win.sect k).load bytes) }⟩ := by
  rw [fillSection_apply]
  dsimp only
  rw [hpos, hsize]
  by_cases hnil : bytes = []
  · subst hnil
    refine ⟨c.decWinbytes, ?_⟩
    rw [List.length_nil, if_neg (lt_irrefl 0), closeSection_ok (by
      dsimp only
      rw [hpos, hsize]
      exact lt_irrefl 0)]
    unfold closed Desect.load
    dsimp only
    rw [hsize]
    rfl
  · have hlen : 0 < bytes.length := List.length_pos_of_ne_nil hnil
    refine ⟨usize.add c.decWinbytes bytes.length, ?_⟩
    have hmin : min (bytes.length - 0) (bytes ++ rest).length = bytes.length := by
      rw [List.length_append]
      omega
    rw [if_pos hlen, if_neg (by rw [List.length_append]; omega), hmin, closeSection_ok (by
      simp only [takeSection, Window.sect_setSect]
      omega)]
    unfold closed Desect.load takeSection
    simp only [Window.sect_setSect, Window.setSect_setSect, Input.consume, hpos, hsize, if_true,
      List.take_left, List.drop_left]
    rw [if_neg hnil, if_pos (by omega), Nat.zero_add]

theorem thenData_load (env : Env σ) {c : Core σ} {data inst addr : List UInt8}
    (hpos : ∀ k, (c.win.sect k).pos = 0) (hdata : c.win.dataSect.size = data.length)
    (hinst : c.win.instSect.size = inst.length) (haddr : c.win.addrSect.size = addr.length)
    (rest : List UInt8) (t p : ℕ) :
    ∃ wb t', thenData env ⟨⟨data ++ (inst ++ (addr ++ rest)), t, p⟩, c⟩ =
      onCore (finishSections env) ⟨⟨rest, t', p⟩, { c with
        decState := .emit
        decWinbytes := wb
        win := { c.win with
          dataSect := c.win.dataSect.load data
          instSect := c.win.instSect.load inst
          addrSect := c.win.addrSect.load addr } }⟩ := by
  obtain ⟨wb1, h1⟩ := fillSection_load (k := .data) .inst (hpos .data) hdata
    (inst ++ (addr ++ rest)) t p
  obtain ⟨wb2, h2⟩ := fillSection_load (k := .inst) .addr (c := { c with
    decState := .inst
    decWinbytes := wb1
    win := c.win.setSect .data ((c.win.sect .data).load data) }) (hpos .inst) hinst (addr ++ rest)
    (t + data.length) p
  obtain ⟨wb3, h3⟩ := fillSection_load (k := .addr) .emit (c := { c with
    decState := .addr
    decWinbytes := wb2
    win := (c.win.setSect .data ((c.win.sect .data).load data)).setSect .inst
      (((c.win.setSect .data ((c.win.sect .data).load data)).sect .inst).load inst) }) (hpos .addr) haddr rest
    (t + data.length + inst.length) p
  refine ⟨wb3, t + data.length + inst.length + addr.length, ?_⟩
  unfold thenData thenInst thenAddr
  rw [Routine.bind_apply, h1, Outcome.andThen_ok, Routine.bind_apply, h2, Outcome.andThen_ok,
    Routine.bind_apply, h3]
  rfl

section Kit
variable {k : Flags × Bool}

def Window.kit (w : Window) : Flags × Bool := (w.flags, w.src.isSome)

/-- The flags are the same, and there is a source if there was one, at every way of ending. -/
abbrev Steady (k : Flags × Bool) (f : Emit) : Prop :=
  ∀ w : Window, w.kit = k → (f w).Keeps fun w' => w'.kit = k

@[simp] theorem Window.kit_setHalf (w : Window) (h : Half) (i : Hinst) :
    (w.setHalf h i).kit = w.kit := by
  cases h <;> rfl

@[simp] theorem Window.kit_setSect (w : Window) (j : Sect) (d : Desect) :
    (w.setSect j d).kit = w.kit := by
  cases j <;> rfl

theorem Window.kit_source {w : Window} {s : Source} (h : w.src = some s) (s' : Source) :
    ({ w with src := some s' } : Window).kit = w.kit := by
  rw [kit, kit, h]
  rfl

theorem steady_parse (h : Half) : Steady k (decodeParseHalfinst h) := by
  intro w hw
  refine Outcome.Goes.andThen (Q := fun _ w' => w'.kit = k) ?_ fun _ w1 h1 =>
    Outcome.Goes.andThen (Q := fun _ w' => w'.kit = k) ?_ fun _ w2 h2 => ?_
  · split
    · unfold readHalfSize
      split
      · exact (Window.kit_setHalf _ _ _).trans hw
      · exact hw
      · trivial
    · exact hw
  · split
    · refine Outcome.Goes.andThen (Q := fun _ w' => w'.kit = k) ?_ fun _ w2 h2 => ?_
      · unfold readHalfAddr
        split
        · exact (Window.kit_setHalf _ _ _).trans h1
        · exact h1
        · trivial
      · unfold checkHalfAddr
        split_ifs <;> exact h2
    · exact h1
  · unfold advanceHalf
    split_ifs <;> exact h2

theorem steady_decodeInstruction : Steady k decodeInstruction := by
  intro w hw
  unfold decodeInstruction
  split
  · exact hw
  · split
    · trivial
    · refine Outcome.Goes.andThen (Q := fun _ w' => w'.kit = k) ?_ fun _ w1 h1 => ?_
      · split
        · exact steady_parse _ _ hw
        · exact hw
      · split
        · exact steady_parse _ _ h1
        · exact h1

theorem steady_writeOut (bytes : List UInt8) : Steady k (writeOut bytes) := by
  intro w hw
  unfold writeOut
  split
  · exact hw
  · trivial

theorem steady_copyBlock (h : Half) (blkoff take : ℕ) (left : Hinst) :
    Steady k (copyBlock h blkoff take left) := by
  intro w hw
  unfold copyBlock
  split
  · trivial
  · split
    · trivial
    · split
      · trivial
      · exact steady_writeOut _ _ ((Window.kit_setHalf _ _ _).trans hw)

theorem steady_outputSourceCopy (app : Option GetblkFunc) (h : Half) :
    Steady k (outputSourceCopy app h) := by
  intro w hw
  unfold outputSourceCopy
  dsimp only
  split
  · trivial
  · rename_i source hsrc
    have hw' : ∀ s', ({ w with src := some s' } : Window).kit = k :=
      fun s' => (Window.kit_source hsrc s').trans hw
    split
    · split <;> exact hw' _
    · split
      · exact hw' _
      · split <;> exact steady_copyBlock _ _ _ _ _ (hw' _)
    · exact hw' _
    · trivial

theorem steady_decodeOutputHalfinst (app : Option GetblkFunc) (h : Half) :
    Steady k (decodeOutputHalfinst app h) := by
  intro w hw
  unfold decodeOutputHalfinst
  dsimp only
  split
  · exact hw
  · split
    · trivial
    · unfold outputRun
      split
      · exact hw
      · split
        · trivial
        · exact (steady_writeOut _ _ hw).andThen fun _ w' hw' =>
            (Window.kit_setHalf _ _ _).trans hw'
    · unfold outputAdd
      dsimp only
      split
      · exact (Window.kit_setHalf _ _ _).trans hw
      · split
        · exact hw
        · split
          · trivial
          · exact (steady_writeOut _ _ hw).andThen fun _ w' hw' =>
              (Window.kit_setHalf _ _ _).trans hw'
    · split
      · split
        · exact (Window.kit_setHalf _ _ _).trans hw
        · exact steady_outputSourceCopy app h _ hw
      · unfold outputTargetCopy
        dsimp only
        split
        · trivial
        · exact steady_writeOut _ _ ((Window.kit_setHalf _ _ _).trans hw)

theorem steady_outputHalf (app : Option GetblkFunc) (h : Half) (fuel : ℕ) :
    Steady k (outputHalf app h fuel) := by
  induction fuel with
  | zero => exact fun _ _ => trivial
  | succ fuel ih =>
    intro w hw
    unfold outputHalf
    split
    · exact hw
    · exact (steady_decodeOutputHalfinst app h w hw).andThen fun _ => ih

theorem steady_emitRound (app : Option GetblkFunc) : Steady k (emitRound app) := by
  intro w hw
  unfold emitRound
  refine Outcome.Goes.andThen (Q := fun _ w' => w'.kit = k) ?_ fun _ w1 h1 =>
    (steady_outputHalf app _ _ _ h1).andThen fun _ w2 h2 => steady_outputHalf app _ _ _ h2
  split
  · exact steady_decodeInstruction w hw
  · exact hw

theorem steady_emitLoop (app : Option GetblkFunc) (fuel : ℕ) : Steady k (emitLoop app fuel) := by
  induction fuel with
  | zero => exact fun _ _ => trivial
  | succ fuel ih =>
    intro w hw
    unfold emitLoop
    split
    · exact (steady_emitRound app w hw).andThen fun _ => ih
    · exact hw

theorem steady_decodeEmit (app : Option GetblkFunc) : Steady k (decodeEmit app) := by
  intro w hw
  refine (steady_emitLoop app _ w hw).andThen fun _ w' hw' => ?_
  unfold checkWindow
  split_ifs <;> exact hw'

theorem steady_decodeFinishWindow {c : Core σ} (hc : c.win.kit = k) :
    (decodeFinishWindow c).Keeps fun c' => c'.win.kit = k := hc

theorem steady_decEmit (env : Env σ) {c : Core σ} (hc : c.win.kit = k) :
    (decEmit env c).Keeps fun c' => c'.win.kit = k := by
  have hloc : Steady k locateCopyWindow := by
    intro w hw
    unfold locateCopyWindow
    split
    · split
      · exact hw
      · rename_i source hsrc
        exact (Window.kit_source hsrc _).trans hw
    · exact hw
  have hcount : ∀ o : Outcome (Core σ) Stop Unit, o.Keeps (fun c' => c'.win.kit = k) →
      (countOutput o).Keeps fun c' => c'.win.kit = k := by
    intro o ho
    unfold countOutput
    split <;> exact ho
  refine Outcome.Goes.andThen (Q := fun _ c' => c'.win.kit = k)
    (Outcome.Goes.mapState (hloc c.win hc)) fun _ c1 h1 => hcount _ ?_
  exact Outcome.Goes.andThen (Q := fun _ c' => c'.win.kit = k)
    (Outcome.Goes.mapState (steady_decodeEmit env.getblk c1.win h1)) fun _ c2 h2 => steady_decodeFinishWindow h2

/-- What follows the sections keeps the flags and the source. -/
theorem steady_afterSections {c : Core σ} (hc : c.win.kit = k) :
    (afterSections c).Keeps fun c' => c'.win.kit = k := by
  have hsec : ∀ j (c : Core σ), c.win.kit = k →
      (decodeSecondarySection j c).Keeps fun c' => c'.win.kit = k := by
    intro j c hc
    unfold decodeSecondarySection
    split
    · unfold decodeSecondary
      split
      · trivial
      · dsimp only
        split
        · trivial
        · exact hc
        · split
          · exact hc
          · split
            · exact hc
            · split
              · trivial
              · split
                · exact hc
                · split
                  · exact hc
                  · exact (Window.kit_setSect _ _ _).trans hc
    · exact hc
  unfold afterSections
  refine Outcome.Goes.andThen (Q := fun _ c' => c'.win.kit = k) ?_ fun _ c1 h1 => ?_
  · exact (hsec _ c hc).andThen fun _ c hc => (hsec _ c hc).andThen fun _ c hc => hsec _ c hc
  · split
    · exact h1
    · refine Outcome.Goes.mapState ?_
      unfold decodeSetupBuffers
      split_ifs <;> exact h1

theorem steady_finishSections (env : Env σ) {c : Core σ} (hc : c.win.kit = k) :
    (finishSections env c).Keeps fun c' => c'.win.kit = k :=
  (steady_afterSections hc).andThen fun _ _ h => steady_decEmit env h

end Kit

end Xdelta
