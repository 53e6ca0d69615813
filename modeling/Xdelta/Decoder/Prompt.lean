import Xdelta.Decoder.Sections

/-!
# What does not wait for input

Once the sections are there, nothing up to the end of the window reads the input:
no routine of the emission starves.
-/
namespace Xdelta
open Chunked

variable {σ : Type}

theorem prompt_getblk (app : Option GetblkFunc) (blkno : ℕ) (source : Source) :
    (getblk app blkno source).Prompt := by
  unfold getblk
  split
  · dsimp only
    split
    · trivial
    · split <;> trivial
  · trivial

theorem prompt_readHalfSize (h : Half) (w : Window) : (readHalfSize h w).Prompt := by
  unfold readHalfSize
  split <;> trivial

theorem prompt_readHalfAddr (h : Half) (mode : ℕ) (w : Window) :
    (readHalfAddr h mode w).Prompt := by
  unfold readHalfAddr
  split <;> trivial

theorem prompt_checkHalfAddr (h : Half) (w : Window) : (checkHalfAddr h w).Prompt := by
  unfold checkHalfAddr
  split
  · trivial
  · split <;> trivial

theorem prompt_advanceHalf (h : Half) (w : Window) : (advanceHalf h w).Prompt := by
  unfold advanceHalf
  split <;> trivial

theorem prompt_decodeParseHalfinst (h : Half) (w : Window) :
    (decodeParseHalfinst h w).Prompt := by
  unfold decodeParseHalfinst
  refine Outcome.Prompt.andThen ?_ fun _ w => Outcome.Prompt.andThen ?_ fun _ =>
    prompt_advanceHalf h
  · split
    · exact prompt_readHalfSize h w
    · trivial
  · split
    · exact (prompt_readHalfAddr h _ w).andThen fun _ => prompt_checkHalfAddr h
    · trivial

theorem prompt_decodeInstruction (w : Window) : (decodeInstruction w).Prompt := by
  unfold decodeInstruction
  split
  · trivial
  · split
    · trivial
    · refine Outcome.Prompt.andThen ?_ fun _ w => ?_
      · split
        · exact prompt_decodeParseHalfinst _ _
        · trivial
      · split
        · exact prompt_decodeParseHalfinst _ _
        · trivial

theorem prompt_writeOut (bytes : List UInt8) (w : Window) : (writeOut bytes w).Prompt := by
  unfold writeOut
  split <;> trivial

theorem prompt_copyBlock (h : Half) (blkoff take : ℕ) (left : Hinst) (w : Window) :
    (copyBlock h blkoff take left w).Prompt := by
  unfold copyBlock
  split
  · trivial
  · split
    · trivial
    · split
      · trivial
      · exact prompt_writeOut _ _

theorem prompt_outputSourceCopy (app : Option GetblkFunc) (h : Half) (w : Window) :
    (outputSourceCopy app h w).Prompt := by
  unfold outputSourceCopy
  dsimp only
  split
  · trivial
  · rename_i source _
    have hp := prompt_getblk app
    split
    · split <;> trivial
    · split
      · trivial
      · split <;> exact prompt_copyBlock _ _ _ _ _
    · rename_i hg
      have := hp (source.blksizeAdd source.cpyoffBlocks source.cpyoffBlkoff (w.half h).addr).1 source
      rw [hg] at this
      exact this
    · trivial

theorem prompt_decodeOutputHalfinst (app : Option GetblkFunc) (h : Half) (w : Window) :
    (decodeOutputHalfinst app h w).Prompt := by
  unfold decodeOutputHalfinst
  dsimp only
  split
  · trivial
  · split
    · trivial
    · unfold outputRun
      split
      · trivial
      · split
        · trivial
        · exact (prompt_writeOut _ _).andThen fun _ _ => trivial
    · unfold outputAdd
      dsimp only
      split
      · trivial
      · split
        · trivial
        · split
          · trivial
          · exact (prompt_writeOut _ _).andThen fun _ _ => trivial
    · split
      · split
        · trivial
        · exact prompt_outputSourceCopy app h w
      · unfold outputTargetCopy
        dsimp only
        split
        · trivial
        · exact prompt_writeOut _ _

theorem prompt_outputHalf (app : Option GetblkFunc) (h : Half) (fuel : ℕ) (w : Window) :
    (outputHalf app h fuel w).Prompt := by
  induction fuel generalizing w with
  | zero => trivial
  | succ fuel ih =>
    unfold outputHalf
    split
    · trivial
    · exact (prompt_decodeOutputHalfinst app h w).andThen fun _ => ih

theorem prompt_emitRound (app : Option GetblkFunc) (w : Window) : (emitRound app w).Prompt := by
  unfold emitRound
  refine Outcome.Prompt.andThen ?_ fun _ w => (prompt_outputHalf app _ _ w).andThen fun _ w =>
    prompt_outputHalf app _ _ w
  split
  · exact prompt_decodeInstruction w
  · trivial

theorem prompt_emitLoop (app : Option GetblkFunc) (fuel : ℕ) (w : Window) :
    (emitLoop app fuel w).Prompt := by
  induction fuel generalizing w with
  | zero => trivial
  | succ fuel ih =>
    unfold emitLoop
    split
    · exact (prompt_emitRound app w).andThen fun _ => ih
    · trivial

theorem prompt_decodeEmit (app : Option GetblkFunc) (w : Window) : (decodeEmit app w).Prompt := by
  refine (prompt_emitLoop app _ w).andThen fun _ w => ?_
  unfold checkWindow
  split
  · trivial
  · split
    · trivial
    · split
      · trivial
      · split <;> trivial

theorem prompt_countOutput {o : Outcome (Core σ) Stop Unit} (h : o.Prompt) :
    (countOutput o).Prompt := by
  unfold countOutput
  split
  · trivial
  · exact h

theorem prompt_decEmit (env : Env σ) (c : Core σ) : (decEmit env c).Prompt := by
  refine Outcome.Prompt.andThen ?_ fun _ c => prompt_countOutput ?_
  · refine Outcome.Prompt.mapState ?_ _
    unfold locateCopyWindow
    split
    · split <;> trivial
    · trivial
  · exact ((prompt_decodeEmit env.getblk c.win).mapState _).andThen fun _ _ => trivial

theorem prompt_decodeSecondarySection (k : Sect) (c : Core σ) :
    (decodeSecondarySection k c).Prompt := by
  unfold decodeSecondarySection
  split
  · unfold decodeSecondary
    split
    · trivial
    · dsimp only
      split
      · trivial
      · trivial
      · split
        · trivial
        · split
          · trivial
          · split
            · trivial
            · split
              · trivial
              · split <;> trivial
  · trivial

theorem prompt_afterSections (c : Core σ) : (afterSections c).Prompt := by
  unfold afterSections
  refine Outcome.Prompt.andThen ?_ fun _ c => ?_
  · exact (prompt_decodeSecondarySection _ c).andThen fun _ c =>
      (prompt_decodeSecondarySection _ c).andThen fun _ => prompt_decodeSecondarySection _
  · split
    · trivial
    · refine Outcome.Prompt.mapState ?_ _
      unfold decodeSetupBuffers
      split
      · trivial
      · split <;> trivial

end Xdelta
