import Xdelta.Decoder.Execution
import Xdelta.Decoder.Safety

/-!
# From the sections to the target window

Once the sections of a window are in place, an output buffer is set up, the copy window
is located in the source, and the window is executed.
-/
namespace Xdelta
open Chunked Delta

/-- The steps of the decoder from the sections on: `xd3_decode_setup_buffers`, the entry of
`DEC_EMIT`, and `xd3_decode_emit`. -/
def emitWindow (app : Option GetblkFunc) : Emit := fun w =>
  (decodeSetupBuffers w).andThen fun _ w =>
  (locateCopyWindow w).andThen fun _ =>
  decodeEmit app

/-- A window whose header has been checked and whose sections are in place. -/
structure Window.Ready (w : Window) : Prop extends w.Cursors where
  settled : w.Settled
  position : w.decPosition = w.decCpylen
  maxpos : w.decMaxpos = w.decCpylen + w.decTgtlen
  below : w.decCpylen + w.decTgtlen < usize.modulus
  offset : w.decCpyoff + w.decCpylen < xoff.modulus
  indicated : w.decCpylen = 0 ∨ srcortgt w.decWinInd = true
  tgtlen : w.decTgtlen ≤ hardMaxWinsize

section Setup
variable {file : List UInt8} {app : Option GetblkFunc} {P : Source → Prop} {F : ℕ → Prop}

/-- A window that is ready, with an output buffer that is not in use. -/
theorem Window.Ready.primed {w : Window} (hw : w.Ready) (hi : w.Idle Flags.Emits file)
    (he : w.flags.Emits) (ht : hasBits w.decWinInd vcdTarget = false) : w.Primed file where
  toCursors := hw.toCursors
  emits := he
  target := ht
  indicated := hw.indicated
  buffer := hi.buffer he
  room := by
    rw [hi.out]
    exact Nat.zero_le _
  space := hi.space he
  position := by
    rw [hw.position]
    omega
  first m hm := by
    rw [hw.settled.1] at hm
    cases hm
  second m hm := by
    rw [hw.settled.2] at hm
    cases hm
  faithful := hi.faithful

theorem decodeSetupBuffers_ends {w : Window} (hw : w.Ready) (hi : w.Idle Flags.Emits file)
    (he : w.flags.Emits) (ht : hasBits w.decWinInd vcdTarget = false) :
    ∃ b n, decodeSetupBuffers w = .ok () { w with spaceOut := n, decBuffer := b, nextOut := b } ∧
      w.decTgtlen ≤ n ∧
      ({ w with spaceOut := n, decBuffer := b, nextOut := b } : Window).Primed file := by
  have hp := hw.primed hi he ht
  unfold decodeSetupBuffers
  rw [ht]
  split
  · rename_i h
    cases h
  · split
    · refine ⟨_, _, rfl, le_roundBlksize _ _, ?_⟩
      have hmax : hardMaxWinsize < usize.modulus := by decide
      have htgtlen := hw.tgtlen
      have hround : roundBlksize w.decTgtlen allocSize ≤ hardMaxWinsize + allocSize :=
        (roundBlksize_le (by omega) _).trans (Nat.add_le_add_right htgtlen _)
      refine ⟨⟨fun k => ?_, fun k => ?_, hp.near, hp.same⟩, hp.emits, hp.target, hp.indicated, rfl,
        ?_, hround, hp.position, hp.first, hp.second, hp.faithful⟩
      · have := hp.buf_le k
        cases k <;> exact this
      · have := hp.max_le k
        cases k <;> exact this
      · dsimp only
        rw [hi.out]
        exact Nat.zero_le _
    · rename_i hspace
      have hsame : { w with decBuffer := w.decBuffer, nextOut := w.decBuffer } = w :=
        congrArg (fun b => { w with nextOut := b }) hp.buffer.symm
      refine ⟨w.decBuffer, w.spaceOut, congrArg (Outcome.ok ()) hsame.symm,
        Nat.le_of_not_lt hspace, ?_⟩
      rw [hsame]
      exact hp

theorem locateCopyWindow_placed {w : Window} (hw : w.Primed file) (hd : Delivers file app P F)
    (hP : ∀ s, w.src = some s → P s) (hmax : w.decMaxpos = w.decCpylen + w.decTgtlen)
    (hbelow : w.decCpylen + w.decTgtlen < usize.modulus)
    (hoff : w.decCpyoff + w.decCpylen < xoff.modulus) (hroom : w.decTgtlen ≤ w.spaceOut)
    (hwithin : ∀ h m, (w.half h).type = .cpy m → (w.half h).addr < w.decCpylen →
      usize.add (w.half h).addr (w.half h).size ≤ w.decCpylen) :
    (locateCopyWindow w).Ends
      (fun _ w' => w'.Sound file ∧ w'.Placed P ∧ { w' with src := none } = { w with src := none })
      (fun _ => False)
      (fun _ _ => hasBits w.decWinInd vcdSource = true ∧ w.src = none) := by
  have hends := locateCopyWindow_ends hw
  unfold locateCopyWindow at hends ⊢
  split
  · rename_i hsource
    rw [if_pos hsource] at hends
    split
    · exact ⟨hsource, ‹_›⟩
    · rename_i s hs
      rw [hs] at hends
      have hfaith := hd.faithful s (hP s hs)
      refine ⟨hends, ⟨hmax, hbelow, hoff, hroom, fun t ht => ?_, fun t ht _ => ?_, fun h => ?_⟩, rfl⟩
      · cases ht
        exact hd.locate s _ _ (hP s hs)
      · cases ht
        have hdiv := hfaith.blksizeDiv_eq w.decCpyoff
        exact ⟨congrArg Prod.fst hdiv, congrArg Prod.snd hdiv⟩
      · cases h
        · exact hwithin .first
        · exact hwithin .second
  · rename_i hsource
    rw [if_neg hsource] at hends
    have hzero : w.decCpylen = 0 := by
      by_contra hne
      exact hsource (hasBits_source (hw.indicated.resolve_left hne) hw.target)
    exact ⟨hends, ⟨hmax, hbelow, hoff, hroom, hP, fun _ _ hne => absurd hzero hne, hwithin⟩, rfl⟩

/-- A window that means something is executed to its end, if every block is served, the
copy window lies in the source and the checksum is not in the way. -/
theorem emitWindow_ok (happ : ServesBlocks file app) (hd : Delivers file app P fun _ => False)
    {w : Window} (hw : w.Ready) (hi : w.Idle Flags.Emits file) (he : w.flags.Emits)
    (ht : hasBits w.decWinInd vcdTarget = false) (hP : ∀ s, w.src = some s → P s)
    (hsrc : hasBits w.decWinInd vcdSource = true → w.src.isSome = true)
    (hin : w.decCpylen = 0 ∨ w.decCpyoff + w.decCpylen ≤ file.length) {out : List UInt8}
    (hsum : ¬w.Mismatch out) (hmean : w.meaning file = some out) :
    ∃ w', emitWindow app w = .ok () w' ∧ w'.out = out := by
  obtain ⟨b, n, hset, hroom, hprimed⟩ := decodeSetupBuffers_ends hw hi he ht
  have hwithin : ∀ h m, (w.half h).type = .cpy m → (w.half h).addr < w.decCpylen →
      usize.add (w.half h).addr (w.half h).size ≤ w.decCpylen := by
    intro h m hm
    cases h
    · rw [show (w.half .first).type = .noop from hw.settled.1] at hm
      cases hm
    · rw [show (w.half .second).type = .noop from hw.settled.2] at hm
      cases hm
  have hloc := locateCopyWindow_placed hprimed hd hP hw.maxpos hw.below hw.offset hroom hwithin
  unfold emitWindow
  rw [hset, Outcome.andThen_ok]
  cases hl : locateCopyWindow { w with spaceOut := n, decBuffer := b, nextOut := b } with
  | starved w1 => rw [hl] at hloc; exact hloc.elim
  | fault => rw [hl] at hloc; exact hloc.elim
  | stop e w1 =>
    rw [hl] at hloc
    have := hsrc hloc.1
    rw [show w.src = none from hloc.2] at this
    cases this
  | ok a w1 =>
    rw [hl] at hloc
    obtain ⟨hsound, hplaced, hframe⟩ := hloc
    have hmean1 : w1.meaning file = some out := by
      rw [← hmean]
      exact (congrArg (Window.meaning file) hframe : ({ w1 with src := none } : Window).meaning file =
        _)
    have hsum1 : ¬w1.Mismatch out := by
      intro h
      exact hsum ((congrArg (fun w => Window.Mismatch w out) hframe) ▸ h)
    have hends := decodeEmit_means happ hd hsound hplaced
    rw [Outcome.andThen_ok]
    cases hem : decodeEmit app w1 with
    | starved w2 => rw [hem] at hends; exact hends.elim
    | fault => rw [hem] at hends; exact hends.elim
    | ok a w2 =>
      rw [hem] at hends
      rw [hmean1] at hends
      exact ⟨w2, rfl, (Option.some.inj hends.1).symm⟩
    | stop e w2 =>
      rw [hem] at hends
      exfalso
      rcases hends with (⟨hp, -⟩ | ⟨-, hn⟩) | ⟨-, out', hout', hbad⟩
      · obtain ⟨_, _, _, hF, _⟩ := hp.refused
        exact hF
      · have hext : w1.extent = w.extent := (congrArg Window.extent hframe :
          ({ w1 with src := none } : Window).extent = _)
        have := hn fun i _ => .inr (by rw [hext]; exact hin)
        rw [hmean1] at this
        cases this
      · rw [hmean1] at hout'
        cases hout'
        exact hsum1 hbad

def Window.delta (w : Window) : Window :=
  { w with
    flags := {}
    src := none
    out := []
    spaceOut := 0
    nextOut := 0
    decBuffer := 0
    decLastwin := 0
    decLastspace := 0
    totalOut := 0 }

end Setup

end Xdelta
