import Xdelta.Encoder.Session

/-!
# The bytes that are read

Writing a window reads the bytes of its input that the queue leaves to ADDs, and no others. An
input that is right in these gaps alone is written as the window it stands for.
-/
namespace Xdelta
open Chunked

def Encoder.onInput (e : Encoder) (input : List UInt8) : Encoder := { e with nextIn := input }

/-- The inputs agree from `off` on, wherever the queue does not cover them. -/
def SameGaps (off : ℕ) (queue : List Rinst) (window input : List UInt8) : Prop :=
  ∀ i, off ≤ i → (∀ r ∈ queue, r.pos ≤ i → r.pos + r.size ≤ i) → input[i]? = window[i]?

section Read
variable {e : Encoder} {input : List UInt8}

theorem SameGaps.tail {off : ℕ} {r : Rinst} {queue : List Rinst} {window : List UInt8}
    (h : SameGaps off (r :: queue) window input) (hle : off ≤ r.pos) :
    SameGaps (r.pos + r.size) queue window input :=
  fun i hi hq => h i (by omega) (List.forall_mem_cons.mpr ⟨fun _ => hi, hq⟩)

theorem SameGaps.head {off pos : ℕ} {queue : List Rinst} {window : List UInt8}
    (h : SameGaps off queue window input) (hafter : ∀ r ∈ queue, pos ≤ r.pos) :
    (input.drop off).take (pos - off) = (window.drop off).take (pos - off) := by
  refine List.ext_getElem? fun i => ?_
  by_cases hi : i < pos - off
  · rw [List.getElem?_take_of_lt hi, List.getElem?_take_of_lt hi, List.getElem?_drop,
      List.getElem?_drop]
    refine h _ (by omega) fun r hr hle => ?_
    have := hafter r hr
    omega
  · rw [List.getElem?_take_eq_none (by omega), List.getElem?_take_eq_none (by omega)]

theorem srcwinSetup_onInput (e : Encoder) (input : List UInt8) :
    srcwinSetup (e.onInput input) = (srcwinSetup e).mapState (·.onInput input) := by
  unfold srcwinSetup Encoder.onInput
  dsimp only
  cases e.src with
  | live s =>
    dsimp only
    split <;> rfl
  | null => rfl
  | dead => rfl

theorem copyAddress_onInput (r : Rinst) (e : Encoder) (input : List UInt8) :
    copyAddress r (e.onInput input) = (copyAddress r e).mapState (·.onInput input) := by
  unfold copyAddress
  rw [show (e.onInput input).src = e.src from rfl]
  cases e.src with
  | null => rfl
  | dead => rfl
  | live s =>
    dsimp only
    have hcall : (if (e.onInput input).srcwinDecided then Outcome.ok () (e.onInput input)
          else srcwinSetup (e.onInput input)) =
        (if e.srcwinDecided then Outcome.ok () e else srcwinSetup e).mapState
          (·.onInput input) := by
      rw [srcwinSetup_onInput]
      change (if e.srcwinDecided then _ else _) = _
      split <;> rfl
    rw [hcall]
    generalize (if e.srcwinDecided then Outcome.ok () e else srcwinSetup e) = o
    cases o with
    | ok a e =>
      rw [Outcome.mapState_ok, Outcome.andThen_ok, Outcome.andThen_ok]
      rw [show (e.onInput input).src = e.src from rfl]
      cases e.src with
      | live s =>
        dsimp only
        split <;> rfl
      | null => rfl
      | dead => rfl
    | starved e => rfl
    | stop s e => rfl
    | fault => rfl

theorem encodeOperands_onInput {r : Rinst} (h : r.type = .add →
      (input.drop r.pos).take r.size = (e.nextIn.drop r.pos).take r.size) :
    encodeOperands r (e.onInput input) = (encodeOperands r e).mapState (·.onInput input) := by
  unfold encodeOperands
  cases ht : r.type with
  | noop => rfl
  | run => rfl
  | add =>
    dsimp only
    change (if r.pos + r.size ≤ e.availIn then _ else _) = _
    split
    · change Outcome.ok _
        { e.onInput input with data := e.data ++ (input.drop r.pos).take r.size } = _
      rw [h ht]
      rfl
    · rfl
  | cpy m =>
    dsimp only
    rw [copyAddress_onInput]
    cases copyAddress r e with
    | ok a e => rfl
    | starved e => rfl
    | stop s e => rfl
    | fault => rfl

theorem Encoder.pair_onInput (e : Encoder) (input : List UInt8) (r : Rinst) :
    (e.onInput input).pair r = (e.pair r).onInput input := by
  unfold pair freeNonadd emitSingle emitDouble onInput
  dsimp only
  split
  · rfl
  · split
    · split <;> split <;> rfl
    · split <;> rfl

theorem finishEncoding_onInput {r : Rinst} (h : r.type = .add →
      (input.drop r.pos).take r.size = (e.nextIn.drop r.pos).take r.size) :
    finishEncoding r (e.onInput input) = (finishEncoding r e).mapState (·.onInput input) := by
  unfold finishEncoding
  rw [encodeOperands_onInput h]
  cases encodeOperands r e with
  | ok a e =>
    exact congrArg (Outcome.ok ()) (Encoder.pair_onInput { e with
      unencodedOffset := usize.add e.unencodedOffset r.size
      handed := e.handed ++ [Handed.mk r a.2] } input a.1)
  | starved e => rfl
  | stop s e => rfl
  | fault => rfl

theorem ioptAdd_onInput {pos : ℕ}
    (h : (input.drop e.unencodedOffset).take (pos - e.unencodedOffset) =
      (e.nextIn.drop e.unencodedOffset).take (pos - e.unencodedOffset)) :
    ioptAdd pos (e.onInput input) = (ioptAdd pos e).mapState (·.onInput input) := by
  unfold ioptAdd
  change (if e.unencodedOffset < pos then _ else _) = _
  split
  · exact finishEncoding_onInput fun _ => h
  · rfl

end Read

section Flush
variable {file input : List UInt8} {e : Encoder}

/-- The queue is emptied alike on both inputs, up to where they still have to agree. -/
theorem flushFront_onInput (input : List UInt8) (flushed : ℕ) {fuel : ℕ}
    (hfuel : e.ioptUsed.length ≤ fuel)
    (h : PartEncoded file e) (htakes : ∀ r ∈ e.ioptUsed, e.Takes file r)
    (hapart : Apart e.unencodedOffset e.ioptUsed) (hadd : ∀ r ∈ e.ioptUsed, r.type ≠ .add)
    (hgaps : SameGaps e.unencodedOffset e.ioptUsed e.nextIn input) :
    ∃ e', flushFront true fuel flushed e = .ok () e' ∧
      flushFront true fuel flushed (e.onInput input) = .ok () (e'.onInput input) ∧
      SameGaps e'.unencodedOffset [] e'.nextIn input := by
  induction fuel generalizing e flushed with
  | zero =>
    rw [List.length_eq_zero_iff.mp (Nat.le_zero.mp hfuel)] at hgaps
    exact ⟨e, rfl, rfl, hgaps⟩
  | succ fuel ih =>
    cases hq : e.ioptUsed with
    | nil =>
      rw [hq] at hgaps
      refine ⟨e, ?_, ?_, hgaps⟩
      · unfold flushFront
        rw [hq]
      · unfold flushFront
        rw [show (e.onInput input).ioptUsed = [] from hq]
    | cons renc rest =>
      rw [hq] at hfuel htakes hapart hadd hgaps
      have htake := htakes renc List.mem_cons_self
      have hpos : e.unencodedOffset ≤ renc.pos := hapart.after renc List.mem_cons_self
      obtain ⟨hfirst, hrest⟩ := List.pairwise_cons.mp hapart.apart
      have hwithin := htake.within
      obtain ⟨e1, he1, h1, hsame1, hoff1⟩ := ioptAdd_coding
        (h.queue rest e.ioptFree) hpos (by dsimp only; omega)
      obtain ⟨e2, he2, h2, hsame2, hoff2⟩ := finishEncoding_coding h1
        ((htake.queue rest e.ioptFree).later hsame1) hoff1.symm
      have hsame := hsame1.trans hsame2
      have hq2 : e2.ioptUsed = rest := hsame.queue
      have hnext : e2.nextIn = e.nextIn := hsame.nextIn
      -- the gap before the instruction, and the instruction
      have hgap : ioptAdd renc.pos ({ e with ioptUsed := rest }.onInput input) =
          .ok () (e1.onInput input) := by
        refine (ioptAdd_onInput (e := { e with ioptUsed := rest }) (hgaps.head
          (List.forall_mem_cons.mpr ⟨le_rfl, fun r hr => ?_⟩))).trans
          (congrArg (Outcome.mapState _) he1)
        have := hfirst r hr
        omega
      have hinst : finishEncoding renc (e1.onInput input) = .ok () (e2.onInput input) := by
        rw [finishEncoding_onInput fun h => absurd h (hadd renc List.mem_cons_self), he2,
          Outcome.mapState_ok]
      obtain ⟨e', he', hg', hgaps'⟩ := ih flushed (e := e2)
        (by rw [hq2]; exact Nat.le_of_succ_le_succ hfuel)
        h2 (by
          rw [hq2]
          exact fun r hr => ((htakes r (.tail _ hr)).queue rest e.ioptFree).later hsame)
        (by
          rw [hq2, hoff2]
          exact ⟨hfirst, hrest⟩)
        (by
          rw [hq2]
          exact fun r hr => hadd r (.tail _ hr))
        (by
          rw [hq2, hoff2, hnext]
          exact hgaps.tail hpos)
      refine ⟨e', ?_, ?_, hgaps'⟩
      · unfold flushFront ioptAddEncoding
        rw [hq]
        dsimp only
        rw [he1, Outcome.andThen_ok, he2, Outcome.andThen_ok, if_pos rfl, he']
      · unfold flushFront ioptAddEncoding
        rw [show (e.onInput input).ioptUsed = renc :: rest from hq]
        dsimp only
        change
          ((ioptAdd renc.pos ({ e with ioptUsed := rest }.onInput input)).andThen _).andThen _ = _
        rw [hgap, Outcome.andThen_ok, hinst, Outcome.andThen_ok, if_pos rfl, hg']

theorem Encoder.Staged.flush_onInput (h : e.Staged file)
    (hadd : ∀ r ∈ compact true e.ioptUsed, r.type ≠ .add)
    (hgaps : SameGaps e.unencodedOffset (compact true e.ioptUsed) e.nextIn input) :
    (ioptFlushInstructions true (e.onInput input)).andThen (fun _ => ioptAddFinalize) =
      ((ioptFlushInstructions true e).andThen fun _ => ioptAddFinalize).mapState
        (·.onInput input) := by
  have hcoding := h.toPartEncoded.queue (compact true e.ioptUsed)
    (e.ioptFree + (e.ioptUsed.length - (compact true e.ioptUsed).length))
  obtain ⟨e1, he1, hg1, hgaps1⟩ := flushFront_onInput input 0 le_rfl hcoding
    (fun s hs => (h.takes s hs).queue _ _) h.apart hadd hgaps
  have hboth : ioptFlushInstructions true e = .ok () e1 ∧
      ioptFlushInstructions true (e.onInput input) = .ok () (e1.onInput input) := ⟨he1, hg1⟩
  rw [hboth.1, hboth.2, Outcome.andThen_ok, Outcome.andThen_ok]
  unfold ioptAddFinalize
  rw [ioptAdd_onInput (hgaps1.head fun r hr => absurd hr List.not_mem_nil)]
  change ((ioptAdd e1.availIn e1).mapState _).andThen _ = _
  cases ioptAdd e1.availIn e1 with
  | ok a e =>
    rw [Outcome.mapState_ok, Outcome.andThen_ok, Outcome.andThen_ok]
    dsimp only
    rw [show (e.onInput input).iout = e.iout from rfl]
    cases e.iout with
    | none => rfl
    | some iout =>
      unfold Encoder.freeNonadd Encoder.emitSingle Encoder.onInput
      dsimp only
      split <;> rfl
  | starved e => rfl
  | stop s e => rfl
  | fault => rfl

theorem emitHdr_onInput (input : List UInt8) (h : e.src ≠ .dead) (hsum : e.flags.adler32 = false) :
    emitHdr (e.onInput input) = (emitHdr e).mapState (·.onInput input) := by
  have hsent : (e.onInput input).sentAdler32 = e.sentAdler32 := by
    unfold Encoder.sentAdler32 Encoder.onInput
    dsimp only
    rw [hsum, if_neg Bool.false_ne_true, if_neg Bool.false_ne_true]
  rw [emitHdr_eq h, emitHdr_eq (e := e.onInput input) h, hsent]
  rfl

theorem encodeReset_onInput (e : Encoder) (input : List UInt8) :
    encodeReset (e.onInput input) = (encodeReset e).mapState (·.onInput input) := by
  unfold encodeReset Encoder.onInput
  dsimp only
  cases e.src <;> rfl

/-- A window whose checksum is not computed from its input is put out alike on both inputs. -/
theorem Encoder.Staged.encodeQueue_onInput (h : e.Staged file) (input : List UInt8)
    (hsum : e.flags.adler32 = false)
    (hadd : ∀ r ∈ compact true e.ioptUsed, r.type ≠ .add)
    (hgaps : SameGaps e.unencodedOffset (compact true e.ioptUsed) e.nextIn input) :
    Xdelta.encodeQueue (e.onInput input) = (Xdelta.encodeQueue e).mapState (·.onInput input) := by
  obtain ⟨e', he, hc, hs, -, -⟩ := h.flush
  have hflush := h.flush_onInput hadd hgaps
  rw [he, Outcome.mapState_ok] at hflush
  have hemit := emitHdr_onInput input (e := { e' with encState := .flush }) hc.src
    (show e'.flags.adler32 = false from hs.kept.2.1 ▸ hsum)
  unfold Xdelta.encodeQueue encInstr
  rw [← Outcome.andThen_assoc, ← Outcome.andThen_assoc, hflush, he, Outcome.andThen_ok,
    Outcome.andThen_ok]
  refine (congrArg (Outcome.andThen · _) hemit).trans ?_
  cases emitHdr { e' with encState := .flush } with
  | ok a e =>
    rw [Outcome.mapState_ok, Outcome.andThen_ok, Outcome.andThen_ok, encodeReset_onInput]
    cases encodeReset e <;> rfl
  | starved e => rfl
  | stop s e => rfl
  | fault => rfl

end Flush

end Xdelta
