import Xdelta.Decoder.Input

/-!
# The header states

Every header state can be interrupted at any byte and re-entered at the state it
recorded, and leaves the window as it found it but for the fields it decodes.
Each state is one step with a condition before and after; the states falling
through one another are the steps in sequence.
-/
namespace Xdelta
open Chunked

variable {σ : Type}

/-- The five ordinary codes; `XD3_INPUT`, the sixth, is the starved outcome. -/
def Ret.ordinary : Ret → Bool
  | output | getsrcblk | gotheader | winstart | winfinish => true
  | _ => false

/-- The numbers of `xd3_decode_state`. -/
def DecState.rank : DecState → ℕ
  | vchead => 0 | hdrind => 1 | secondid => 2 | tablen => 3 | near => 4 | same => 5
  | tabdat => 6 | applen => 7 | appdat => 8 | winind => 9 | cpylen => 10 | cpyoff => 11
  | enclen => 12 | tgtlen => 13 | delind => 14 | datalen => 15 | instlen => 16 | addrlen => 17
  | cksum => 18 | data => 19 | inst => 20 | addr => 21 | emit => 22 | finish => 23 | aborted => 24

def Holds (P : Core σ → Prop) (s : Reader σ) : Prop :=
  P s.core ∧ s.inp.dec64part < usize.modulus

def Starved (P : Core σ → Prop) (s : Reader σ) : Prop := Holds P s ∧ s.inp.nextIn = []

theorem Holds.more {P : Core σ → Prop} {s : Reader σ} (h : Holds P s) (b : List UInt8) :
    Holds P (s.more b) := h

/-- A step leads from `P` to `Q`, can be resumed by itself, starves in `P`, and
stops with errors only. -/
structure StepAt (P Q : Core σ → Prop) (f : Dec σ Unit) : Prop where
  resumes : Resumes Reader.more (Holds P) f f
  ends : ∀ s, Holds P s →
    (f s).Ends (fun _ => Holds Q) (Starved P) (fun e _ => e.ret.ordinary = false)

/-- A read of a bounded value from the input that can be resumed by itself. -/
structure Reads (read : Routine Input Stop ℕ) : Prop where
  resumes : Resumes Input.more (fun _ => True) read read
  ends : ∀ i, i.dec64part < usize.modulus →
    (read i).Ends (fun v i => v < usize.modulus ∧ i.dec64part < usize.modulus)
      (fun i => i.dec64part < usize.modulus ∧ i.nextIn = []) (fun e _ => e.ret.ordinary = false)

private theorem decodeByte_apply (i : Input) :
    decodeByte i = match i.nextIn with
      | [] => .starved i
      | b :: rest => .ok b.toNat { i with nextIn := rest, totalIn := i.totalIn + 1 } := rfl

private theorem decodeSize_apply (i : Input) :
    decodeSize i = match decodeInteger usize i.nextIn i.dec64part with
      | .value v rest => .ok v ⟨rest, i.totalIn + (i.nextIn.length - rest.length), 0⟩
      | .overflow part rest =>
        .stop ⟨.invalidInput, some "overflow in decode_integer"⟩
          ⟨rest, i.totalIn + (i.nextIn.length - rest.length), part⟩
      | .input part => .starved ⟨[], i.totalIn + i.nextIn.length, part⟩ := rfl

theorem reads_decodeByte : Reads decodeByte where
  resumes i _ b := by
    rw [decodeByte_apply i]
    cases h : i.nextIn with
    | nil => rfl
    | cons x rest =>
      rw [decodeByte_apply, Input.more_nextIn, h]
      rfl
  ends i hi := by
    rw [decodeByte_apply]
    cases h : i.nextIn with
    | nil => exact ⟨hi, h⟩
    | cons x rest => exact ⟨lt_trans x.toNat_lt (by decide), hi⟩

theorem reads_decodeSize : Reads decodeSize where
  resumes i _ b := by
    rw [decodeSize_apply i, decodeSize_apply (i.more b), Input.more_nextIn,
      show (i.more b).dec64part = i.dec64part from rfl, decodeInteger_append, List.length_append]
    have hlen := decodeInteger_length usize i.nextIn i.dec64part
    cases h : decodeInteger usize i.nextIn i.dec64part with
    | value v rest =>
      rw [h] at hlen
      have hn : i.nextIn.length + b.length - (rest ++ b).length =
          i.nextIn.length - rest.length := by rw [List.length_append]; omega
      dsimp only
      rw [hn]
      rfl
    | overflow p rest =>
      rw [h] at hlen
      have hn : i.nextIn.length + b.length - (rest ++ b).length =
          i.nextIn.length - rest.length := by rw [List.length_append]; omega
      dsimp only
      rw [hn]
      rfl
    | input p =>
      rw [Outcome.feed_starved, decodeSize_apply]
      have hlen' := decodeInteger_length usize b p
      simp only [Input.more, List.nil_append]
      cases h' : decodeInteger usize b p with
      | value v rest =>
        rw [h'] at hlen'
        simp only [Outcome.ok.injEq, Input.mk.injEq, true_and, and_true]
        omega
      | overflow q rest =>
        rw [h'] at hlen'
        simp only [Outcome.stop.injEq, Input.mk.injEq, true_and, and_true]
        omega
      | input q => simp only [Nat.add_assoc]
  ends i hi := by
    rw [decodeSize_apply]
    have hb := decodeInteger_bounds usize i.nextIn i.dec64part hi
    cases h : decodeInteger usize i.nextIn i.dec64part with
    | value v rest =>
      rw [h] at hb
      exact ⟨hb, usize.modulus_pos⟩
    | overflow p rest => rfl
    | input p =>
      rw [h] at hb
      exact ⟨hb, rfl⟩

theorem fieldCase_pos {read : Routine Input Stop ℕ} {expr : Core σ → Bool}
    {put : Core σ → ℕ → Core σ} {nstate : DecState} {s : Reader σ} (h : expr s.core = true) :
    fieldCase read expr put nstate s = match read s.inp with
      | .ok v i => .ok () ⟨i, { put s.core v with decState := nstate }⟩
      | .starved i => .starved { s with inp := i }
      | .stop e i => .stop e { s with inp := i }
      | .fault => .fault := by
  unfold fieldCase
  simp only [h, if_true, onInput, Routine.zoom_apply]
  cases read s.inp <;> rfl

theorem fieldCase_neg {read : Routine Input Stop ℕ} {expr : Core σ → Bool}
    {put : Core σ → ℕ → Core σ} {nstate : DecState} {s : Reader σ} (h : expr s.core = false) :
    fieldCase read expr put nstate s =
      .ok () { s with core := { s.core with decState := nstate } } := by
  unfold fieldCase
  simp only [h]
  rfl

theorem StepAt.fieldCase {P Q : Core σ → Prop} {read : Routine Input Stop ℕ} (hread : Reads read)
    {expr : Core σ → Bool} {put : Core σ → ℕ → Core σ} {nstate : DecState}
    (hyes : ∀ c v, P c → expr c = true → v < usize.modulus → Q { put c v with decState := nstate })
    (hno : ∀ c, P c → expr c = false → Q { c with decState := nstate }) :
    StepAt P Q (fieldCase read expr put nstate) where
  resumes s _ b := by
    cases h : expr s.core with
    | false => rw [fieldCase_neg h, fieldCase_neg (by simpa using h), Outcome.feed_ok]; rfl
    | true =>
      have hr := hread.resumes s.inp trivial b
      rw [fieldCase_pos h, fieldCase_pos (by simpa using h), Reader.more_inp, hr]
      cases read s.inp with
      | ok v i => rfl
      | starved i =>
        rw [Outcome.feed_starved, Outcome.feed_starved, fieldCase_pos (by simpa using h)]
        rfl
      | stop e i => rfl
      | fault => rfl
  ends s hs := by
    cases h : expr s.core with
    | false =>
      rw [fieldCase_neg h]
      exact ⟨hno _ hs.1 h, hs.2⟩
    | true =>
      have he := hread.ends s.inp hs.2
      rw [fieldCase_pos h]
      cases hr : read s.inp with
      | ok v i =>
        rw [hr] at he
        exact ⟨hyes _ v hs.1 h he.1, he.2⟩
      | starved i =>
        rw [hr] at he
        exact ⟨⟨hs.1, he.1⟩, he.2⟩
      | stop e i =>
        rw [hr] at he
        exact he
      | fault =>
        rw [hr] at he
        exact he

private theorem decodeBytes_apply (view : Core σ → List UInt8)
    (put : Core σ → List UInt8 → Core σ) (size : Core σ → ℕ) (s : Reader σ) :
    decodeBytes view put size s =
      let take := min (size s.core - (view s.core).length) s.inp.nextIn.length
      if (view s.core).length + s.inp.nextIn.length < size s.core then
        .starved ⟨s.inp.consume s.inp.nextIn.length, put s.core (view s.core ++ s.inp.nextIn)⟩
      else .ok () ⟨s.inp.consume take, put s.core (view s.core ++ s.inp.nextIn.take take)⟩ := by
  unfold decodeBytes
  by_cases h : (view s.core).length + s.inp.nextIn.length < size s.core
  · have ht : min (size s.core - (view s.core).length) s.inp.nextIn.length = s.inp.nextIn.length := by omega
    simp only [h, if_true, ht, List.take_length, List.length_append]
  · simp only [h, if_false, List.length_append, List.length_take]
    rw [if_neg (by omega)]

/-- `xd3_decode_bytes` as a step, for a buffer that no other field depends on. -/
theorem StepAt.decodeBytes {P Q : Core σ → Prop} {view : Core σ → List UInt8}
    {put : Core σ → List UInt8 → Core σ} {size : Core σ → ℕ} (hview : ∀ c b, view (put c b) = b)
    (hput : ∀ c b b', put (put c b) b' = put c b') (hsize : ∀ c b, size (put c b) = size c)
    (hP : ∀ c b, P c → P (put c b))
    (hQ : ∀ c b, P c → Q (put c b)) : StepAt P Q (decodeBytes view put size) where
  resumes s _ b := by
    rw [decodeBytes_apply view put size s, decodeBytes_apply view put size (s.more b),
      Reader.more_core, Reader.more_inp, Input.more_nextIn, List.length_append]
    generalize hx : view s.core = x
    generalize hn : size s.core = n
    by_cases hlt : x.length + s.inp.nextIn.length < n
    · -- everything is taken, and the call starves
      rw [if_pos hlt, Outcome.feed_starved, decodeBytes_apply, Reader.more_core, hview, hput, hsize, hn,
        List.length_append, Reader.more_inp, Input.more_nextIn]
      have htake : min (n - (x.length + s.inp.nextIn.length)) b.length =
          min (n - x.length) (s.inp.nextIn.length + b.length) - s.inp.nextIn.length := by omega
      have hle : s.inp.nextIn.length ≤
          min (n - x.length) (s.inp.nextIn.length + b.length) := by omega
      simp only [Input.consume, Input.more, List.drop_length, List.nil_append, htake,
        List.take_append, List.drop_append, List.take_of_length_le hle,
        List.drop_of_length_le hle, List.append_assoc, Nat.add_assoc]
      have hadd : s.inp.nextIn.length + (min (n - x.length) (s.inp.nextIn.length + b.length) -
          s.inp.nextIn.length) = min (n - x.length) (s.inp.nextIn.length + b.length) := by omega
      have hdrop : List.drop (s.inp.nextIn.length + b.length) s.inp.nextIn = [] :=
        List.drop_of_length_le (Nat.le_add_right _ _)
      simp only [hadd, hput, hdrop, List.nil_append, Nat.add_sub_cancel_left, List.drop_length]
    · have h1 : min (n - x.length) (s.inp.nextIn.length + b.length) =
          min (n - x.length) s.inp.nextIn.length := by omega
      rw [if_neg hlt, if_neg (by omega), h1, Outcome.feed_ok]
      simp only [Input.consume, Reader.more, Input.more]
      rw [List.take_append_of_le_length (by omega), List.drop_append_of_le_length (by omega)]
  ends s hs := by
    rw [decodeBytes_apply]
    dsimp only
    split
    · exact ⟨⟨hP _ _ hs.1, hs.2⟩, List.drop_length⟩
    · exact ⟨hQ _ _ hs.1, hs.2⟩

theorem StepAt.seq {P Q Q' : Core σ → Prop} {f g : Dec σ Unit} (hf : StepAt P Q f)
    (hg : StepAt Q Q' g) (hn : ∀ s, Holds Q s → ∀ s', g s ≠ .starved s') :
    StepAt P Q' (f >>= fun _ => g) where
  resumes := by
    refine Resumes.seq (Q := fun _ => Holds Q) hf.resumes ?_ ?_ ?_
    · intro s hs a s' h
      have he := hf.ends s hs
      rw [h] at he
      exact he
    · intro _ s hs b
      rw [hg.resumes s hs b]
      cases h : g s with
      | starved s' => exact absurd h (hn s hs s')
      | ok a s' => rfl
      | stop e s' => rfl
      | fault => rfl
    · intros; rfl
  ends s hs := by
    refine (hf.ends s hs).andThen fun _ s' hs' => ?_
    have he := hg.ends s' hs'
    cases h : g s' with
    | starved s'' => exact absurd h (hn s' hs' s'')
    | ok a s'' => rw [h] at he; exact he
    | stop e s'' => rw [h] at he; exact he
    | fault => rw [h] at he; exact he

theorem StepAt.read {P Q : Core σ → Prop} {read : Routine Input Stop ℕ} (hread : Reads read)
    {g : ℕ → Routine (Core σ) Stop Unit}
    (hg : ∀ c v, P c → v < usize.modulus →
      (g v c).Ends (fun _ => Q) (fun _ => False) (fun e _ => e.ret.ordinary = false)) :
    StepAt P Q (onInput read >>= fun v => onCore (g v)) where
  resumes s hs b := by
    have hr := hread.resumes s.inp trivial b
    have he := hread.ends s.inp hs.2
    rw [Routine.bind_apply, Routine.bind_apply, onInput, Routine.zoom_apply, Routine.zoom_apply,
      Reader.more_inp, hr]
    cases h : read s.inp with
    | ok v i =>
      rw [h] at he
      have hgv := hg s.core v hs.1 he.1
      simp only [Outcome.feed_ok, Outcome.mapState_ok, Outcome.andThen_ok, onCore,
        Routine.zoom_apply, Reader.more_core]
      cases hgs : g v s.core with
      | starved c => rw [hgs] at hgv; exact hgv.elim
      | ok a c => rfl
      | stop e c => rfl
      | fault => rfl
    | starved i => rfl
    | stop e i => rfl
    | fault => rfl
  ends s hs := by
    rw [Routine.bind_apply, onInput, Routine.zoom_apply]
    have he := hread.ends s.inp hs.2
    cases h : read s.inp with
    | ok v i =>
      rw [h] at he
      refine Outcome.Ends.mapState ?_
      exact (hg s.core v hs.1 he.1).mono (fun _ c hc => ⟨hc, he.2⟩) (fun c hc => hc.elim)
        (fun _ _ he => he)
    | starved i =>
      rw [h] at he
      exact ⟨⟨hs.1, he.1⟩, he.2⟩
    | stop e i =>
      rw [h] at he
      exact he
    | fault =>
      rw [h] at he
      exact he

theorem StepAt.core {P Q : Core σ → Prop} {g : Routine (Core σ) Stop Unit}
    (hg : ∀ c, P c → (g c).Ends (fun _ => Q) (fun _ => False) (fun e _ => e.ret.ordinary = false)) :
    StepAt P Q (onCore g) where
  resumes s hs b := by
    have he := hg s.core hs.1
    simp only [onCore, Routine.zoom_apply, Reader.more_core]
    cases h : g s.core with
    | starved c => rw [h] at he; exact he.elim
    | ok a c => rfl
    | stop e c => rfl
    | fault => rfl
  ends s hs := by
    refine Outcome.Ends.mapState ?_
    exact (hg s.core hs.1).mono (fun _ c hc => ⟨hc, hs.2⟩) (fun c hc => hc.elim) (fun _ _ he => he)

theorem StepAt.check {P Q Q' : Core σ → Prop} {f : Dec σ Unit} (hf : StepAt P Q f)
    {g : Routine (Core σ) Stop Unit}
    (hg : ∀ c, Q c → (g c).Ends (fun _ => Q') (fun _ => False) (fun e _ => e.ret.ordinary = false)) :
    StepAt P Q' (f >>= fun _ => onCore g) := by
  refine hf.seq (.core hg) fun s hs s' h => ?_
  have he := hg s.core hs.1
  simp only [onCore, Routine.zoom_apply] at h
  cases hgs : g s.core with
  | starved c => rw [hgs] at he; exact he
  | ok a c => rw [hgs] at h; cases h
  | stop e c => rw [hgs] at h; cases h
  | fault => rw [hgs] at h; cases h

theorem StepAt.skip {P Q : Core σ → Prop} (h : ∀ c, P c → Q c) :
    StepAt P Q (pure () : Dec σ Unit) where
  resumes _ _ _ := rfl
  ends _ hs := ⟨h _ hs.1, hs.2⟩

/-- A step chosen by a condition on the fields that the choices do not change. -/
theorem StepAt.ite {P Q : Core σ → Prop} {e : Core σ → Bool} {r f g : Dec σ Unit}
    (hr : ∀ s, r s = if e s.core then f s else g s)
    (hf : StepAt (fun c => P c ∧ e c = true) Q f) (hg : StepAt (fun c => P c ∧ e c = false) Q g) :
    StepAt P Q r where
  resumes s hs b := by
    rw [hr (s.more b), hr s, Reader.more_core]
    cases h : e s.core with
    | true =>
      have hh : Holds (fun c => P c ∧ e c = true) s := ⟨⟨hs.1, h⟩, hs.2⟩
      have he := hf.ends s hh
      rw [if_pos rfl, if_pos rfl, hf.resumes s hh b]
      cases hfs : f s with
      | starved s' =>
        rw [hfs] at he
        rw [Outcome.feed_starved, Outcome.feed_starved, hr, Reader.more_core, if_pos he.1.1.2]
      | ok a s' => rfl
      | stop e s' => rfl
      | fault => rfl
    | false =>
      have hh : Holds (fun c => P c ∧ e c = false) s := ⟨⟨hs.1, h⟩, hs.2⟩
      have he := hg.ends s hh
      rw [if_neg Bool.false_ne_true, if_neg Bool.false_ne_true, hg.resumes s hh b]
      cases hgs : g s with
      | starved s' =>
        rw [hgs] at he
        rw [Outcome.feed_starved, Outcome.feed_starved, hr, Reader.more_core, he.1.1.2,
          if_neg Bool.false_ne_true]
      | ok a s' => rfl
      | stop e s' => rfl
      | fault => rfl
  ends s hs := by
    rw [hr]
    cases h : e s.core with
    | true =>
      exact (hf.ends s ⟨⟨hs.1, h⟩, hs.2⟩).mono (fun _ _ h => h) (fun _ h => ⟨⟨h.1.1.1, h.1.2⟩, h.2⟩)
        (fun _ _ h => h)
    | false =>
      exact (hg.ends s ⟨⟨hs.1, h⟩, hs.2⟩).mono (fun _ _ h => h) (fun _ h => ⟨⟨h.1.1.1, h.1.2⟩, h.2⟩)
        (fun _ _ h => h)

end Xdelta
