import Xdelta.Decoder.Calls
import Xdelta.Decoder.Load

/-!
# The header states go forward

No header state leads back to an earlier one, so a call that ends in the middle of a
header leaves the stream in a state that `xd3_close_stream` takes for an error. The
one exception is the first state, which records the magic number's bytes only.
-/
namespace Xdelta
open Chunked

variable {σ : Type}

/-- From a state at or past `n`, every way of ending leaves one at or past `n`. -/
def Rises (n : ℕ) (f : Dec σ Unit) : Prop :=
  ∀ s : Reader σ, n ≤ s.core.decState.rank → (f s).Keeps fun s' => n ≤ s'.core.decState.rank

section Rises
variable {n : ℕ}

theorem Rises.bind {f g : Dec σ Unit} (hf : Rises n f) (hg : Rises n g) :
    Rises n (f >>= fun _ => g) :=
  fun s hs => (hf s hs).andThen fun _ s' hs' => hg s' hs'

theorem Rises.core {g : Routine (Core σ) Stop Unit}
    (hg : ∀ c : Core σ, n ≤ c.decState.rank → (g c).Keeps fun c' => n ≤ c'.decState.rank) :
    Rises n (onCore g) :=
  fun s hs => Outcome.Goes.mapState (hg s.core hs)

theorem Rises.fieldCase {read : Routine Input Stop ℕ} {expr : Core σ → Bool}
    {put : Core σ → ℕ → Core σ} {nstate : DecState} (h : n ≤ nstate.rank) :
    Rises n (fieldCase read expr put nstate) := by
  intro s hs
  cases he : expr s.core with
  | false =>
    rw [fieldCase_neg he]
    exact h
  | true =>
    rw [fieldCase_pos he]
    cases read s.inp with
    | ok v i => exact h
    | starved i => exact hs
    | stop e i => exact hs
    | fault => trivial

/-- A check of the fields that leaves the state as it is. -/
theorem Rises.check {g : Routine (Core σ) Stop Unit}
    (hg : ∀ c : Core σ, (g c).Keeps fun c' => c'.decState = c.decState) : Rises n (onCore g) :=
  .core fun c hc => (hg c).mono (fun _ _ h => h ▸ hc) (fun _ h => h ▸ hc) (fun _ _ h => h ▸ hc)

theorem Rises.decodeBytes {view : Core σ → List UInt8} {put : Core σ → List UInt8 → Core σ}
    {size : Core σ → ℕ} (hput : ∀ c b, (put c b).decState = c.decState) :
    Rises n (decodeBytes view put size) := by
  intro s hs
  unfold Xdelta.decodeBytes
  dsimp only
  split
  · exact (congrArg (n ≤ DecState.rank ·) (hput s.core _)).mpr hs
  · exact (congrArg (n ≤ DecState.rank ·) (hput s.core _)).mpr hs

theorem rises_decCksum (h : n ≤ 19) : Rises n (decCksum : Dec σ Unit) := by
  refine .bind (fun s hs => ?_) (.core fun c _ => ?_)
  · unfold readCksum
    split
    · refine Outcome.Goes.andThen (Rises.decodeBytes ?_ s hs) fun _ s' hs' => hs'
      exact fun _ _ => rfl
    · exact hs
  · unfold reportHeader
    dsimp only
    split_ifs <;> exact h

theorem rises_decSectlen (k : Sect) {nstate : DecState} (h : n ≤ nstate.rank) :
    Rises n (decSectlen k nstate : Dec σ Unit) :=
  .fieldCase h

theorem rises_decDelind (h : n ≤ 15) : Rises n (decDelind : Dec σ Unit) := by
  refine .bind (.fieldCase h) (.check fun c => ?_)
  split_ifs <;> rfl

theorem rises_decTgtlen (h : n ≤ 14) : Rises n (decTgtlen : Dec σ Unit) :=
  .bind (.fieldCase h) (.check fun c => keeps_onWindow _ c)

theorem rises_decCpyoff (h : n ≤ 12) : Rises n (decCpyoff : Dec σ Unit) := by
  refine .bind (.fieldCase h) (.check fun c => ?_)
  split_ifs <;> rfl

theorem rises_decCpylen (h : n ≤ 11) : Rises n (decCpylen : Dec σ Unit) :=
  .bind (.fieldCase h) (.check fun c => keeps_onWindow _ c)

theorem rises_fromCpylen (h : n ≤ 10) : Rises n (fromCpylen : Dec σ Unit) := by
  refine .bind (rises_decCpylen (by omega)) (.bind (rises_decCpyoff (by omega)) ?_)
  refine .bind (.fieldCase ?_) (.bind (rises_decTgtlen (by omega)) ?_)
  · exact h.trans (by decide)
  refine .bind (rises_decDelind (by omega)) (.bind (rises_decSectlen _ ?_) ?_)
  · exact h.trans (by decide)
  refine .bind (rises_decSectlen _ ?_) (.bind (rises_decSectlen _ ?_) (rises_decCksum (by omega)))
  · exact h.trans (by decide)
  · exact h.trans (by decide)

theorem rises_decWinind (h : n ≤ 10) : Rises n (decWinind : Dec σ Unit) := by
  intro s hs
  refine Outcome.Goes.andThen (Q := fun _ s' => n ≤ s'.core.decState.rank) ?_ fun v s' hs' => ?_
  · unfold onInput
    rw [Routine.zoom_apply]
    cases decodeByte s.inp <;> first | exact hs | trivial
  · refine Outcome.Goes.mapState ?_
    dsimp only
    split_ifs
    · exact hs'
    · exact hs'
    · exact h

theorem rises_fromWinind (h : n ≤ 9) : Rises n (fromWinind : Dec σ Unit) :=
  .bind (rises_decWinind (by omega)) (rises_fromCpylen (by omega))

theorem rises_decAppdat (h : n ≤ 9) : Rises n (decAppdat : Dec σ Unit) := by
  intro s hs
  refine Outcome.Goes.andThen (Q := fun _ s' => n ≤ s'.core.decState.rank) ?_ fun _ s' _ => h
  split_ifs
  · exact hs
  · refine Rises.decodeBytes ?_ s hs
    exact fun _ _ => rfl
  · exact hs

theorem rises_decTabdat (h : n ≤ 7) : Rises n (decTabdat : Dec σ Unit) := by
  refine .core fun c hc => ?_
  split_ifs
  · exact hc
  · exact h

theorem rises_decTablen (h : n ≤ 4) : Rises n (decTablen : Dec σ Unit) := by
  refine .bind (.fieldCase h) (.check fun c => ?_)
  split_ifs <;> rfl

theorem rises_decSecondid (env : Env σ) (h : n ≤ 3) : Rises n (decSecondid env) := by
  intro s hs
  unfold decSecondid
  split
  · refine (Rises.fieldCase h s hs).andThen fun _ s' hs' => Rises.check (fun c => ?_) s' hs'
    unfold selectSecondary
    split
    · rfl
    · split <;> rfl
  · exact hs

theorem rises_decHdrind (h : n ≤ 2) : Rises n (decHdrind : Dec σ Unit) := by
  intro s hs
  refine Outcome.Goes.andThen (Q := fun _ s' => n ≤ s'.core.decState.rank) ?_ fun v s' hs' => ?_
  · unfold onInput
    rw [Routine.zoom_apply]
    cases decodeByte s.inp <;> first | exact hs | trivial
  · refine Outcome.Goes.mapState ?_
    dsimp only
    split_ifs
    · exact hs'
    · exact h

theorem rises_fromHdrind (env : Env σ) (h : n ≤ 1) : Rises n (fromHdrind env) := by
  refine .bind (rises_decHdrind (by omega)) (.bind (rises_decSecondid env (by omega)) ?_)
  refine .bind (rises_decTablen (by omega)) (.bind (.fieldCase ?_) (.bind (.fieldCase ?_) ?_))
  · exact h.trans (by decide)
  · exact h.trans (by decide)
  refine .bind (rises_decTabdat (by omega)) (.bind (.fieldCase ?_) ?_)
  · exact h.trans (by decide)
  exact .bind (rises_decAppdat (by omega)) (rises_fromWinind (by omega))

end Rises

/-- A window header that is begun is not left at its first state. -/
theorem fromWinind_starved {s s' : Reader σ} (hin : s.inp.nextIn ≠ [])
    (h : fromWinind s = .starved s') : 10 ≤ s'.core.decState.rank := by
  obtain ⟨b, rest, hb⟩ := List.exists_cons_of_ne_nil hin
  have hbyte : decodeByte s.inp = .ok b.toNat
      { s.inp with nextIn := rest, totalIn := s.inp.totalIn + 1 } := by
    unfold decodeByte
    rw [hb]
  have hgoes : (fromWinind s).Goes (fun _ _ => True) (fun s' => 10 ≤ s'.core.decState.rank)
      (fun _ _ => True) := by
    refine Outcome.Goes.andThen (Q := fun _ s' => 10 ≤ s'.core.decState.rank) ?_ fun _ t ht =>
      (rises_fromCpylen le_rfl t ht).mono (fun _ _ _ => trivial) (fun _ h => h) fun _ _ _ => trivial
    unfold decWinind
    rw [Routine.bind_apply, onInput, Routine.zoom_apply, hbyte, Outcome.mapState_ok,
      Outcome.andThen_ok, onCore, Routine.zoom_apply]
    refine Outcome.Goes.mapState ?_
    dsimp only
    split_ifs
    · trivial
    · trivial
    · exact le_rfl
  rw [h] at hgoes
  exact hgoes

theorem fromVchead_starved (env : Env σ) {s s' : Reader σ} (hmagic : s.core.decMagic = [])
    (hin : 4 ≤ s.inp.nextIn.length) (h : fromVchead env s = .starved s') :
    1 ≤ s'.core.decState.rank := by
  have hgoes : (fromVchead env s).Goes (fun _ _ => True) (fun s' => 1 ≤ s'.core.decState.rank)
      (fun _ _ => True) := by
    refine Outcome.Goes.andThen (Q := fun _ s' => 1 ≤ s'.core.decState.rank) ?_ fun _ t ht =>
      (rises_fromHdrind env le_rfl t ht).mono (fun _ _ _ => trivial) (fun _ h => h)
        fun _ _ _ => trivial
    refine Outcome.Goes.andThen (Q := fun _ _ => True) ?_ fun _ t _ => Outcome.Goes.mapState ?_
    · unfold decodeBytes
      dsimp only
      rw [hmagic, if_neg]
      · trivial
      · rw [List.nil_append, List.length_take, List.length_nil]
        omega
    · dsimp only
      split_ifs
      · trivial
      · trivial
      · exact le_rfl
  rw [h] at hgoes
  exact hgoes

/-- Fewer bytes leave the first state, with what there is of the magic number. -/
theorem fromVchead_short (env : Env σ) {s : Reader σ} (hmagic : s.core.decMagic = [])
    (hin : s.inp.nextIn.length < 4) :
    ∃ s', fromVchead env s = .starved s' ∧ s'.core.decState = s.core.decState := by
  refine ⟨⟨s.inp.consume s.inp.nextIn.length, { s.core with decMagic := s.inp.nextIn }⟩, ?_, rfl⟩
  unfold fromVchead decVchead decodeBytes
  rw [Routine.bind_apply, Routine.bind_apply]
  dsimp only
  have hmin : min (4 - 0) s.inp.nextIn.length = s.inp.nextIn.length := by omega
  rw [hmagic, List.length_nil, hmin, List.take_length, List.nil_append, if_pos hin]
  rfl

/-- In the middle of a header or of the sections, closing the stream is an error. -/
theorem closeStream_ne_none {c : Core σ} (h1 : 1 ≤ c.decState.rank) (h9 : c.decState ≠ .winind)
    (h23 : c.decState.rank ≤ 23) : closeStream c ≠ none := by
  unfold closeStream
  cases hs : c.decState with
  | vchead => rw [hs] at h1; exact absurd h1 (by decide)
  | winind => exact absurd hs h9
  | aborted => rw [hs] at h23; exact absurd h23 (by decide)
  | _ => exact Option.some_ne_none _

end Xdelta
