import Xdelta.Decoder.Prompt

/-!
# The decoder does not see how its input is cut

The invariant of the stream between calls, the resumption law of the decoder
without staging buffers, and the drivers around both decoders. Any two ways of
cutting the same bytes into chunks give the same returns, fields and output.
-/
namespace Xdelta
open Chunked

variable {σ : Type}

def Rested (c : Core σ) : Prop := c.decWinbytes = 0 ∧ ∀ k, (c.win.sect k).pos = 0

/-- Between windows no section is in part; nothing is said of secondary compression. -/
structure Frame.AtRest (F : Frame) : Prop where
  plain : F.plain = false
  pos : ∀ k, (F.win.sect k).pos = 0

theorem Frame.AtRest.secondary {F : Frame} (h : F.AtRest) (env : Env σ) (hp : F.plain = true) :
    ∀ id, env.secondary id = none := by
  rw [h.plain] at hp
  cases hp

def Inv (c : Core σ) : Prop :=
  match c.decState with
  | .data | .inst | .addr => Reading c
  | .emit | .aborted => True
  | .finish => Rested c
  | state => ∃ F : Frame, F.AtRest ∧ Facts F state.rank c

theorem inv_of_waiting {F : Frame} (hF : F.AtRest) {c : Core σ}
    (h : Waiting F c) : Inv c := by
  obtain ⟨hr, hf⟩ := h
  unfold Inv
  split
  case h_1 hs => rw [hs] at hr; exact absurd hr (by decide)
  case h_2 hs => rw [hs] at hr; exact absurd hr (by decide)
  case h_3 hs => rw [hs] at hr; exact absurd hr (by decide)
  case h_4 => trivial
  case h_5 => trivial
  case h_6 hs => rw [hs] at hr; exact absurd hr (by decide)
  case h_7 => exact ⟨F, hF, hf⟩

theorem waiting_of_inv {c : Core σ} (h : Inv c) (hr : c.decState.rank ≤ 18) :
    ∃ F : Frame, F.AtRest ∧ Waiting F c := by
  unfold Inv at h
  split at h
  case h_1 hs => rw [hs] at hr; exact absurd hr (by decide)
  case h_2 hs => rw [hs] at hr; exact absurd hr (by decide)
  case h_3 hs => rw [hs] at hr; exact absurd hr (by decide)
  case h_4 hs => rw [hs] at hr; exact absurd hr (by decide)
  case h_5 hs => rw [hs] at hr; exact absurd hr (by decide)
  case h_6 hs => rw [hs] at hr; exact absurd hr (by decide)
  case h_7 =>
    obtain ⟨F, hF, hf⟩ := h
    exact ⟨F, hF, hr, hf⟩

/-- The positions of the sections are not among the fields of the header. -/
theorem Facts.pos_zero {F : Frame} {r : ℕ} {c : Core σ} (h : Facts F r c)
    (hF : F.AtRest) (k : Sect) : (c.win.sect k).pos = 0 := by
  have hk := hF.pos k
  rw [← h.kept] at hk
  cases k <;> exact hk

theorem reading_of_data {F : Frame} (hF : F.AtRest) {c : Core σ}
    (h : At F .data c) : Reading c where
  state := .inl h.1
  size k := h.2.size k (by cases k <;> decide)
  pos_le k := by rw [h.2.pos_zero hF k]; exact Nat.zero_le _
  pos_zero k _ := h.2.pos_zero hF k
  fits hne := hne.elim (absurd h.1) (absurd h.2.winbytes)
  skipped _ := ⟨h.1, by rw [h.2.winbytes]; exact Nat.zero_le _, h.2.pos_zero hF .data⟩
  bytes _ := by
    have h1 : c.win.dataSect.pos = 0 := h.2.pos_zero hF .data
    have h2 : c.win.instSect.pos = 0 := h.2.pos_zero hF .inst
    have h3 : c.win.addrSect.pos = 0 := h.2.pos_zero hF .addr
    rw [h.2.winbytes, h.1, h1, h2, h3]
    rfl

def Closing (c : Core σ) : Prop := c.decState = .emit ∨ (c.decState = .finish ∧ Rested c)

theorem inv_of_closing {c : Core σ} (h : Closing c) : Inv c := by
  unfold Inv
  rcases h with h | ⟨h, hr⟩
  · rw [h]
    trivial
  · rw [h]
    exact hr

theorem keeps_onWindow (f : Routine Window Stop Unit) (c : Core σ) :
    (onWindow f c).Keeps fun c' => c'.decState = c.decState :=
  Outcome.Goes.mapState (Outcome.goes_of_forall (fun _ _ => rfl) (fun _ => rfl) (fun _ _ => rfl) _)

theorem keeps_decodeFinishWindow (c : Core σ) : (decodeFinishWindow c).Keeps Closing :=
  .inr ⟨rfl, rfl, fun k => by cases k <;> rfl⟩

theorem keeps_countOutput {o : Outcome (Core σ) Stop Unit} (h : o.Keeps Closing) :
    (countOutput o).Keeps Closing := by
  unfold countOutput
  split
  · rcases h with h | ⟨h, h0, hk⟩
    · exact .inl h
    · exact .inr ⟨h, h0, fun k => by have := hk k; cases k <;> exact this⟩
  · exact h

theorem keeps_decEmit (env : Env σ) {c : Core σ} (h : c.decState = .emit) :
    (decEmit env c).Keeps Closing := by
  have hw : ∀ (f : Routine Window Stop Unit) (c : Core σ), c.decState = .emit →
      (onWindow f c).Goes (fun _ c => c.decState = .emit) Closing (fun _ => Closing) :=
    fun f c hc => (keeps_onWindow f c).mono (fun _ _ h => h.trans hc) (fun _ h => .inl (h.trans hc))
      (fun _ _ h => .inl (h.trans hc))
  refine (hw _ c h).andThen fun _ c hc => keeps_countOutput ?_
  exact (hw _ c hc).andThen fun _ c _ => keeps_decodeFinishWindow c

theorem keeps_decodeSecondarySection (k : Sect) (c : Core σ) :
    (decodeSecondarySection k c).Keeps fun c' => c'.decState = c.decState := by
  unfold decodeSecondarySection
  split
  · unfold decodeSecondary
    split
    · trivial
    · dsimp only
      split
      · trivial
      · rfl
      · split
        · rfl
        · split
          · rfl
          · split
            · trivial
            · split
              · rfl
              · split <;> rfl
  · rfl

def finishSections (env : Env σ) : Routine (Core σ) Stop Unit := fun c =>
  (afterSections c).andThen fun _ => decEmit env

theorem prompt_finishSections (env : Env σ) (c : Core σ) : (finishSections env c).Prompt :=
  (prompt_afterSections c).andThen fun _ => prompt_decEmit env

theorem keeps_finishSections (env : Env σ) {c : Core σ} (h : c.decState = .emit) :
    (finishSections env c).Keeps Closing := by
  have hs : ∀ k (c : Core σ), c.decState = .emit → (decodeSecondarySection k c).Goes
      (fun _ c => c.decState = .emit) Closing (fun _ => Closing) :=
    fun k c hc => (keeps_decodeSecondarySection k c).mono (fun _ _ h => h.trans hc)
      (fun _ h => .inl (h.trans hc)) (fun _ _ h => .inl (h.trans hc))
  unfold finishSections afterSections
  rw [Outcome.andThen_assoc]
  refine Outcome.Goes.andThen (Q := fun _ c => c.decState = .emit) ?_ fun _ c hc => ?_
  · exact (hs _ c h).andThen fun _ c hc => (hs _ c hc).andThen fun _ c hc => hs _ c hc
  · split
    · exact keeps_decodeFinishWindow c
    · have hk := (keeps_onWindow decodeSetupBuffers c).mono (R := fun _ c => c.decState = .emit)
        (T := Closing) (F := fun _ => Closing) (fun _ _ h => h.trans hc)
        (fun _ h => .inl (h.trans hc)) (fun _ _ h => .inl (h.trans hc))
      exact hk.andThen fun _ c' h => keeps_decEmit env h

def thenAddr (env : Env σ) : Dec σ Unit :=
  fillSection .addr .emit >>= fun _ => onCore (finishSections env)
def thenInst (env : Env σ) : Dec σ Unit := fillSection .inst .addr >>= fun _ => thenAddr env
def thenData (env : Env σ) : Dec σ Unit := fillSection .data .inst >>= fun _ => thenInst env

/-- Reading section `k` and what follows it. -/
def thenFrom (env : Env σ) : Sect → Dec σ Unit
  | .data => thenData env
  | .inst => thenInst env
  | .addr => thenAddr env

theorem onCore_finishSections (env : Env σ) (s : Reader σ) :
    (onCore afterSections s).andThen (fun _ => onCore (decEmit env)) =
      onCore (finishSections env) s := by
  simp only [onCore, Routine.zoom_apply, finishSections]
  cases afterSections s.core <;> rfl

theorem plainInput_filling (env : Env σ) {k : Sect} {s : Reader σ} (h : Filling k s.core) :
    plainInput env s = thenFrom env k s := by
  have hsect : plainSections s = (fillSections s).andThen fun _ => onCore afterSections := by
    unfold plainSections
    simp [h.header, h.window, h.total]
  have hplain : plainInput env s =
      (plainSections s).andThen fun _ => onCore (decEmit env) := by
    unfold plainInput
    rw [h.state_eq]
    cases k <;> rfl
  rw [hplain, hsect, Outcome.andThen_assoc]
  simp only [onCore_finishSections]
  unfold fillSections
  rw [h.state_eq]
  cases k with
  | addr => rfl
  | inst =>
    simp only [Sect.state, fillFromInst, Routine.bind_apply, Outcome.andThen_assoc]
    rfl
  | data =>
    simp only [Sect.state, fillFromData, fillFromInst, Routine.bind_apply, Outcome.andThen_assoc]
    rfl

/-- A routine that never starves and does not use the input. -/
theorem resumes_onCore {P : Reader σ → Prop} {r : Dec σ Unit} {f : Routine (Core σ) Stop Unit}
    (hf : ∀ c, (f c).Prompt) : Resumes Reader.more P r (onCore f) := by
  intro s _ b
  have hp := hf s.core
  simp only [onCore, Routine.zoom_apply, Reader.more_core]
  cases h : f s.core with
  | starved c => rw [h] at hp; exact hp.elim
  | ok a c => rfl
  | stop e c => rfl
  | fault => rfl

private theorem resumes_fill (env : Env σ) {k : Sect} {Q : Reader σ → Prop} {next : Dec σ Unit}
    (hnext : Resumes Reader.more Q (plainInput env) next)
    (hQ : ∀ s s', Holds (Filling k) s → Nonempty (Filled k s s') → Q s')
    (hd : thenFrom env k = (fillSection k k.next >>= fun _ => next)) :
    Resumes Reader.more (Holds (Filling k)) (plainInput env) (thenFrom env k) := by
  rw [hd]
  refine Resumes.seq (Q := fun _ => Q) (fun s _ b => fillSection_resumes k k.next s trivial b)
    ?_ (fun _ => hnext) ?_
  · intro s hs a s' h
    have he := fillSection_ends hs
    rw [h] at he
    exact hQ s s' hs he
  · intro s hs s' h b
    have he := fillSection_ends hs
    rw [h] at he
    rw [plainInput_filling env (k := k) (s := s'.more b) he.1.1, hd]

theorem resumes_thenFrom (env : Env σ) (k : Sect) :
    Resumes Reader.more (Holds (Filling k)) (plainInput env) (thenFrom env k) := by
  have hclose : ∀ {k k' : Sect}, k.next = k'.state → ∀ s s' : Reader σ, Holds (Filling k) s →
      Nonempty (Filled k s s') → Holds (Filling k') s' := by
    rintro k k' hk s s' _ ⟨f⟩
    rw [f.eq]
    exact ⟨(f.holds.1.close hk f.full).1, f.holds.2⟩
  have haddr := resumes_fill env (k := .addr) (Q := fun _ => True)
    (resumes_onCore (prompt_finishSections env)) (fun _ _ _ _ => trivial) rfl
  have hinst := resumes_fill env (k := .inst) haddr (hclose rfl) rfl
  cases k with
  | addr => exact haddr
  | inst => exact hinst
  | data => exact resumes_fill env (k := .data) hinst (hclose rfl) rfl

structure Skipping (c : Core σ) : Prop extends Reading c where
  header : c.win.flags.justHdr = false
  window : c.win.flags.skipWindow = true
  total : c.win.fits = true

theorem plainInput_skipping (env : Env σ) {s : Reader σ} (h : Skipping s.core) :
    plainInput env s = (skipSections s).andThen fun _ => onCore (decEmit env) := by
  unfold plainInput plainSections
  rw [(h.skipped h.window).1]
  simp [h.header, h.window, h.total]

theorem skipSections_apply (s : Reader σ) {more : ℕ}
    (h : usize.sub s.core.win.need s.core.decWinbytes = more) :
    skipSections s =
      if more ≤ s.inp.nextIn.length then onCore decodeFinishWindow (passOver more s)
      else .starved (passOver s.inp.nextIn.length s) := by
  unfold skipSections
  simp only [h]
  by_cases hle : more ≤ s.inp.nextIn.length
  · rw [Nat.min_eq_left hle, if_neg (not_not_intro rfl), if_pos hle]
  · rw [Nat.min_eq_right (Nat.le_of_not_le hle), if_pos (by omega), if_neg hle]

/-- Passing over what there is of a longer window goes on in the same window. -/
theorem Skipping.pass {s : Reader σ} (h : Skipping s.core) {n : ℕ}
    (hn : n ≤ s.core.win.need - s.core.decWinbytes) :
    Skipping (passOver n s).core ∧ (passOver n s).core.decWinbytes = s.core.decWinbytes + n := by
  obtain ⟨hst, hle, hp⟩ := h.skipped h.window
  obtain ⟨hneed, hlt⟩ := Window.need_eq h.size h.total
  have hadd : (passOver n s).core.decWinbytes = s.core.decWinbytes + n := usize.add_eq (by omega)
  refine ⟨⟨⟨h.state, h.size, h.pos_le, h.pos_zero, fun _ => h.total, ?_, ?_⟩, h.header, h.window,
    h.total⟩, hadd⟩
  · intro _
    refine ⟨hst, ?_, hp⟩
    rw [hadd]
    exact Nat.add_le_of_le_sub' hle hn
  · intro hw
    exact absurd (h.window.symm.trans hw) (by decide)

theorem Skipping.rest {c : Core σ} (h : Skipping c) :
    usize.sub c.win.need c.decWinbytes = c.win.need - c.decWinbytes := by
  obtain ⟨-, hle, -⟩ := h.skipped h.window
  obtain ⟨hneed, hlt⟩ := Window.need_eq h.size h.total
  exact usize.sub_eq (by omega) hle

/-- Skipping starves in the same window, with all input consumed. -/
theorem skipSections_starved {s s' : Reader σ} (h : Holds Skipping s)
    (hs : skipSections s = .starved s') : Starved Skipping s' := by
  rw [skipSections_apply s h.1.rest] at hs
  by_cases hle : s.core.win.need - s.core.decWinbytes ≤ s.inp.nextIn.length
  · rw [if_pos hle] at hs
    cases hs
  · rw [if_neg hle] at hs
    cases hs
    exact ⟨⟨(h.1.pass (Nat.le_of_not_le hle)).1, h.2⟩, List.drop_length⟩

theorem resumes_skip (env : Env σ) :
    Resumes Reader.more (Holds Skipping) (plainInput env)
      (skipSections >>= fun _ => onCore (decEmit env)) := by
  refine Resumes.seq (Q := fun _ _ => True) ?_ (fun _ _ _ _ _ => trivial)
    (fun _ => resumes_onCore (prompt_decEmit env)) ?_
  · intro s hs b
    have hrest : usize.sub (s.more b).core.win.need (s.more b).core.decWinbytes = _ := hs.1.rest
    rw [skipSections_apply s hs.1.rest, skipSections_apply (s.more b) hrest, Reader.more_inp,
      Input.more_nextIn, List.length_append]
    by_cases hle : s.core.win.need - s.core.decWinbytes ≤ s.inp.nextIn.length
    · rw [if_pos hle, if_pos (by omega), passOver_more s b hle]
      rfl
    · obtain ⟨hk, hadd⟩ := hs.1.pass (Nat.le_of_not_le hle)
      have hneed : (passOver s.inp.nextIn.length s).core.win.need = s.core.win.need := rfl
      have hleft : (passOver s.inp.nextIn.length s).core.win.need -
          (passOver s.inp.nextIn.length s).core.decWinbytes =
            s.core.win.need - s.core.decWinbytes - s.inp.nextIn.length := by
        rw [hadd, hneed, ← Nat.sub_sub]
      have hnil : (passOver s.inp.nextIn.length s).inp.nextIn = [] := List.drop_length
      have hon := skipSections_apply ((passOver s.inp.nextIn.length s).more b)
        (hk.rest.trans hleft)
      rw [if_neg hle, Outcome.feed_starved, hon, Reader.more_inp, Input.more_nextIn, hnil,
        List.nil_append]
      by_cases hb : s.core.win.need - s.core.decWinbytes ≤ s.inp.nextIn.length + b.length
      · rw [if_pos hb, if_pos (by omega), ← passOver_add]
        congr 2
        omega
      · rw [if_neg hb, if_neg (by omega), passOver_add]
  · intro s hs s' h b
    have hs' := skipSections_starved hs h
    exact plainInput_skipping env (s := s'.more b) hs'.1.1

inductive ReadingCase (c : Core σ) : Prop
  | header (h : c.win.flags.justHdr = true)
  | tooLong (h : c.win.flags.justHdr = false) (hf : c.win.fits = false)
  | skipping (h : Skipping c)
  | filling (k : Sect) (h : Filling k c)

theorem reading_cases {c : Core σ} (h : Reading c) : ReadingCase c := by
  cases hj : c.win.flags.justHdr with
  | true => exact .header hj
  | false =>
    cases hf : c.win.fits with
    | false => exact .tooLong hj hf
    | true =>
      cases hw : c.win.flags.skipWindow with
      | true => exact .skipping ⟨h, hj, hw, hf⟩
      | false =>
        rcases h.state with hs | hs | hs
        · exact .filling .data ⟨h, hs, hj, hw, hf⟩
        · exact .filling .inst ⟨h, hs, hj, hw, hf⟩
        · exact .filling .addr ⟨h, hs, hj, hw, hf⟩

theorem plainInput_reading (env : Env σ) {s : Reader σ} (h : Reading s.core) :
    plainInput env s = (plainSections s).andThen fun _ => onCore (decEmit env) := by
  unfold plainInput
  rcases h.state with hs | hs | hs <;> rw [hs]

private theorem plainInput_justHdr (env : Env σ) {s : Reader σ} (h : Reading s.core)
    (hj : s.core.win.flags.justHdr = true) :
    plainInput env s = onCore decodeFinishWindow s := by
  rw [plainInput_reading env h, plainSections, if_pos hj]
  rfl

private theorem plainInput_tooLong (env : Env σ) {s : Reader σ} (h : Reading s.core)
    (hj : s.core.win.flags.justHdr = false) (hf : s.core.win.fits = false) :
    plainInput env s = fail .internal "decoder section size overflow" s := by
  rw [plainInput_reading env h, plainSections, if_neg (by simp [hj]), if_pos hf]
  rfl

theorem plainInput_waiting (env : Env σ) {s : Reader σ}
    (h : s.core.decState.rank ≤ 18) : plainInput env s = decodeHeader env s := by
  unfold plainInput
  split
  case h_1 hs => rw [hs] at h; exact absurd h (by decide)
  case h_2 hs => rw [hs] at h; exact absurd h (by decide)
  case h_3 hs => rw [hs] at h; exact absurd h (by decide)
  case h_4 hs => rw [hs] at h; exact absurd h (by decide)
  case h_5 hs => rw [hs] at h; exact absurd h (by decide)
  case h_6 => rfl

theorem state_cases (s : DecState) :
    s.rank ≤ 18 ∨ (s = .data ∨ s = .inst ∨ s = .addr) ∨ s = .emit ∨ s = .finish ∨ s = .aborted := by
  cases s <;> simp [DecState.rank]

theorem inv_reading {c : Core σ} (h : Inv c)
    (hs : c.decState = .data ∨ c.decState = .inst ∨ c.decState = .addr) : Reading c := by
  unfold Inv at h
  rcases hs with hs | hs | hs <;> rw [hs] at h <;> exact h

theorem reading_inv {c : Core σ} (h : Reading c) : Inv c := by
  unfold Inv
  rcases h.state with hs | hs | hs <;> rw [hs] <;> exact h

/-- A starved call can be resumed: the law behind chunking. -/
theorem plainInput_resumes (env : Env σ) :
    Resumes Reader.more (Holds Inv) (plainInput env) (plainInput env) := by
  intro s hs b
  rcases state_cases s.core.decState with h | h | h | h | h
  · obtain ⟨F, hF, hw⟩ := waiting_of_inv hs.1 h
    have hf := from_decodeHeader env F (hF.secondary env)
    have hr : Resumes Reader.more (Holds (Waiting F)) (plainInput env) (decodeHeader env) := by
      refine hf.resumes.retarget fun s hs s' h b => ?_
      have he := hf.ends s hs
      rw [h] at he
      exact plainInput_waiting env (s := s'.more b) he.1.1.1
    rw [plainInput_waiting env h, plainInput_waiting env (s := s.more b) h]
    exact hr s ⟨hw, hs.2⟩ b
  · have hread := inv_reading hs.1 h
    cases reading_cases hread with
    | header hj =>
      rw [plainInput_justHdr env hread hj, plainInput_justHdr env (s := s.more b) hread hj]
      rfl
    | tooLong hj hf =>
      rw [plainInput_tooLong env hread hj hf, plainInput_tooLong env (s := s.more b) hread hj hf]
      rfl
    | skipping hk =>
      rw [plainInput_skipping env hk, plainInput_skipping env (s := s.more b) hk]
      exact resumes_skip env s ⟨hk, hs.2⟩ b
    | filling k hk =>
      rw [plainInput_filling env hk, plainInput_filling env (s := s.more b) hk]
      exact resumes_thenFrom env k s ⟨hk, hs.2⟩ b
  · have he : ∀ t : Reader σ, t.core.decState = .emit → plainInput env t = onCore (decEmit env) t :=
      fun t ht => by unfold plainInput; rw [ht]
    rw [he s h, he (s.more b) h]
    exact resumes_onCore (P := fun _ => True) (prompt_decEmit env) s trivial b
  · have he : ∀ t : Reader σ, t.core.decState = .finish → plainInput env t = onCore decFinish t :=
      fun t ht => by unfold plainInput; rw [ht]
    rw [he s h, he (s.more b) h]
    rfl
  · have he : ∀ t : Reader σ, t.core.decState = .aborted →
        plainInput env t = fail .invalidInput "invalid state" t :=
      fun t ht => by unfold plainInput decodeHeader; simp [ht]
    rw [he s h, he (s.more b) h]
    rfl

private theorem starved_andThen {o : Outcome (Reader σ) Stop Unit}
    {f : Routine (Core σ) Stop Unit} (hf : ∀ c, (f c).Prompt) {s' : Reader σ}
    (h : o.andThen (fun _ => onCore f) = .starved s') : o = .starved s' := by
  cases o with
  | starved s => exact h
  | ok a s =>
    have hp := (hf s.core).mapState fun c => ({ s with core := c } : Reader σ)
    rw [Outcome.andThen_ok, onCore, Routine.zoom_apply] at h
    rw [h] at hp
    exact hp.elim
  | stop e s => cases h
  | fault => cases h

private theorem starved_onCore {f : Routine (Core σ) Stop Unit} (hf : ∀ c, (f c).Prompt)
    {s s' : Reader σ} (h : onCore f s = .starved s') : False := by
  have hp := (hf s.core).mapState fun c => ({ s with core := c } : Reader σ)
  rw [onCore, Routine.zoom_apply] at h
  rw [h] at hp
  exact hp

/-- Reading the sections either waits in one of them or ends the window. -/
private theorem thenFrom_goes (env : Env σ) (k : Sect) {s : Reader σ} (hs : Holds (Filling k) s) :
    (thenFrom env k s).Goes (fun _ _ => True) (fun s' => ∃ j, Starved (Filling j) s')
      (fun _ => Holds Closing) := by
  have hfill : ∀ {k : Sect} {s : Reader σ}, Holds (Filling k) s →
      (fillSection k k.next s).Goes (fun _ s' => Nonempty (Filled k s s'))
        (fun s' => ∃ j, Starved (Filling j) s') (fun _ => Holds Closing) :=
    fun hs => (fillSection_ends hs).goes.mono (fun _ _ h => h) (fun _ h => ⟨_, h⟩)
      (fun _ _ h => h.elim)
  have haddr : ∀ {s : Reader σ}, Holds (Filling .addr) s → (thenAddr env s).Goes (fun _ _ => True)
      (fun s' => ∃ j, Starved (Filling j) s') (fun _ => Holds Closing) := by
    intro s hs
    refine (hfill hs).andThen fun _ t ⟨f⟩ => ?_
    have hst : t.core.decState = .emit := by rw [f.eq]; rfl
    have hinp : t.inp.dec64part < usize.modulus := by rw [f.eq]; exact f.holds.2
    have hp := prompt_finishSections env t.core
    have hk := keeps_finishSections env hst
    rw [onCore, Routine.zoom_apply]
    cases h : finishSections env t.core with
    | ok a c => trivial
    | starved c => rw [h] at hp; exact hp.elim
    | stop e c => rw [h] at hk; exact ⟨hk, hinp⟩
    | fault => trivial
  have hclose : ∀ {k k' : Sect}, k.next = k'.state → ∀ {s t : Reader σ},
      Nonempty (Filled k s t) → Holds (Filling k') t := by
    rintro k k' hk s t ⟨f⟩
    rw [f.eq]
    exact ⟨(f.holds.1.close hk f.full).1, f.holds.2⟩
  have hinst : ∀ {s : Reader σ}, Holds (Filling .inst) s → (thenInst env s).Goes (fun _ _ => True)
      (fun s' => ∃ j, Starved (Filling j) s') (fun _ => Holds Closing) :=
    fun hs => (hfill hs).andThen fun _ _ ht => haddr (hclose rfl ht)
  cases k with
  | addr => exact haddr hs
  | inst => exact hinst hs
  | data => exact (hfill hs).andThen fun _ _ ht => hinst (hclose rfl ht)

theorem plainInput_starved_waiting (env : Env σ) {s s' : Reader σ} (hs : Holds Inv s)
    (hst : s.core.decState.rank ≤ 18) (h : plainInput env s = .starved s') :
    ∃ F : Frame, F.AtRest ∧ Starved (Waiting F) s' := by
  obtain ⟨F, hF, hw⟩ := waiting_of_inv hs.1 hst
  have he := (from_decodeHeader env F (hF.secondary env)).ends s ⟨hw, hs.2⟩
  rw [← plainInput_waiting env hst, h] at he
  exact ⟨F, hF, he⟩

/-- A section state that starves waits in a section state. -/
theorem plainInput_starved_reading (env : Env σ) {s s' : Reader σ} (hs : Holds Reading s)
    (h : plainInput env s = .starved s') : Starved Reading s' := by
  cases reading_cases hs.1 with
  | header hj =>
    rw [plainInput_justHdr env hs.1 hj] at h
    cases h
  | tooLong hj hf =>
    rw [plainInput_tooLong env hs.1 hj hf] at h
    cases h
  | skipping hk =>
    rw [plainInput_skipping env hk] at h
    have hs' := skipSections_starved ⟨hk, hs.2⟩ (starved_andThen (prompt_decEmit env) h)
    exact ⟨⟨hs'.1.1.toReading, hs'.1.2⟩, hs'.2⟩
  | filling k hk =>
    rw [plainInput_filling env hk] at h
    have hg := thenFrom_goes env k ⟨hk, hs.2⟩
    rw [h] at hg
    obtain ⟨j, hj⟩ := hg
    exact ⟨⟨hj.1.1.toReading, hj.1.2⟩, hj.2⟩

/-- A call that starves has consumed its input and keeps the invariant. -/
theorem plainInput_starved (env : Env σ) {s s' : Reader σ} (hs : Holds Inv s)
    (h : plainInput env s = .starved s') : Starved Inv s' := by
  rcases state_cases s.core.decState with hst | hst | hst | hst | hst
  · obtain ⟨F, hF, hs'⟩ := plainInput_starved_waiting env hs hst h
    exact ⟨⟨inv_of_waiting hF hs'.1.1, hs'.1.2⟩, hs'.2⟩
  · have hs' := plainInput_starved_reading env ⟨inv_reading hs.1 hst, hs.2⟩ h
    exact ⟨⟨reading_inv hs'.1.1, hs'.1.2⟩, hs'.2⟩
  · unfold plainInput at h
    rw [hst] at h
    exact (starved_onCore (prompt_decEmit env) h).elim
  · unfold plainInput at h
    rw [hst] at h
    cases h
  · unfold plainInput decodeHeader at h
    simp [hst] at h

private theorem stop_onCore {f : Routine (Core σ) Stop Unit} {s s' : Reader σ} {e : Stop}
    {P : Core σ → Prop} (hb : s.inp.dec64part < usize.modulus) (hk : (f s.core).Keeps P)
    (h : onCore f s = .stop e s') : Holds P s' := by
  rw [onCore, Routine.zoom_apply] at h
  cases hf : f s.core with
  | stop e' c =>
    rw [hf] at hk h
    cases h
    exact ⟨hk, hb⟩
  | ok a c => rw [hf] at h; cases h
  | starved c => rw [hf] at h; cases h
  | fault => rw [hf] at h; cases h

theorem rotate_sect (w : Window) (k : Sect) : w.rotate.sect k = w.sect k := by
  unfold Window.rotate
  split
  · split <;> cases k <;> rfl
  · rfl

theorem inv_of_rested {c : Core σ} (hs : c.decState = .winind) (h : Rested c) : Inv c := by
  unfold Inv
  rw [hs]
  refine ⟨⟨c.win.kept, _, _, false⟩, ⟨rfl, fun k => ?_⟩, h.1, rfl, fun hp => (nomatch hp),
    fun h => absurd h (by decide), fun _ => ⟨rfl, rfl⟩, fun h => absurd h (by decide),
    fun h => absurd h (by decide), fun h => absurd h (by decide), fun h => absurd h (by decide),
    fun k hk => by cases k <;> exact absurd hk (by decide),
    fun h => absurd h (by decide)⟩
  have := h.2 k
  cases k <;> exact this

private theorem keeps_onCore {f : Routine (Core σ) Stop Unit} {s : Reader σ} {P : Core σ → Prop}
    (hb : s.inp.dec64part < usize.modulus) (hk : (f s.core).Keeps P) :
    (onCore f s).Keeps (Holds P) := by
  rw [onCore, Routine.zoom_apply]
  cases h : f s.core with
  | ok a c => rw [h] at hk; exact ⟨hk, hb⟩
  | starved c => rw [h] at hk; exact ⟨hk, hb⟩
  | stop e c => rw [h] at hk; exact ⟨hk, hb⟩
  | fault => trivial

private theorem skipSections_stop (env : Env σ) {s s' : Reader σ} {e : Stop} (hs : Holds Skipping s)
    (h : (skipSections s).andThen (fun _ => onCore (decEmit env)) = .stop e s') :
    Holds Closing s' := by
  rw [skipSections_apply s hs.1.rest] at h
  by_cases hle : s.core.win.need - s.core.decWinbytes ≤ s.inp.nextIn.length
  · rw [if_pos hle] at h
    have hk := keeps_onCore (s := passOver _ s) hs.2
      (keeps_decodeFinishWindow (passOver (s.core.win.need - s.core.decWinbytes) s).core)
    have hstop : onCore decodeFinishWindow (passOver (s.core.win.need - s.core.decWinbytes) s) =
        .stop e s' := h
    rw [hstop] at hk
    exact hk
  · rw [if_neg hle] at h
    cases h

/-- The invariant at an ordinary return: a section about to be read is not begun. -/
def Paused (c : Core σ) : Prop := Inv c ∧ (Reading c → ∀ k, (c.win.sect k).pos = 0)

private theorem paused_of_closing {c : Core σ} (h : Closing c) : Paused c := by
  refine ⟨inv_of_closing h, fun hr => ?_⟩
  rcases h with h | ⟨h, -⟩ <;> rcases hr.state with hs | hs | hs <;> rw [h] at hs <;> cases hs

private theorem decFinish_stop {s s' : Reader σ} {e : Stop} (hs : Holds Rested s)
    (h : onCore decFinish s = .stop e s') : Holds Paused s' := by
  have hinv : Inv { s.core with
      win := s.core.win.rotate
      decWindowCount := s.core.decWindowCount + 1
      decState := .winind } := by
    refine inv_of_rested rfl ⟨hs.1.1, fun k => ?_⟩
    exact (congrArg Desect.pos (rotate_sect _ k)).trans (hs.1.2 k)
  have hkeeps : (decFinish s.core).Keeps Paused := by
    refine ⟨hinv, fun hr => ?_⟩
    rcases hr.state with hs | hs | hs <;> cases hs
  exact stop_onCore hs.2 hkeeps h

theorem plainInput_stop (env : Env σ) {s s' : Reader σ} {e : Stop} (hs : Holds Inv s)
    (h : plainInput env s = .stop e s') (he : e.ret.ordinary = true) : Holds Paused s' := by
  have hclosing : Holds Closing s' → Holds Paused s' := fun h => ⟨paused_of_closing h.1, h.2⟩
  rcases state_cases s.core.decState with hst | hst | hst | hst | hst
  · obtain ⟨F, hF, hw⟩ := waiting_of_inv hs.1 hst
    have hends := (from_decodeHeader env F (hF.secondary env)).ends s ⟨hw, hs.2⟩
    rw [← plainInput_waiting env hst, h] at hends
    obtain ⟨hdata, -⟩ := hends he
    exact ⟨⟨reading_inv (reading_of_data hF hdata.1), fun _ => hdata.1.2.pos_zero hF⟩, hdata.2⟩
  · have hread := inv_reading hs.1 hst
    cases reading_cases hread with
    | header hj =>
      rw [plainInput_justHdr env hread hj] at h
      exact hclosing (stop_onCore hs.2 (keeps_decodeFinishWindow _) h)
    | tooLong hj hf =>
      rw [plainInput_tooLong env hread hj hf] at h
      cases h
      cases he
    | skipping hk =>
      rw [plainInput_skipping env hk] at h
      exact hclosing (skipSections_stop env ⟨hk, hs.2⟩ h)
    | filling k hk =>
      rw [plainInput_filling env hk] at h
      have hg := thenFrom_goes env k ⟨hk, hs.2⟩
      rw [h] at hg
      exact hclosing hg
  · unfold plainInput at h
    rw [hst] at h
    exact hclosing (stop_onCore hs.2 (keeps_decEmit env hst) h)
  · have hrest : Rested s.core := by
      have hinv := hs.1
      unfold Inv at hinv
      rw [hst] at hinv
      exact hinv
    unfold plainInput at h
    rw [hst] at h
    exact decFinish_stop ⟨hrest, hs.2⟩ h
  · unfold plainInput decodeHeader at h
    simp only [hst] at h
    cases h
    cases he

end Xdelta
