import Xdelta.Decoder.Refinement

/-!
# Windows skipped in the middle of a stream

`XD3_WINSTART` is the application's chance to set or clear `XD3_SKIP_WINDOW`. At the end of
a skipped window with `VCD_TARGET` the output buffer is exchanged for the one kept, which
may have been freed since. Calls stay in bounds in every run that makes no such exchange.
-/
namespace Xdelta
open Chunked

variable {σ : Type} {file : List UInt8}

/-- `xd3_set_flags`, which may change `XD3_SKIP_WINDOW`, and a flag the decoder does not read. -/
def Window.setFlags (skip : Bool) (w : Window) : Window :=
  { w with flags := { w.flags with skipWindow := skip } }

def Core.setFlags (skip : Bool) (c : Core σ) : Core σ := { c with win := c.win.setFlags skip }

def Stream.setFlags (skip : Bool) (s : Stream σ) : Stream σ :=
  { s with core := s.core.setFlags skip }

/-- No byte of a window's sections has been consumed, and none is being executed. -/
def Core.Between (c : Core σ) : Prop :=
  c.decWinbytes = 0 ∧ c.decState ≠ .inst ∧ c.decState ≠ .addr ∧ c.decState ≠ .emit

instance (c : Core σ) : Decidable c.Between := inferInstanceAs (Decidable (_ ∧ _ ∧ _ ∧ _))

/-- The application sets or clears `XD3_SKIP_WINDOW` between windows. -/
def SetsFlags (s t : Stream σ) : Prop := s.core.Between ∧ ∃ skip, t = s.setFlags skip

/-- Should the next call end a window, it leaves the output buffer in place. -/
def Stream.KeepsBuffer (s : Stream σ) : Prop := s.core.decState = .finish → s.core.win.KeepsBuffer

instance (s : Stream σ) : Decidable s.KeepsBuffer := inferInstanceAs (Decidable (_ → _))

def Flags.MayEmit (f : Flags) : Prop := f.justHdr = false ∧ f.skipEmit = false

@[simp] theorem Window.setFlags_sect (skip : Bool) (w : Window) (k : Sect) :
    (w.setFlags skip).sect k = w.sect k := by
  cases k <;> rfl

theorem Reading.setFlags {c : Core σ} (h : Reading c) (hb : c.Between) (skip : Bool) :
    Reading (c.setFlags skip) := by
  have hstate : c.decState = .data := (h.state.resolve_right fun hs =>
    hs.elim hb.2.1 hb.2.2.1)
  have hzero : c.win.dataSect.pos = 0 := by
    cases hskip : c.win.flags.skipWindow with
    | true => exact (h.skipped hskip).2.2
    | false =>
      have := h.bytes hskip
      rw [hb.1] at this
      omega
  have hrest : c.win.instSect.pos = 0 ∧ c.win.addrSect.pos = 0 :=
    ⟨h.pos_zero .inst (by rw [hstate]; decide), h.pos_zero .addr (by rw [hstate]; decide)⟩
  have hsect : ∀ k, (c.setFlags skip).win.sect k = c.win.sect k := c.win.setFlags_sect skip
  refine ⟨h.state, fun k => hsect k ▸ h.size k, fun k => hsect k ▸ h.pos_le k,
    fun k hk => hsect k ▸ h.pos_zero k hk, h.fits, fun _ => ?_, fun _ => ?_⟩
  · exact ⟨hstate, hb.1.le.trans (Nat.zero_le _), hzero⟩
  · change c.decWinbytes = (c.setFlags skip).win.before c.decState +
      (c.win.dataSect.pos + c.win.instSect.pos + c.win.addrSect.pos)
    rw [hb.1, hstate, hzero, hrest.1, hrest.2]
    rfl

def Frame.setFlags (skip : Bool) (F : Frame) : Frame := { F with win := F.win.setFlags skip }

theorem Facts.setFlags {F : Frame} {r : ℕ} {c : Core σ} (h : Facts F r c) (skip : Bool) :
    Facts (F.setFlags skip) r (c.setFlags skip) where
  winbytes := h.winbytes
  kept := congrArg (Window.setFlags skip) h.kept
  sec := h.sec
  default := h.default
  cache := h.cache
  cpylen := h.cpylen
  position := h.position
  target := h.target
  delind := h.delind
  size k hk := (c.win.setFlags_sect skip k).symm ▸ h.size k hk
  offset := h.offset

theorem Inv.setFlags {c : Core σ} (h : Inv c) (hb : c.Between) (skip : Bool) :
    Inv (c.setFlags skip) := by
  rcases state_cases c.decState with hs | hs | hs | hs | hs
  · obtain ⟨F, hF, hr, hf⟩ := waiting_of_inv h hs
    have hrest : (F.setFlags skip).AtRest :=
      ⟨hF.plain, fun k => (F.win.setFlags_sect skip k).symm ▸ hF.pos k⟩
    exact inv_of_waiting hrest ⟨hr, hf.setFlags skip⟩
  · exact reading_inv ((inv_reading h hs).setFlags hb skip)
  · exact absurd hs hb.2.2.2
  · have hstate : (c.setFlags skip).decState = .finish := hs
    unfold Inv at h ⊢
    rw [hs] at h
    rw [hstate]
    exact ⟨h.1, fun k => (c.win.setFlags_sect skip k).symm ▸ h.2 k⟩
  · have hstate : (c.setFlags skip).decState = .aborted := hs
    unfold Inv
    rw [hstate]
    trivial

theorem StreamInv.setFlags {s : Stream σ} (h : StreamInv s) (hb : s.core.Between) (skip : Bool) :
    StreamInv (s.setFlags skip) := by
  refine ⟨⟨h.1.1.setFlags hb skip, h.1.2⟩, fun hr k hk => ?_⟩
  have hget := h.2 hr k
  cases k <;> exact hget hk

theorem Window.Still.setFlags {w : Window} (h : w.Still Flags.MayEmit file) (skip : Bool) :
    (w.setFlags skip).Still Flags.MayEmit file :=
  ⟨fun k => (w.setFlags_sect skip k).symm ▸ h.buf_le k, h.settled, h.buffer, h.space, h.faithful⟩

theorem Window.Idle.setFlags {w : Window} (h : w.Idle Flags.MayEmit file) (skip : Bool) :
    (w.setFlags skip).Idle Flags.MayEmit file :=
  ⟨h.toStill.setFlags skip, h.out⟩

theorem Safe.setFlags {c : Core σ} (h : Safe Flags.MayEmit file c) (hb : c.Between)
    (skip : Bool) : Safe Flags.MayEmit file (c.setFlags skip) := by
  rcases state_cases c.decState with hs | hs | hs | hs | hs
  · obtain ⟨F, hF, hr, hf⟩ := waiting_of_safe h hs
    have hsafe : (F.setFlags skip).Safe Flags.MayEmit file :=
      ⟨hF.plain, hF.near, hF.same, hF.idle.setFlags skip⟩
    exact safe_of_waiting hsafe ⟨hr, hf.setFlags skip⟩
  · have hload := loading_of_safe h hs
    have hsect : ∀ k, (c.setFlags skip).win.sect k = c.win.sect k := c.win.setFlags_sect skip
    have hhead := hload.headed
    refine safe_of_loading ⟨hload.sec, hload.delind, hload.idle.setFlags skip,
      ⟨hhead.indicated, hhead.position, hhead.tgtlen, hhead.near, hhead.same, hhead.maxpos,
        hhead.below, hhead.offset⟩, fun k hk => ?_, fun k hk => ?_⟩ hs
    · rw [hsect]
      exact hload.passed k hk
    · rw [hsect] at hk ⊢
      exact hload.partly k hk
  · exact absurd hs hb.2.2.2
  · have hstate : (c.setFlags skip).decState = .finish := hs
    unfold Safe at h ⊢
    rw [hs] at h
    rw [hstate]
    obtain ⟨hend, hout⟩ := h
    -- the flags of `MayEmit` allow for windows that are skipped
    have hskips : ¬∀ f : Flags, f.MayEmit → f.Emits := fun hle =>
      absurd (hle { skipWindow := true } ⟨rfl, rfl⟩).2.1 (by decide)
    exact ⟨⟨hend.sec, hend.still.setFlags skip, fun hle => absurd hle hskips, hend.near, hend.same⟩,
      hout⟩
  · have hstate : (c.setFlags skip).decState = .aborted := hs
    unfold Safe
    rw [hstate]
    trivial

section Turns
variable (env : Env σ) (app : AppSource) (P : Stream σ → Prop) [DecidablePred P]

/-- In each turn the application sets or clears the flag and makes a call in a state of `P`. -/
def turns : List Bool → Stream σ → Option (Stream σ)
  | [], s => some s
  | skip :: rest, s =>
    if s.core.Between ∧ P (s.setFlags skip) then
      match decodeInput env (s.setFlags skip) with
      | .stop e s' => ((decodeDriver env app).react e s').bind (turns rest)
      | _ => none
    else none

variable {env app P}

theorem visits_turns {s₀ t : Stream σ} {rest : List Bool} : ∀ {s : Stream σ},
    (decodeDriver env app).Visits SetsFlags P s₀ s → turns env app P rest s = some t →
      (decodeDriver env app).Visits SetsFlags P s₀ t := by
  induction rest with
  | nil =>
    intro s hv ht
    cases ht
    exact hv
  | cons skip rest ih =>
    intro s hv ht
    rw [turns] at ht
    split at ht
    · rename_i hb
      have hact := hv.act (t := s.setFlags skip) ⟨hb.1, skip, rfl⟩
      split at ht
      · rename_i e s' hc
        obtain ⟨s'', hr, ht'⟩ := Option.bind_eq_some_iff.mp ht
        exact ih (hact.step hb.2 hc hr) ht'
      · cases ht
    · cases ht

omit [DecidablePred P] in
theorem visits_supply {flags : Flags} {src : Option Source} (hP : P (initStream flags src))
    (chunk : List UInt8) : (decodeDriver env app).Visits SetsFlags P (initStream flags src)
      ((decodeDriver env app).supply (initStream flags src) chunk) :=
  .supply .start hP rfl chunk

end Turns

/-- Whatever bytes the decoder is fed, however they are cut into chunks, and whichever windows
the application skips: in a run none of whose calls exchanges the output buffer for another,
every call stays in bounds. -/
theorem decodeInput_inBounds_of_keepsBuffer {env : Env σ} {app : AppSource}
    (hsec : ∀ id, env.secondary id = none) (henv : ServesBlocks file env.getblk)
    (happ : ServesSource file app) (flags : Flags) {src : Option Source}
    (hsrc : ∀ source, src = some source → source.Faithful file) {s : Stream σ}
    (h : (decodeDriver env app).Visits SetsFlags Stream.KeepsBuffer (initStream flags src) s) :
    InBounds env s := by
  have hE : ∀ f : Flags, f.Emits → f.MayEmit := fun _ hf => ⟨hf.1, hf.2.2⟩
  obtain ⟨hinv, hsafe⟩ := visits_safe hE hsec henv happ flags hsrc
    (fun s t ⟨hb, skip, ht⟩ hs => ht ▸ ⟨hs.1.setFlags hb skip, hs.2.setFlags hb skip⟩)
    (fun s _ hk hst _ => hk hst) h
  exact hsafe.inBounds hE hsec henv hinv

/-- A window of 4 bytes, one with `VCD_TARGET`, and one that copies from the source. -/
def skippedTarget : List UInt8 :=
  [0xd6, 0xc3, 0xc4, 0, 0,
    0, 8, 4, 0, 1, 2, 0, 65, 0, 4,
    2, 0, 0, 5, 0, 0, 0, 0, 0,
    1, 2, 0, 11, 4, 0, 1, 4, 1, 66, 0, 2, 19, 2, 0]

/-- With the window of `VCD_TARGET` skipped, the last one waits for a block of the source. -/
theorem decodeInput_inBounds_skippedTarget : ∃ s : Stream Unit,
    (decodeDriver {} (answerRequests [104, 105])).Visits SetsFlags Stream.KeepsBuffer
        (initStream {} (some (freshSource 0))) s ∧
      s.core.decState = .emit ∧ s.core.win.out = [66, 66] ∧ InBounds {} s := by
  have hturns : (turns ({} : Env Unit) (answerRequests [104, 105]) Stream.KeepsBuffer
      [false, false, false, false, true, true, true, false]
      ((decodeDriver ({} : Env Unit) (answerRequests [104, 105])).supply
        (initStream {} (some (freshSource 0))) skippedTarget)).any (fun s =>
          decide (s.core.decState = .emit ∧ s.core.win.out = [66, 66])) = true := by
    decide +kernel
  obtain ⟨s, hs, hstate⟩ := Option.any_eq_true _ _ |>.mp hturns
  obtain ⟨hemit, hout⟩ := of_decide_eq_true hstate
  have hv := visits_turns (visits_supply (fun h => by cases h) _) hs
  refine ⟨s, hv, hemit, hout, decodeInput_inBounds_of_keepsBuffer (fun _ => rfl)
    (delivery_answerRequests _).servesBlocks (servesSource_answerRequests _) {}
    (fun source h => ?_) hv⟩
  cases h
  exact freshSource_faithful _ (by decide)

/-- Five windows: 4 bytes, a window with `VCD_TARGET`, 20000 bytes, another with `VCD_TARGET`,
and 4 bytes. -/
def skippedTargets : List UInt8 :=
  [0xd6, 0xc3, 0xc4, 0, 0,
    0, 8, 4, 0, 1, 2, 0, 65, 0, 4,
    2, 0, 0, 5, 0, 0, 0, 0, 0,
    0, 12, 0x81, 0x9c, 0x20, 0, 1, 4, 0, 66, 0, 0x81, 0x9c, 0x20,
    2, 0, 0, 5, 0, 0, 0, 0, 0,
    0, 8, 4, 0, 1, 2, 0, 65, 0, 4]

/-- With both windows of `VCD_TARGET` skipped, the last window is written to the buffer of the
first, which the third has freed. -/
theorem decodeInput_fault_skippedTargets : ∃ s : Stream Unit,
    (decodeDriver {} fun _ src => src).Visits SetsFlags (fun _ => True) (initStream {} none) s ∧
      s.core.win.nextOut ≠ s.core.win.decBuffer ∧ ¬InBounds {} s := by
  have hturns : (turns ({} : Env Unit) (fun _ src => src) (fun _ => True)
      [false, false, false, false, true, true, true, false, false, false, true, true, true]
      ((decodeDriver ({} : Env Unit) fun _ src => src).supply (initStream {} none)
        skippedTargets)).any (fun s =>
          decide (s.core.Between ∧ s.core.win.nextOut ≠ s.core.win.decBuffer) &&
            (decodeInput {} (s.setFlags false)).faults) = true := by
    decide +kernel
  obtain ⟨s, hs, hfault⟩ := Option.any_eq_true _ _ |>.mp hturns
  obtain ⟨hb, hf⟩ := Bool.and_eq_true _ _ |>.mp hfault
  obtain ⟨hbetween, hfreed⟩ := of_decide_eq_true hb
  refine ⟨s.setFlags false, ?_, hfreed, fun h => h.1 (Outcome.faults_iff.mp hf)⟩
  exact .act (visits_turns (visits_supply trivial _) hs) ⟨hbetween, false, rfl⟩

end Xdelta
