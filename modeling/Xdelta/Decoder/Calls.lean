import Xdelta.Decoder.Chunks

/-!
# The decoder and its application

The decoder with staging buffers does what the decoder without them does, and so
inherits its resumption law. The application supplies a chunk whenever the input
is exhausted, answers each ordinary code and closes the stream after the last chunk.
-/
namespace Xdelta
open Chunked

variable {σ : Type}

def DecState.reads : DecState → Bool
  | data | inst | addr => true
  | _ => false

def StreamInv (s : Stream σ) : Prop :=
  Holds Inv s.toReader ∧ (s.core.decState.reads = true → Adequate s)

def Mirrors (o : Outcome (Stream σ) Stop Unit) (o' : Outcome (Reader σ) Stop Unit) : Prop :=
  o.mapState Stream.toReader = o' ∧ ∀ s', o = .starved s' → Adequate s'

theorem Mirrors.andThen {o : Outcome (Stream σ) Stop Unit} {o' : Outcome (Reader σ) Stop Unit}
    {k : Unit → Routine (Stream σ) Stop Unit} {k' : Unit → Dec σ Unit} (h : Mirrors o o')
    (hk : ∀ s, o = .ok () s → Mirrors (k () s) (k' () s.toReader)) :
    Mirrors (o.andThen k) (o'.andThen k') := by
  obtain ⟨rfl, hs⟩ := h
  cases o with
  | ok a s => exact hk s rfl
  | starved s => exact ⟨rfl, hs⟩
  | stop e s => exact ⟨rfl, hs⟩
  | fault => exact ⟨rfl, hs⟩

theorem mirrors_onReader {f : Dec σ Unit} {s : Stream σ} (hf : (f s.toReader).Prompt) :
    Mirrors (onReader f s) (f s.toReader) := by
  rw [onReader, Routine.zoom_apply]
  cases h : f s.toReader with
  | starved t => rw [h] at hf; exact hf.elim
  | ok a t => exact ⟨rfl, fun _ h => by cases h⟩
  | stop e t => exact ⟨rfl, fun _ h => by cases h⟩
  | fault => exact ⟨rfl, fun _ h => by cases h⟩

theorem mirrors_onCore {f : Routine (Core σ) Stop Unit} (hf : ∀ c, (f c).Prompt) (s : Stream σ) :
    Mirrors (onReader (onCore f) s) (onCore f s.toReader) :=
  mirrors_onReader ((hf _).mapState _)

/-- Reading section `k` with `copy` as decided from the input there was at the start of the call. -/
structure Staged (k : Sect) (copy : Bool) (s : Stream σ) : Prop where
  holds : Holds (Filling k) s.toReader
  adequate : Adequate s
  whole : copy = false → s.core.win.need ≤ s.core.decWinbytes + s.inp.nextIn.length

theorem Staged.mirrors {k : Sect} {copy : Bool} {s : Stream σ} (h : Staged k copy s) :
    Mirrors (decodeSection k k.next copy s) (fillSection k k.next s.toReader) := by
  refine ⟨decodeSection_eq_fill k k.next copy s h.adequate fun hc => ?_,
    fun s' hs => decodeSection_adequate k k.next copy s h.adequate hs⟩
  have hleft := h.holds.1.left.2
  have hwhole := h.whole hc
  omega

theorem Staged.next {k j : Sect} {copy : Bool} {s s' : Stream σ} (h : Staged k copy s)
    (hk : k.next = j.state) (hs : decodeSection k k.next copy s = .ok () s') :
    Staged j copy s' := by
  have hends := fillSection_ends h.holds
  rw [← h.mirrors.1, hs] at hends
  obtain ⟨f⟩ := hends
  obtain ⟨hfill, hpos⟩ := f.holds.1.close hk f.full
  have hneed : (closed k k.next f.reader.core).win.need = f.reader.core.win.need := by
    refine Window.need_congr fun i => ?_
    by_cases hik : i = k
    · subst hik
      simp [closed]
    · simp [closed, Window.sect_setSect_of_ne _ hik]
  have hcore : s'.core = closed k k.next f.reader.core := congrArg Reader.core f.eq
  have hinp : s'.inp = f.reader.inp :=
    (congrArg Reader.inp f.eq : s'.toReader.inp = (Reader.mk f.reader.inp _).inp)
  refine ⟨⟨hcore ▸ hfill, hinp ▸ f.holds.2⟩, fun i hi => ?_, fun hc => ?_⟩
  · rw [hcore, hpos i] at hi
    exact absurd hi (lt_irrefl 0)
  · have hcount := f.count
    have hwhole := h.whole hc
    have hbytes : (closed k k.next f.reader.core).decWinbytes = f.reader.core.decWinbytes := rfl
    rw [hcore, hneed, f.need, hinp, hbytes]
    omega

/-- The three section states fall through one another alike. -/
theorem Staged.readSections {k : Sect} {copy : Bool} {s : Stream σ} (h : Staged k copy s) :
    Mirrors (readSections copy s) (fillSections s.toReader) := by
  have hinst : ∀ {s : Stream σ}, Staged .inst copy s →
      Mirrors ((decodeSection .inst .addr copy s).andThen fun _ => decodeSection .addr .emit copy)
        (fillFromInst s.toReader) :=
    fun h => h.mirrors.andThen fun t ht => (h.next (j := .addr) rfl ht).mirrors
  unfold Xdelta.readSections fillSections
  rw [h.holds.1.state_eq]
  cases k with
  | addr => exact h.mirrors
  | inst => exact hinst h
  | data => exact h.mirrors.andThen fun t ht => hinst (h.next (j := .inst) rfl ht)

theorem decodeSections_tooLong {s : Stream σ} (hj : s.core.win.flags.justHdr = false)
    (hf : s.core.win.fits = false) :
    decodeSections s = fail .internal "decoder section size overflow" s := by
  unfold decodeSections
  rw [if_neg (by simp [hj])]
  by_cases h1 : usize.overflow s.core.win.instSect.size s.core.win.addrSect.size = true
  · rw [if_pos h1]
  · rw [if_neg h1, if_pos]
    simpa [Window.fits, h1] using hf

theorem decodeSections_fits {s : Stream σ} (hj : s.core.win.flags.justHdr = false)
    (hf : s.core.win.fits = true) {more : ℕ}
    (hmore : usize.sub s.core.win.need s.core.decWinbytes = more) :
    decodeSections s =
      if s.core.win.flags.skipWindow then
        if more ≤ s.inp.nextIn.length then
          onReader (onCore decodeFinishWindow) { s with toReader := passOver more s.toReader }
        else .starved { s with toReader := passOver s.inp.nextIn.length s.toReader }
      else (readSections (decide (s.inp.nextIn.length < more)) s).andThen fun _ =>
        onReader (onCore afterSections) := by
  have hfits : usize.overflow s.core.win.instSect.size s.core.win.addrSect.size = false ∧
      usize.overflow (usize.add s.core.win.instSect.size s.core.win.addrSect.size)
        s.core.win.dataSect.size = false := by
    simpa [Window.fits] using hf
  unfold Window.need at hmore
  unfold decodeSections
  simp only [hj, hfits.1, hfits.2, hmore, if_false, Bool.false_eq_true]
  by_cases hle : more ≤ s.inp.nextIn.length
  · simp only [Nat.min_eq_left hle, hle, if_true, ne_eq, not_true_eq_false, decide_false,
      Bool.false_eq_true, if_false, Nat.not_lt.mpr hle]
    rfl
  · have hlt := Nat.lt_of_not_le hle
    simp only [Nat.min_eq_right hlt.le, hle, if_false, ne_eq, hlt.ne, not_false_eq_true,
      decide_true, if_true, hlt]
    rfl

theorem decodeSections_mirrors {s : Stream σ} (h : Reading s.core) (hp : s.inp.dec64part < usize.modulus)
    (ha : Adequate s) : Mirrors (decodeSections s) (plainSections s.toReader) := by
  cases reading_cases h with
  | header hj =>
    have h1 : decodeSections s = onReader (onCore decodeFinishWindow) s := if_pos hj
    have h2 : plainSections s.toReader = onCore decodeFinishWindow s.toReader := if_pos hj
    rw [h1, h2]
    exact mirrors_onCore (f := decodeFinishWindow) (fun _ => trivial) s
  | tooLong hj hf =>
    rw [decodeSections_tooLong hj hf, plainSections, if_neg (by simp [hj]), if_pos hf]
    exact ⟨rfl, fun _ h => by cases h⟩
  | skipping hk =>
    have hplain : plainSections s.toReader = skipSections s.toReader := by
      rw [plainSections, if_neg (by simp [hk.header]), if_neg (by simp [hk.total]),
        if_pos hk.window]
    rw [decodeSections_fits hk.header hk.total hk.rest, if_pos hk.window, hplain,
      skipSections_apply s.toReader hk.rest]
    by_cases hle : s.core.win.need - s.core.decWinbytes ≤ s.inp.nextIn.length
    · rw [if_pos hle, if_pos hle]
      exact mirrors_onCore (f := decodeFinishWindow) (fun _ => trivial) _
    · rw [if_neg hle, if_neg hle]
      exact ⟨rfl, fun s' hs => by cases hs; exact ha⟩
  | filling k hk =>
    have hleft := hk.left
    have hrest : usize.sub s.core.win.need s.core.decWinbytes =
      s.core.win.need - s.core.decWinbytes := usize.sub_eq hleft.1 (by omega)
    rw [decodeSections_fits hk.header hk.total hrest, if_neg (by simp [hk.window]), plainSections,
      if_neg (by simp [hk.header]), if_neg (by simp [hk.total]), if_neg (by simp [hk.window])]
    refine (Staged.readSections ⟨⟨hk, hp⟩, ha, fun hc => ?_⟩).andThen fun t _ =>
      mirrors_onCore prompt_afterSections t
    have hlt := of_decide_eq_false hc
    omega

theorem reads_iff {state : DecState} :
    state.reads = true ↔ state = .data ∨ state = .inst ∨ state = .addr := by
  cases state <;> simp [DecState.reads]

theorem onReader_toReader {f : Dec σ Unit} (s : Stream σ) :
    (onReader f s).mapState Stream.toReader = f s.toReader := by
  rw [onReader, Routine.zoom_apply]
  cases f s.toReader <;> rfl

/-- One call of the decoder is one call of the decoder without staging. -/
theorem decodeInput_plain (env : Env σ) {s : Stream σ} (h : StreamInv s) :
    (decodeInput env s).mapState Stream.toReader = plainInput env s.toReader ∧
      ∀ s', decodeInput env s = .starved s' → s'.core.decState.reads = true → Adequate s' := by
  rcases state_cases s.core.decState with hst | hst | hst | hst | hst
  · obtain ⟨F, hF, hw⟩ := waiting_of_inv h.1.1 hst
    have hcall : decodeInput env s = onReader (decodeHeader env) s := by
      unfold decodeInput
      split
      case h_6 => rfl
      all_goals
        rename_i hs
        rw [hs] at hst
        exact absurd hst (by decide)
    refine ⟨?_, fun s' hs hreads => ?_⟩
    · rw [hcall, onReader_toReader, plainInput_waiting env hst]
    · have he := (from_decodeHeader env F (hF.secondary env)).ends s.toReader ⟨hw, h.1.2⟩
      have hmap := congrArg (Outcome.mapState Stream.toReader) hs
      rw [hcall, onReader_toReader] at hmap
      rw [hmap] at he
      have hrank : s'.core.decState.rank ≤ 18 := he.1.1.1
      rcases reads_iff.mp hreads with h1 | h1 | h1 <;> rw [h1] at hrank <;>
        exact absurd hrank (by decide)
  · have hread := inv_reading h.1.1 hst
    have hcall : decodeInput env s =
        (decodeSections s).andThen fun _ => onReader (onCore (decEmit env)) := by
      unfold decodeInput
      rcases hst with hst | hst | hst <;> rw [hst]
    have hm : Mirrors (decodeInput env s) (plainInput env s.toReader) := by
      rw [hcall, plainInput_reading env hread]
      exact (decodeSections_mirrors hread h.1.2 (h.2 (reads_iff.mpr hst))).andThen fun t _ =>
        mirrors_onCore (prompt_decEmit env) t
    exact ⟨hm.1, fun s' hs _ => hm.2 s' hs⟩
  · have hm : Mirrors (decodeInput env s) (plainInput env s.toReader) := by
      unfold decodeInput plainInput
      rw [hst]
      exact mirrors_onCore (prompt_decEmit env) s
    exact ⟨hm.1, fun s' hs _ => hm.2 s' hs⟩
  · have hm : Mirrors (decodeInput env s) (plainInput env s.toReader) := by
      unfold decodeInput plainInput
      rw [hst]
      exact mirrors_onCore (f := decFinish) (fun _ => trivial) s
    exact ⟨hm.1, fun s' hs _ => hm.2 s' hs⟩
  · have hplain : plainInput env s.toReader = fail .invalidInput "invalid state" s.toReader := by
      unfold plainInput decodeHeader
      simp only [hst]
    have hcall : decodeInput env s = onReader (decodeHeader env) s := by
      unfold decodeInput
      rw [hst]
    have hhead : decodeHeader env s.toReader = fail .invalidInput "invalid state" s.toReader := by
      unfold decodeHeader
      simp only [hst]
    refine ⟨?_, fun s' hs _ => ?_⟩
    · rw [hcall, onReader_toReader, hhead, hplain]
    · rw [hcall, onReader, Routine.zoom_apply, hhead] at hs
      cases hs

theorem StreamInv.starved (env : Env σ) {s s' : Stream σ} (h : StreamInv s)
    (hs : decodeInput env s = .starved s') : StreamInv s' ∧ s'.inp.nextIn = [] := by
  obtain ⟨hm, ha⟩ := decodeInput_plain env h
  rw [hs] at hm
  obtain ⟨hinv, hnil⟩ := plainInput_starved env h.1 hm.symm
  exact ⟨⟨hinv, ha s' hs⟩, hnil⟩

theorem StreamInv.stop (env : Env σ) {s s' : Stream σ} {e : Stop} (h : StreamInv s)
    (hs : decodeInput env s = .stop e s') (he : e.ret.ordinary = true) : StreamInv s' := by
  have hm := (decodeInput_plain env h).1
  rw [hs] at hm
  have hp := plainInput_stop env h.1 hm.symm he
  refine ⟨⟨hp.1.1, hp.2⟩, fun hr k hk => ?_⟩
  have hz := hp.1.2 (inv_reading hp.1.1 (reads_iff.mp hr)) k
  rw [hz] at hk
  exact absurd hk (lt_irrefl 0)

/-- What the application sees: each return with the fields and the output, and the
result of closing the stream. -/
inductive Event (σ : Type) where
  | returned (e : Stop) (core : Core σ) (totalIn : ℕ)
  | closed (r : Option Stop)

/-- What the application may do with the source at a return: it sets the source
when the header calls for one and fetches blocks. -/
abbrev AppSource := Ret → Option Source → Option Source

def Reader.availInput (s : Reader σ) (chunk : List UInt8) : Reader σ :=
  { s with inp := { s.inp with nextIn := chunk } }

/-- The answer to an ordinary code: the source is seen to, and output is consumed. -/
def Reader.answer (app : AppSource) (e : Stop) (s : Reader σ) : Option (Reader σ) :=
  if e.ret.ordinary then
    some { s with core := { s.core with win := { s.core.win with
      src := app e.ret s.core.win.src
      out := if e.ret = .output then [] else s.core.win.out } } }
  else none

def Event.output : Event σ → List UInt8
  | .returned e core _ => if e.ret = .output then core.win.out else []
  | .closed _ => []

def Event.result : Event σ → Option (Option Stop)
  | .returned .. => none
  | .closed r => some r

def Reader.event (e : Stop) (s : Reader σ) : Event σ := .returned e s.core s.inp.totalIn

def Reader.closeEvent (s : Reader σ) : Event σ := .closed (closeStream s.core)

def plainDriver (env : Env σ) (app : AppSource) : Driver (Reader σ) Stop UInt8 (Event σ) where
  call := plainInput env
  supply := Reader.availInput
  react := Reader.answer app
  observe := Reader.event
  close := Reader.closeEvent

/-- The application around `xd3_decode_input`. -/
def decodeDriver (env : Env σ) (app : AppSource) : Driver (Stream σ) Stop UInt8 (Event σ) where
  call := decodeInput env
  supply s c := { s with toReader := s.toReader.availInput c }
  react e s := (s.toReader.answer app e).map fun r => { s with toReader := r }
  observe e s := s.toReader.event e
  close s := s.toReader.closeEvent

theorem answer_more (app : AppSource) (e : Stop) (s : Reader σ) (b : List UInt8) :
    (s.more b).answer app e = (s.answer app e).map (·.more b) := by
  unfold Reader.answer
  split <;> rfl

/-- The source and the output are not among the fields of the invariant. -/
theorem Reading.app {c : Core σ} (h : Reading c) (src : Option Source) (out : List UInt8) :
    Reading { c with win := { c.win with src := src, out := out } } where
  state := h.state
  size k := by cases k <;> [exact h.size .data; exact h.size .inst; exact h.size .addr]
  pos_le k := by cases k <;> [exact h.pos_le .data; exact h.pos_le .inst; exact h.pos_le .addr]
  pos_zero k := by
    cases k <;> [exact h.pos_zero .data; exact h.pos_zero .inst; exact h.pos_zero .addr]
  fits := h.fits
  skipped := h.skipped
  bytes := h.bytes

def Frame.app (F : Frame) (src : Option Source) (out : List UInt8) : Frame :=
  { F with win := { F.win with src := src, out := out } }

theorem Facts.app {F : Frame} {r : ℕ} {c : Core σ} (h : Facts F r c) (src : Option Source)
    (out : List UInt8) : Facts (F.app src out) r
      { c with win := { c.win with src := src, out := out } } where
  winbytes := h.winbytes
  kept := congrArg (fun w : Window => { w with src := src, out := out }) h.kept
  sec := h.sec
  default := h.default
  cache := h.cache
  cpylen := h.cpylen
  position := h.position
  target := h.target
  delind := h.delind
  size k := by cases k <;> [exact h.size .data; exact h.size .inst; exact h.size .addr]
  offset := h.offset

theorem Inv.app {c : Core σ} (h : Inv c) (src : Option Source) (out : List UInt8) :
    Inv { c with win := { c.win with src := src, out := out } } := by
  rcases state_cases c.decState with hs | hs | hs | hs | hs
  · obtain ⟨F, hF, hr, hf⟩ := waiting_of_inv h hs
    have hrest : (F.app src out).AtRest :=
      ⟨hF.plain, fun k => by cases k <;> [exact hF.pos .data; exact hF.pos .inst; exact hF.pos .addr]⟩
    exact inv_of_waiting hrest ⟨hr, hf.app src out⟩
  · exact reading_inv ((inv_reading h hs).app src out)
  · unfold Inv
    simp only [hs]
  · unfold Inv at h ⊢
    simp only [hs] at h ⊢
    exact ⟨h.1, fun k => by cases k <;> [exact h.2 .data; exact h.2 .inst; exact h.2 .addr]⟩
  · unfold Inv
    simp only [hs]

/-- The decoder without staging is insensitive to chunk boundaries. -/
theorem plainDriver_lawful (env : Env σ) (app : AppSource) :
    (plainDriver env app).Lawful Reader.more (Holds Inv) where
  more_append s a b := by simp [Reader.more, Input.more]
  more_nil s := by simp [Reader.more, Input.more]
  resumes := plainInput_resumes env
  supply_eq s s' hs h c := by
    have hnil := (plainInput_starved env hs h).2
    simp [plainDriver, Reader.availInput, Reader.more, Input.more, hnil]
  react_more e s b := answer_more app e s b
  observe_more _ _ _ := rfl
  inv_more s b h := h.more b
  inv_starved s s' hs h := (plainInput_starved env hs h).1
  inv_react s e s' s'' hs h ha := by
    simp only [plainDriver, Reader.answer] at ha
    split at ha
    · rename_i he
      cases ha
      have hp := plainInput_stop env hs h he
      exact ⟨hp.1.1.app _ _, hp.2⟩
    · cases ha

theorem decodeDriver_projects (env : Env σ) (app : AppSource) :
    (decodeDriver env app).Projects (plainDriver env app) Stream.toReader StreamInv where
  call s h := (decodeInput_plain env h).1
  supply _ _ := rfl
  react e s := by
    simp only [decodeDriver, plainDriver]
    cases s.toReader.answer app e <;> rfl
  observe _ _ := rfl
  close _ := rfl
  inv_supply s s' h hs c := by
    obtain ⟨hinv, -⟩ := h.starved env hs
    exact hinv
  inv_react s e s' s'' h hs ha := by
    simp only [decodeDriver, Reader.answer] at ha
    split at ha
    · rename_i he
      cases ha
      have hinv := h.stop env hs he
      refine ⟨⟨hinv.1.1.app _ _, hinv.1.2⟩, fun hr k hk => ?_⟩
      have hget := hinv.2 hr k
      cases k <;> exact hget hk
    · cases ha

theorem streamInv_initStream (flags : Flags) (src : Option Source) :
    StreamInv (initStream flags src : Stream σ) := by
  refine ⟨⟨inv_of_waiting (F := ⟨(initStream flags src : Stream σ).core.win.kept, 4, 3, false⟩)
    ⟨rfl, fun k => by cases k <;> rfl⟩ ⟨Nat.zero_le _, ⟨rfl, rfl, fun _ => rfl, fun _ => ⟨rfl, rfl⟩,
      ?_, ?_, ?_, ?_, ?_, ?_, ?_⟩⟩, usize.modulus_pos⟩, fun h => by cases h⟩
  · exact fun h => absurd h (Nat.not_succ_le_zero _)
  · exact fun h => absurd h (Nat.not_succ_le_zero _)
  · exact fun h => absurd h (Nat.not_succ_le_zero _)
  · exact fun h => absurd h (Nat.not_succ_le_zero _)
  · exact fun h => absurd h (Nat.not_succ_le_zero _)
  · exact fun k h => absurd h (Nat.not_lt_zero _)
  · exact fun h => absurd h (Nat.not_succ_le_zero _)

/-- However the input is cut into chunks, the application sees the same returns, the
same fields and the same output at each, and the same result of closing the stream. -/
theorem decodeDriver_run_congr (env : Env σ) (app : AppSource) (flags : Flags)
    (src : Option Source) {cs cs' : List (List UInt8)} (h : cs.flatten = cs'.flatten)
    (tr : List (Event σ)) :
    (decodeDriver env app).Run (initStream flags src) cs tr ↔
      (decodeDriver env app).Run (initStream flags src) cs' tr := by
  have hs : StreamInv (initStream flags src : Stream σ) := streamInv_initStream flags src
  have hp := decodeDriver_projects env app
  have hl := plainDriver_lawful env app
  rw [hp.run_iff hs, hp.run_iff hs, hl.run_flatten hs.1, hl.run_flatten hs.1, h]

def twoWindows : List UInt8 :=
  [0xd6, 0xc3, 0xc4, 0, 0,
    0, 8, 4, 0, 1, 2, 0, 65, 0, 4,
    0, 8, 2, 0, 2, 1, 0, 66, 67, 3]

/-- Cut inside the file header, a window header, a section and between sections, the delta has
the run it has as a whole, to its end. -/
theorem decodeDriver_run_congr_twoWindows : ∃ tr : List (Event Unit),
    (decodeDriver {} fun _ src => src).Run (initStream {} none) [twoWindows] tr ∧
      (decodeDriver {} fun _ src => src).Run (initStream {} none)
        [[0xd6, 0xc3], [], [0xc4, 0, 0, 0, 8, 4], [0, 1, 2, 0, 65, 0], [4, 0, 8, 2, 0, 2, 1, 0],
          [66], [67], [3]] tr ∧
      tr.map Event.output = [[], [65, 65, 65, 65], [], [], [66, 67], [], []] ∧
      tr.filterMap Event.result = [none] := by
  have hrun := (decodeDriver ({} : Env Unit) fun _ src => src).run_trace 10 (initStream {} none)
    [twoWindows]
  have hcut : twoWindows = List.flatten [[0xd6, 0xc3], [], [0xc4, 0, 0, 0, 8, 4],
    [0, 1, 2, 0, 65, 0], [4, 0, 8, 2, 0, 2, 1, 0], [66], [67], [3]] := by decide
  refine ⟨_, hrun, (decodeDriver_run_congr {} (fun _ src => src) {} none ?_ _).mp hrun, ?_, ?_⟩
  · exact List.flatten_singleton.trans hcut
  · decide +kernel
  · decide +kernel

end Xdelta
