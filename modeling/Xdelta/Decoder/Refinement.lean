import Xdelta.Decoder.Reference

/-!
# Every call is a call of the reference

The decoder is compared with the reference through what its events show. A request for a
block is hidden: the state it leaves means what the state before did, and each request is
for less or for a block that was not held.
-/
namespace Xdelta
open Chunked Chunked.Driver

variable {σ : Type} {file : List UInt8}

/-- A copy window of the source that is announced, unless it is empty, lies inside the source. -/
def Seen.Inside (file : List UInt8) : Seen → Prop
  | started ind off len => hasBits ind vcdSource = true → len = 0 ∨ off + len ≤ file.length
  | _ => True

def Framed (file : List UInt8) (c : Core σ) : Prop :=
  c.decState.reads = true ∨ c.decState = .emit → c.win.Inside file

open Classical in
/-- What is left of a window that is being executed: a request does not repeat. -/
noncomputable def toGo (w : Window) : ℕ := 2 * w.load + if w.Armed then 0 else 1

def Closer (c' c : Core σ) : Prop :=
  c'.decState = .emit ∧ (c.decState = .emit → toGo c'.win < toGo c.win)

theorem closer_wellFounded : WellFounded (Closer : Core σ → Core σ → Prop) := by
  have hemit : ∀ n, ∀ c : Core σ, c.decState = .emit → toGo c.win = n → Acc Closer c := by
    intro n
    induction n using Nat.strong_induction_on with
    | _ n ih =>
      intro c hc hn
      refine .intro c fun c' hless => ih _ ?_ c' hless.1 rfl
      rw [← hn]
      exact hless.2 hc
  exact ⟨fun c => .intro c fun c' hless => hemit _ c' hless.1 rfl⟩

/-- What holds between calls. A window that is being executed has been located. -/
structure Followed (file : List UInt8) (s : Reader σ) : Prop where
  holds : Holds Inv s
  safe : Safe Flags.Emits file s.core
  source : s.core.win.src.isSome = true
  nover : s.core.win.flags.adler32Nover = true
  ready : s.core.decState = .emit → s.core.win.Equipped file ∧ s.core.win.Located

def unsourced (σ : Type) (file : List UInt8) :
    Comparison (Reader σ) (Reader σ) (Event σ) Seen where
  proj := Reader.bare
  view := Event.seen
  inv := Followed file
  cond s := Framed file s.core
  good := Seen.Inside file
  lost x := x = .failed
  closer s' s := Closer s'.core s.core

theorem seen_failed {e : Stop} (h : e.ret.ordinary = false) (c : Core σ) : seen e c = .failed := by
  obtain ⟨ret, msg⟩ := e
  cases ret <;> first | rfl | cases h

theorem ne_getsrcblk {e : Stop} (h : e.ret.ordinary = false) : e.ret ≠ .getsrcblk := by
  intro hret
  rw [hret] at h
  cases h

theorem seen_event {e : Stop} (h : e.ret ≠ .getsrcblk) (s : Reader σ) :
    (s.event e).seen = some (seen e s.core) := if_neg h

theorem seen_bare (e : Stop) (c : Core σ) : seen e c.bare = seen e c := by
  obtain ⟨ret, msg⟩ := e
  cases ret <;> rfl

theorem Framed.of_state {c : Core σ} {state : DecState} (h : c.decState = state)
    (hr : state.reads = false) (he : state ≠ .emit) : Framed file c := by
  subst h
  rintro (h | h)
  · rw [hr] at h
    cases h
  · exact absurd h he

theorem Framed.of_rank {c : Core σ} (h : c.decState.rank ≤ 18) : Framed file c := by
  rintro (hr | hr)
  · rcases reads_iff.mp hr with hr | hr | hr <;> rw [hr] at h <;> exact absurd h (by decide)
  · rw [hr] at h
    exact absurd h (by decide)

theorem answer_of_ordinary {app : AppSource} {e : Stop} (h : e.ret.ordinary = true) (s : Reader σ) :
    s.answer app e = some { s with core := { s.core with win := { s.core.win with
      src := app e.ret s.core.win.src
      out := if e.ret = .output then [] else s.core.win.out } } } := if_pos h

theorem answer_of_failed {app : AppSource} {e : Stop} (h : e.ret.ordinary = false) (s : Reader σ) :
    s.answer app e = none := if_neg (by rw [h]; exact Bool.false_ne_true)

theorem answer_bare (app : AppSource) (e : Stop) (s : Reader σ) :
    s.bare.answer (fun _ _ => none) e = (s.answer app e).map Reader.bare := by
  unfold Reader.answer
  split <;> rfl

section Calls
variable {env : Env σ} {app : AppSource} (hsec : ∀ id, env.secondary id = none)
  (hd : Delivery file env.getblk app)
include hsec hd

/-- After the answer to a return the next call is followed as well. -/
theorem Followed.answered {s s' s'' : Reader σ} {e : Stop} (ht : Followed file s)
    (hc : plainInput env s = .stop e s') (ha : s'.answer app e = some s'')
    (hkit : s'.core.win.kit = s.core.win.kit)
    (hemit : s''.core.decState = .emit → s''.core.win.Equipped file ∧ s''.core.win.Located) :
    Followed file s'' := by
  have hinv := (plainDriver_lawful env app).inv_react s e s' s'' ht.holds hc ha
  have hstay := plainInput_stays hsec hd.servesBlocks ht.holds ht.safe
  rw [hc] at hstay
  have hkit' := Prod.mk.inj hkit
  cases ho : e.ret.ordinary with
  | false =>
    rw [answer_of_failed ho] at ha
    cases ha
  | true =>
    obtain ⟨hfaith, hsafe⟩ := hstay ho
    obtain ⟨x, hx⟩ := Option.isSome_iff_exists.mp (hkit'.2.trans ht.source)
    obtain ⟨x', happ, -, hx'⟩ := hd.keeps e.ret x (hfaith x hx)
    rw [answer_of_ordinary ho, hx, happ] at ha
    cases ha
    refine ⟨hinv, hsafe (some x') ?_, rfl, ?_, hemit⟩
    · rintro source h
      cases h
      exact hx'
    · exact (congrArg Flags.adler32Nover hkit'.1).trans ht.nover

/-- A return that the reference makes from the same fields. -/
theorem Followed.shows {s s' : Reader σ} {e : Stop} (ht : Followed file s)
    (hc : plainInput env s = .stop e s') (hc₀ : interpretInput file s.bare = .stop e s'.bare)
    (hok : e.ret.ordinary = true → s'.core.win.kit = s.core.win.kit ∧ e.ret ≠ .getsrcblk ∧
      s'.core.decState ≠ .emit ∧ ((seen e s'.core).Inside file → Framed file s'.core)) :
    Shows (plainDriver env app) (referenceDriver file) (unsourced σ file) s e s' e s'.bare := by
  have hne : e.ret ≠ .getsrcblk := by
    cases ho : e.ret.ordinary with
    | false => exact ne_getsrcblk ho
    | true => exact (hok ho).2.1
  refine ⟨hc₀, ?_, answer_bare app e s', fun s'' ha => ?_, fun s'' ha hgood => ?_⟩
  · refine (seen_event hne s').trans (congrArg some ?_)
    exact (seen_bare e s'.core).symm
  · cases ho : e.ret.ordinary with
    | false => exact absurd ((answer_of_failed ho s').symm.trans ha) (Option.some_ne_none _).symm
    | true =>
      obtain ⟨hkit, -, hemit, -⟩ := hok ho
      refine ht.answered hsec hd hc ha hkit fun h => absurd ?_ hemit
      have ha' := (answer_of_ordinary ho s').symm.trans ha
      cases ha'
      exact h
  · cases ho : e.ret.ordinary with
    | false => exact absurd ((answer_of_failed ho s').symm.trans ha) (Option.some_ne_none _).symm
    | true =>
      have hframed := (hok ho).2.2.2 (seen_bare e s'.core ▸ hgood)
      have ha' := (answer_of_ordinary ho s').symm.trans ha
      cases ha'
      exact hframed

end Calls

theorem shows_failed {env : Env σ} {app : AppSource} {s s' t : Reader σ} {e e₀ : Stop}
    (hc₀ : interpretInput file s.bare = .stop e₀ t) (ho : e.ret.ordinary = false)
    (ho₀ : e₀.ret.ordinary = false) :
    Shows (plainDriver env app) (referenceDriver file) (unsourced σ file) s e s' e₀ t := by
  have hnone : s'.answer app e = none := answer_of_failed ho s'
  have hnone₀ : t.answer (fun _ _ => none) e₀ = none := answer_of_failed ho₀ t
  refine ⟨hc₀, ?_, ?_, fun s'' ha => ?_, fun s'' ha => ?_⟩
  · refine (seen_event (ne_getsrcblk ho) s').trans (congrArg some ?_)
    exact (seen_failed ho s'.core).trans (seen_failed ho₀ t.core).symm
  · exact hnone₀.trans (congrArg (Option.map Reader.bare) hnone).symm
  · exact absurd (hnone.symm.trans ha) (Option.some_ne_none _).symm
  · exact absurd (hnone.symm.trans ha) (Option.some_ne_none _).symm

theorem starves_of {env : Env σ} {app : AppSource} {s s' : Reader σ}
    (hc₀ : interpretInput file s.bare = .starved s'.bare) (ht : Followed file s')
    (hframed : Framed file s.core → Framed file s'.core) :
    Starves (plainDriver env app) (referenceDriver file) (unsourced σ file) s s' :=
  ⟨hc₀, rfl, fun _ => rfl, fun _ => ⟨ht.holds, ht.safe, ht.source, ht.nover, ht.ready⟩,
    fun _ => hframed⟩

theorem toGo_armed {w : Window} (h : w.Armed) : toGo w = 2 * w.load := by
  unfold toGo
  rw [if_pos h]
  rfl

theorem lt_toGo {w : Window} {n : ℕ} (hless : n ≤ w.load) (hfresh : n < w.load ∨ ¬w.Armed) :
    2 * n < toGo w := by
  unfold toGo
  rcases hfresh with hlt | hnot
  · split <;> omega
  · rw [if_neg hnot]
    omega

theorem Source.Fetched.armed {w : Window} {s s' : Source} {out : List UInt8} (ha : w.Asking)
    (hs : w.src = some s) (h : s.Fetched file s.getblkno s') :
    ({ w with src := some s', out := out } : Window).Armed := by
  obtain ⟨k, hfirst, m, t, htype, -, ht, hno⟩ := ha
  rw [hs] at ht
  cases ht
  have hadd : ∀ a, (s'.blksizeAdd s'.cpyoffBlocks s'.cpyoffBlkoff a).1 =
      (s.blksizeAdd s.cpyoffBlocks s.cpyoffBlkoff a).1 := by
    intro a
    rw [h.same]
    rfl
  have hhalf : ({ w with src := some s', out := out } : Window).half k = w.half k := by
    cases k <;> rfl
  refine ⟨k, hfirst, ?_, s', rfl, h.isSome, ?_⟩
  · rw [hhalf, htype]
    exact RType.noConfusion
  · rw [hhalf, hadd, h.curblkno]
    exact hno

theorem interpretWindow_output {c c' : Core σ} {e : Stop}
    (h : interpretWindow file c = .stop e c'.bare) (he : e.ret = .output) :
    c'.decState = .finish := by
  change c'.bare.decState = .finish
  generalize c'.bare = x at h
  unfold interpretWindow at h
  split at h
  · cases h
    rfl
  · cases h
    cases he

theorem interpretWindow_none {c : Core σ} (h : c.win.interpret file = none) :
    interpretWindow file c.bare = .stop ⟨.invalidInput, none⟩ { c with win := c.win.announced } := by
  unfold interpretWindow
  rw [show c.bare.win = c.win.bare from rfl, Window.interpret_bare, h]
  dsimp only
  rw [Window.announced_bare]
  rfl

theorem interpretInput_emit {s : Reader σ} (h : s.core.decState = .emit) :
    interpretInput file s = onCore (interpretWindow file) s := by
  unfold interpretInput
  rw [h]

theorem Window.Suspends.call {t : Reader σ} {w' : Window} (hstate : t.core.decState = .emit)
    (h : t.core.win.Suspends file w') (src : Option Source) : interpretInput file
      ({ t with core := { t.core with win := { w' with src := src } } } : Reader σ).bare =
        onCore (interpretWindow file) t.bare := by
  have hone : ({ w' with src := src } : Window).bare = w'.bare := rfl
  have hint : w'.bare.interpret file = t.core.win.bare.interpret file := by
    rw [Window.interpret_bare, Window.interpret_bare, h.interpret]
  have hfin : ∀ out, w'.bare.finished out = t.core.win.bare.finished out := by
    intro out
    rw [Window.finished_bare, Window.finished_bare, h.finished]
  have hann : w'.bare.announced = t.core.win.bare.announced := by
    rw [Window.announced_bare, Window.announced_bare, h.announced]
  have hcall : interpretWindow file ({ t.core with win := w'.bare } : Core σ) =
      interpretWindow file ({ t.core with win := t.core.win.bare } : Core σ) := by
    unfold interpretWindow
    dsimp only
    rw [hint]
    cases t.core.win.bare.interpret file with
    | some out => exact congrArg (fun w => countOutput (decodeFinishWindow { t.core with win := w })) (hfin out)
    | none => exact congrArg (fun w => Outcome.stop _ { t.core with win := w }) hann
  rw [interpretInput_emit, onCore, Routine.zoom_apply, Routine.zoom_apply]
  · exact congrArg (Outcome.mapState _) hcall
  · exact hstate

theorem rotate_kit (w : Window) : w.rotate.kit = w.kit := by
  unfold Window.rotate
  split_ifs <;> rfl

section Calls
variable {env : Env σ} {app : AppSource} (hsec : ∀ id, env.secondary id = none)
  (hd : Delivery file env.getblk app)
include hsec hd

/-- A request is hidden: the application's answer leaves a window that means the same. -/
theorem Followed.hides {s t s'' : Reader σ} {e : Stop} {w' : Window} (ht : Followed file s)
    (hgetblk : env.getblk = none) (he : e.ret = .getsrcblk)
    (hc : plainInput env s = .stop e { t with core := { t.core with win := w' } })
    (hc₀ : interpretInput file s.bare = onCore (interpretWindow file) t.bare)
    (hstate : t.core.decState = .emit) (hkit : t.core.win.kit = s.core.win.kit)
    (hframed : Framed file s.core → t.core.win.Inside file)
    (hw : t.core.win.Suspends file w')
    (hless : s.core.decState = .emit → 2 * w'.load < toGo s.core.win)
    (ha : ({ t with core := { t.core with win := w' } } : Reader σ).answer app e = some s'') :
    Hides (plainDriver env app) (referenceDriver file) (unsourced σ file) s e
      { t with core := { t.core with win := w' } } s'' := by
  have hkit' := Prod.mk.inj (hw.kit.trans hkit)
  obtain ⟨x, hx⟩ := Option.isSome_iff_exists.mp (hkit'.2.trans ht.source)
  obtain ⟨x', happ, hfetched⟩ := hd.answers hgetblk x (hw.ready.faithful x hx)
  have ha' := ha
  rw [answer_of_ordinary (by rw [he]; rfl), he, if_neg Ret.noConfusion] at ha'
  change some ({ t with core := { t.core with win := { w' with
    src := app .getsrcblk w'.src } } } : Reader σ) = some s'' at ha'
  rw [hx, happ] at ha'
  cases ha'
  have harmed : ({ w' with src := some x', out := w'.out } : Window).Armed :=
    hfetched.armed hw.asking hx
  refine ⟨ha, if_pos he, ?_, ?_, fun hf => ?_, ?_⟩
  · exact (Window.Suspends.call hstate hw (some x')).trans hc₀.symm
  · refine ht.answered hsec hd hc ha (hw.kit.trans hkit) fun _ => ⟨hw.ready.source hfetched.faithful, ?_⟩
    intro y hy hlen
    cases hy
    obtain ⟨hblocks, hblkoff⟩ := hw.located x hx hlen
    rw [hfetched.same]
    exact ⟨hblocks, hblkoff⟩
  · have hin := hframed hf
    have hind : w'.decWinInd = t.core.win.decWinInd :=
      (congrArg Window.decWinInd hw.announced : w'.announced.decWinInd = t.core.win.announced.decWinInd)
    have hoff : w'.decCpyoff = t.core.win.decCpyoff :=
      (congrArg Window.decCpyoff hw.announced : w'.announced.decCpyoff = t.core.win.announced.decCpyoff)
    have hlen : w'.decCpylen = t.core.win.decCpylen :=
      (congrArg Window.decCpylen hw.announced : w'.announced.decCpylen = t.core.win.announced.decCpylen)
    intro _
    unfold Window.Inside at hin ⊢
    rw [← hind, ← hoff, ← hlen] at hin
    exact hin
  · exact ⟨hstate, fun he => lt_of_eq_of_lt (toGo_armed harmed) (hless he)⟩

/-- A call that executes the window of `t`. -/
theorem Followed.emission {s t : Reader σ} (ht : Followed file s)
    (hc : plainInput env s = onCore (decEmit env) t)
    (hc₀ : interpretInput file s.bare = onCore (interpretWindow file) t.bare)
    (hstate : t.core.decState = .emit) (hready : t.core.win.Equipped file)
    (hkit : t.core.win.kit = s.core.win.kit)
    (hframed : Framed file s.core → t.core.win.Inside file)
    (hless : ∀ w', t.core.win.Suspends file w' → s.core.decState = .emit →
      2 * w'.load < toGo s.core.win) :
    FollowsAt (plainDriver env app) (referenceDriver file) (unsourced σ file) s := by
  have hkit' := Prod.mk.inj hkit
  have hends := decEmit_refines hd hready (hkit'.2.trans ht.source)
    ((congrArg Flags.adler32Nover hkit'.1).trans ht.nover)
  have hsteady := steady_decEmit env hkit
  change (plainInput env s).Ends _ _ _
  rw [hc]
  rw [onCore, Routine.zoom_apply] at hc ⊢
  cases he : decEmit env t.core with
  | ok a c' => rw [he] at hends; exact hends
  | starved c' => rw [he] at hends; exact hends.elim
  | fault => rw [he] at hends; exact hends.elim
  | stop e c' =>
    rw [he] at hends hsteady hc
    rcases hends with ⟨hout, hwin⟩ | ⟨hfail, hnone⟩ | ⟨hgetblk, hret, w', rfl, hw⟩
    · refine .inr (.inl ⟨e, _, ht.shows hsec hd hc ?_ fun _ => ⟨hsteady, ?_, ?_, fun _ => ?_⟩⟩)
      · rw [hc₀, onCore, Routine.zoom_apply]
        exact congrArg (Outcome.mapState _) hwin
      · rw [hout]
        exact Ret.noConfusion
      · rw [show c'.decState = .finish from interpretWindow_output hwin hout]
        exact DecState.noConfusion
      · exact .of_state (interpretWindow_output hwin hout) rfl DecState.noConfusion
    · cases hint : t.core.win.interpret file with
      | none =>
        have hcall : interpretInput file s.bare = .stop ⟨.invalidInput, none⟩
            { t with core := { t.core with win := t.core.win.announced } } := by
          rw [hc₀, onCore, Routine.zoom_apply]
          exact congrArg (Outcome.mapState _) (interpretWindow_none hint)
        exact .inr (.inl ⟨_, _, shows_failed hcall hfail rfl⟩)
      | some out =>
        refine .inr (.inr ⟨Seen.failed, answer_of_failed hfail _, ?_, rfl, fun hf => ?_⟩)
        · refine (seen_event (ne_getsrcblk hfail) _).trans (congrArg some ?_)
          exact seen_failed hfail _
        · rw [hnone (hframed hf)] at hint
          cases hint
    · have hord : e.ret.ordinary = true := by
        rw [hret]
        rfl
      have ha := @answer_of_ordinary σ app e hord { t with core := { t.core with win := w' } }
      exact .inl ⟨_, ht.hides hsec hd hgetblk hret hc hc₀ hstate hkit hframed hw (hless w' hw) ha⟩

omit hd in
/-- The header states know of the environment only its compressors. -/
theorem decodeHeader_env : decodeHeader env = decodeHeader {} := by
  obtain ⟨getblk, secondary⟩ := env
  have hnone : secondary = fun _ => none := funext hsec
  subst hnone
  rfl

theorem Followed.header {s : Reader σ} (ht : Followed file s) (hst : s.core.decState.rank ≤ 18) :
    FollowsAt (plainDriver env app) (referenceDriver file) (unsourced σ file) s := by
  obtain ⟨F, hF, hw⟩ := waiting_of_safe ht.safe hst
  have hends := (from_decodeHeader env F (fun _ => hsec)).ends s ⟨hw, ht.holds.2⟩
  have hstay := plainInput_stays hsec hd.servesBlocks ht.holds ht.safe
  have hcall := plainInput_waiting env hst
  have hcall₀ : interpretInput file s.bare = (decodeHeader env s).mapState Reader.bare := by
    rw [decodeHeader_env hsec, ← blind_decodeHeader {} s]
    unfold interpretInput
    split
    case h_6 => rfl
    all_goals
      rename_i hs
      have hs' : s.core.decState = _ := hs
      rw [hs'] at hst
      exact absurd hst (by decide)
  have hkept : ∀ {c : Core σ} {r : ℕ}, Facts F r c → c.win.kit = s.core.win.kit := fun {c} _ hf =>
    (congrArg Window.kit (hf.kept.trans hw.2.kept.symm) : c.win.kept.kit = s.core.win.kept.kit)
  change (plainInput env s).Ends _ _ _
  rw [hcall] at hstay ⊢
  cases hc : decodeHeader env s with
  | ok a s' => rw [hc] at hends; exact hends
  | fault => rw [hc] at hends; exact hends.elim
  | starved s' =>
    rw [hc] at hends hstay hcall₀ hcall
    have hrank : s'.core.decState.rank ≤ 18 := hends.1.1.1
    have hkit := Prod.mk.inj (hkept hends.1.1.2)
    refine starves_of hcall₀ ⟨(plainInput_starved env ht.holds hcall).1, hstay, ?_, ?_, fun he => ?_⟩
      fun _ => .of_rank hrank
    · exact hkit.2.trans ht.source
    · exact (congrArg Flags.adler32Nover hkit.1).trans ht.nover
    · rw [he] at hrank
      exact absurd hrank (by decide)
  | stop e s' =>
    rw [hc] at hends hcall₀ hcall
    refine .inr (.inl ⟨e, _, ht.shows hsec hd hcall hcall₀ fun ho => ?_⟩)
    obtain ⟨hdata, hret⟩ := hends ho
    refine ⟨hkept hdata.1.2, ?_, ?_, fun hin _ => ?_⟩
    · rcases hret with h | h <;> rw [h] <;> exact Ret.noConfusion
    · rw [hdata.1.1]
      exact DecState.noConfusion
    · have hseen : seen e s'.core = .started s'.core.win.decWinInd s'.core.win.decCpyoff
          s'.core.win.decCpylen := by
        unfold seen
        rcases hret with h | h <;> rw [h]
      rw [hseen] at hin
      exact hin

theorem Followed.sections {s : Reader σ} (ht : Followed file s) (hst : s.core.decState = .data ∨
    s.core.decState = .inst ∨ s.core.decState = .addr) :
    FollowsAt (plainDriver env app) (referenceDriver file) (unsourced σ file) s := by
  have hread := inv_reading ht.holds.1 hst
  have hends := plainSections_ends ht.holds ht.safe hst
  have hstay := plainInput_stays hsec hd.servesBlocks ht.holds ht.safe
  have hcall := plainInput_reading env hread
  have hcall₀ : interpretInput file s.bare = ((plainSections s).mapState Reader.bare).andThen
      fun _ => onCore (interpretWindow file) := by
    rw [← blind_plainSections s]
    have hst' : s.bare.core.decState = .data ∨ s.bare.core.decState = .inst ∨
        s.bare.core.decState = .addr := hst
    unfold interpretInput
    rcases hst' with h | h | h <;> rw [h]
  have hframed : ∀ {w : Window}, w.segment = s.core.win.segment → Framed file s.core →
      w.Inside file := fun hw hf => Window.Inside.congr (hf (.inl (reads_iff.mpr hst))) hw
  cases hc : plainSections s with
  | fault => rw [hc] at hends; exact hends.elim
  | starved s' =>
    rw [hc] at hends hcall hcall₀
    rw [hcall] at hstay
    have hs' := plainInput_starved_reading env ⟨hread, ht.holds.2⟩ hcall
    have hkit := Prod.mk.inj (congrArg Prod.fst hends)
    change (plainInput env s).Ends _ _ _
    rw [hcall]
    refine starves_of hcall₀ ⟨⟨reading_inv hs'.1.1, hs'.1.2⟩, hstay, ?_, ?_, fun he => ?_⟩
      fun hf _ => hframed hends hf
    · exact hkit.2.trans ht.source
    · exact (congrArg Flags.adler32Nover hkit.1).trans ht.nover
    · rcases hs'.1.1.state with h | h | h <;> rw [he] at h <;> cases h
  | stop e s' =>
    rw [hc] at hends hcall hcall₀
    change (plainInput env s).Ends _ _ _
    rw [hcall]
    refine .inr (.inl ⟨e, _, ht.shows hsec hd hcall hcall₀ fun ho => ?_⟩)
    obtain ⟨hret, hfin, hkit⟩ := hends ho
    refine ⟨hkit, ?_, ?_, fun _ => .of_state hfin rfl DecState.noConfusion⟩
    · rw [hret]
      exact Ret.noConfusion
    · rw [hfin]
      exact DecState.noConfusion
  | ok a t =>
    rw [hc] at hends hcall hcall₀
    obtain ⟨hstate, hready, hseg⟩ := hends
    refine ht.emission hsec hd hcall hcall₀ hstate hready (congrArg Prod.fst hseg) (hframed hseg) ?_
    intro w' _ he
    rcases hst with h | h | h <;> rw [he] at h <;> cases h

theorem Followed.resumption {s : Reader σ} (ht : Followed file s) (hst : s.core.decState = .emit) :
    FollowsAt (plainDriver env app) (referenceDriver file) (unsourced σ file) s := by
  obtain ⟨hready, hlocated⟩ := ht.ready hst
  have hcall : plainInput env s = onCore (decEmit env) s := by
    unfold plainInput
    rw [hst]
  refine ht.emission hsec hd hcall (interpretInput_emit hst) hst hready rfl
    (fun hf => hf (.inr hst)) fun w' hw _ => lt_toGo hw.less ?_
  exact hw.fresh.imp id fun hnot ha => hnot ⟨hlocated, ha⟩

theorem Followed.ending {s : Reader σ} (ht : Followed file s) (hst : s.core.decState = .finish) :
    FollowsAt (plainDriver env app) (referenceDriver file) (unsourced σ file) s := by
  have hcall : plainInput env s = onCore decFinish s := by
    unfold plainInput
    rw [hst]
  have hcall₀ : interpretInput file s.bare = (onCore decFinish s).mapState Reader.bare := by
    have hst' : s.bare.core.decState = .finish := hst
    rw [← blind_decFinish.onCore s]
    unfold interpretInput
    rw [hst']
  change (plainInput env s).Ends _ _ _
  rw [hcall]
  refine .inr (.inl ⟨_, _, ht.shows hsec hd hcall hcall₀ fun _ => ⟨rotate_kit _, ?_, ?_, fun _ => ?_⟩⟩)
  · exact Ret.noConfusion
  · exact DecState.noConfusion
  · exact .of_state rfl rfl DecState.noConfusion

/-- Every call of the decoder is a call of the reference. -/
theorem plainDriver_follows :
    Follows (plainDriver env app) (referenceDriver file) (unsourced σ file) := by
  intro s ht
  rcases state_cases s.core.decState with hst | hst | hst | hst | hst
  · exact ht.header hsec hd hst
  · exact ht.sections hsec hd hst
  · exact ht.resumption hsec hd hst
  · exact ht.ending hsec hd hst
  · have hcall : plainInput env s = fail .invalidInput "invalid state" s := by
      unfold plainInput decodeHeader
      simp only [hst]
    have hcall₀ : interpretInput file s.bare = fail .invalidInput "invalid state" s.bare := by
      have hst' : s.bare.core.decState = .aborted := hst
      unfold interpretInput decodeHeader
      simp only [hst']
    change (plainInput env s).Ends _ _ _
    rw [hcall]
    exact .inr (.inl ⟨_, _, shows_failed hcall₀ rfl rfl⟩)

end Calls

/-- The application that has no function reads the block asked for from `file`. -/
def answerRequests (file : List UInt8) : AppSource := fun ret src =>
  if ret = .getsrcblk then src.map fun s => s.serve file s.getblkno else src

theorem Source.Faithful.fetched {s : Source} (h : s.Faithful file) (blkno : ℕ) :
    s.Fetched file blkno (s.serve file blkno) :=
  ⟨rfl, ⟨h.toShaped.serve file blkno, Source.serve_holds file s blkno⟩, rfl, rfl⟩

theorem delivery_serveFile (file : List UInt8) :
    Delivery file (some (serveFile file)) fun _ src => src where
  callback f hf s blkno hs := by
    cases hf
    exact ⟨hs.fetched blkno, rfl⟩
  keeps _ s hs := ⟨s, rfl, rfl, hs⟩
  answers h := by cases h

theorem delivery_answerRequests (file : List UInt8) : Delivery file none (answerRequests file) where
  callback f hf := by cases hf
  keeps ret s hs := by
    unfold answerRequests
    split
    · exact ⟨_, rfl, (hs.fetched s.getblkno).same, (hs.fetched s.getblkno).faithful⟩
    · exact ⟨s, rfl, rfl, hs⟩
  answers _ s hs := ⟨_, rfl, hs.fetched s.getblkno⟩

theorem servesSource_answerRequests (file : List UInt8) :
    ServesSource file (answerRequests file) := by
  intro ret src hsrc source h
  cases src with
  | none => simp [answerRequests] at h
  | some t =>
    obtain ⟨t', ht', -, hfaith⟩ := (delivery_answerRequests file).keeps ret t (hsrc t rfl)
    rw [ht'] at h
    cases h
    exact hfaith

theorem followed_initStream {flags : Flags} (hnover : flags.adler32Nover = true) {src : Source}
    (hsrc : src.Faithful file) :
    Followed file (initStream flags (some src) : Stream σ).toReader := by
  refine ⟨(streamInv_initStream flags (some src)).1, safe_initStream flags ?_, rfl, hnover,
    fun h => by cases h⟩
  rintro source h
  cases h
  exact hsrc

/-- However blocks are delivered, the decoder shows what interpreting each window byte by byte
does, as long as the copy windows lie inside the source. In any other case it fails at worst
where the interpretation goes on, and no window depends on bytes past the end of the source. -/
theorem decodeDriver_refines {env : Env σ} {app : AppSource}
    (hsec : ∀ id, env.secondary id = none) (hd : Delivery file env.getblk app) {flags : Flags}
    (hnover : flags.adler32Nover = true) {src : Source} (hsrc : src.Faithful file)
    (cs : List (List UInt8)) :
    (∀ tr₀, (∀ x ∈ tr₀, x.Inside file) →
      ((referenceDriver file).Run (initStream flags none : Stream σ).toReader cs tr₀ ↔
        ∃ tr, (decodeDriver env app).Run (initStream flags (some src)) cs tr ∧
          tr.filterMap Event.seen = tr₀)) ∧
    (∀ tr, (decodeDriver env app).Run (initStream flags (some src)) cs tr →
      ∃ tr₀, (referenceDriver file).Run (initStream flags none : Stream σ).toReader cs tr₀ ∧
        (tr.filterMap Event.seen = tr₀ ∨ tr.filterMap Event.seen = tr₀ ++ [.failed])) ∧
    ∀ (w : Window) out extra, w.interpret file = some out →
      w.interpret (file ++ extra) = some out := by
  have hstart : Followed file (initStream flags (some src) : Stream σ).toReader :=
    followed_initStream hnover hsrc
  have hfollows := plainDriver_follows hsec hd
  have hruns := fun tr => (decodeDriver_projects env app).run_iff
    (streamInv_initStream flags (some src)) cs tr
  refine ⟨fun tr₀ hin => ?_, fun tr hr => ?_, fun w out extra h => w.interpret_append extra h⟩
  · have hframed : Framed file (initStream flags (some src) : Stream σ).core :=
      .of_rank (Nat.zero_le _)
    have hwf : WellFounded (unsourced σ file).closer := InvImage.wf Reader.core closer_wellFounded
    refine (hfollows.run_iff hwf hstart hframed hin).trans ?_
    exact exists_congr fun tr => and_congr_left' (hruns tr).symm
  · obtain ⟨tr₀, hr₀, htr⟩ := hfollows.run ((hruns tr).mp hr) hstart
    refine ⟨tr₀, hr₀, htr.imp id ?_⟩
    rintro ⟨⟨x, rfl, h⟩, -⟩
    exact h

def copyDelta : List UInt8 := [0xd6, 0xc3, 0xc4, 0, 0, 1, 2, 0, 8, 2, 0, 0, 2, 1, 19, 2, 0]

/-- The decoder asks for both blocks of the source, and the reference shows what it does. -/
theorem decodeDriver_refines_copyDelta :
    (∃ tr : List (Event Unit), (decodeDriver {} (answerRequests [104, 105])).Run
        (initStream { adler32Nover := true } (some (freshSource 0))) [copyDelta] tr ∧
      tr.length = 6 ∧
      tr.filterMap Event.seen = [.started 1 0 2, .output [104, 105], .finished, .closed none]) ∧
      (referenceDriver [104, 105]).Run
        (initStream { adler32Nover := true } none : Stream Unit).toReader
        [copyDelta] [.started 1 0 2, .output [104, 105], .finished, .closed none] := by
  have hrun := (decodeDriver ({} : Env Unit) (answerRequests [104, 105])).run_trace 10
    (initStream { adler32Nover := true } (some (freshSource 0))) [copyDelta]
  refine ⟨⟨_, hrun, by decide +kernel, by decide +kernel⟩, ?_⟩
  refine ((decodeDriver_refines (fun _ => rfl) (delivery_answerRequests _) rfl
    (freshSource_faithful _ (by decide)) _).1 _ fun x hx => ?_).mpr ⟨_, hrun, by decide +kernel⟩
  simp only [List.mem_cons, List.not_mem_nil, or_false] at hx
  rcases hx with rfl | rfl | rfl | rfl
  · exact fun _ => .inr le_rfl
  · trivial
  · trivial
  · trivial

end Xdelta
