import Xdelta.Decoder.Blind
import Xdelta.Decoder.Safety
import Xdelta.Lib.Stutter

/-!
# The decoder refines the interpretation byte by byte

The reference is a decoder that interprets a window as a whole, one byte at a time, on the
whole source file, and never asks for a block. However blocks are delivered, the decoder
shows what the reference shows, as long as the copy windows lie inside the file.
-/
namespace Xdelta
open Chunked Delta

variable {σ : Type} {file : List UInt8}

/-- The window as executing it leaves it: all is read, and nothing is pending. -/
def Window.finished (w : Window) (out : List UInt8) : Window :=
  { w with
    src := none
    decCurrent1 := {}
    decCurrent2 := {}
    dataSect := { w.dataSect with buf := w.dataSect.bufMax }
    instSect := { w.instSect with buf := w.instSect.bufMax }
    addrSect := { w.addrSect with buf := w.addrSect.bufMax }
    acache := (w.script.last w.extent).acache
    decPosition := (w.script.last w.extent).position
    out := out }

def interpretWindow (file : List UInt8) : Routine (Core σ) Stop Unit := fun c =>
  match c.win.interpret file with
  | some out => countOutput (decodeFinishWindow { c with win := c.win.finished out })
  | none => .stop ⟨.invalidInput, none⟩ { c with win := c.win.announced }

/-- `xd3_decode_input` with the interpretation in place of `xd3_decode_emit`. -/
def interpretInput (file : List UInt8) : Dec σ Unit := fun s =>
  match s.core.decState with
  | .data | .inst | .addr => (plainSections s).andThen fun _ => onCore (interpretWindow file)
  | .emit => onCore (interpretWindow file) s
  | .finish => onCore decFinish s
  | _ => decodeHeader {} s

/-- What is compared: the copy windows announced, the output of each window, and whether the
decoder fails or the stream is closed in the middle. -/
inductive Seen where
  | started (winInd cpyoff cpylen : ℕ)
  | output (bytes : List UInt8)
  | finished
  | failed
  | closed (r : Option Stop)
  deriving DecidableEq

def seen (e : Stop) (c : Core σ) : Seen :=
  match e.ret with
  | .gotheader | .winstart => .started c.win.decWinInd c.win.decCpyoff c.win.decCpylen
  | .output => .output c.win.out
  | .winfinish => .finished
  | _ => .failed

def Event.seen : Event σ → Option Seen
  | .returned e c _ => if e.ret = .getsrcblk then none else some (Xdelta.seen e c)
  | .closed r => some (.closed r)

def referenceDriver (file : List UInt8) : Driver (Reader σ) Stop UInt8 Seen where
  call := interpretInput file
  supply := Reader.availInput
  react := Reader.answer fun _ _ => none
  observe e s := seen e s.core
  close s := .closed (closeStream s.core)

theorem Hinst.idle_type (i : Hinst) : i.idle.type = i.type := by
  unfold idle
  split
  · rename_i h
    exact h.symm
  · rfl

namespace Window

theorem half_bare (w : Window) (h : Half) : w.bare.half h = (w.half h).idle := by
  cases h <;> rfl

theorem remaining_bare (w : Window) (h : Half) : w.bare.remaining h = w.remaining h := by
  unfold remaining
  rw [half_bare, Hinst.idle_type]
  split
  · rfl
  · rename_i hne
    rw [Hinst.idle, if_neg hne]

theorem interpret_bare (file : List UInt8) (w : Window) : w.bare.interpret file = w.interpret file := by
  have hrest : w.bare.rest = w.rest := by
    unfold rest
    rw [remaining_bare, remaining_bare]
    rfl
  unfold interpret
  rw [hrest]
  rfl

theorem finished_bare (w : Window) (out : List UInt8) : w.bare.finished out = w.finished out := rfl

theorem announced_bare (w : Window) : w.bare.announced = w.announced := rfl

/-- A window all of whose instructions have been carried out is finished. -/
theorem bare_of_done {w w' : Window} (hset : w'.Settled) (ha : w'.announced = w.announced)
    (hend : ∀ k, (w'.sect k).buf = (w'.sect k).bufMax)
    (hlast : w'.script = w.script.last w.extent) : w'.bare = w.finished w'.out := by
  have hcache : w'.acache = (w.script.last w.extent).acache := congrArg Script.acache hlast
  have hpos : w'.decPosition = (w.script.last w.extent).position := congrArg Script.position hlast
  have hfirst : w'.decCurrent1.idle = {} := if_pos hset.1
  have hsecond : w'.decCurrent2.idle = {} := if_pos hset.2
  have hdata : w'.dataSect.buf = w.dataSect.bufMax :=
    (hend .data).trans (congrArg (·.dataSect.bufMax) ha :
      w'.announced.dataSect.bufMax = w.announced.dataSect.bufMax)
  have hinst : w'.instSect.buf = w.instSect.bufMax :=
    (hend .inst).trans (congrArg (·.instSect.bufMax) ha :
      w'.announced.instSect.bufMax = w.announced.instSect.bufMax)
  have haddr : w'.addrSect.buf = w.addrSect.bufMax :=
    (hend .addr).trans (congrArg (·.addrSect.bufMax) ha :
      w'.announced.addrSect.bufMax = w.announced.addrSect.bufMax)
  have hform : w'.bare = { w'.announced with
      decCurrent1 := w'.decCurrent1.idle
      decCurrent2 := w'.decCurrent2.idle
      dataSect := { w'.announced.dataSect with buf := w'.dataSect.buf }
      instSect := { w'.announced.instSect with buf := w'.instSect.buf }
      addrSect := { w'.announced.addrSect with buf := w'.addrSect.buf }
      acache := w'.acache
      decPosition := w'.decPosition
      out := w'.out } := rfl
  rw [hform, ha, hfirst, hsecond, hdata, hinst, haddr, hcache, hpos]
  rfl

end Window

def Source.SameBut (s s' : Source) : Prop :=
  s' = { s with curblk := s'.curblk, curblkno := s'.curblkno, onblk := s'.onblk }

/-- A source that holds block `blkno` of the file instead of another. -/
structure Source.Fetched (file : List UInt8) (s : Source) (blkno : ℕ) (s' : Source) : Prop where
  same : s.SameBut s'
  faithful : s'.Faithful file
  isSome : s'.curblk.isSome = true
  curblkno : s'.curblkno = blkno

/-- Requests for blocks are answered from the file: by a function of the application, or by the
application itself, which may replace the block held between any two calls. -/
structure Delivery (file : List UInt8) (getblk : Option GetblkFunc) (app : AppSource) : Prop where
  callback : ∀ f, getblk = some f → ∀ s blkno, s.Faithful file →
    s.Fetched file blkno (f s blkno).1 ∧ (f s blkno).2 = none
  keeps : ∀ ret s, s.Faithful file → ∃ s', app ret (some s) = some s' ∧ s.SameBut s' ∧
    s'.Faithful file
  answers : getblk = none → ∀ s, s.Faithful file → ∃ s', app .getsrcblk (some s) = some s' ∧
    s.Fetched file s.getblkno s'

section Served
variable {getblk : Option GetblkFunc} {app : AppSource} (hd : Delivery file getblk app)
include hd

theorem Delivery.servesBlocks : ServesBlocks file getblk := by
  intro f hf s blkno hs
  obtain ⟨hfetched, hret⟩ := hd.callback f hf s blkno hs
  have hblk : (f s blkno).1.blksize = s.blksize := by
    rw [hfetched.same]
  refine ⟨hfetched.faithful, hblk, ?_, fun _ => ⟨hfetched.isSome, hfetched.curblkno⟩⟩
  rw [hret]
  exact (Option.some_ne_none _).symm

/-- A block is refused only where there is no function to call. -/
theorem Delivery.delivers :
    Delivers file getblk (Source.Faithful file) fun _ => getblk = none where
  faithful _ hs := hs
  locate _ _ _ hs := hs.congr rfl rfl rfl rfl rfl rfl
  getblk s blkno hs := by
    have hs' : ({ s with getblkno := blkno } : Source).Faithful file :=
      hs.congr rfl rfl rfl rfl rfl rfl
    have hnote : ∀ t : Source, (noteBlock blkno t).cpyoffBlocks = t.cpyoffBlocks ∧
        (noteBlock blkno t).cpyoffBlkoff = t.cpyoffBlkoff ∧
        (noteBlock blkno t).curblkno = t.curblkno := by
      intro t
      unfold noteBlock
      dsimp only
      split_ifs <;> exact ⟨rfl, rfl, rfl⟩
    unfold Xdelta.getblk
    split
    · dsimp only
      cases getblk with
      | none => exact ⟨hs', rfl, rfl, rfl, rfl⟩
      | some f =>
        obtain ⟨hfetched, hret⟩ := hd.callback f rfl { s with getblkno := blkno } blkno hs'
        dsimp only
        generalize f { s with getblkno := blkno } blkno = r at hfetched hret
        obtain ⟨t, ret⟩ := r
        cases hret
        obtain ⟨hblocks, hblkoff, hno⟩ := hnote t
        have hsame := hfetched.same
        dsimp only at hsame
        refine ⟨hfetched.faithful.noteBlock blkno, ?_, ?_, ?_, ?_, hno.trans hfetched.curblkno⟩
        · rw [noteBlock_blksize, hsame]
        · rw [hblocks, hsame]
        · rw [hblkoff, hsame]
        · rw [noteBlock_curblk]
          exact hfetched.isSome
    · rename_i hne
      rw [not_or, not_not] at hne
      obtain ⟨hblocks, hblkoff, hno⟩ := hnote s
      refine ⟨hs.noteBlock blkno, noteBlock_blksize _ _, hblocks, hblkoff, ?_, hno.trans hne.2.symm⟩
      rw [noteBlock_curblk]
      exact Option.isSome_iff_ne_none.mpr hne.1

end Served

namespace Window

/-- A window that is executed, or will be next, with what the header has checked of it. -/
structure Equipped (file : List UInt8) (w : Window) : Prop extends w.Primed file where
  maxpos : w.decMaxpos = w.decCpylen + w.decTgtlen
  below : w.decCpylen + w.decTgtlen < usize.modulus
  offset : w.decCpyoff + w.decCpylen < xoff.modulus
  holdsTarget : w.decTgtlen ≤ w.spaceOut
  within : ∀ h m, (w.half h).type = .cpy m → (w.half h).addr < w.decCpylen →
    usize.add (w.half h).addr (w.half h).size ≤ w.decCpylen

def Located (w : Window) : Prop :=
  ∀ s, w.src = some s → w.decCpylen ≠ 0 →
    s.cpyoffBlocks = w.decCpyoff / s.blksize ∧ s.cpyoffBlkoff = w.decCpyoff % s.blksize

/-- A copy window of the source, unless it is empty, lies inside the source. -/
def Inside (file : List UInt8) (w : Window) : Prop :=
  hasBits w.decWinInd vcdSource = true →
    w.decCpylen = 0 ∨ w.decCpyoff + w.decCpylen ≤ file.length

theorem Equipped.checked {w : Window} (h : w.Equipped file) : ∀ k, (w.half k).Checked w.extent := h.within

theorem Equipped.inside {w : Window} (h : w.Equipped file) (hin : w.Inside file) :
    w.decCpylen = 0 ∨ w.decCpyoff + w.decCpylen ≤ file.length := by
  rcases h.indicated with h0 | hind
  · exact .inl h0
  · exact hin (hasBits_source hind h.target)

theorem Equipped.interpret {w : Window} (h : w.Equipped file) : w.interpret file = w.meaning file :=
  interpret_eq_meaning h.below h.checked file

/-- Another source that holds blocks of the file does as well. -/
theorem Equipped.source {w : Window} (h : w.Equipped file) {s : Source} (hs : s.Faithful file) :
    ({ w with src := some s } : Window).Equipped file := by
  refine ⟨⟨⟨fun k => ?_, fun k => ?_, h.near, h.same⟩, h.emits, h.target, h.indicated, h.buffer,
    h.room, h.space, h.position, h.first, h.second, fun s' hs' => ?_⟩, h.maxpos, h.below, h.offset,
    h.holdsTarget, fun k => ?_⟩
  · have := h.buf_le k
    cases k <;> exact this
  · have := h.max_le k
    cases k <;> exact this
  · cases hs'
    exact hs
  · have := h.within k
    cases k <;> exact this

theorem Equipped.locate {w : Window} (h : w.Equipped file) (hsrc : w.src.isSome = true) :
    ∃ s, locateCopyWindow w = .ok () { w with src := some s } ∧
      ({ w with src := some s } : Window).Equipped file ∧
      ({ w with src := some s } : Window).Located ∧
      (w.Located → w.decCpylen ≠ 0 → w.src = some s) := by
  obtain ⟨s, hs⟩ := Option.isSome_iff_exists.mp hsrc
  have hfaith := h.faithful s hs
  by_cases hsource : hasBits w.decWinInd vcdSource = true
  · have hdiv := hfaith.toShaped.blksizeDiv_eq w.decCpyoff
    refine ⟨{ s with
      cpyoffBlocks := w.decCpyoff / s.blksize
      cpyoffBlkoff := w.decCpyoff % s.blksize }, ?_, ?_, ?_, fun hloc hlen => ?_⟩
    · unfold locateCopyWindow
      rw [if_pos hsource, hs]
      dsimp only
      rw [hdiv]
    · exact h.source (hfaith.congr rfl rfl rfl rfl rfl rfl)
    · intro t ht _
      cases ht
      exact ⟨rfl, rfl⟩
    · obtain ⟨hblocks, hblkoff⟩ := hloc s hs hlen
      rw [hs, ← hblocks, ← hblkoff]
  · have hlen : w.decCpylen = 0 :=
      h.indicated.resolve_right fun hind => hsource (hasBits_source hind h.target)
    have hsame : ({ w with src := some s } : Window) = w := by rw [← hs]
    refine ⟨s, ?_, ?_, fun _ _ hne => absurd hlen hne, fun _ hne => absurd hlen hne⟩
    · rw [hsame]
      exact if_neg hsource
    · rw [hsame]
      exact h

theorem Equipped.placed {w : Window} (h : w.Equipped file) (hl : w.Located) :
    w.Placed (Source.Faithful file) :=
  ⟨h.maxpos, h.below, h.offset, h.holdsTarget, h.faithful, hl, h.within⟩

theorem Equipped.of_sound {w : Window} (hs : w.Sound file) (hp : w.Placed (Source.Faithful file)) :
    w.Equipped file :=
  ⟨hs.toPrimed, hp.maxpos, hp.below, hp.offset, hp.room, hp.within⟩

theorem finished_congr {w w' : Window} (ha : w'.announced = w.announced)
    (hlast : w'.script.last w.extent = w.script.last w.extent) (out : List UInt8) :
    w'.finished out = w.finished out := by
  have hform : ∀ v : Window, v.finished out = { v.announced with
      dataSect := { v.announced.dataSect with buf := v.announced.dataSect.bufMax }
      instSect := { v.announced.instSect with buf := v.announced.instSect.bufMax }
      addrSect := { v.announced.addrSect with buf := v.announced.addrSect.bufMax }
      acache := (v.script.last v.extent).acache
      decPosition := (v.script.last v.extent).position
      out := out } := fun _ => rfl
  rw [hform, hform, ha, extent_of_announced ha, hlast]

end Window

/-- Execution stops at a request: nothing of what the window means is lost. -/
structure Window.Suspends (file : List UInt8) (w w' : Window) : Prop where
  ready : w'.Equipped file
  located : w'.Located
  kit : w'.kit = w.kit
  announced : w'.announced = w.announced
  interpret : w'.interpret file = w.interpret file
  finished : ∀ out, w'.finished out = w.finished out
  asking : w'.Asking
  fresh : w'.load < w.load ∨ ¬(w.Located ∧ w.Armed)
  less : w'.load ≤ w.load

/-- Executing a window ends as interpreting it does, or is suspended. -/
theorem decEmit_refines {env : Env σ} {app : AppSource} (hd : Delivery file env.getblk app)
    {c : Core σ} (h : c.win.Equipped file) (hsrc : c.win.src.isSome = true)
    (hnover : c.win.flags.adler32Nover = true) :
    (decEmit env c).Ends (fun _ _ => False) (fun _ => False) (fun e c' =>
      (e.ret = .output ∧ interpretWindow file c.bare = .stop e c'.bare) ∨
      (e.ret.ordinary = false ∧ (c.win.Inside file → c.win.interpret file = none)) ∨
      (env.getblk = none ∧ e.ret = .getsrcblk ∧
        ∃ w', c' = { c with win := w' } ∧ c.win.Suspends file w')) := by
  obtain ⟨s, hloc, hready, hlocated, hsame⟩ := h.locate hsrc
  have hsound : ({ c.win with src := some s } : Window).Sound file := by
    have hends := locateCopyWindow_ends h.toPrimed
    rw [hloc] at hends
    exact hends
  have hmeans := decodeEmit_means hd.servesBlocks hd.delivers hsound (hready.placed hlocated)
  have hends := decodeEmit_ends hd.servesBlocks hsound
  have hkit := steady_decodeEmit env.getblk _ (rfl : ({ c.win with src := some s } : Window).kit = _)
  have hsrckit : ({ c.win with src := some s } : Window).kit = c.win.kit := by
    unfold Window.kit
    rw [hsrc]
    rfl
  have hinterpret : c.win.interpret file = ({ c.win with src := some s } : Window).meaning file :=
    h.interpret
  unfold decEmit onWindow
  simp only [Routine.zoom_apply, hloc, Outcome.mapState_ok, Outcome.andThen_ok]
  cases he : decodeEmit env.getblk { c.win with src := some s } with
  | starved w' => rw [he] at hmeans; exact hmeans.elim
  | fault => rw [he] at hmeans; exact hmeans.elim
  | ok a w' =>
    rw [he] at hmeans hends
    obtain ⟨hout, hannounced, hend, -, hlast⟩ := hmeans
    have hbare : w'.bare = c.win.finished w'.out :=
      Window.bare_of_done hends.2 hannounced hend hlast
    refine .inl ⟨rfl, ?_⟩
    unfold interpretWindow
    rw [show c.bare.win = c.win.bare from rfl, Window.interpret_bare, hinterpret, hout]
    dsimp only
    rw [Window.finished_bare, ← hbare]
    rfl
  | stop e w' =>
    rw [he] at hmeans hends hkit
    rw [Outcome.mapState_stop, Outcome.andThen_stop]
    have hcount : e.ret ≠ .output → ∀ x : Core σ, countOutput (.stop e x) = .stop e x :=
      countOutput_of_ne
    rcases hmeans with (⟨hp, hask⟩ | ⟨hcode, hnone⟩) | ⟨-, out, -, hmis⟩
    · obtain ⟨_, _, -, hgetblk, -⟩ := hp.refused
      have hret := hask.ret hgetblk
      have hne : e.ret ≠ .output := by
        rw [hret]
        exact Ret.noConfusion
      rw [hcount hne]
      refine .inr (.inr ⟨hgetblk, hret, w', rfl, ?_⟩)
      obtain ⟨hs', -⟩ := hends (by rw [hret]; rfl)
      have hready' := Window.Equipped.of_sound hs' hp.placed
      refine ⟨hready', hp.placed.located, hkit.trans hsrckit, hp.announced, ?_, ?_,
        hask.asking hgetblk, ?_, hask.less⟩
      · rw [hready'.interpret, hp.meaning, hinterpret]
      · exact Window.finished_congr hp.announced hp.last
      · refine (hask.fresh hgetblk).imp id fun hnot harmed => hnot ?_
        obtain ⟨k, -, m, t, -, haddr, -⟩ := hask.asking hgetblk
        have hlen : w'.decCpylen = c.win.decCpylen :=
          (congrArg Window.decCpylen hp.announced :
            w'.announced.decCpylen = c.win.announced.decCpylen)
        have hsrc' := hsame harmed.1 (by omega)
        rw [← hsrc']
        exact harmed.2
    · have hne : e.ret ≠ .output := by
        intro hret
        rw [hret] at hcode
        cases hcode
      rw [hcount hne]
      refine .inr (.inl ⟨hcode, fun hin => ?_⟩)
      rw [hinterpret]
      exact hnone fun i _ => .inr (h.inside hin)
    · have hno := hmis.2.1
      rw [show ({ c.win with src := some s } : Window).flags.adler32Nover = true from hnover] at hno
      cases hno

def Window.segment (w : Window) : (Flags × Bool) × ℕ × ℕ × ℕ :=
  (w.kit, w.decWinInd, w.decCpyoff, w.decCpylen)

@[simp] theorem Window.segment_setSect (w : Window) (k : Sect) (d : Desect) :
    (w.setSect k d).segment = w.segment := by
  cases k <;> rfl

theorem Window.Inside.congr {w w' : Window} (h : w.Inside file) (hs : w'.segment = w.segment) :
    w'.Inside file := by
  simp only [Window.segment, Prod.mk.injEq] at hs
  unfold Window.Inside
  rw [hs.2.1, hs.2.2.1, hs.2.2.2]
  exact h

theorem fillSection_segment (k : Sect) (nstate : DecState) (s : Reader σ) :
    (fillSection k nstate s).Keeps fun s' => s'.core.win.segment = s.core.win.segment := by
  have hclose : ∀ t : Reader σ,
      (closeSection k nstate t).Keeps fun s' => s'.core.win.segment = t.core.win.segment := by
    intro t
    unfold closeSection
    dsimp only
    split
    · rfl
    · exact Window.segment_setSect _ _ _
  have htake : ∀ n, (takeSection k n s).core.win.segment = s.core.win.segment := fun _ =>
    Window.segment_setSect _ _ _
  rw [fillSection_apply]
  split
  · split
    · rfl
    · exact (hclose _).mono (fun _ _ h => h.trans (htake _)) (fun _ h => h.trans (htake _))
        (fun _ _ h => h.trans (htake _))
  · exact hclose s

/-- The three sections are filled, or the input ends before. -/
theorem fillSections_ends {k : Sect} {s : Reader σ} (hs : Holds (Filling k) s)
    (h : Loading Flags.Emits file s.core) :
    (fillSections s).Ends
      (fun _ s' => s'.core.decState = .emit ∧ Loading Flags.Emits file s'.core ∧
        s'.core.win.flags.justHdr = false ∧ s'.core.win.flags.skipWindow = false ∧
        s'.core.win.segment = s.core.win.segment)
      (fun s' => s'.core.win.segment = s.core.win.segment) (fun _ _ => False) := by
  have hfill : ∀ {k : Sect} {t : Reader σ}, Holds (Filling k) t → Loading Flags.Emits file t.core →
      t.core.win.segment = s.core.win.segment →
      (fillSection k k.next t).Ends
        (fun _ s' => Nonempty (Filled k t s') ∧ Loading Flags.Emits file s'.core ∧
          s'.core.win.segment = s.core.win.segment)
        (fun s' => s'.core.win.segment = s.core.win.segment) (fun _ _ => False) := by
    intro k t ht hload hseg
    have h1 := fillSection_ends ht
    have h2 := fillSection_loading ht hload
    have h3 := fillSection_segment k k.next t
    cases hf : fillSection k k.next t with
    | ok a t' => rw [hf] at h1 h2 h3; exact ⟨h1, h2, h3.trans hseg⟩
    | starved t' => rw [hf] at h3; exact h3.trans hseg
    | stop e t' => rw [hf] at h1; exact h1.elim
    | fault => rw [hf] at h1; exact h1.elim
  have hclose : ∀ {k j : Sect}, k.next = j.state → ∀ {s t : Reader σ},
      Nonempty (Filled k s t) → Holds (Filling j) t := by
    rintro k j hk s t ⟨f⟩
    rw [f.eq]
    exact ⟨(f.holds.1.close hk f.full).1, f.holds.2⟩
  have haddr : ∀ {t : Reader σ}, Holds (Filling .addr) t → Loading Flags.Emits file t.core →
      t.core.win.segment = s.core.win.segment →
      (fillFromAddr t).Ends
        (fun _ s' => s'.core.decState = .emit ∧ Loading Flags.Emits file s'.core ∧
          s'.core.win.flags.justHdr = false ∧ s'.core.win.flags.skipWindow = false ∧
          s'.core.win.segment = s.core.win.segment)
        (fun s' => s'.core.win.segment = s.core.win.segment) (fun _ _ => False) := by
    intro t ht hload hseg
    refine (hfill ht hload hseg).mono (fun _ t' hf => ?_) (fun _ h => h) (fun _ _ h => h)
    obtain ⟨⟨f⟩, hload', hseg'⟩ := hf
    have hc : t'.core = closed .addr .emit f.reader.core := congrArg Reader.core f.eq
    have hflags : t'.core.win.flags = f.reader.core.win.flags := by rw [hc]; rfl
    refine ⟨by rw [hc]; rfl, hload', ?_, ?_, hseg'⟩
    · rw [hflags]
      exact f.holds.1.header
    · rw [hflags]
      exact f.holds.1.window
  have hinst : ∀ {t : Reader σ}, Holds (Filling .inst) t → Loading Flags.Emits file t.core →
      t.core.win.segment = s.core.win.segment →
      (fillFromInst t).Ends
        (fun _ s' => s'.core.decState = .emit ∧ Loading Flags.Emits file s'.core ∧
          s'.core.win.flags.justHdr = false ∧ s'.core.win.flags.skipWindow = false ∧
          s'.core.win.segment = s.core.win.segment)
        (fun s' => s'.core.win.segment = s.core.win.segment) (fun _ _ => False) :=
    fun ht hload hseg => (hfill ht hload hseg).andThen fun _ _ hf =>
      haddr (hclose rfl hf.1) hf.2.1 hf.2.2
  unfold fillSections
  rw [hs.1.state_eq]
  cases k with
  | addr => exact haddr hs h rfl
  | inst => exact hinst hs h rfl
  | data => exact (hfill hs h rfl).andThen fun _ _ hf => hinst (hclose rfl hf.1) hf.2.1 hf.2.2

theorem Assembled.equipped {c c' : Core σ} (hp : Assembled file c c') (h : Loading Flags.Emits file c) :
    c'.win.Equipped file ∧ c'.win.segment = c.win.segment := by
  obtain ⟨space, buffer, next, rfl⟩ := hp.same
  refine ⟨⟨hp.primed, h.headed.maxpos, h.headed.below, h.headed.offset, hp.holdsTarget,
    fun k m hm => ?_⟩, rfl⟩
  have hset := h.idle.settled
  cases k with
  | first =>
    have hnoop : c.win.decCurrent1.type = .noop := hset.1
    cases hnoop.symm.trans hm
  | second =>
    have hnoop : c.win.decCurrent2.type = .noop := hset.2
    cases hnoop.symm.trans hm

/-- The section states: the window is equipped then, or passed over. -/
theorem plainSections_ends {s : Reader σ} (hs : Holds Inv s) (h : Safe Flags.Emits file s.core)
    (hst : s.core.decState = .data ∨ s.core.decState = .inst ∨ s.core.decState = .addr) :
    (plainSections s).Ends
      (fun _ s' => s'.core.decState = .emit ∧ s'.core.win.Equipped file ∧
        s'.core.win.segment = s.core.win.segment)
      (fun s' => s'.core.win.segment = s.core.win.segment)
      (fun e s' => e.ret.ordinary = true → e.ret = .output ∧ s'.core.decState = .finish ∧
        s'.core.win.kit = s.core.win.kit) := by
  have hload := loading_of_safe h hst
  cases reading_cases (inv_reading hs.1 hst) with
  | header hj =>
    rw [plainSections, if_pos hj]
    exact fun _ => ⟨rfl, rfl, rfl⟩
  | tooLong hj hf =>
    rw [plainSections, if_neg (by simp [hj]), if_pos hf]
    exact fun ho => absurd ho (by decide)
  | skipping hk =>
    rw [plainSections, if_neg (by simp [hk.header]), if_neg (by simp [hk.total]), if_pos hk.window,
      skipSections_apply s hk.rest]
    split
    · exact fun _ => ⟨rfl, rfl, rfl⟩
    · rfl
  | filling k hk =>
    rw [plainSections, if_neg (by simp [hk.header]), if_neg (by simp [hk.total]),
      if_neg (by simp [hk.window])]
    refine ((fillSections_ends ⟨hk, hs.2⟩ hload).mono (fun _ _ h => h) (fun _ h => h)
      (fun _ _ h => h.elim)).andThen fun _ t hfilled => ?_
    obtain ⟨hstate, hload', hj, hw, hseg⟩ := hfilled
    rw [onCore, Routine.zoom_apply]
    refine Outcome.Ends.mapState ?_
    refine (afterSections_ends (fun _ hf => hf) hstate hload' hj hw).mono (fun _ c' hp => ?_)
      (fun _ h => h.elim) (fun e c' he ho => ?_)
    · obtain ⟨hready, hseg'⟩ := hp.equipped hload'
      obtain ⟨space, buffer, next, hc⟩ := hp.same
      refine ⟨?_, hready, hseg'.trans hseg⟩
      rw [hc]
      exact hstate
    · obtain ⟨hret, -, hfin, hflags, hsrc⟩ := he ho
      refine ⟨hret, hfin, ?_⟩
      have hkit : t.core.win.kit = s.core.win.kit := congrArg Prod.fst hseg
      rw [← hkit]
      change (c'.win.flags, c'.win.src.isSome) = _
      rw [hflags, hsrc]
      rfl

end Xdelta
