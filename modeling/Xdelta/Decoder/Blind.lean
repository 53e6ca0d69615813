import Xdelta.Decoder.Interpret
import Xdelta.Decoder.Load
import Xdelta.Decoder.Chunks

/-!
# What the decoder does not look at

The source and the half instructions that are done matter to no state but the one that
executes a window. Every other routine of the decoder runs alike without them.
-/
namespace Xdelta
open Chunked Delta

variable {σ : Type}

def Hinst.idle (i : Hinst) : Hinst := if i.type = .noop then {} else i

def Window.bare (w : Window) : Window :=
  { w with src := none, decCurrent1 := w.decCurrent1.idle, decCurrent2 := w.decCurrent2.idle }

def Core.bare (c : Core σ) : Core σ := { c with win := c.win.bare }

def Reader.bare (s : Reader σ) : Reader σ := { s with core := s.core.bare }

def Blind {α : Type} (f : Routine (Core σ) Stop α) : Prop :=
  ∀ c, f c.bare = (f c).mapState Core.bare

def BlindIn {α : Type} (f : Dec σ α) : Prop := ∀ s, f s.bare = (f s).mapState Reader.bare

theorem BlindIn.bind {α β : Type} {f : Dec σ α} {k : α → Dec σ β} (hf : BlindIn f)
    (hk : ∀ a, BlindIn (k a)) : BlindIn (f >>= k) := by
  intro s
  rw [Routine.bind_apply, Routine.bind_apply, hf s]
  cases f s with
  | ok a s' => exact hk a s'
  | starved s' => rfl
  | stop e s' => rfl
  | fault => rfl

theorem Blind.bind {α β : Type} {f : Routine (Core σ) Stop α} {k : α → Routine (Core σ) Stop β}
    (hf : Blind f) (hk : ∀ a, Blind (k a)) : Blind (f >>= k) := by
  intro c
  rw [Routine.bind_apply, Routine.bind_apply, hf c]
  cases f c with
  | ok a c' => exact hk a c'
  | starved c' => rfl
  | stop e c' => rfl
  | fault => rfl

theorem Blind.onCore {α : Type} {f : Routine (Core σ) Stop α} (hf : Blind f) :
    BlindIn (onCore f) := by
  intro s
  have h := hf s.core
  rw [Xdelta.onCore, Routine.zoom_apply, Routine.zoom_apply]
  change (f s.core.bare).mapState _ = _
  rw [h]
  cases f s.core <;> rfl

theorem blindIn_onInput {α : Type} (f : Routine Input Stop α) :
    BlindIn (onInput f : Dec σ α) := by
  intro s
  rw [onInput, Routine.zoom_apply, Routine.zoom_apply]
  change (f s.inp).mapState _ = _
  cases f s.inp <;> rfl

theorem BlindIn.ite {α : Type} {e : Core σ → Bool} (he : ∀ c : Core σ, e c.bare = e c)
    {f g : Dec σ α} (hf : BlindIn f) (hg : BlindIn g) :
    BlindIn fun s => if e s.core then f s else g s := by
  intro s
  have h : e s.bare.core = e s.core := he s.core
  dsimp only
  rw [h]
  split
  · exact hf s
  · exact hg s

theorem BlindIn.fieldCase {read : Routine Input Stop ℕ} {expr : Core σ → Bool}
    {put : Core σ → ℕ → Core σ} {nstate : DecState} (he : ∀ c : Core σ, expr c.bare = expr c)
    (hput : ∀ (c : Core σ) v, put c.bare v = (put c v).bare) :
    BlindIn (fieldCase read expr put nstate) := by
  have hread : BlindIn fun s : Reader σ =>
      if expr s.core then (onInput read s).andThen fun v => onCore (Routine.modify (put · v))
      else Outcome.ok () s := by
    refine BlindIn.ite he (f := onInput read >>= fun v => onCore (Routine.modify (put · v)))
      (g := pure ()) ((blindIn_onInput read).bind fun v => Blind.onCore fun c => ?_) fun _ => rfl
    exact congrArg (Outcome.ok ()) (hput c v)
  exact hread.bind fun _ => Blind.onCore fun _ => rfl

theorem BlindIn.decodeBytes {view : Core σ → List UInt8} {put : Core σ → List UInt8 → Core σ}
    {size : Core σ → ℕ} (hview : ∀ c : Core σ, view c.bare = view c)
    (hsize : ∀ c : Core σ, size c.bare = size c)
    (hput : ∀ (c : Core σ) b, put c.bare b = (put c b).bare) :
    BlindIn (decodeBytes view put size) := by
  intro s
  have hv : view s.bare.core = view s.core := hview s.core
  have hs : size s.bare.core = size s.core := hsize s.core
  have hp : ∀ b, put s.bare.core b = (put s.core b).bare := hput s.core
  have hi : s.bare.inp = s.inp := rfl
  unfold Xdelta.decodeBytes
  simp only [hv, hs, hp, hi]
  split <;> rfl

theorem blind_check {p : Core σ → Prop} [DecidablePred p] (hp : ∀ c : Core σ, p c.bare ↔ p c)
    {f g : Routine (Core σ) Stop Unit} (hf : Blind f) (hg : Blind g) :
    Blind fun c => if p c then f c else g c := by
  intro c
  dsimp only
  by_cases h : p c
  · rw [if_pos h, if_pos ((hp c).mpr h)]
    exact hf c
  · rw [if_neg h, if_neg (mt (hp c).mp h)]
    exact hg c

theorem blind_fail (ret : Ret) (msg : String) :
    Blind (fail ret msg : Routine (Core σ) Stop Unit) := fun _ => rfl

theorem blind_decVchead : BlindIn (decVchead : Dec σ Unit) := by
  refine (BlindIn.decodeBytes (fun _ => rfl) (fun _ => rfl) fun _ _ => rfl).bind fun _ =>
    Blind.onCore ?_
  exact blind_check (fun _ => Iff.rfl) (blind_fail _ _)
    (blind_check (fun _ => Iff.rfl) (blind_fail _ _) fun _ => rfl)

theorem blind_decHdrind : BlindIn (decHdrind : Dec σ Unit) := by
  refine (blindIn_onInput _).bind fun v => Blind.onCore fun c => ?_
  dsimp only
  split <;> rfl

theorem blind_decSecondid (env : Env σ) : BlindIn (decSecondid env) := by
  refine BlindIn.ite (e := fun c => hasBits c.decHdrInd vcdSecondary) (fun _ => rfl) (g := pure ())
    (f := fieldCase decodeByte (fun _ => true) (fun c v => { c with decSecondid := v }) .tablen >>=
      fun _ => onCore (selectSecondary env))
    ((BlindIn.fieldCase (fun _ => rfl) fun _ _ => rfl).bind fun _ => Blind.onCore fun c => ?_)
    fun _ => rfl
  have hid : c.bare.decSecondid = c.decSecondid := rfl
  unfold selectSecondary
  rw [hid]
  split
  · rfl
  · split <;> rfl

theorem blind_decTablen : BlindIn (decTablen : Dec σ Unit) := by
  refine (BlindIn.fieldCase (fun _ => rfl) fun _ _ => rfl).bind fun _ => Blind.onCore ?_
  exact blind_check (fun _ => Iff.rfl)
    (blind_check (fun _ => Iff.rfl) (blind_fail _ _) fun _ => rfl) fun _ => rfl

theorem blind_decTabdat : BlindIn (decTabdat : Dec σ Unit) :=
  Blind.onCore (blind_check (fun _ => Iff.rfl) (blind_fail _ _) fun _ => rfl)

theorem blind_decAppdat : BlindIn (decAppdat : Dec σ Unit) := by
  have hread : BlindIn fun s : Reader σ => if hasAppheader s.core then
      if usize.overflow s.core.decAppheadsz 1 then
        fail .invalidInput "exceptional appheader size" s
      else
        decodeBytes (·.decAppheader) (fun c b => { c with decAppheader := b }) (·.decAppheadsz) s
      else Outcome.ok () s := by
    refine BlindIn.ite (g := pure ()) (fun _ => rfl) ?_ fun _ => rfl
    refine BlindIn.ite (e := fun c => usize.overflow c.decAppheadsz 1)
      (f := fail .invalidInput "exceptional appheader size") (fun _ => rfl) (fun _ => rfl) ?_
    exact BlindIn.decodeBytes (fun _ => rfl) (fun _ => rfl) fun _ _ => rfl
  exact hread.bind fun _ _ => rfl

theorem blind_decWinind : BlindIn (decWinind : Dec σ Unit) := by
  refine (blindIn_onInput _).bind fun v => Blind.onCore fun c => ?_
  have hstart : c.bare.decWinstart = c.decWinstart := rfl
  have htgt : c.bare.win.decTgtlen = c.win.decTgtlen := rfl
  dsimp only
  rw [hstart, htgt]
  split
  · rfl
  · split <;> rfl

theorem blind_decCpylen : BlindIn (decCpylen : Dec σ Unit) :=
  (BlindIn.fieldCase (fun _ => rfl) fun _ _ => rfl).bind fun _ => Blind.onCore fun _ => rfl

theorem blind_decCpyoff : BlindIn (decCpyoff : Dec σ Unit) := by
  refine (BlindIn.fieldCase (fun _ => rfl) fun _ _ => rfl).bind fun _ => Blind.onCore ?_
  exact blind_check (fun _ => Iff.rfl) (blind_fail _ _)
    (blind_check (fun _ => Iff.rfl) (blind_fail _ _) fun _ => rfl)

theorem blind_decTgtlen : BlindIn (decTgtlen : Dec σ Unit) := by
  refine (BlindIn.fieldCase (fun _ => rfl) fun _ _ => rfl).bind fun _ => Blind.onCore fun c => ?_
  have hlen : c.bare.win.decCpylen = c.win.decCpylen := rfl
  have htgt : c.bare.win.decTgtlen = c.win.decTgtlen := rfl
  rw [onWindow, Routine.zoom_apply, Routine.zoom_apply, hlen, htgt]
  split
  · rfl
  · split <;> rfl

theorem blind_decDelind : BlindIn (decDelind : Dec σ Unit) := by
  refine (BlindIn.fieldCase (fun _ => rfl) fun _ _ => rfl).bind fun _ => Blind.onCore ?_
  exact blind_check (fun _ => Iff.rfl) (blind_fail _ _)
    (blind_check (fun _ => Iff.rfl) (blind_fail _ _) fun _ => rfl)

theorem blind_decSectlen (k : Sect) (nstate : DecState) :
    BlindIn (decSectlen k nstate : Dec σ Unit) :=
  BlindIn.fieldCase (fun _ => rfl) fun _ _ => by cases k <;> rfl

theorem blind_decCksum : BlindIn (decCksum : Dec σ Unit) := by
  refine BlindIn.bind (BlindIn.ite (fun _ => rfl) (g := pure ())
    (f := decodeBytes (·.decCksum) (fun c b => { c with decCksum := b }) (fun _ => 4) >>= fun _ =>
      onCore (Routine.modify fun c =>
        { c with win := { c.win with decAdler32 := shiftCksum c.win.decAdler32 c.decCksum } }))
    ?_ fun _ => rfl) fun _ => Blind.onCore fun c => ?_
  · exact (BlindIn.decodeBytes (fun _ => rfl) (fun _ => rfl) fun _ _ => rfl).bind fun _ =>
      Blind.onCore fun _ => rfl
  · have hcheck : enclenCheck { c.bare with decState := .data } =
        enclenCheck { c with decState := .data } := rfl
    have hlen : c.bare.decEnclen = c.decEnclen := rfl
    have hwin : c.bare.currentWindow = c.currentWindow := rfl
    unfold reportHeader
    dsimp only
    rw [hcheck, hlen, hwin]
    split
    · rfl
    · split <;> rfl

section Chain
variable (env : Env σ)

theorem blind_fromDatalen : BlindIn (fromDatalen : Dec σ Unit) :=
  (blind_decSectlen _ _).bind fun _ => (blind_decSectlen _ _).bind fun _ =>
    (blind_decSectlen _ _).bind fun _ => blind_decCksum

theorem blind_fromTgtlen : BlindIn (fromTgtlen : Dec σ Unit) :=
  blind_decTgtlen.bind fun _ => blind_decDelind.bind fun _ => blind_fromDatalen

theorem blind_fromEnclen : BlindIn (fromEnclen : Dec σ Unit) :=
  (BlindIn.fieldCase (fun _ => rfl) fun _ _ => rfl).bind fun _ => blind_fromTgtlen

theorem blind_fromCpyoff : BlindIn (fromCpyoff : Dec σ Unit) :=
  blind_decCpyoff.bind fun _ => blind_fromEnclen

theorem blind_fromCpylen : BlindIn (fromCpylen : Dec σ Unit) :=
  blind_decCpylen.bind fun _ => blind_fromCpyoff

theorem blind_fromWinind : BlindIn (fromWinind : Dec σ Unit) :=
  blind_decWinind.bind fun _ => blind_fromCpylen

theorem blind_fromAppdat : BlindIn (fromAppdat : Dec σ Unit) :=
  blind_decAppdat.bind fun _ => blind_fromWinind

theorem blind_fromApplen : BlindIn (fromApplen : Dec σ Unit) :=
  (BlindIn.fieldCase (fun _ => rfl) fun _ _ => rfl).bind fun _ => blind_fromAppdat

theorem blind_fromTabdat : BlindIn (fromTabdat : Dec σ Unit) :=
  blind_decTabdat.bind fun _ => blind_fromApplen

theorem blind_fromSame : BlindIn (fromSame : Dec σ Unit) :=
  (BlindIn.fieldCase (fun _ => rfl) fun _ _ => rfl).bind fun _ => blind_fromTabdat

theorem blind_fromNear : BlindIn (fromNear : Dec σ Unit) :=
  (BlindIn.fieldCase (fun _ => rfl) fun _ _ => rfl).bind fun _ => blind_fromSame

theorem blind_fromTablen : BlindIn (fromTablen : Dec σ Unit) :=
  blind_decTablen.bind fun _ => blind_fromNear

theorem blind_fromSecondid : BlindIn (fromSecondid env) :=
  (blind_decSecondid env).bind fun _ => blind_fromTablen

theorem blind_fromHdrind : BlindIn (fromHdrind env) :=
  blind_decHdrind.bind fun _ => blind_fromSecondid env

theorem blind_decodeHeader : BlindIn (decodeHeader env) := by
  intro s
  have hstate : s.bare.core.decState = s.core.decState := rfl
  unfold decodeHeader
  rw [hstate]
  cases s.core.decState with
  | vchead => exact blind_decVchead.bind (fun _ => blind_fromHdrind env) s
  | hdrind => exact blind_fromHdrind env s
  | secondid => exact blind_fromSecondid env s
  | tablen => exact blind_fromTablen s
  | near => exact blind_fromNear s
  | same => exact blind_fromSame s
  | tabdat => exact blind_fromTabdat s
  | applen => exact blind_fromApplen s
  | appdat => exact blind_fromAppdat s
  | winind => exact blind_fromWinind s
  | cpylen => exact blind_fromCpylen s
  | cpyoff => exact blind_fromCpyoff s
  | enclen => exact blind_fromEnclen s
  | tgtlen => exact blind_fromTgtlen s
  | delind => exact blind_decDelind.bind (fun _ => blind_fromDatalen) s
  | datalen => exact blind_fromDatalen s
  | instlen =>
    exact (blind_decSectlen .inst .addrlen).bind
      (fun _ => (blind_decSectlen .addr .cksum).bind fun _ => blind_decCksum) s
  | addrlen => exact (blind_decSectlen .addr .cksum).bind (fun _ => blind_decCksum) s
  | cksum => exact blind_decCksum s
  | data => rfl
  | inst => rfl
  | addr => rfl
  | emit => rfl
  | finish => rfl
  | aborted => rfl

end Chain

@[simp] theorem Window.sect_bare (w : Window) (k : Sect) : w.bare.sect k = w.sect k := by
  cases k <;> rfl

@[simp] theorem Window.bare_setSect (w : Window) (k : Sect) (d : Desect) :
    w.bare.setSect k d = (w.setSect k d).bare := by
  cases k <;> rfl

theorem Reader.bare_win (s : Reader σ) : s.bare.core.win = s.core.win.bare := rfl

theorem blind_closeSection (k : Sect) (nstate : DecState) :
    BlindIn (closeSection k nstate : Dec σ Unit) := by
  intro s
  unfold closeSection
  dsimp only
  rw [Reader.bare_win, Window.sect_bare]
  split
  · rfl
  · rw [Window.bare_setSect]
    rfl

theorem takeSection_bare (k : Sect) (n : ℕ) (s : Reader σ) :
    takeSection k n s.bare = (takeSection k n s).bare := by
  unfold takeSection
  dsimp only
  rw [Reader.bare_win, Window.sect_bare, Window.bare_setSect]
  rfl

theorem blind_fillSection (k : Sect) (nstate : DecState) :
    BlindIn (fillSection k nstate : Dec σ Unit) := by
  intro s
  have hinp : s.bare.inp = s.inp := rfl
  rw [fillSection_apply, fillSection_apply, takeSection_bare, Reader.bare_win, Window.sect_bare, hinp]
  split
  · split
    · rfl
    · exact blind_closeSection k nstate _
  · exact blind_closeSection k nstate s

theorem blind_fillSections : BlindIn (fillSections : Dec σ Unit) := by
  have hinst : BlindIn (fillFromInst : Dec σ Unit) :=
    (blind_fillSection .inst .addr).bind fun _ => blind_fillSection .addr .emit
  intro s
  have hstate : s.bare.core.decState = s.core.decState := rfl
  unfold fillSections
  rw [hstate]
  split
  · exact (blind_fillSection .data .inst).bind (fun _ => hinst) s
  · exact hinst s
  · exact blind_fillSection .addr .emit s
  · rfl

theorem blind_decodeFinishWindow : Blind (decodeFinishWindow : Routine (Core σ) Stop Unit) :=
  fun _ => rfl

theorem blind_decFinish : Blind (decFinish : Routine (Core σ) Stop Unit) := by
  intro c
  have hrot : c.bare.win.rotate = c.win.rotate.bare := by
    unfold Window.rotate
    change (if hasBits c.win.decWinInd vcdTarget then _ else _) = _
    split
    · change (if c.win.decLastwin = 0 then _ else _) = _
      split <;> rfl
    · rfl
  unfold decFinish
  rw [hrot]
  rfl

theorem blind_decodeSecondarySection (k : Sect) :
    Blind (decodeSecondarySection k : Routine (Core σ) Stop Unit) := by
  intro c
  have hsect : c.bare.win.sect k = c.win.sect k := Window.sect_bare c.win k
  have hset : ∀ d, c.bare.win.setSect k d = (c.win.setSect k d).bare :=
    Window.bare_setSect c.win k
  have hdel : c.bare.decDelInd = c.decDelInd := rfl
  have hsec : c.bare.secType = c.secType := rfl
  have hstream : c.bare.secStream = c.secStream := rfl
  unfold decodeSecondarySection
  rw [hdel]
  split
  · unfold decodeSecondary
    dsimp only
    rw [hsect, hsec, hstream]
    split
    · rfl
    · split
      · rfl
      · rfl
      · split
        · rfl
        · split
          · rfl
          · split
            · rfl
            · split
              · rfl
              · split
                · rfl
                · rw [hset]
                  rfl
  · rfl

theorem blind_decodeSetupBuffers : Blind (onWindow decodeSetupBuffers : Routine (Core σ) Stop Unit) := by
  intro c
  rw [onWindow, Routine.zoom_apply, Routine.zoom_apply]
  unfold decodeSetupBuffers
  change ((if hasBits c.win.decWinInd vcdTarget then _ else _ : Outcome Window Stop Unit)).mapState _ = _
  split
  · rfl
  · change ((if c.win.spaceOut < c.win.decTgtlen then _ else _ : Outcome Window Stop Unit)).mapState _ = _
    split <;> rfl

theorem blind_afterSections : Blind (afterSections : Routine (Core σ) Stop Unit) := by
  have hrest : Blind fun c : Core σ =>
      if c.win.flags.skipEmit then decodeFinishWindow c else onWindow decodeSetupBuffers c := by
    refine blind_check (p := fun c : Core σ => c.win.flags.skipEmit = true) (fun _ => Iff.rfl)
      blind_decodeFinishWindow blind_decodeSetupBuffers
  exact ((blind_decodeSecondarySection .data).bind fun _ =>
    (blind_decodeSecondarySection .inst).bind fun _ => blind_decodeSecondarySection .addr).bind
      fun _ => hrest

theorem Window.fits_bare (w : Window) : w.bare.fits = w.fits :=
  Window.fits_congr fun k => by rw [Window.sect_bare]

theorem Window.need_bare (w : Window) : w.bare.need = w.need :=
  Window.need_congr fun k => by rw [Window.sect_bare]

theorem passOver_bare (n : ℕ) (s : Reader σ) : passOver n s.bare = (passOver n s).bare := rfl

theorem blind_skipSections : BlindIn (skipSections : Dec σ Unit) := by
  intro s
  have hbytes : s.bare.core.decWinbytes = s.core.decWinbytes := rfl
  have hinp : s.bare.inp = s.inp := rfl
  have hmore : usize.sub s.bare.core.win.need s.bare.core.decWinbytes =
      usize.sub s.core.win.need s.core.decWinbytes := by
    rw [Reader.bare_win, Window.need_bare, hbytes]
  generalize hm : usize.sub s.core.win.need s.core.decWinbytes = more at hmore
  rw [skipSections_apply s.bare hmore, skipSections_apply s hm, hinp, passOver_bare]
  split
  · exact blind_decodeFinishWindow.onCore (passOver more s)
  · rw [passOver_bare]
    rfl

theorem blind_plainSections : BlindIn (plainSections : Dec σ Unit) := by
  intro s
  have hflags : s.core.win.bare.flags = s.core.win.flags := rfl
  unfold plainSections
  dsimp only
  rw [Reader.bare_win, Window.fits_bare, hflags]
  split
  · exact blind_decodeFinishWindow.onCore s
  · split
    · rfl
    · split
      · exact blind_skipSections s
      · exact blind_fillSections.bind (fun _ => blind_afterSections.onCore) s

end Xdelta
