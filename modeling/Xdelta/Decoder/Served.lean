import Xdelta.Decoder.Refinement

/-!
# A window that is delivered

A window whose sections mean something, whose copy window lies inside the source and whose
checksum is right is delivered, however many blocks have to be asked for on the way. The
checksum may be verified here, unlike where the decoder is compared with the reference.
-/
namespace Xdelta
open Chunked Chunked.Driver Delta

variable {σ : Type} {file : List UInt8}

theorem Window.Equipped.locates {w : Window} (h : w.Equipped file)
    (hsrc : hasBits w.decWinInd vcdSource = true → w.src.isSome = true) :
    ∃ src : Option Source, locateCopyWindow w = .ok () { w with src := src } ∧
      ({ w with src := src } : Window).Equipped file ∧ ({ w with src := src } : Window).Located ∧
      src.isSome = w.src.isSome ∧ (w.Located → w.decCpylen ≠ 0 → src = w.src) := by
  cases hs : w.src with
  | some s =>
    obtain ⟨s', hloc, hready, hlocated, hsame⟩ := h.locate (by rw [hs]; rfl)
    exact ⟨some s', hloc, hready, hlocated, rfl, fun hl hne => (hsame hl hne).symm.trans hs⟩
  | none =>
    have hsame : ({ w with src := none } : Window) = w := by rw [← hs]
    refine ⟨none, ?_, ?_, fun s h => ?_, rfl, fun _ _ => rfl⟩
    · unfold locateCopyWindow
      rw [if_neg (fun hind => by
        have := hsrc hind
        rw [hs] at this
        cases this), hsame]
    · rw [hsame]
      exact h
    · cases h

theorem decEmit_delivers {env : Env σ} {app : AppSource} (hd : Delivery file env.getblk app)
    {c : Core σ} (h : c.win.Equipped file)
    (hsrc : hasBits c.win.decWinInd vcdSource = true → c.win.src.isSome = true)
    (hin : c.win.Inside file) {out : List UInt8} (hmeans : c.win.interpret file = some out)
    (hsum : ¬c.win.Mismatch out) :
    (decEmit env c).Ends (fun _ _ => False) (fun _ => False) (fun e c' =>
      (e.ret = .output ∧ c'.decState = .finish ∧ c'.win.out = out ∧
        c'.decWinstart = c.decWinstart ∧ c'.win.decTgtlen = c.win.decTgtlen) ∨
      (env.getblk = none ∧ e.ret = .getsrcblk ∧
        ∃ w', c' = { c with win := w' } ∧ c.win.Suspends file w')) := by
  obtain ⟨src, hloc, hready, hlocated, hsome, hsame⟩ := h.locates hsrc
  have hsound : ({ c.win with src := src } : Window).Sound file := by
    have hends := locateCopyWindow_ends h.toPrimed
    rw [hloc] at hends
    exact hends
  have hruns := decodeEmit_means hd.servesBlocks hd.delivers hsound (hready.placed hlocated)
  have hends := decodeEmit_ends hd.servesBlocks hsound
  have hkit := steady_decodeEmit env.getblk _ (rfl : ({ c.win with src := src } : Window).kit = _)
  have hsrckit : ({ c.win with src := src } : Window).kit = c.win.kit := by
    unfold Window.kit
    rw [← hsome]
  have hmeans' : ({ c.win with src := src } : Window).meaning file = some out := by
    rw [← hmeans, h.interpret]
    rfl
  unfold decEmit onWindow
  simp only [Routine.zoom_apply, hloc, Outcome.mapState_ok, Outcome.andThen_ok]
  cases he : decodeEmit env.getblk { c.win with src := src } with
  | starved w' => rw [he] at hruns; exact hruns.elim
  | fault => rw [he] at hruns; exact hruns.elim
  | ok a w' =>
    rw [he, hmeans'] at hruns
    obtain ⟨hout, hannounced, -⟩ := hruns
    have htgt : w'.decTgtlen = c.win.decTgtlen := (congrArg Window.decTgtlen hannounced :
      w'.announced.decTgtlen = ({ c.win with src := src } : Window).announced.decTgtlen)
    exact .inl ⟨rfl, rfl, (Option.some.inj hout).symm, rfl, htgt⟩
  | stop e w' =>
    rw [he] at hruns hends hkit
    rw [Outcome.mapState_stop, Outcome.andThen_stop]
    rcases hruns with (⟨hp, hask⟩ | ⟨-, hnone⟩) | ⟨-, out', hout', hbad⟩
    · obtain ⟨_, _, -, hgetblk, -⟩ := hp.refused
      have hret := hask.ret hgetblk
      have hne : e.ret ≠ .output := by
        rw [hret]
        exact Ret.noConfusion
      rw [countOutput_of_ne hne]
      refine .inr ⟨hgetblk, hret, w', rfl, ?_⟩
      obtain ⟨hs', -⟩ := hends (by rw [hret]; rfl)
      have hready' := Window.Equipped.of_sound hs' hp.placed
      refine ⟨hready', hp.placed.located, hkit.trans hsrckit, hp.announced, ?_, ?_,
        hask.asking hgetblk, ?_, hask.less⟩
      · rw [hready'.interpret, hp.meaning, hmeans', hmeans]
      · exact Window.finished_congr hp.announced hp.last
      · refine (hask.fresh hgetblk).imp id fun hnot harmed => hnot ?_
        obtain ⟨k, -, m, t, -, haddr, -⟩ := hask.asking hgetblk
        have hlen : w'.decCpylen = c.win.decCpylen := (congrArg Window.decCpylen hp.announced :
          w'.announced.decCpylen = c.win.announced.decCpylen)
        rw [hsame harmed.1 (by omega)]
        exact harmed.2
    · rw [hnone fun i _ => .inr (h.inside hin)] at hmeans'
      cases hmeans'
    · cases hmeans'.symm.trans hout'
      exact absurd hbad hsum

/-- What holds between calls: the flags `k.1` stay, and there is a source if `k.2`. -/
structure Kept (file : List UInt8) (k : Flags × Bool) (s : Reader σ) : Prop where
  holds : Holds Inv s
  safe : Safe Flags.Emits file s.core
  kit : s.core.win.kit = k

section Calls
variable {env : Env σ} {app : AppSource} {k : Flags × Bool} (hsec : ∀ id, env.secondary id = none)
  (hd : Delivery file env.getblk app) (hnone : ∀ ret, app ret none = none)
include hsec hd hnone

/-- The answer to an ordinary return: it may change the source, and takes the output. -/
theorem Kept.answered {s s' : Reader σ} {e : Stop} (h : Kept file k s)
    (hc : plainInput env s = .stop e s') (ho : e.ret.ordinary = true) (hkit : s'.core.win.kit = k) :
    Kept file k { s' with core := { s'.core with win := { s'.core.win with
      src := app e.ret s'.core.win.src
      out := if e.ret = .output then [] else s'.core.win.out } } } := by
  have ha := @answer_of_ordinary σ app e ho s'
  have hinv := (plainDriver_lawful env app).inv_react s e s' _ h.holds hc ha
  have hstay := plainInput_stays hsec hd.servesBlocks h.holds h.safe
  rw [hc] at hstay
  obtain ⟨hfaith, hsafe⟩ := hstay ho
  have hsrc : ∀ src : Option Source, src = s'.core.win.src →
      (∀ x, app e.ret src = some x → x.Faithful file) ∧ (app e.ret src).isSome = src.isSome := by
    intro src hs
    cases src with
    | none =>
      rw [hnone]
      exact ⟨fun x hx => absurd hx.symm (Option.some_ne_none x), rfl⟩
    | some x =>
      obtain ⟨x', happ, -, hx'⟩ := hd.keeps e.ret x (hfaith x hs.symm)
      rw [happ]
      refine ⟨fun y hy => ?_, rfl⟩
      cases hy
      exact hx'
  obtain ⟨hfaith', hsome⟩ := hsrc _ rfl
  refine ⟨hinv, hsafe _ hfaith', hkit ▸ ?_⟩
  unfold Window.kit
  rw [hsome]

theorem Kept.returns {s s' : Reader σ} {e : Stop} (h : Kept file k s)
    (hc : plainInput env s = .stop e s') (ho : e.ret.ordinary = true) (hkit : s'.core.win.kit = k) :
    (plainDriver env app).Leads s [s'.event e] { s' with core := { s'.core with win := {
      s'.core.win with
        src := app e.ret s'.core.win.src
        out := if e.ret = .output then [] else s'.core.win.out } } } ∧
    Kept file k { s' with core := { s'.core with win := { s'.core.win with
      src := app e.ret s'.core.win.src
      out := if e.ret = .output then [] else s'.core.win.out } } } :=
  ⟨Leads.call hc (answer_of_ordinary ho s'), h.answered hsec hd hnone hc ho hkit⟩

structure Meant (file : List UInt8) (out : List UInt8) (w : Window) : Prop extends w.Equipped file where
  source : hasBits w.decWinInd vcdSource = true → w.src.isSome = true
  inside : w.Inside file
  means : w.interpret file = some out
  sum : ¬w.Mismatch out

omit hsec hd hnone in
/-- A window that has been suspended means what it did, with any source that is fetched. -/
theorem Meant.suspended {w w' : Window} {out : List UInt8} (h : Meant file out w)
    (hw : w.Suspends file w') {x : Source} (hx : x.Faithful file) :
    Meant file out ({ w' with src := some x, out := w'.out } : Window) := by
  have hann := hw.announced
  have hind : w'.decWinInd = w.decWinInd :=
    (congrArg Window.decWinInd hann : w'.announced.decWinInd = w.announced.decWinInd)
  have hoff : w'.decCpyoff = w.decCpyoff :=
    (congrArg Window.decCpyoff hann : w'.announced.decCpyoff = w.announced.decCpyoff)
  have hlen : w'.decCpylen = w.decCpylen :=
    (congrArg Window.decCpylen hann : w'.announced.decCpylen = w.announced.decCpylen)
  have hadler : w'.decAdler32 = w.decAdler32 :=
    (congrArg Window.decAdler32 hann : w'.announced.decAdler32 = w.announced.decAdler32)
  have hflags : w'.flags = w.flags :=
    (congrArg Window.flags hann : w'.announced.flags = w.announced.flags)
  refine ⟨hw.ready.source hx, fun _ => rfl, fun hs => ?_, hw.interpret.trans h.means, fun hm => ?_⟩
  · have hin := h.inside
    unfold Window.Inside at hin
    rw [← hind, ← hoff, ← hlen] at hin
    exact hin hs
  · refine h.sum ⟨hind ▸ hm.1, hflags ▸ hm.2.1, hadler ▸ hm.2.2⟩

/-- The window of `t` has been delivered, and nothing but it has changed. -/
structure Delivered (file : List UInt8) (k : Flags × Bool) (t s : Reader σ) : Prop
    extends Kept file k s where
  state : s.core.decState = .finish
  inp : s.inp = t.inp
  winstart : s.core.decWinstart = t.core.decWinstart
  tgtlen : s.core.win.decTgtlen = t.core.win.decTgtlen

/-- The window is delivered in the end: each request leaves less than `n` to do. -/
theorem Kept.executes {out : List UInt8} (n : ℕ) {s t : Reader σ} (hs : Kept file k s)
    (hc : plainInput env s = onCore (decEmit env) t) (hstate : t.core.decState = .emit)
    (hm : Meant file out t.core.win) (hkit : t.core.win.kit = k)
    (hless : ∀ w', t.core.win.Suspends file w' → w'.load < n) :
    ∃ tr s', (plainDriver env app).Leads s tr s' ∧ tr.filterMap Event.seen = [.output out] ∧
      Delivered file k t s' := by
  induction n using Nat.strong_induction_on generalizing s t with
  | _ n ih =>
    have hends := decEmit_delivers hd hm.toEquipped hm.source hm.inside hm.means hm.sum
    have hsteady := steady_decEmit env hkit
    have hcall := hc
    rw [onCore, Routine.zoom_apply] at hcall
    cases he : decEmit env t.core with
    | ok a c' => rw [he] at hends; exact hends.elim
    | starved c' => rw [he] at hends; exact hends.elim
    | fault => rw [he] at hends; exact hends.elim
    | stop e c' =>
      rw [he] at hends hsteady hcall
      rcases hends with ⟨hret, hfin, hout, hstart, htgt⟩ | ⟨hgetblk, hret, w', rfl, hw⟩
      · have ho : e.ret.ordinary = true := by
          rw [hret]
          rfl
        obtain ⟨hleads, hkept⟩ := hs.returns hsec hd hnone hcall ho hsteady
        refine ⟨_, _, hleads, ?_, hkept, hfin, rfl, hstart, htgt⟩
        have hseen : (Reader.event e { t with core := c' }).seen = some (.output out) := by
          rw [seen_event (by rw [hret]; exact Ret.noConfusion)]
          unfold seen
          rw [hret, hout]
        exact (List.filterMap_cons_some hseen).trans rfl
      · -- the block that is asked for arms the window
        have ho : e.ret.ordinary = true := by
          rw [hret]
          rfl
        obtain ⟨-, -, -, x, -, -, hx, -⟩ := hw.asking
        obtain ⟨x', happ, hfetched⟩ := hd.answers hgetblk x (hw.ready.faithful x hx)
        obtain ⟨hreturn, hanswer⟩ := hs.returns hsec hd hnone hcall ho (hw.kit.trans hkit)
        dsimp only at hanswer hreturn
        rw [hret, if_neg Ret.noConfusion, hx, happ] at hanswer hreturn
        have harmed : ({ w' with src := some x', out := w'.out } : Window).Armed :=
          hfetched.armed hw.asking hx
        have hlocated : ({ w' with src := some x', out := w'.out } : Window).Located := by
          intro y hy hlen
          cases hy
          obtain ⟨hblocks, hblkoff⟩ := hw.located x hx hlen
          rw [hfetched.same]
          exact ⟨hblocks, hblkoff⟩
        have hagain : ∀ r : Reader σ, Kept file k r → r.core.decState = .emit →
            Meant file out r.core.win →
            (∀ w'', r.core.win.Suspends file w'' → w''.load < w'.load) →
            ∃ tr s', (plainDriver env app).Leads r tr s' ∧
              tr.filterMap Event.seen = [.output out] ∧ Delivered file k r s' := by
          intro r hr hst hmr hload
          have hcr : plainInput env r = onCore (decEmit env) r := by
            unfold plainInput
            rw [hst]
          exact ih w'.load (hless w' hw) hr hcr hst hmr hr.kit hload
        obtain ⟨tr, s', hleads, hseen, hdone⟩ := hagain _ hanswer hstate
          (hm.suspended hw hfetched.faithful) fun w'' hw'' =>
            hw''.fresh.resolve_right fun hnot => hnot ⟨hlocated, harmed⟩
        refine ⟨_, s', hreturn.trans hleads, ?_, hdone.toKept, hdone.state, hdone.inp,
          hdone.winstart, hdone.tgtlen.trans ?_⟩
        · rw [List.filterMap_append, hseen]
          have hhidden : (Reader.event e { t with core := { t.core with win := w' } }).seen = none :=
            if_pos hret
          exact congrArg (· ++ _) (List.filterMap_cons_none hhidden)
        · exact (congrArg Window.decTgtlen hw.announced :
            w'.announced.decTgtlen = t.core.win.announced.decTgtlen)

end Calls

theorem fillSections_load {c : Core σ} (hst : c.decState = .data) {data inst addr : List UInt8}
    (hpos : ∀ k, (c.win.sect k).pos = 0) (hdata : c.win.dataSect.size = data.length)
    (hinst : c.win.instSect.size = inst.length) (haddr : c.win.addrSect.size = addr.length)
    (rest : List UInt8) (t p : ℕ) :
    ∃ wb t', fillSections ⟨⟨data ++ (inst ++ (addr ++ rest)), t, p⟩, c⟩ =
      .ok () ⟨⟨rest, t', p⟩, { c with
        decState := .emit
        decWinbytes := wb
        win := { c.win with
          dataSect := c.win.dataSect.load data
          instSect := c.win.instSect.load inst
          addrSect := c.win.addrSect.load addr } }⟩ := by
  obtain ⟨wb1, h1⟩ := @fillSection_load σ .data .inst c data (hpos .data) hdata
    (inst ++ (addr ++ rest)) t p
  obtain ⟨wb2, h2⟩ := @fillSection_load σ .inst .addr { c with
    decState := .inst
    decWinbytes := wb1
    win := c.win.setSect .data ((c.win.sect .data).load data) } inst (hpos .inst) hinst
    (addr ++ rest) (t + data.length) p
  obtain ⟨wb3, h3⟩ := @fillSection_load σ .addr .emit { c with
    decState := .addr
    decWinbytes := wb2
    win := (c.win.setSect .data ((c.win.sect .data).load data)).setSect .inst
      (((c.win.setSect .data ((c.win.sect .data).load data)).sect .inst).load inst) } addr
    (hpos .addr) haddr rest (t + data.length + inst.length) p
  refine ⟨wb3, t + data.length + inst.length + addr.length, ?_⟩
  unfold fillSections
  dsimp only
  rw [hst]
  dsimp only
  unfold fillFromData fillFromInst fillFromAddr
  rw [Routine.bind_apply, h1, Outcome.andThen_ok, Routine.bind_apply, h2, Outcome.andThen_ok, h3]
  rfl

theorem Desect.left_load (d : Desect) (bytes : List UInt8) : (d.load bytes).left = bytes := by
  unfold Desect.load Desect.left Desect.bytes
  split
  · rename_i hnil
    dsimp only
    rw [hnil, List.drop_take, Nat.sub_self, List.take_zero]
  · dsimp only
    rw [List.take_length, List.drop_zero]

/-- A window that is executed, and copies nothing from the target of the window before, is
assembled once its sections are there. -/
theorem Loading.assembles {c : Core σ} (hst : c.decState = .emit) (h : Loading Flags.Emits file c)
    (he : c.win.flags.Emits) (ht : hasBits c.win.decWinInd vcdTarget = false) :
    ∃ c', afterSections c = .ok () c' ∧ Assembled file c c' := by
  have hends := afterSections_ends (fun _ hf => hf) hst h he.1 he.2.1
  have hok : ∃ c', afterSections c = .ok () c' := by
    unfold afterSections
    rw [decodeSecondarySections_none h.delind, Outcome.andThen_ok,
      if_neg (by rw [he.2.2]; exact Bool.false_ne_true), onWindow, Routine.zoom_apply]
    unfold decodeSetupBuffers
    rw [if_neg (by rw [ht]; exact Bool.false_ne_true)]
    split
    · exact ⟨_, rfl⟩
    · exact ⟨_, rfl⟩
  obtain ⟨c', hc'⟩ := hok
  rw [hc'] at hends
  exact ⟨c', hc', hends⟩

theorem Kept.assembles {k : Flags × Bool} {c : Core σ} {data inst addr rest : List UInt8} {n : ℕ}
    (h : Kept file k ⟨⟨data ++ (inst ++ (addr ++ rest)), n, 0⟩, c⟩) (env : Env σ)
    (hst : c.decState = .data) (he : k.1.Emits) (ht : hasBits c.win.decWinInd vcdTarget = false)
    (hfits : c.win.fits = true) (hpos : ∀ k, (c.win.sect k).pos = 0)
    (hdata : c.win.dataSect.size = data.length) (hinst : c.win.instSect.size = inst.length)
    (haddr : c.win.addrSect.size = addr.length) :
    ∃ (c' : Core σ) (n' space buffer next : ℕ),
      plainInput env ⟨⟨data ++ (inst ++ (addr ++ rest)), n, 0⟩, c⟩ =
        onCore (decEmit env) ⟨⟨rest, n', 0⟩, c'⟩ ∧
      c'.decState = .emit ∧ c'.win.Equipped file ∧ c'.win.kit = k ∧
      c'.decWinstart = c.decWinstart ∧ c'.win = { c.win with
        dataSect := c.win.dataSect.load data
        instSect := c.win.instSect.load inst
        addrSect := c.win.addrSect.load addr
        spaceOut := space
        decBuffer := buffer
        nextOut := next } := by
  have hread : Reading c := inv_reading h.holds.1 (.inl hst)
  have hload := loading_of_safe h.safe (.inl hst)
  have hflags : c.win.flags = k.1 := congrArg Prod.fst h.kit
  have he' : c.win.flags.Emits := hflags ▸ he
  have hfill : Filling .data c := ⟨hread, hst, he'.1, he'.2.1, hfits⟩
  obtain ⟨wb, n', hsect⟩ := fillSections_load hst hpos hdata hinst haddr rest n 0
  have hends := fillSections_ends (k := .data) ⟨hfill, h.holds.2⟩ hload
  rw [hsect] at hends
  obtain ⟨hstate, hload', -⟩ := hends
  obtain ⟨c', hafter, hassembled⟩ := hload'.assembles hstate he' ht
  obtain ⟨hready, hseg⟩ := hassembled.equipped hload'
  obtain ⟨space, buffer, next, hsame⟩ := hassembled.same
  have hplain : plainSections ⟨⟨data ++ (inst ++ (addr ++ rest)), n, 0⟩, c⟩ =
      .ok () ⟨⟨rest, n', 0⟩, c'⟩ := by
    unfold plainSections
    dsimp only
    rw [if_neg (by rw [he'.1]; exact Bool.false_ne_true), hfits, if_neg Bool.true_eq_false.mp,
      if_neg (by rw [he'.2.1]; exact Bool.false_ne_true), hsect, Outcome.andThen_ok, onCore,
      Routine.zoom_apply]
    dsimp only at hafter
    rw [hafter]
    rfl
  refine ⟨c', n', space, buffer, next, ?_, ?_, hready, ?_, ?_, ?_⟩
  · rw [plainInput_reading env hread, hplain, Outcome.andThen_ok]
  · rw [hsame]
  · exact (congrArg Prod.fst hseg).trans h.kit
  · rw [hsame]
  · rw [hsame]

end Xdelta
