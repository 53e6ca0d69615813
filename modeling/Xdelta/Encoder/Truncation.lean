import Xdelta.Encoder.Delta
import Xdelta.Decoder.Progress

/-!
# Truncated deltas

A delta is its file header and its windows, block after block. The decoder given a
prefix that ends inside one of them refuses a block before, or is in the middle of a
header or of the sections when the stream is closed. The close routine goes by the
state alone, and the first state covers three bytes of the magic number.
-/
namespace Xdelta
open Chunked

section Cut
variable {α : Type}

def Cut (bs : List (List α)) (p : List α) : Prop :=
  p <+: bs.flatten ∧ ∀ k, p ≠ (bs.take k).flatten

/-- What ends in the block `b`, before its last byte, or after it inside a later block. -/
def Within (b : List α) (bs : List (List α)) (p : List α) : Prop :=
  (∃ z, z ≠ [] ∧ p ++ z = b) ∨ ∃ q, p = b ++ q ∧ Cut bs q

variable {b c : List α} {bs : List (List α)} {p : List α}

theorem Cut.ne_nil (h : Cut bs p) : p ≠ [] := h.2 0

theorem not_cut_nil : ¬Cut [] p := fun h => h.ne_nil (List.prefix_nil.mp h.1)

theorem Cut.within (h : Cut (b :: bs) p) : Within b bs p := by
  obtain ⟨⟨z, hz⟩, hk⟩ := h
  rw [List.flatten_cons] at hz
  rcases List.append_eq_append_iff.mp hz with ⟨a, hb, -⟩ | ⟨q, hp, hq⟩
  · refine .inl ⟨a, fun ha => hk 1 ?_, hb.symm⟩
    rw [ha, List.append_nil] at hb
    simp only [List.take_succ_cons, List.take_zero, List.flatten_cons, List.flatten_nil,
      List.append_nil, hb]
  · refine .inr ⟨q, hp, ⟨z, hq.symm⟩, fun k hqk => hk (k + 1) ?_⟩
    rw [List.take_succ_cons, List.flatten_cons, hp, hqk]

theorem Within.split (h : Within (b ++ c) bs p) :
    (∃ z, z ≠ [] ∧ p ++ z = b) ∨ ∃ q, p = b ++ q ∧ Within c bs q := by
  rcases h with ⟨z, hz, hp⟩ | ⟨q, hp, hq⟩
  · rcases List.append_eq_append_iff.mp hp with ⟨a, hb, ha⟩ | ⟨q, hq, hc⟩
    · by_cases hnil : a = []
      · subst hnil
        rw [List.append_nil] at hb
        exact .inr ⟨[], by rw [hb, List.append_nil], .inl ⟨z, hz, ha⟩⟩
      · exact .inl ⟨a, hnil, hb.symm⟩
    · exact .inr ⟨q, hq, .inl ⟨z, hz, hc.symm⟩⟩
  · exact .inr ⟨c ++ q, by rw [hp, List.append_assoc], .inr ⟨q, rfl, hq⟩⟩

end Cut

section Midway
variable {σ : Type} {env : Env σ} {app : AppSource}

abbrev windowBytes (ws : List EncodedWindow) : List (List UInt8) := ws.map EncodedWindow.bytes

/-- What is left of the input ends inside one of the windows to come, or inside the
sections that the header just read announces. -/
inductive Ahead (ws : List EncodedWindow) (s : Reader σ) : Prop
  | window (hs : s.core.decState = .winind ∨ s.core.decState = .emit ∨ s.core.decState = .finish)
      (h : Cut (windowBytes ws) s.inp.nextIn)
  | sections (w : EncodedWindow) (hs : s.core.decState = .data) (hbytes : s.core.decWinbytes = 0)
      (hpos : ∀ k, (s.core.win.sect k).pos = 0) (hdata : s.core.win.dataSect.size = w.data.length)
      (hinst : s.core.win.instSect.size = w.inst.length)
      (haddr : s.core.win.addrSect.size = w.addr.length)
      (h : Within w.sections (windowBytes ws) s.inp.nextIn)

structure Midway (ws : List EncodedWindow) (s : Reader σ) : Prop where
  holds : Holds Inv s
  header : s.core.win.flags.justHdr = false
  part : s.inp.dec64part = 0
  ahead : Ahead ws s

/-- How a call on a truncated input ends: it starves where closing is an error, or
returns, and if the code is ordinary the input is still too short. -/
def Lost (o : Outcome (Reader σ) Stop Unit) : Prop :=
  o.Goes (fun _ _ => True) (fun s => closeStream s.core ≠ none)
    fun e s => e.ret.ordinary = true → ∃ ws, Midway ws s

/-- Input that ends early is not noticed before it is exhausted. -/
theorem feed_stop_ne {s s' : Reader σ} (hs : Holds Inv s) {z : List UInt8} (hz : z ≠ []) {e : Stop}
    (hfull : ∀ e t, plainInput env (s.more z) = .stop e t → e.ret.ordinary = true → t.inp.nextIn = [])
    (h : plainInput env s = .stop e s') : e.ret.ordinary = false := by
  have hres := plainInput_resumes env s hs z
  rw [h, Outcome.feed_stop] at hres
  by_contra hne
  have happ := hfull e _ hres (Bool.not_eq_false _ ▸ hne)
  exact hz (List.append_eq_nil_iff.mp happ).2

variable {ws : List EncodedWindow} {s : Reader σ}

theorem plainInput_winind (env : Env σ) {s : Reader σ} (h : s.core.decState = .winind) :
    plainInput env s = fromWinind s := by
  rw [plainInput_waiting env (by rw [h]; decide)]
  unfold decodeHeader
  rw [h]

theorem Midway.winind (hm : Midway ws s) (hst : s.core.decState = .winind)
    (hcut : Cut (windowBytes ws) s.inp.nextIn) : Lost (plainInput env s) := by
  obtain _ | ⟨w, ws⟩ := ws
  · exact (not_cut_nil hcut).elim
  have hrank : s.core.decState.rank ≤ 18 := by
    rw [hst]
    decide
  obtain ⟨F, hF, -, hfacts⟩ := waiting_of_inv hm.holds.1 hrank
  obtain ⟨⟨p, t, d⟩, c⟩ := s
  cases hm.part
  rcases (Cut.within hcut).split with ⟨z, hz, hp⟩ | ⟨q, hp, hq⟩
  · have hfull := w.hdr.decodes w.fits c [] t
    rw [List.append_nil, ← hp] at hfull
    unfold Lost
    cases ho : plainInput env ⟨⟨p, t, 0⟩, c⟩ with
    | ok a s' => trivial
    | fault => trivial
    | starved s' =>
      obtain ⟨F', -, hs'⟩ := plainInput_starved_waiting env hm.holds hrank ho
      rw [plainInput_winind env hst] at ho
      have h10 := fromWinind_starved hcut.ne_nil ho
      have h18 := hs'.1.1.1
      refine closeStream_ne_none (by omega) (fun h9 => ?_) (by omega)
      rw [h9] at h10
      exact absurd h10 (by decide)
    | stop e s' =>
      intro he
      have hno := feed_stop_ne hm.holds hz (fun e t hstop he => ?_) ho
      · rw [hno] at he
        cases he
      · rw [plainInput_winind env (by exact hst)] at hstop
        rcases hfull with ⟨-, t', hfull⟩ | ⟨-, e', t', hfull, hno⟩
        · cases hstop.symm.trans hfull
          rfl
        · cases hstop.symm.trans hfull
          rw [hno] at he
          cases he
  · have hread := w.hdr.decodes w.fits c q t
    rw [← hp] at hread
    unfold Lost
    rcases hread with ⟨-, t', hread⟩ | ⟨-, e, t', hread, hno⟩
    · have hcall := (plainInput_winind env hst).trans hread
      rw [hcall]
      intro he
      have hpaused := plainInput_stop env hm.holds hcall he
      refine ⟨ws, ⟨hpaused.1.1, hpaused.2⟩, hm.header, rfl, ?_⟩
      exact .sections w rfl hfacts.winbytes (fun k => by
        have := hfacts.pos_zero hF k
        cases k <;> exact this) w.dataLen w.instLen w.addrLen hq
    · rw [(plainInput_winind env hst).trans hread]
      intro he
      rw [hno] at he
      cases he

theorem lost_closing {f : Routine (Core σ) Stop Unit} (hf : (f s.core).Prompt)
    (hk : (f s.core).Keeps Closing) (hfl : (f s.core).Keeps fun c => c.win.flags.justHdr = false)
    (hpart : s.inp.dec64part = 0) (hcut : Cut (windowBytes ws) s.inp.nextIn) :
    Lost (onCore f s) := by
  unfold Lost onCore
  rw [Routine.zoom_apply]
  cases ho : f s.core with
  | ok a c => trivial
  | fault => trivial
  | starved c => rw [ho] at hf; exact hf.elim
  | stop e c =>
    rw [ho] at hk hfl
    intro _
    have hlt : s.inp.dec64part < usize.modulus := hpart ▸ usize.modulus_pos
    refine ⟨ws, ⟨inv_of_closing hk, hlt⟩, hfl, hpart, .window ?_ hcut⟩
    rcases hk with h | h
    · exact .inr (.inl h)
    · exact .inr (.inr h.1)

/-- The sum of the sections' lengths is one of a section's length. -/
theorem need_sections {w : EncodedWindow} {v : Window} (hdata : v.dataSect.size = w.data.length)
    (hinst : v.instSect.size = w.inst.length) (haddr : v.addrSect.size = w.addr.length) :
    v.fits = true ∧ v.need = w.sections.length := by
  have htotal := w.total
  have h1 : w.inst.length + w.addr.length < usize.modulus := by omega
  have hadd := usize.add_eq h1
  have hadd' := usize.add_eq htotal
  unfold Window.fits Window.need EncodedWindow.sections
  rw [hdata, hinst, haddr, hadd, hadd']
  have ho : usize.overflow w.inst.length w.addr.length = false := by
    rw [← Bool.not_eq_true, usize.overflow_iff (by omega)]
    omega
  have ho' : usize.overflow (w.inst.length + w.addr.length) w.data.length = false := by
    rw [← Bool.not_eq_true, usize.overflow_iff (by omega)]
    omega
  rw [ho, ho', List.length_append, List.length_append]
  exact ⟨rfl, by omega⟩

/-- Windows are not stopped at as long as the flags stay. -/
private theorem Midway.kit (hm : Midway ws s) {w : Window} (h : w.kit = s.core.win.kit) :
    w.flags.justHdr = false :=
  (congrArg (fun k : Flags × Bool => k.1.justHdr) h).trans hm.header

theorem Midway.sections (hm : Midway ws s) {w : EncodedWindow} (hst : s.core.decState = .data)
    (hbytes : s.core.decWinbytes = 0) (hpos : ∀ k, (s.core.win.sect k).pos = 0)
    (hdata : s.core.win.dataSect.size = w.data.length)
    (hinst : s.core.win.instSect.size = w.inst.length)
    (haddr : s.core.win.addrSect.size = w.addr.length)
    (hin : Within w.sections (windowBytes ws) s.inp.nextIn) : Lost (plainInput env s) := by
  have hread : Reading s.core := inv_reading hm.holds.1 (.inl hst)
  obtain ⟨hfits, hneed⟩ := need_sections hdata hinst haddr
  have hclose : ∀ s' : Reader σ, Reading s'.core → closeStream s'.core ≠ none := by
    intro s' hr
    rcases hr.state with h | h | h <;>
      exact closeStream_ne_none (by rw [h]; decide) (by rw [h]; decide) (by rw [h]; decide)
  cases hw : s.core.win.flags.skipWindow with
  | true =>
    have hskip : Skipping s.core := ⟨hread, hm.header, hw, hfits⟩
    have hrest : usize.sub s.core.win.need s.core.decWinbytes = w.sections.length := by
      rw [hskip.rest, hbytes, hneed, Nat.sub_zero]
    rw [plainInput_skipping env hskip, skipSections_apply s hrest]
    rcases hin with ⟨z, hz, hp⟩ | ⟨q, hp, hq⟩
    · have hlen : s.inp.nextIn.length < w.sections.length := by
        rw [← hp, List.length_append]
        have := List.length_pos_of_ne_nil hz
        omega
      rw [if_neg (Nat.not_le.mpr hlen)]
      exact closeStream_ne_none (by rw [show (passOver _ s).core.decState = .data from hst]; decide)
        (by rw [show (passOver _ s).core.decState = .data from hst]; decide)
        (by rw [show (passOver _ s).core.decState = .data from hst]; decide)
    · rw [if_pos (by rw [hp, List.length_append]; exact Nat.le_add_right _ _)]
      have hdrop : (passOver w.sections.length s).inp.nextIn = q := by
        unfold passOver Input.consume
        rw [hp, List.drop_left]
      exact lost_closing (f := decodeFinishWindow) trivial (keeps_decodeFinishWindow _) hm.header
        hm.part (hdrop ▸ hq)
  | false =>
    have hfill : Filling .data s.core := ⟨hread, hst, hm.header, hw, hfits⟩
    obtain ⟨⟨p, t, d⟩, c⟩ := s
    cases hm.part
    rcases hin with ⟨z, hz, hp⟩ | ⟨q, hp, hq⟩
    · obtain ⟨wb, t', hload⟩ := thenData_load env hpos hdata hinst haddr [] t 0
      unfold Lost
      cases ho : plainInput env ⟨⟨p, t, 0⟩, c⟩ with
      | ok a s' => trivial
      | fault => trivial
      | starved s' =>
        exact hclose s' (plainInput_starved_reading env ⟨hread, hm.holds.2⟩ ho).1.1
      | stop e s' =>
        intro he
        have hno := feed_stop_ne hm.holds hz (fun e r hstop _ => ?_) ho
        · rw [hno] at he
          cases he
        · rw [plainInput_filling env (s := Reader.more ⟨⟨p, t, 0⟩, c⟩ z) (k := .data) hfill] at hstop
          have hmore : (⟨⟨p, t, 0⟩, c⟩ : Reader σ).more z =
              ⟨⟨w.data ++ (w.inst ++ (w.addr ++ [])), t, 0⟩, c⟩ := by
            rw [List.append_nil]
            exact congrArg (fun n => (⟨⟨n, t, 0⟩, c⟩ : Reader σ)) hp
          rw [hmore] at hstop
          have hon := hload.symm.trans hstop
          rw [onCore, Routine.zoom_apply] at hon
          cases hfin : finishSections env { c with
              decState := .emit
              decWinbytes := wb
              win := { c.win with
                dataSect := c.win.dataSect.load w.data
                instSect := c.win.instSect.load w.inst
                addrSect := c.win.addrSect.load w.addr } } with
          | stop e c' => rw [hfin] at hon; cases hon; rfl
          | ok a c' => rw [hfin] at hon; cases hon
          | starved c' => rw [hfin] at hon; cases hon
          | fault => rw [hfin] at hon; cases hon
    · obtain ⟨wb, t', hload⟩ := thenData_load env hpos hdata hinst haddr q t 0
      have hsect : p = w.data ++ (w.inst ++ (w.addr ++ q)) := by
        rw [show p = w.sections ++ q from hp, EncodedWindow.sections]
        simp only [List.append_assoc]
      subst hsect
      rw [plainInput_filling env hfill, show thenFrom env .data = thenData env from rfl, hload]
      exact lost_closing (prompt_finishSections env _) (keeps_finishSections env rfl)
        ((steady_finishSections env rfl).mono (fun _ _ h => hm.kit h) (fun _ h => hm.kit h)
          fun _ _ h => hm.kit h) rfl hq

theorem Midway.call (hm : Midway ws s) : Lost (plainInput env s) := by
  cases hm.ahead with
  | sections w hs hbytes hpos hdata hinst haddr h =>
    exact hm.sections hs hbytes hpos hdata hinst haddr h
  | window hs h =>
    rcases hs with hs | hs | hs
    · exact hm.winind hs h
    · unfold plainInput
      rw [hs]
      exact lost_closing (prompt_decEmit env _) (keeps_decEmit env hs)
        ((steady_decEmit env rfl).mono (fun _ _ h => hm.kit h) (fun _ h => hm.kit h)
          fun _ _ h => hm.kit h) hm.part h
    · have hcall : plainInput env s = onCore decFinish s := by
        unfold plainInput
        rw [hs]
      unfold Lost
      cases ho : plainInput env s with
      | stop e s' =>
        intro he
        have hp := plainInput_stop env hm.holds ho he
        rw [hcall] at ho
        cases ho
        refine ⟨ws, ⟨hp.1.1, hp.2⟩, ?_, hm.part, .window (.inl rfl) h⟩
        have hflags : s.core.win.rotate.flags = s.core.win.flags := by
          unfold Window.rotate
          split_ifs <;> rfl
        exact (congrArg Flags.justHdr hflags).trans hm.header
      | ok a s' => rw [hcall] at ho; cases ho
      | starved s' => rw [hcall] at ho; cases ho
      | fault => rw [hcall] at ho; cases ho

/-- The application's answer to an ordinary code changes neither the input nor the place in it. -/
theorem Midway.answer (hm : Midway ws s) (src : Option Source) (out : List UInt8) :
    Midway ws { s with core := { s.core with win := { s.core.win with src := src, out := out } } } where
  holds := ⟨hm.holds.1.app src out, hm.holds.2⟩
  header := hm.header
  part := hm.part
  ahead := by
    cases hm.ahead with
    | window hs h => exact .window hs h
    | sections w hs hbytes hpos hdata hinst haddr h =>
      exact .sections w hs hbytes (fun k => by
        have := hpos k
        cases k <;> exact this) hdata hinst haddr h

/-- A run on an input that is too short does not end in a clean close. -/
theorem Midway.run (hm : Midway ws s) {tr : List (Event σ)}
    (h : (plainDriver env app).Run s [] tr) : .closed none ∉ tr := by
  generalize hcs : ([] : List (List UInt8)) = cs at h
  induction h generalizing ws with
  | pause => exact List.not_mem_nil
  | supply => cases hcs
  | @finish s s' hc =>
    have hlost : Lost (plainInput env s) := hm.call
    rw [show plainInput env s = .starved s' from hc] at hlost
    intro hmem
    exact hlost (Event.closed.inj (List.mem_singleton.mp hmem)).symm
  | @step s e s' s'' cs tr hc ha hr ih =>
    have hlost : Lost (plainInput env s) := hm.call
    rw [show plainInput env s = .stop e s' from hc] at hlost
    simp only [plainDriver, Reader.answer] at ha
    split at ha
    · rename_i he
      obtain ⟨ws', hm'⟩ := hlost he
      cases ha
      intro hmem
      rcases List.mem_cons.mp hmem with hmem | hmem
      · cases hmem
      · exact ih (hm'.answer _ _) hcs hmem
    · cases ha
  | halt hc ha =>
    intro hmem
    cases List.mem_singleton.mp hmem

/-- A stream that has not begun, and the input that is all it will get. -/
structure Unbegun (s : Reader σ) : Prop where
  holds : Holds Inv s
  header : s.core.win.flags.justHdr = false
  part : s.inp.dec64part = 0
  state : s.core.decState = .vchead
  magic : s.core.decMagic = []
  appheader : s.core.decAppheader = []

theorem Unbegun.call (env : Env σ) {s : Reader σ} (h : Unbegun s) :
    plainInput env s = fromVchead env s := by
  rw [plainInput_waiting env (by rw [h.state]; decide)]
  unfold decodeHeader
  rw [h.state]

theorem Unbegun.headerCut (env : Env σ) {s : Reader σ} (h : Unbegun s) {hdr : FileHdr}
    (hf : hdr.Fits) {z : List UInt8}
    (hz : z ≠ []) (hp : s.inp.nextIn ++ z = hdr.bytes) (hlen : 4 ≤ s.inp.nextIn.length) :
    (plainInput env s).Goes (fun _ _ => True) (fun s => closeStream s.core ≠ none)
      fun e _ => e.ret.ordinary = false := by
  have hrank : s.core.decState.rank ≤ 18 := by
    rw [h.state]
    decide
  have hcall := h.call env
  obtain ⟨⟨p, t, d⟩, c⟩ := s
  cases h.part
  rcases hdr.decodes hf env h.magic h.appheader t with ⟨⟨t', hfull⟩, -⟩ | ⟨-, id, hid, hnone⟩
  · -- the whole header leaves the stream waiting for a window with no input left
    have hwait : plainInput env ((⟨⟨p, t, 0⟩, c⟩ : Reader σ).more z) =
        .starved ⟨⟨[], t', 0⟩, hdr.decoded env c t'⟩ := by
      rw [plainInput_waiting env (s := Reader.more ⟨⟨p, t, 0⟩, c⟩ z) hrank]
      unfold decodeHeader
      rw [show ((⟨⟨p, t, 0⟩, c⟩ : Reader σ).more z).core.decState = .vchead from h.state]
      have hbytes := hfull []
      rw [List.append_nil, ← hp] at hbytes
      exact hbytes
    have hres := plainInput_resumes env _ h.holds z
    rw [hwait] at hres
    cases ho : plainInput env ⟨⟨p, t, 0⟩, c⟩ with
    | ok a s' => trivial
    | fault => trivial
    | stop e s' => rw [ho] at hres; cases hres
    | starved s' =>
      obtain ⟨F, -, hs'⟩ := plainInput_starved_waiting env h.holds hrank ho
      have h18 := hs'.1.1.1
      have h1 := fromVchead_starved env h.magic hlen (hcall ▸ ho)
      refine closeStream_ne_none h1 (fun h9 => ?_) (by omega)
      rw [ho, Outcome.feed_starved, plainInput_winind env (by exact h9)] at hres
      have hin : (s'.more z).inp.nextIn ≠ [] := fun hnil => hz (List.append_eq_nil_iff.mp hnil).2
      exact absurd (fromWinind_starved hin hres.symm) (by decide : ¬10 ≤ DecState.rank .winind)
  · have hrefuse := hdr.refuses env h.magic hid hnone hp hlen t
    rw [hcall]
    cases ho : fromVchead env ⟨⟨p, t, 0⟩, c⟩ with
    | ok a s' => trivial
    | fault => trivial
    | stop e s' => rw [ho] at hrefuse; exact hrefuse
    | starved s' =>
      rw [ho] at hrefuse
      have hr2 : s'.core.decState.rank ≤ 2 := hrefuse
      refine closeStream_ne_none (fromVchead_starved env h.magic hlen ho) (fun h9 => ?_) (by omega)
      rw [h9] at hr2
      exact absurd hr2 (by decide)

/-- A run on a truncated delta does not end in a clean close. -/
theorem Unbegun.run (h : Unbegun s) {hdr : FileHdr} (hf : hdr.Fits)
    (hcut : Cut (hdr.bytes :: windowBytes ws) s.inp.nextIn) (hlen : 4 ≤ s.inp.nextIn.length)
    {tr : List (Event σ)} (hrun : (plainDriver env app).Run s [] tr) : .closed none ∉ tr := by
  rcases hcut.within with ⟨z, hz, hp⟩ | ⟨q, hp, hq⟩
  · have hgoes := h.headerCut env hf hz hp hlen
    cases hrun with
    | pause => exact List.not_mem_nil
    | finish hc =>
      rw [show plainInput env s = _ from hc] at hgoes
      intro hmem
      exact hgoes (Event.closed.inj (List.mem_singleton.mp hmem)).symm
    | step hc ha _ =>
      rw [show plainInput env s = _ from hc] at hgoes
      simp only [plainDriver, Reader.answer] at ha
      rw [if_neg (by rw [show _ = false from hgoes]; decide)] at ha
      cases ha
    | halt hc ha =>
      intro hmem
      cases List.mem_singleton.mp hmem
  · obtain ⟨⟨p, t, d⟩, c⟩ := s
    cases h.part
    have hcall := h.call env
    rcases hdr.decodes hf env h.magic h.appheader t with ⟨⟨t', hfull⟩, -⟩ | ⟨hrefuse, -⟩
    · -- the stream waiting for a window with all of the header read, and no more
      have hinv : Holds Inv (⟨⟨[], t', 0⟩, hdr.decoded env c t'⟩ : Reader σ) := by
        have hheader : Holds Inv (⟨⟨hdr.bytes ++ [], t, 0⟩, c⟩ : Reader σ) := h.holds
        refine (plainInput_starved env hheader ?_).1
        rw [plainInput_waiting env (by rw [h.state]; decide)]
        unfold decodeHeader
        dsimp only
        rw [h.state]
        exact hfull []
      have hm : Midway ws ⟨⟨q, t', 0⟩, hdr.decoded env c t'⟩ :=
        ⟨hinv.more q, h.header, rfl, .window (.inl rfl) hq⟩
      refine hm.run (hrun.congr _ ?_)
      rw [show p = hdr.bytes ++ q from hp] at hcall ⊢
      exact hcall.trans ((hfull q).trans (plainInput_winind env (s := ⟨⟨q, t', 0⟩, _⟩) rfl).symm)
    · obtain ⟨e, s', hstop, he⟩ := hrefuse q
      rw [← show p = hdr.bytes ++ q from hp, ← hcall] at hstop
      cases hrun with
      | pause => exact List.not_mem_nil
      | finish hc => cases hstop.symm.trans hc
      | step hc ha _ =>
        cases hstop.symm.trans hc
        simp only [plainDriver, Reader.answer] at ha
        rw [if_neg (by rw [he]; decide)] at ha
        cases ha
      | halt hc ha =>
        intro hmem
        cases List.mem_singleton.mp hmem

theorem unbegun_initStream {flags : Flags} (hj : flags.justHdr = false) (src : Option Source)
    (p : List UInt8) : Unbegun ((initStream flags src : Stream σ).toReader.more p) where
  holds := (streamInv_initStream flags src).1.more p
  header := hj
  part := rfl
  state := rfl
  magic := rfl
  appheader := rfl

/-- However the input is supplied, no run on it ends with the stream closed without an error. -/
def Detected (env : Env σ) (app : AppSource) (flags : Flags) (src : Option Source)
    (p : List UInt8) : Prop :=
  ∀ (cs : List (List UInt8)) (tr : List (Event σ)), cs.flatten = p →
    (decodeDriver env app).Run (initStream flags src) cs tr → .closed none ∉ tr

/-- A prefix of a delta that ends inside the file header or inside a window. -/
structure Truncates (es : List Encoder) (p : List UInt8) : Prop where
  nonempty : p ≠ []
  isPrefix : p <+: delta es
  header : ∀ e : Encoder, es.head? = some e → p ≠ e.fileHdr.bytes
  window : ∀ k, p ≠ delta (es.take k)

theorem Truncates.cut {e : Encoder} {es : List Encoder} (hes : Flushes (e :: es)) {p : List UInt8}
    (h : Truncates (e :: es) p) :
    ∃ ws : List EncodedWindow, Cut (e.fileHdr.bytes :: windowBytes ws) p := by
  obtain ⟨ws, hws⟩ := hes.blocks
  refine ⟨ws, ?_, fun k => ?_⟩
  · obtain ⟨hk, hlen⟩ := hws es.length
    rw [List.take_of_length_le (by rw [List.length_cons]), List.take_of_length_le (by
      rw [List.length_map, hlen])] at hk
    rw [List.flatten_cons, ← hk]
    exact h.isPrefix
  · match k with
    | 0 => exact h.nonempty
    | 1 =>
      have hhdr := h.header e rfl
      simpa only [List.take_succ_cons, List.take_zero, List.flatten_cons, List.flatten_nil,
        List.append_nil] using hhdr
    | k + 2 =>
      have hwin := h.window (k + 1)
      rw [(hws k).1] at hwin
      rw [List.take_succ_cons, List.flatten_cons]
      exact hwin

/-- With less than the magic number, the stream looks as if nothing had been read. -/
theorem not_detected_short (env : Env σ) (app : AppSource) {flags : Flags}
    (hj : flags.justHdr = false) (src : Option Source) {p : List UInt8} (hlen : p.length < 4) :
    ¬Detected env app flags src p := by
  have hinit : StreamInv (initStream flags src : Stream σ) := streamInv_initStream flags src
  have hstart := unbegun_initStream (σ := σ) hj src p
  obtain ⟨s', hcall, hstate⟩ := fromVchead_short env hstart.magic hlen
  have hclose : s'.closeEvent = .closed none := by
    unfold Reader.closeEvent closeStream
    rw [hstate, hstart.state]
  have hrun : (decodeDriver env app).Run (initStream flags src) [p] [.closed none] := by
    rw [(decodeDriver_projects env app).run_iff hinit,
      (plainDriver_lawful env app).run_flatten hinit.1, List.flatten_singleton, ← hclose]
    exact .finish ((hstart.call env).trans hcall)
  exact fun hdet => hdet [p] _ List.flatten_singleton hrun List.mem_cons_self

/-- Truncation is detected exactly when the magic number is complete. -/
theorem truncates_detected_iff (env : Env σ) (app : AppSource) {flags : Flags}
    (hj : flags.justHdr = false) (src : Option Source) {es : List Encoder} (hes : Flushes es)
    {p : List UInt8} (hp : Truncates es p) : Detected env app flags src p ↔ 4 ≤ p.length := by
  constructor
  · intro hdet
    by_contra hlen
    exact not_detected_short env app hj src (Nat.lt_of_not_le hlen) hdet
  · rintro hlen cs tr rfl hrun
    have hinit : StreamInv (initStream flags src : Stream σ) := streamInv_initStream flags src
    rw [(decodeDriver_projects env app).run_iff hinit,
      (plainDriver_lawful env app).run_flatten hinit.1] at hrun
    obtain _ | ⟨e, es⟩ := es
    · exact absurd (List.prefix_nil.mp hp.isPrefix) hp.nonempty
    · obtain ⟨ws, hcut⟩ := hp.cut hes
      exact (unbegun_initStream hj src cs.flatten).run
        (hes.flushable e List.mem_cons_self).appheader hcut hlen hrun

/-- A stream about to write the one-byte input `a`. -/
def oneByte : Encoder := { nextIn := [97], availIn := 1, data := [97], inst := [2] }

theorem flushes_oneByte : Flushes [oneByte] where
  flushable e he := by
    cases List.mem_singleton.mp he
    refine ⟨rfl, by decide, fun p hp => ?_, by decide, by decide, fun app happ => ?_, by decide⟩
    · cases hp
    · cases happ
  window k e he := by
    match k with
    | 0 => cases he; rfl
    | k + 1 => cases he

theorem delta_oneByte : delta [oneByte] =
    [0xd6, 0xc3, 0xc4, 0x00, 0x00, 0x00, 7, 1, 0, 1, 1, 0, 97, 2] := by
  decide

/-- The file header is 5 bytes long, and the one window ends the delta. -/
theorem truncates_oneByte {p : List UInt8} (h : p ≠ []) (hp : p <+: delta [oneByte])
    (hhdr : p.length ≠ 5) (hwin : p.length ≠ 14) : Truncates [oneByte] p := by
  refine ⟨h, hp, fun e he hpe => ?_, fun k hpk => ?_⟩
  · cases he
    rw [hpe] at hhdr
    exact hhdr (by decide)
  · match k with
    | 0 => exact h hpk
    | k + 1 =>
      rw [List.take_succ_cons, List.take_nil, delta_oneByte] at hpk
      rw [hpk] at hwin
      exact hwin (by decide)

/-- All is there but the one instruction of the window. -/
theorem truncates_detected_iff_section :
    Detected ({} : Env Unit) (fun _ src => src) {} none
      [0xd6, 0xc3, 0xc4, 0x00, 0x00, 0x00, 7, 1, 0, 1, 1, 0, 97] :=
  (truncates_detected_iff {} (fun _ src => src) rfl none flushes_oneByte
    (truncates_oneByte (List.cons_ne_nil _ _) (by rw [delta_oneByte]; decide) (by decide)
      (by decide))).mpr (by decide)

/-- A delta of which one byte has arrived is taken for one that has not begun. -/
theorem truncates_not_detected : Flushes [oneByte] ∧ Truncates [oneByte] [0xd6] ∧
    ¬Detected ({} : Env Unit) (fun _ src => src) {} none [0xd6] := by
  exact ⟨flushes_oneByte, truncates_oneByte (List.cons_ne_nil _ _)
    (by rw [delta_oneByte]; decide) (by decide) (by decide),
    not_detected_short _ _ rfl _ (by decide)⟩

end Midway

end Xdelta
