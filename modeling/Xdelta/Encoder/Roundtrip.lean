import Xdelta.Decoder.Served
import Xdelta.Encoder.Session
import Xdelta.Encoder.Truncation
import Xdelta.Encoder.Acceptance

/-!
# A session, decoded

What encoding a session puts out is decoded to the windows that went in, however it is cut
into chunks and however the blocks of the source are delivered, with the checksums verified
or not.
-/
namespace Xdelta
open Chunked Chunked.Driver Delta

variable {σ : Type} {file : List UInt8}

/-- A decoder that has loaded the sections means the window that they stand for. -/
theorem EncodedWindow.StandsFor.interprets {w : EncodedWindow} {window : List UInt8}
    (h : w.StandsFor file window) {v : Window} (hext : v.extent = w.hdr.extent)
    (hinst : v.instSect.left = w.inst) (haddr : v.addrSect.left = w.addr)
    (hdata : v.dataSect.left = w.data) (hcache : v.acache = .rfc3284)
    (hpos : v.decPosition = w.hdr.srclen) (hset : v.Settled) (hout : v.out = []) :
    v.interpret file = some window := by
  obtain ⟨is, c, p, hreads, -, hmeans⟩ := h.reads
  have hscript : v.script = ⟨w.inst, w.addr, .rfc3284, w.hdr.srclen⟩ := by
    unfold Window.script
    rw [hinst, haddr, hcache, hpos]
  have hread := hreads.read rfl
  have hfirst : (v.half .first).type = .noop := hset.1
  have hsecond : (v.half .second).type = .noop := hset.2
  have hrest : v.rest = is := by
    unfold Window.rest
    rw [Window.remaining_noop hfirst, Window.remaining_noop hsecond, hscript, hext, hread]
    rfl
  have hspot : v.spot = ⟨[], w.data⟩ := by
    unfold Window.spot
    rw [hout, hdata]
  unfold Window.interpret
  rw [hrest, hspot, hscript, hext, hread, if_pos rfl]
  exact interpretAll_of_each hmeans h.tgtLen.symm

def EncodedWindow.shown (w : EncodedWindow) (window : List UInt8) : List Seen :=
  [.started w.hdr.winInd w.hdr.srcbase w.hdr.srclen, .output window, .finished]

section Windows
variable {env : Env σ} {app : AppSource} {k : Flags × Bool} (hsec : ∀ id, env.secondary id = none)
  (hd : Delivery file env.getblk app) (hnone : ∀ ret, app ret none = none) (he : k.1.Emits)
include hsec hd hnone he

theorem EncodedWindow.StandsFor.delivers {w : EncodedWindow} {window : List UInt8}
    (hw : w.StandsFor file window) (hsrc : w.hdr.source.isSome = true → k.2 = true) {c c₁ : Core σ}
    {src : Option Source} {out : List UInt8} (hc : c₁ = { w.hdr.decoded c with
      win := { (w.hdr.decoded c).win with src := src, out := out } })
    {rest : List UInt8} {n : ℕ}
    (hs : Kept file k ⟨⟨w.data ++ (w.inst ++ (w.addr ++ rest)), n, 0⟩, c₁⟩)
    (hpos : ∀ j, (c₁.win.sect j).pos = 0) :
    ∃ tr s' n', (plainDriver env app).Leads
        ⟨⟨w.data ++ (w.inst ++ (w.addr ++ rest)), n, 0⟩, c₁⟩ tr s' ∧
      tr.filterMap Event.seen = [.output window] ∧ Kept file k s' ∧ s'.core.decState = .finish ∧
      s'.inp = ⟨rest, n', 0⟩ ∧ s'.core.decWinstart = c₁.decWinstart ∧
      s'.core.win.decTgtlen = c₁.win.decTgtlen := by
  have hload := loading_of_safe hs.safe (.inl (by rw [hc]; rfl))
  have htarget : hasBits c₁.win.decWinInd vcdTarget = false := by
    rw [hc]
    exact w.hdr.hasBits_winInd_target
  have hdata : c₁.win.dataSect.size = w.data.length := by
    rw [hc]
    exact w.dataLen
  have hinst : c₁.win.instSect.size = w.inst.length := by
    rw [hc]
    exact w.instLen
  have haddr : c₁.win.addrSect.size = w.addr.length := by
    rw [hc]
    exact w.addrLen
  obtain ⟨c', n', space, buffer, next, hcall, hstate, hready, hkit, hstart, hwin⟩ :=
    hs.assembles env (by rw [hc]; rfl) he htarget (need_sections hdata hinst haddr).1 hpos hdata
      hinst haddr
  have hmeant : Meant file window c'.win := by
    have hind : c'.win.decWinInd = w.hdr.winInd := by
      rw [hwin, hc]
      rfl
    refine ⟨hready, fun hsource => ?_, fun hsource => ?_, ?_, fun hbad => ?_⟩
    · rw [hind, w.hdr.hasBits_winInd_source] at hsource
      exact (congrArg Prod.snd hkit).trans (hsrc hsource)
    · have hin := hw.inside
      rw [hwin, hc]
      exact hin
    · refine hw.interprets ?_ ?_ ?_ ?_ ?_ ?_ ?_ ?_
      · rw [hwin, hc]
        rfl
      · rw [hwin]
        exact Desect.left_load _ _
      · rw [hwin]
        exact Desect.left_load _ _
      · rw [hwin]
        exact Desect.left_load _ _
      · have hnear := hload.headed.near
        have hsame := hload.headed.same
        rw [hc] at hnear hsame
        rw [hwin, hc]
        exact AddrCache.init_rfc3284 hnear hsame
      · rw [hwin, hc]
        rfl
      · rw [hwin]
        exact hload.idle.settled
      · rw [hwin]
        exact hload.idle.out
    · obtain ⟨hchecked, -, hne⟩ := hbad
      rw [hind, w.hdr.hasBits_winInd_adler32] at hchecked
      obtain ⟨a, ha⟩ := Option.isSome_iff_exists.mp hchecked
      have hadler : c'.win.decAdler32 = a := by
        rw [hwin, hc]
        unfold WinHdr.decoded
        dsimp only
        rw [ha, Option.getD_some]
      rw [hadler] at hne
      exact hne (hw.adler32 a ha).symm
  obtain ⟨tr, s', hleads, hseen, hdone⟩ := hs.executes hsec hd hnone (c'.win.load + 1) hcall hstate
    hmeant hkit fun w' hw' => Nat.lt_succ_of_le hw'.less
  refine ⟨tr, s', n', hleads, hseen, hdone.toKept, hdone.state, hdone.inp, ?_, ?_⟩
  · exact hdone.winstart.trans hstart
  · refine hdone.tgtlen.trans ?_
    dsimp only
    rw [hwin]

theorem EncodedWindow.StandsFor.leads {w : EncodedWindow} {window : List UInt8}
    (hw : w.StandsFor file window) (hsrc : w.hdr.source.isSome = true → k.2 = true)
    {start : ℕ} (hstart : start < xoff.modulus) {s : Reader σ} (hs : Kept file k s)
    (hrank : s.core.decState.rank ≤ 18) {c : Core σ} (hc : Before start c) (hkit : c.win.kit = k)
    {rest : List UInt8} {t : ℕ}
    (hread : decodeHeader env s = fromWinind ⟨⟨w.bytes ++ rest, t, 0⟩, c⟩) :
    ∃ tr s' n, (plainDriver env app).Leads s tr s' ∧
      tr.filterMap Event.seen = w.shown window ∧ Kept file k s' ∧ s'.core.decState = .winind ∧
      s'.inp = ⟨rest, n, 0⟩ ∧ Before (start + window.length) s'.core := by
  have hbytes : w.bytes ++ rest =
      w.hdr.bytes ++ (w.data ++ (w.inst ++ (w.addr ++ rest))) := by
    unfold EncodedWindow.bytes EncodedWindow.sections
    simp only [List.append_assoc]
  rw [hbytes] at hread
  rcases w.hdr.reported_or_refused w.fits hw.plain hw.copy hw.target hc
      (w.data ++ (w.inst ++ (w.addr ++ rest))) t with ⟨-, t', hstop⟩ | ⟨hnot, -⟩
  swap
  · exact absurd ⟨hstart, hw.tgtLen ▸ hw.hard⟩ hnot
  have hcall : plainInput env s = _ := (plainInput_waiting env hrank).trans (hread.trans hstop)
  have hret : ∀ p : Prop, [Decidable p] →
      (if p then Ret.gotheader else Ret.winstart).ordinary = true := by
    intro p _
    split <;> rfl
  have hpos : ∀ j, ((w.hdr.decoded c).win.sect j).pos = 0 := by
    obtain ⟨F, hF, hwait⟩ := waiting_of_inv hs.holds.1 hrank
    have hends := (from_decodeHeader env F (hF.secondary env)).ends s ⟨hwait, hs.holds.2⟩
    rw [hread, hstop] at hends
    exact (hends (hret _)).1.1.2.pos_zero hF
  obtain ⟨hleads1, hs1⟩ := hs.returns hsec hd hnone hcall (hret _) hkit
  obtain ⟨tr2, s2, n, hleads2, hseen2, hs2, hfin, hinp, hstart2, htgt2⟩ :=
    hw.delivers hsec hd hnone he hsrc rfl hs1 fun j => by
      have := hpos j
      cases j <;> exact this
  have hcall3 : plainInput env s2 = onCore decFinish s2 := by
    unfold plainInput
    rw [hfin]
  obtain ⟨hleads3, hs3⟩ := hs2.returns hsec hd hnone hcall3 rfl ((rotate_kit _).trans hs2.kit)
  refine ⟨_, _, n, hleads1.trans (hleads2.trans hleads3), ?_, hs3, rfl, hinp, ?_⟩
  · have hstarted : (Reader.event ⟨if (w.hdr.decoded c).currentWindow = 0 then .gotheader
        else .winstart, none⟩ ⟨⟨w.data ++ (w.inst ++ (w.addr ++ rest)), t', 0⟩,
          w.hdr.decoded c⟩).seen
          = some (.started w.hdr.winInd w.hdr.srcbase w.hdr.srclen) := by
      split <;> rfl
    rw [List.filterMap_append, List.filterMap_append, hseen2]
    exact congrArg (· ++ [.output window, .finished]) (List.filterMap_cons_some hstarted)
  · have hrotate : s2.core.win.rotate.decTgtlen = s2.core.win.decTgtlen := by
      unfold Window.rotate
      split_ifs <;> rfl
    have hnext := hc.decoded hstart w.hdr
    have hwinstart : s2.core.decWinstart = (w.hdr.decoded c).decWinstart := hstart2
    have htgtlen : s2.core.win.rotate.decTgtlen = (w.hdr.decoded c).win.decTgtlen :=
      hrotate.trans htgt2
    rw [← hw.tgtLen]
    refine ⟨?_, ?_⟩
    · exact hwinstart.trans_lt hnext.winstart
    · dsimp only
      rw [hwinstart, htgtlen]
      exact hnext.sum

def sessionShown (windows : List (List UInt8)) (ws : List EncodedWindow) : List Seen :=
  (List.zipWith (fun window w => w.shown window) windows ws).flatten

theorem StandFor.run {windows : List (List UInt8)} {ws : List EncodedWindow}
    (h : StandFor file windows ws) (hsrc : ∀ w ∈ ws, w.hdr.source.isSome = true → k.2 = true)
    {start : ℕ} (hlimits : WithinLimits start (windows.map List.length)) {s : Reader σ}
    (hs : Kept file k s) (hst : s.core.decState = .winind) (hc : Before start s.core) {n : ℕ}
    (hinp : s.inp = ⟨(ws.map EncodedWindow.bytes).flatten, n, 0⟩) :
    ∃ tr, (plainDriver env app).Run s [] tr ∧
      tr.filterMap Event.seen = sessionShown windows ws ++ [.closed none] := by
  have hrank : s.core.decState.rank ≤ 18 := by
    rw [hst]
    decide
  induction h generalizing start s n with
  | nil =>
    have hcall : plainInput env s = .starved s := by
      obtain ⟨inp, c⟩ := s
      cases hinp
      rw [plainInput_winind env hst]
      rfl
    refine ⟨[s.closeEvent], .finish hcall, ?_⟩
    have hclose : closeStream s.core = none := by
      unfold closeStream
      rw [hst]
    exact congrArg (fun r => [Seen.closed r]) hclose
  | @cons window w windows ws hw _ ih =>
    obtain ⟨hstart, -, hlater⟩ := hlimits
    obtain ⟨inp, c⟩ := s
    cases hinp
    have hread : decodeHeader env (⟨⟨(List.map EncodedWindow.bytes (w :: ws)).flatten, n, 0⟩, c⟩ :
        Reader σ) = fromWinind ⟨⟨w.bytes ++ (ws.map EncodedWindow.bytes).flatten, n, 0⟩, c⟩ :=
      (plainInput_waiting env hrank).symm.trans (plainInput_winind env hst)
    obtain ⟨tr, s', n', hleads, hseen, hs', hst', hinp', hc'⟩ := hw.leads hsec hd hnone he
      (hsrc w List.mem_cons_self) hstart hs hrank hc hs.kit hread
    obtain ⟨tr', hrun, hseen'⟩ := ih (fun w hw => hsrc w (.tail _ hw)) hlater hs' hst' hc' hinp' (by
      rw [hst']
      decide)
    refine ⟨tr ++ tr', hleads _ _ hrun, ?_⟩
    rw [List.filterMap_append, hseen, hseen', ← List.append_assoc]
    rfl

end Windows

/-- The file header and windows that stand for something, cut into any chunks, are decoded. -/
theorem StandFor.decodes {env : Env σ} {app : AppSource} (hsec : ∀ id, env.secondary id = none)
    (hd : Delivery file env.getblk app) (hnone : ∀ ret, app ret none = none) {flags : Flags}
    (hflags : flags.Emits) {src : Option Source} (hsrc : ∀ s, src = some s → s.Faithful file)
    {fileHdr : FileHdr} (hfits : fileHdr.Fits) (hplain : fileHdr.secId = none)
    {windows : List (List UInt8)} {ws : List EncodedWindow} (h : StandFor file windows ws)
    (hne : windows ≠ []) (hneed : ∀ w ∈ ws, w.hdr.source.isSome = true → src.isSome = true)
    (hlimits : WithinLimits 0 (windows.map List.length)) {cs : List (List UInt8)}
    (hcs : cs.flatten = fileHdr.bytes ++ (ws.map EncodedWindow.bytes).flatten) :
    ∃ tr : List (Event σ), (decodeDriver env app).Run (initStream flags src) cs tr ∧
      tr.filterMap Event.seen = sessionShown windows ws ++ [.closed none] := by
  have hstream : StreamInv (initStream flags src : Stream σ) := streamInv_initStream flags src
  suffices hrun : ∃ tr, (plainDriver env app).Run
      ((initStream flags src : Stream σ).toReader.more cs.flatten) [] tr ∧
      tr.filterMap Event.seen = sessionShown windows ws ++ [.closed none] by
    obtain ⟨tr, hrun, hseen⟩ := hrun
    refine ⟨tr, ((decodeDriver_projects env app).run_iff hstream cs tr).mpr ?_, hseen⟩
    exact ((plainDriver_lawful env app).run_flatten hstream.1 cs tr).mpr hrun
  rw [hcs]
  cases h with
  | nil => exact absurd rfl hne
  | @cons window w windows ws hw hlater =>
    have hkept : Kept file (flags, src.isSome) ((initStream flags src : Stream σ).toReader.more
        (fileHdr.bytes ++ (w.bytes ++ (ws.map EncodedWindow.bytes).flatten))) :=
      ⟨hstream.1.more _, safe_initStream flags hsrc, rfl⟩
    rcases fileHdr.decodes hfits env (c := (initStream flags src : Stream σ).core) rfl rfl 0
      with ⟨⟨t, hfile⟩, -⟩ | ⟨-, id, hid, -⟩
    · obtain ⟨tr, s', n, hleads, hseen, hs', hst', hinp', hc'⟩ := hw.leads hsec hd hnone hflags
        (hneed w List.mem_cons_self) xoff.modulus_pos hkept (Nat.zero_le _)
        (c := fileHdr.decoded env (initStream flags src : Stream σ).core t)
        ⟨xoff.modulus_pos, rfl⟩ rfl (hfile _)
      obtain ⟨tr', hrun, hseen'⟩ := StandFor.run hsec hd hnone hflags hlater
        (fun w hw => hneed w (.tail _ hw)) hlimits.2.2 hs' hst' hc' hinp'
      refine ⟨tr ++ tr', hleads _ _ hrun, ?_⟩
      rw [List.filterMap_append, hseen, hseen', ← List.append_assoc]
      rfl
    · cases hplain.symm.trans hid

/-- The output of a session, cut into any chunks, is decoded to the windows that were encoded:
each is announced, delivered with every byte it had, and ended, and the stream is closed without
an error. The application may have a function that reads blocks of the source, or answer requests
for them, and checksums may be verified. -/
theorem session_roundtrip {env : Env σ} {app : AppSource} (hsec : ∀ id, env.secondary id = none)
    (hd : Delivery file env.getblk app) (hnone : ∀ ret, app ret none = none) {flags : Flags}
    (hflags : flags.Emits) {src : Option Source} (hsrc : ∀ s, src = some s → s.Faithful file)
    {e : Encoder} (hpresent : e.src ≠ .null → src.isSome = true) (he : e.Fresh)
    (hfirst : e.currentWindow = 0) {ms : List FoundMatches} (hne : ms ≠ [])
    (hms : ∀ m ∈ ms, m.Valid file) (hnull : e.src = .null → ∀ m ∈ ms, m.maxaddr = 0)
    (hlimits : WithinLimits 0 (ms.map fun m => m.window.length)) :
    ∃ out e' ws, encodeWindows ms e = .ok out e' ∧ StandFor file (ms.map FoundMatches.window) ws ∧
      ∀ cs : List (List UInt8), cs.flatten = out → ∃ tr : List (Event σ),
        (decodeDriver env app).Run (initStream flags src) cs tr ∧
        tr.filterMap Event.seen =
          sessionShown (ms.map FoundMatches.window) ws ++ [.closed none] := by
  obtain ⟨ws, e', hout, hstand, hsource, -⟩ := encodeWindows_standFor he hms hne hnull hfirst
  refine ⟨_, e', ws, hout, hstand, fun cs hcs => hstand.decodes hsec hd hnone hflags hsrc
    he.appheader (Encoder.fileHdr_plain he.secType) ?_ (fun w hw hsome => ?_) ?_ hcs⟩
  · exact fun hnil => hne (List.map_eq_nil_iff.mp hnil)
  · by_contra hno
    have hnull : e.src = .null := by
      by_contra hne
      exact hno (hpresent hne)
    rw [hsource hnull w hw] at hsome
    cases hsome
  · rw [List.map_map]
    exact hlimits

/-- A window that is the source and then the same again, found as two matches. -/
def doubled : FoundMatches where
  window := [104, 105, 106, 107, 104, 105, 106, 107]
  queue := [{ type := .cpy 0, xtra := 1, pos := 0, size := 4 },
    { type := .cpy 0, pos := 4, size := 4 }]
  minaddr := 0
  maxaddr := 4

theorem doubled_valid : doubled.Valid [104, 105, 106, 107] where
  hard := by decide
  queued := ⟨List.forall_mem_cons.mpr ⟨⟨by decide, by decide, by decide⟩,
      List.forall_mem_singleton.mpr ⟨by decide, by decide, by decide⟩⟩,
    List.pairwise_cons.mpr ⟨List.forall_mem_singleton.mpr ⟨by decide, by decide⟩,
      List.pairwise_singleton _ _⟩⟩
  kind := List.forall_mem_cons.mpr ⟨.inr ⟨0, rfl⟩, List.forall_mem_singleton.mpr (.inr ⟨0, rfl⟩)⟩
  within := List.forall_mem_cons.mpr ⟨by decide, List.forall_mem_singleton.mpr (by decide)⟩
  true := List.forall_mem_cons.mpr ⟨by unfold TrueMatch Rinst.Agrees; decide,
    List.forall_mem_singleton.mpr (by unfold TrueMatch Rinst.Agrees; decide)⟩
  source := List.forall_mem_cons.mpr ⟨fun _ _ => by decide,
    List.forall_mem_singleton.mpr fun _ h => absurd rfl h⟩
  target := List.forall_mem_cons.mpr ⟨fun _ h => absurd h (by decide),
    List.forall_mem_singleton.mpr fun _ _ => by decide⟩
  range := by decide
  inside := by decide
  offset := by decide
  room := by decide

def freshEncoder : Encoder := { flags := { adler32 := true }, src := .live (freshSource 0) }

theorem freshEncoder_fresh : freshEncoder.Fresh :=
  ⟨⟨SourceRef.noConfusion, rfl, fun _ _ => rfl, fun h => SourceRef.noConfusion h, rfl, rfl, rfl,
    rfl,
    rfl, rfl, rfl, rfl, by decide, fun _ h => by cases h⟩, rfl⟩

theorem session_roundtrip_doubled : ∃ out e' ws,
    encodeWindows [doubled, doubled] freshEncoder = .ok out e' ∧
      StandFor [104, 105, 106, 107] [doubled.window, doubled.window] ws ∧
      ∀ cs : List (List UInt8), cs.flatten = out → ∃ tr : List (Event Unit),
        (decodeDriver {} (answerRequests [104, 105, 106, 107])).Run
          (initStream {} (some (freshSource 0))) cs tr ∧
        tr.filterMap Event.seen =
          sessionShown [doubled.window, doubled.window] ws ++ [.closed none] := by
  refine session_roundtrip (fun _ => rfl) (delivery_answerRequests _) (fun ret => ?_)
    ⟨rfl, rfl, rfl⟩
    (fun s hs => ?_) (fun _ => rfl) freshEncoder_fresh rfl (List.cons_ne_nil _ _)
    (List.forall_mem_cons.mpr ⟨doubled_valid, List.forall_mem_singleton.mpr doubled_valid⟩)
    (fun h => SourceRef.noConfusion h) (by decide)
  · unfold answerRequests
    split <;> rfl
  · cases hs
    exact freshSource_faithful _ (by decide)

end Xdelta
