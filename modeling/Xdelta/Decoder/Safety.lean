import Xdelta.Decoder.Calls
import Xdelta.Decoder.Emission

/-!
# No call leaves a buffer

Between windows, while a header or the sections are read, and while a window is
executed, the stream keeps enough for the next step to stay in bounds, whatever the
bytes it is fed. There is no secondary compressor, and blocks are served from one file.
Under the flags of `E` the output buffer is the one allocated last.
-/
namespace Xdelta
open Chunked

variable {σ : Type} {E : Flags → Prop} {file : List UInt8}

structure Window.Still (E : Flags → Prop) (file : List UInt8) (w : Window) : Prop where
  buf_le : ∀ k, (w.sect k).buf ≤ (w.sect k).mem.length
  settled : w.Settled
  buffer : E w.flags → w.nextOut = w.decBuffer
  space : E w.flags → w.spaceOut ≤ hardMaxWinsize + allocSize
  faithful : ∀ source, w.src = some source → source.Faithful file

structure Window.Idle (E : Flags → Prop) (file : List UInt8) (w : Window) : Prop extends w.Still E file where
  out : w.out = []

structure Window.Headed (w : Window) : Prop where
  indicated : w.decCpylen = 0 ∨ srcortgt w.decWinInd = true
  position : w.decPosition = w.decCpylen
  tgtlen : w.decTgtlen ≤ hardMaxWinsize
  near : w.acache.sNear = 4
  same : w.acache.sSame = 3
  maxpos : w.decMaxpos = w.decCpylen + w.decTgtlen
  below : w.decCpylen + w.decTgtlen < usize.modulus
  offset : w.decCpyoff + w.decCpylen < xoff.modulus

theorem Window.Headed.setSect {w : Window} (h : w.Headed) (k : Sect) (d : Desect) :
    (w.setSect k d).Headed := by
  cases k <;> exact ⟨h.indicated, h.position, h.tgtlen, h.near, h.same, h.maxpos, h.below, h.offset⟩

/-- Section `k` has been read when the stream is in `state`. -/
def Sect.passed (k : Sect) (state : DecState) : Bool := decide (k.state.rank < state.rank)

/-- Reading the sections: those passed are in place, one in part is as long as its
position says. -/
structure Loading (E : Flags → Prop) (file : List UInt8) (c : Core σ) : Prop where
  sec : c.secType = none
  delind : c.decDelInd = 0
  idle : c.win.Idle E file
  headed : c.win.Headed
  passed : ∀ k, Sect.passed k c.decState = true →
    (c.win.sect k).buf ≤ (c.win.sect k).bufMax ∧
      (c.win.sect k).bufMax ≤ (c.win.sect k).mem.length
  partly : ∀ k, 0 < (c.win.sect k).pos →
    (c.win.sect k).buf = 0 ∧ (c.win.sect k).mem.length = (c.win.sect k).pos

/-- At the end of a window. Windows that copy from the target are not executed, so that
none gets here under flags that have every window executed. -/
structure Ending (E : Flags → Prop) (file : List UInt8) (c : Core σ) : Prop where
  sec : c.secType = none
  still : c.win.Still E file
  target : (∀ f : Flags, E f → f.Emits) → E c.win.flags →
    hasBits c.win.decWinInd vcdTarget = false
  near : c.win.acache.sNear = 4
  same : c.win.acache.sSame = 3

structure Frame.Safe (E : Flags → Prop) (file : List UInt8) (F : Frame) : Prop where
  plain : F.plain = true
  near : F.near = 4
  same : F.same = 3
  idle : F.win.Idle E file

def Safe (E : Flags → Prop) (file : List UInt8) (c : Core σ) : Prop :=
  match c.decState with
  | .data | .inst | .addr => Loading E file c
  | .emit => c.secType = none ∧ c.win.Primed file
  | .finish => Ending E file c ∧ c.win.out = []
  | .aborted => True
  | state => ∃ F : Frame, F.Safe E file ∧ Facts F state.rank c

/-- The invariant after the application's answer to a return, whatever source it leaves. -/
def Answered (E : Flags → Prop) (file : List UInt8) (e : Stop) (c : Core σ) : Prop :=
  (∀ source, c.win.src = some source → source.Faithful file) ∧
  ∀ src : Option Source, (∀ source, src = some source → source.Faithful file) →
    Safe E file { c with win := { c.win with
      src := src
      out := if e.ret = .output then [] else c.win.out } }

abbrev StopsSafely (E : Flags → Prop) (file : List UInt8) (o : Outcome (Core σ) Stop Unit) : Prop :=
  o.Ends (fun _ _ => False) (fun _ => False) (fun e c => e.ret.ordinary = true → Answered E file e c)

theorem Window.Idle.of_kept {w w' : Window} (h : w.kept = w') (hw : w'.Idle E file) :
    w.Idle E file := by
  subst h
  refine ⟨⟨fun k => ?_, hw.settled, hw.buffer, hw.space, hw.faithful⟩, hw.out⟩
  have := hw.buf_le k
  cases k <;> exact this

theorem loading_of_data {F : Frame} (hF : F.Safe E file) {c : Core σ} (h : At F .data c)
    (hpos : ∀ k, (c.win.sect k).pos = 0) : Loading E file c where
  sec := h.2.sec hF.plain
  delind := h.2.delind (by decide) hF.plain
  idle := .of_kept h.2.kept hF.idle
  headed := by
    obtain ⟨hn, hs⟩ := h.2.cache (by decide)
    obtain ⟨hbelow, htgtlen, hmaxpos⟩ := h.2.target (by decide)
    exact ⟨(h.2.cpylen (by decide)).2, h.2.position (by decide), htgtlen, hn.trans hF.near,
      hs.trans hF.same, hmaxpos, hbelow, (h.2.offset (by decide)).2 (by decide)⟩
  passed k hk := by
    rw [h.1] at hk
    cases k <;> exact absurd hk (by decide)
  partly k hk := by
    rw [hpos k] at hk
    exact absurd hk (lt_irrefl 0)

theorem Loading.take {k : Sect} {s : Reader σ} (h : Loading E file s.core)
    (hstate : s.core.decState = k.state) {n : ℕ} (hn : n ≤ s.inp.nextIn.length) :
    Loading E file (takeSection k n s).core := by
  have hbuf := h.idle.buf_le
  have hlen : (s.inp.nextIn.take n).length = n := by rw [List.length_take, Nat.min_eq_left hn]
  have hsect : ∀ j, j ≠ k → (takeSection k n s).core.win.sect j = s.core.win.sect j :=
    fun j hj => Window.sect_setSect_of_ne _ hj _
  have hk : (takeSection k n s).core.win.sect k = _ := Window.sect_setSect s.core.win k _
  refine ⟨h.sec, h.delind, ⟨⟨fun j => ?_, ?_, ?_, ?_, ?_⟩, ?_⟩, ?_, fun j hj => ?_, fun j hj => ?_⟩
  · by_cases hjk : j = k
    · subst hjk
      rw [hk]
      dsimp only
      split
      · exact Nat.zero_le _
      · rw [List.length_append]
        exact Nat.le_add_right_of_le (hbuf j)
    · rw [hsect j hjk]
      exact hbuf j
  · cases k <;> exact h.idle.settled
  · cases k <;> exact h.idle.buffer
  · cases k <;> exact h.idle.space
  · cases k <;> exact h.idle.faithful
  · cases k <;> exact h.idle.out
  · exact h.headed.setSect k _
  · have hjk : j ≠ k := by
      rintro rfl
      have hlt : j.state.rank < s.core.decState.rank := of_decide_eq_true hj
      rw [hstate] at hlt
      exact absurd hlt (lt_irrefl _)
    rw [hsect j hjk]
    exact h.passed j hj
  · by_cases hjk : j = k
    · subst hjk
      have hp := h.partly j
      rw [hk]
      dsimp only
      split
      · rename_i h0
        rw [h0, hlen, Nat.zero_add]
        exact ⟨rfl, rfl⟩
      · rename_i h0
        obtain ⟨hb, hl⟩ := hp (Nat.pos_of_ne_zero h0)
        rw [List.length_append, hlen, hl]
        exact ⟨hb, rfl⟩
    · rw [hsect j hjk] at hj ⊢
      exact h.partly j hj

theorem Loading.close {k : Sect} {c : Core σ} (h : Loading E file c)
    (hstate : c.decState = k.state) (hfull : (c.win.sect k).pos = (c.win.sect k).size) :
    Loading E file (closed k k.next c) := by
  have hsect : ∀ j, j ≠ k → (closed k k.next c).win.sect j = c.win.sect j :=
    fun j hj => Window.sect_setSect_of_ne _ hj _
  have hk : (closed k k.next c).win.sect k = _ := Window.sect_setSect c.win k _
  have hbuf := h.idle.buf_le k
  refine ⟨h.sec, h.delind, ⟨⟨fun j => ?_, ?_, ?_, ?_, ?_⟩, ?_⟩, ?_, fun j hj => ?_, fun j hj => ?_⟩
  · by_cases hjk : j = k
    · subst hjk
      rw [hk]
      exact hbuf
    · rw [hsect j hjk]
      exact h.idle.buf_le j
  · cases k <;> exact h.idle.settled
  · cases k <;> exact h.idle.buffer
  · cases k <;> exact h.idle.space
  · cases k <;> exact h.idle.faithful
  · cases k <;> exact h.idle.out
  · exact h.headed.setSect k _
  · by_cases hjk : j = k
    · subst hjk
      rw [hk]
      dsimp only
      by_cases h0 : (c.win.sect j).size = 0
      · rw [if_neg (not_not_intro h0)]
        exact ⟨le_rfl, hbuf⟩
      · rw [if_pos h0]
        obtain ⟨hb, hl⟩ := h.partly j (by omega)
        omega
    · rw [hsect j hjk]
      refine h.passed j ?_
      have hlt : j.state.rank < k.next.rank := of_decide_eq_true hj
      rw [hstate]
      refine decide_eq_true ?_
      cases j <;> cases k <;> first | exact absurd rfl hjk | exact absurd hlt (by decide) | decide
  · by_cases hjk : j = k
    · subst hjk
      rw [hk] at hj
      exact absurd hj (lt_irrefl 0)
    · rw [hsect j hjk] at hj ⊢
      exact h.partly j hj

/-- Reading a section keeps what is read in place, and starves at worst. -/
theorem fillSection_loading {k : Sect} {s : Reader σ} (hs : Holds (Filling k) s)
    (h : Loading E file s.core) :
    (fillSection k k.next s).Ends (fun _ s' => Loading E file s'.core)
      (fun s' => Loading E file s'.core) (fun _ _ => False) := by
  have hstate := hs.1.state_eq
  rw [fillSection_apply]
  split
  · split
    · exact h
    · have ht := h.take hstate (n := min ((s.core.win.sect k).size - (s.core.win.sect k).pos)
        s.inp.nextIn.length) (Nat.min_le_right _ _)
      generalize hm : takeSection k (min ((s.core.win.sect k).size - (s.core.win.sect k).pos)
        s.inp.nextIn.length) s = t at ht
      have htstate : t.core.decState = k.state := by
        rw [← hm]
        exact hstate
      by_cases hfull : (t.core.win.sect k).pos < (t.core.win.sect k).size
      · rw [closeSection_starved hfull]
        exact ht
      · rw [closeSection_ok hfull]
        refine ht.close htstate (le_antisymm ?_ (Nat.le_of_not_lt hfull))
        rw [← hm]
        simp only [takeSection, Window.sect_setSect]
        omega
  · rename_i hfull
    rw [closeSection_ok hfull]
    exact h.close hstate (le_antisymm (hs.1.pos_le k) (Nat.le_of_not_lt hfull))

theorem hasBits_source {x : ℕ} (h : srcortgt x = true) (ht : hasBits x vcdTarget = false) :
    hasBits x vcdSource = true := by
  have h1 : x &&& 1 = (x &&& 3) &&& 1 := (Nat.land_assoc x 3 1).symm
  have h2 : x &&& 2 = (x &&& 3) &&& 2 := (Nat.land_assoc x 3 2).symm
  simp only [srcortgt, hasBits, vcdSource, vcdTarget, Bool.or_eq_true, beq_iff_eq] at h ht ⊢
  rcases h with h | h
  · rw [h1, h]
    rfl
  · rw [h2, h] at ht
    exact absurd ht (by decide)

/-- A window that ends is delivered and its sections are put back. -/
theorem decodeFinishWindow_stops {c : Core σ} (h : Ending E file c) :
    StopsSafely E file (decodeFinishWindow c) := by
  refine fun _ => ⟨h.still.faithful, fun src hsrc => ?_⟩
  refine ⟨⟨h.sec, ⟨fun k => ?_, h.still.settled, h.still.buffer, h.still.space, hsrc⟩, h.target,
    h.near, h.same⟩, rfl⟩
  have := h.still.buf_le k
  cases k <;> exact this

theorem Window.Sound.still {w : Window} (h : w.Sound file) (hset : w.Settled) : w.Still E file where
  buf_le k := (h.buf_le k).trans (h.max_le k)
  settled := hset
  buffer _ := h.buffer
  space _ := h.space
  faithful := h.faithful

theorem countOutput_stops {c : Core σ} (h : Ending E file c) :
    StopsSafely E file (countOutput (decodeFinishWindow c)) := by
  refine fun _ => ⟨h.still.faithful, fun src hsrc => ?_⟩
  refine ⟨⟨h.sec, ⟨fun k => ?_, h.still.settled, h.still.buffer, h.still.space, hsrc⟩, h.target,
    h.near, h.same⟩, rfl⟩
  have := h.still.buf_le k
  cases k <;> exact this

theorem countOutput_of_ne {e : Stop} (h : e.ret ≠ .output) (c : Core σ) :
    countOutput (.stop e c) = .stop e c := by
  unfold countOutput
  split
  · rename_i heq
    cases heq
    exact absurd rfl h
  · rfl

theorem locateCopyWindow_ends {w : Window} (h : w.Primed file) :
    (locateCopyWindow w).Ends (fun _ w' => w'.Sound file) (fun _ => False)
      (fun e _ => e.ret.ordinary = false) := by
  unfold locateCopyWindow
  split
  · split
    · rfl
    · rename_i source hsrc
      have hf : ({ source with
          cpyoffBlocks := (source.blksizeDiv w.decCpyoff).1
          cpyoffBlkoff := (source.blksizeDiv w.decCpyoff).2 } : Source).Faithful file :=
        (h.faithful source hsrc).congr rfl rfl rfl rfl rfl rfl
      refine ⟨⟨⟨fun k => ?_, fun k => ?_, h.near, h.same⟩, h.emits, h.target, h.indicated, h.buffer,
        h.room, h.space, h.position, h.first, h.second, fun s hs => ?_⟩, fun _ => rfl⟩
      · have := h.buf_le k
        cases k <;> exact this
      · have := h.max_le k
        cases k <;> exact this
      · cases hs
        exact hf
  · rename_i hsource
    refine ⟨h, fun hne => ?_⟩
    exact absurd (hasBits_source (h.indicated.resolve_left hne) h.target) hsource

/-- Executing the window, to its end or to the next request for a block. -/
theorem decEmit_stops {env : Env σ} (henv : ServesBlocks file env.getblk) {c : Core σ}
    (hstate : c.decState = .emit) (hsec : c.secType = none) (h : c.win.Primed file) :
    StopsSafely E file (decEmit env c) := by
  unfold decEmit onWindow
  simp only [Routine.zoom_apply]
  have hloc := locateCopyWindow_ends h
  cases hl : locateCopyWindow c.win with
  | starved w => rw [hl] at hloc; exact hloc.elim
  | fault => rw [hl] at hloc; exact hloc.elim
  | stop e w =>
    rw [hl] at hloc
    exact fun ho => by rw [hloc] at ho; cases ho
  | ok a w =>
    rw [hl] at hloc
    have hemit := decodeEmit_ends henv hloc
    simp only [Outcome.mapState_ok, Outcome.andThen_ok]
    cases he : decodeEmit env.getblk w with
    | starved w' => rw [he] at hemit; exact hemit.elim
    | fault => rw [he] at hemit; exact hemit.elim
    | stop e w' =>
      rw [he] at hemit
      simp only [Outcome.mapState_stop, Outcome.andThen_stop]
      by_cases hout : e.ret = .output
      · exact absurd hout (hemit (by rw [hout]; rfl)).2
      · rw [countOutput_of_ne hout]
        intro ho
        obtain ⟨hs, -⟩ := hemit ho
        refine ⟨hs.faithful, fun src hsrc => ?_⟩
        unfold Safe
        simp only [hstate, if_neg hout]
        refine ⟨hsec, ⟨⟨fun k => ?_, fun k => ?_, hs.near, hs.same⟩, hs.emits, hs.target,
          hs.indicated, hs.buffer, hs.room, hs.space, hs.position, hs.first, hs.second, hsrc⟩⟩
        · have := hs.buf_le k
          cases k <;> exact this
        · have := hs.max_le k
          cases k <;> exact this
    | ok a w' =>
      rw [he] at hemit
      obtain ⟨hs, hset⟩ := hemit
      exact countOutput_stops ⟨hsec, hs.still hset, fun _ _ => hs.target, hs.near, hs.same⟩

/-- Without a secondary compressor the sections are what they are. -/
theorem decodeSecondarySections_none {c : Core σ} (h : c.decDelInd = 0) :
    decodeSecondarySections c = .ok () c := by
  have hone : ∀ k, decodeSecondarySection k c = .ok () c := by
    intro k
    unfold decodeSecondarySection
    rw [h, hasBits, Nat.zero_and]
    rfl
  unfold decodeSecondarySections
  simp only [Routine.bind_apply, hone, Outcome.andThen_ok]

/-- A window that has its sections and a buffer, which may be a new one. -/
structure Assembled (file : List UInt8) (c c' : Core σ) : Prop where
  same : ∃ space buffer next, c' = { c with win := { c.win with
    spaceOut := space, decBuffer := buffer, nextOut := next } }
  holdsTarget : c.win.decTgtlen ≤ c'.win.spaceOut
  primed : c'.win.Primed file

/-- The sections are all in place: the window is skipped over, refused, or assembled. -/
theorem afterSections_ends (hE : ∀ f : Flags, f.Emits → E f) {c : Core σ}
    (hstate : c.decState = .emit) (h : Loading E file c)
    (hj : c.win.flags.justHdr = false) (hw : c.win.flags.skipWindow = false) :
    (afterSections c).Ends (fun _ c' => Assembled file c c') (fun _ => False)
      (fun e c' => e.ret.ordinary = true → e.ret = .output ∧ Answered E file e c' ∧
        c'.decState = .finish ∧ c'.win.flags = c.win.flags ∧ c'.win.src = c.win.src) := by
  unfold afterSections
  rw [decodeSecondarySections_none h.delind, Outcome.andThen_ok]
  split
  · rename_i hskip
    have hend : Ending E file c := by
      refine ⟨h.sec, h.idle.toStill, fun hle he => ?_, h.headed.near, h.headed.same⟩
      exact absurd ((hle _ he).2.2.symm.trans hskip) (by decide)
    exact fun ho => ⟨rfl, decodeFinishWindow_stops hend ho, rfl, rfl, rfl⟩
  · rename_i hskip
    have hemits : c.win.flags.Emits := ⟨hj, hw, Bool.not_eq_true _ ▸ hskip⟩
    have hpass : ∀ k, Sect.passed k c.decState = true := by
      rw [hstate]
      intro k
      cases k <;> decide
    have hcur : c.win.Cursors :=
      ⟨fun k => (h.passed k (hpass k)).1, fun k => (h.passed k (hpass k)).2, h.headed.near,
        h.headed.same⟩
    have hpos : c.win.decPosition ≤ c.win.decCpylen + c.win.out.length +
        (c.win.pending .first + c.win.pending .second) := by
      rw [h.headed.position]
      omega
    have h1 : ∀ m, c.win.decCurrent1.type ≠ .cpy m := fun m hm => by
      rw [h.idle.settled.1] at hm
      cases hm
    have h2 : ∀ m, c.win.decCurrent2.type ≠ .cpy m := fun m hm => by
      rw [h.idle.settled.2] at hm
      cases hm
    have hout : c.win.out.length = 0 := by rw [h.idle.out]; rfl
    rw [onWindow, Routine.zoom_apply]
    unfold decodeSetupBuffers
    split
    · exact fun h => nomatch h
    · rename_i htgt
      have htgt' : hasBits c.win.decWinInd vcdTarget = false := Bool.not_eq_true _ ▸ htgt
      split
      · refine ⟨⟨_, _, _, rfl⟩, le_roundBlksize c.win.decTgtlen allocSize, ⟨⟨fun k => ?_, fun k => ?_, hcur.near,
          hcur.same⟩, hemits, htgt', h.headed.indicated, rfl, ?_, ?_, hpos,
          fun m hm => absurd hm (h1 m), fun m hm => absurd hm (h2 m), h.idle.faithful⟩⟩
        · have := hcur.buf_le k
          cases k <;> exact this
        · have := hcur.max_le k
          cases k <;> exact this
        · dsimp only
          rw [hout]
          exact Nat.zero_le _
        · have hmax : hardMaxWinsize < usize.modulus := by decide
          have htgtlen := h.headed.tgtlen
          have hround : roundBlksize c.win.decTgtlen allocSize ≤ hardMaxWinsize + allocSize :=
            (roundBlksize_le (by omega) _).trans (Nat.add_le_add_right htgtlen _)
          exact hround
      · rename_i hroom
        refine ⟨⟨_, _, _, rfl⟩, Nat.le_of_not_lt hroom, ⟨hcur, hemits, htgt', h.headed.indicated,
          h.idle.buffer (hE _ hemits), ?_, h.idle.space (hE _ hemits), hpos, fun m hm => absurd hm (h1 m),
          fun m hm => absurd hm (h2 m), h.idle.faithful⟩⟩
        rw [hout]
        exact Nat.zero_le _

theorem finishSections_stops (hE : ∀ f : Flags, f.Emits → E f) {env : Env σ}
    (henv : ServesBlocks file env.getblk) {c : Core σ}
    (hstate : c.decState = .emit) (h : Loading E file c) (hj : c.win.flags.justHdr = false)
    (hw : c.win.flags.skipWindow = false) : StopsSafely E file (finishSections env c) := by
  unfold finishSections
  refine ((afterSections_ends hE hstate h hj hw).mono (fun _ _ h => h) (fun _ h => h)
    (fun _ _ h ho => (h ho).2.1)).andThen fun _ c' hp => ?_
  obtain ⟨space, buffer, next, hc⟩ := hp.same
  refine decEmit_stops henv ?_ ?_ hp.primed
  · rw [hc]
    exact hstate
  · rw [hc]
    exact h.sec

theorem safe_of_waiting {F : Frame} (hF : F.Safe E file) {c : Core σ} (h : Waiting F c) :
    Safe E file c := by
  obtain ⟨hr, hf⟩ := h
  unfold Safe
  split
  case h_1 hs => rw [hs] at hr; exact absurd hr (by decide)
  case h_2 hs => rw [hs] at hr; exact absurd hr (by decide)
  case h_3 hs => rw [hs] at hr; exact absurd hr (by decide)
  case h_4 hs => rw [hs] at hr; exact absurd hr (by decide)
  case h_5 hs => rw [hs] at hr; exact absurd hr (by decide)
  case h_6 => trivial
  case h_7 => exact ⟨F, hF, hf⟩

theorem waiting_of_safe {c : Core σ} (h : Safe E file c) (hr : c.decState.rank ≤ 18) :
    ∃ F : Frame, F.Safe E file ∧ Waiting F c := by
  unfold Safe at h
  split at h
  case h_1 hs => rw [hs] at hr; exact absurd hr (by decide)
  case h_2 hs => rw [hs] at hr; exact absurd hr (by decide)
  case h_3 hs => rw [hs] at hr; exact absurd hr (by decide)
  case h_4 hs => rw [hs] at hr; exact absurd hr (by decide)
  case h_5 hs => rw [hs] at hr; exact absurd hr (by decide)
  case h_6 hs => rw [hs] at hr; exact absurd hr (by decide)
  case h_7 =>
    obtain ⟨F, hF, hf⟩ := h
    exact ⟨F, hF, hr, hf⟩

theorem safe_of_loading {c : Core σ} (h : Loading E file c)
    (hs : c.decState = .data ∨ c.decState = .inst ∨ c.decState = .addr) : Safe E file c := by
  unfold Safe
  rcases hs with hs | hs | hs <;> rw [hs] <;> exact h

theorem loading_of_safe {c : Core σ} (h : Safe E file c)
    (hs : c.decState = .data ∨ c.decState = .inst ∨ c.decState = .addr) : Loading E file c := by
  unfold Safe at h
  rcases hs with hs | hs | hs <;> rw [hs] at h <;> exact h

theorem Loading.app {c : Core σ} (h : Loading E file c) {src : Option Source}
    (hsrc : ∀ source, src = some source → source.Faithful file) {out : List UInt8}
    (hout : out = []) : Loading E file { c with win := { c.win with src := src, out := out } } where
  sec := h.sec
  delind := h.delind
  idle := by
    refine ⟨⟨fun k => ?_, h.idle.settled, h.idle.buffer, h.idle.space, hsrc⟩, hout⟩
    have := h.idle.buf_le k
    cases k <;> exact this
  headed := ⟨h.headed.indicated, h.headed.position, h.headed.tgtlen, h.headed.near, h.headed.same,
    h.headed.maxpos, h.headed.below, h.headed.offset⟩
  passed k hk := by
    have := h.passed k hk
    cases k <;> exact this
  partly k hk := by
    have := h.partly k
    cases k <;> exact this hk

abbrev Stays (E : Flags → Prop) (file : List UInt8) (o : Outcome (Reader σ) Stop Unit) : Prop :=
  o.Ends (fun _ _ => False) (fun s => Safe E file s.core)
    (fun e s => e.ret.ordinary = true → Answered E file e s.core)

theorem stays_onCore {f : Routine (Core σ) Stop Unit} {s : Reader σ}
    (h : StopsSafely E file (f s.core)) : Stays E file (onCore f s) := by
  rw [onCore, Routine.zoom_apply]
  refine Outcome.Ends.mapState ?_
  exact h.mono (fun _ _ h => h) (fun _ h => h.elim) (fun _ _ h => h)

theorem thenFrom_stays (hE : ∀ f : Flags, f.Emits → E f) {env : Env σ}
    (henv : ServesBlocks file env.getblk) (k : Sect)
    {s : Reader σ} (hs : Holds (Filling k) s) (h : Loading E file s.core) :
    Stays E file (thenFrom env k s) := by
  have hfill : ∀ {k : Sect} {s : Reader σ}, Holds (Filling k) s → Loading E file s.core →
      (fillSection k k.next s).Ends (fun _ s' => Nonempty (Filled k s s') ∧ Loading E file s'.core)
        (fun s' => Safe E file s'.core)
        (fun e s => e.ret.ordinary = true → Answered E file e s.core) := by
    intro k s hs h
    have h1 := fillSection_ends hs
    have h2 := fillSection_loading hs h
    cases hf : fillSection k k.next s with
    | ok a t => rw [hf] at h1 h2; exact ⟨h1, h2⟩
    | starved t =>
      rw [hf] at h1 h2
      exact safe_of_loading h2 h1.1.1.state
    | stop e t => rw [hf] at h1; exact h1.elim
    | fault => rw [hf] at h1; exact h1.elim
  have haddr : ∀ {s : Reader σ}, Holds (Filling .addr) s → Loading E file s.core →
      Stays E file (thenAddr env s) := by
    intro s hs h
    refine (hfill hs h).andThen fun _ t ⟨⟨f⟩, ht⟩ => ?_
    have hc : t.core = closed .addr .emit f.reader.core := congrArg Reader.core f.eq
    have hflags : t.core.win.flags = f.reader.core.win.flags := by rw [hc]; rfl
    refine stays_onCore (finishSections_stops hE henv (by rw [hc]; rfl) ht ?_ ?_)
    · rw [hflags]
      exact f.holds.1.header
    · rw [hflags]
      exact f.holds.1.window
  have hclose : ∀ {k j : Sect}, k.next = j.state → ∀ {s t : Reader σ},
      Nonempty (Filled k s t) → Holds (Filling j) t := by
    rintro k j hk s t ⟨f⟩
    rw [f.eq]
    exact ⟨(f.holds.1.close hk f.full).1, f.holds.2⟩
  have hinst : ∀ {s : Reader σ}, Holds (Filling .inst) s → Loading E file s.core →
      Stays E file (thenInst env s) :=
    fun hs h => (hfill hs h).andThen fun _ _ ht => haddr (hclose rfl ht.1) ht.2
  cases k with
  | addr => exact haddr hs h
  | inst => exact hinst hs h
  | data => exact (hfill hs h).andThen fun _ _ ht => hinst (hclose rfl ht.1) ht.2

theorem Loading.answered {c : Core σ} (h : Loading E file c)
    (hs : c.decState = .data ∨ c.decState = .inst ∨ c.decState = .addr) (e : Stop) :
    Answered E file e c := by
  refine ⟨h.idle.faithful, fun src hsrc => safe_of_loading (h.app hsrc ?_) hs⟩
  split
  · rfl
  · exact h.idle.out

theorem Loading.ending {c : Core σ} (h : Loading E file c) (hf : ¬c.win.flags.Emits) :
    Ending E file c :=
  ⟨h.sec, h.idle.toStill, fun hle he => absurd (hle _ he) hf, h.headed.near, h.headed.same⟩

theorem safe_of_idle {c : Core σ} (hs : c.decState = .winind) (h0 : c.decWinbytes = 0)
    (hsec : c.secType = none) (hw : c.win.Idle E file) (hnear : c.win.acache.sNear = 4)
    (hsame : c.win.acache.sSame = 3) : Safe E file c := by
  unfold Safe
  rw [hs]
  refine ⟨⟨c.win.kept, 4, 3, true⟩, ⟨rfl, rfl, rfl, ?_⟩, h0, rfl, fun _ => hsec,
    fun h => absurd h (by decide), fun _ => ⟨hnear, hsame⟩, fun h => absurd h (by decide),
    fun h => absurd h (by decide), fun h => absurd h (by decide), fun h => absurd h (by decide),
    fun k hk => by cases k <;> exact absurd hk (by decide), fun h => absurd h (by decide)⟩
  refine ⟨⟨fun k => ?_, hw.settled, hw.buffer, hw.space, hw.faithful⟩, hw.out⟩
  have := hw.buf_le k
  cases k <;> exact this

/-- The buffer kept for `VCD_TARGET` is none, or is the output buffer itself. -/
def Window.KeepsBuffer (w : Window) : Prop :=
  hasBits w.decWinInd vcdTarget = true →
    w.decLastwin = 0 ∨ (w.decLastwin = w.nextOut ∧ w.decLastspace = w.spaceOut)

instance (w : Window) : Decidable w.KeepsBuffer := inferInstanceAs (Decidable (_ → _))

/-- Then the exchange at the end of the window leaves the output buffer in place. -/
theorem Window.KeepsBuffer.rotate {w : Window} (h : w.KeepsBuffer) :
    w.rotate.nextOut = w.nextOut ∧ w.rotate.spaceOut = w.spaceOut := by
  unfold Window.rotate
  split_ifs with hbits hnull
  · exact ⟨rfl, rfl⟩
  · exact (h hbits).resolve_left hnull
  · exact ⟨rfl, rfl⟩

theorem Window.Still.rotate {w : Window} (h : w.Still E file) (hk : E w.flags → w.KeepsBuffer) :
    w.rotate.Still E file := by
  have hflags : w.rotate.flags = w.flags := by
    unfold Window.rotate
    split_ifs <;> rfl
  have hbuffer : w.rotate.decBuffer = w.decBuffer := by
    unfold Window.rotate
    split_ifs <;> rfl
  refine ⟨fun k => rotate_sect w k ▸ h.buf_le k, ?_, fun he => ?_, fun he => ?_, ?_⟩
  · unfold Window.rotate
    split_ifs <;> exact h.settled
  · rw [hflags] at he
    rw [(hk he).rotate.1, hbuffer]
    exact h.buffer he
  · rw [hflags] at he
    rw [(hk he).rotate.2]
    exact h.space he
  · unfold Window.rotate
    split_ifs <;> exact h.faithful

theorem decFinish_stops {c : Core σ} (hrest : Rested c) (h : Ending E file c) (hout : c.win.out = [])
    (hk : E c.win.flags → c.win.KeepsBuffer) : StopsSafely E file (decFinish c) := by
  have hstill := h.still.rotate hk
  refine fun _ => ⟨hstill.faithful, fun src hsrc => ?_⟩
  have hcache : c.win.rotate.acache = c.win.acache := by
    unfold Window.rotate
    split_ifs <;> rfl
  have hout' : c.win.rotate.out = [] := by
    unfold Window.rotate
    split_ifs <;> exact hout
  refine safe_of_idle rfl hrest.1 h.sec ⟨⟨fun k => ?_, hstill.settled, hstill.buffer, hstill.space,
    hsrc⟩, hout'⟩ ((congrArg AddrCache.sNear hcache).trans h.near)
    ((congrArg AddrCache.sSame hcache).trans h.same)
  have := hstill.buf_le k
  cases k <;> exact this

/-- A call of the decoder stays in bounds and keeps the invariant. -/
theorem plainInput_safe (hE : ∀ f : Flags, f.Emits → E f) {env : Env σ}
    (hsec : ∀ id, env.secondary id = none) (henv : ServesBlocks file env.getblk) {s : Reader σ}
    (hs : Holds Inv s) (h : Safe E file s.core)
    (hk : s.core.decState = .finish → E s.core.win.flags → s.core.win.KeepsBuffer) :
    Stays E file (plainInput env s) := by
  rcases state_cases s.core.decState with hst | hst | hst | hst | hst
  · obtain ⟨F, hF, hw⟩ := waiting_of_safe h hst
    have hends := (from_decodeHeader env F (fun _ => hsec)).ends s ⟨hw, hs.2⟩
    have hstop : ∀ e s', plainInput env s = .stop e s' → e.ret.ordinary = true →
        Holds Paused s' := fun _ _ he ho => plainInput_stop env hs he ho
    rw [plainInput_waiting env hst] at hstop ⊢
    cases hd : decodeHeader env s with
    | ok a t => rw [hd] at hends; exact hends
    | starved t => rw [hd] at hends; exact safe_of_waiting hF hends.1.1
    | fault => rw [hd] at hends; exact hends.elim
    | stop e t =>
      rw [hd] at hends
      intro ho
      have hdata := (hends ho).1.1
      have hp := (hstop e t hd ho).1
      have hread := inv_reading hp.1 (.inl hdata.1)
      exact (loading_of_data hF hdata (hp.2 hread)).answered (.inl hdata.1) e
  · have hread := inv_reading hs.1 hst
    have hload := loading_of_safe h hst
    cases reading_cases hread with
    | header hj =>
      have hplain : plainInput env s = onCore decodeFinishWindow s := by
        rw [plainInput_reading env hread, plainSections, if_pos hj]
        rfl
      rw [hplain]
      refine stays_onCore (decodeFinishWindow_stops (hload.ending fun he => ?_))
      exact absurd (he.1.symm.trans hj) (by decide)
    | tooLong hj hf =>
      have hplain : plainInput env s = fail .internal "decoder section size overflow" s := by
        rw [plainInput_reading env hread, plainSections, if_neg (by simp [hj]), if_pos hf]
        rfl
      rw [hplain]
      exact fun h => absurd h (by decide)
    | skipping hk =>
      rw [plainInput_skipping env hk, skipSections_apply s hk.rest]
      have hpass : ∀ n, Loading E file (passOver n s).core := fun n =>
        ⟨hload.sec, hload.delind, hload.idle, hload.headed, hload.passed, hload.partly⟩
      split
      · have hfin : Stays E file (onCore decodeFinishWindow
            (passOver (s.core.win.need - s.core.decWinbytes) s)) := by
          refine stays_onCore (decodeFinishWindow_stops ((hpass _).ending fun he => ?_))
          exact absurd (he.2.1.symm.trans hk.window) (by decide)
        exact hfin.andThen fun _ _ hf => hf.elim
      · exact safe_of_loading (hpass _) hst
    | filling k hk =>
      rw [plainInput_filling env hk]
      exact thenFrom_stays hE henv k ⟨hk, hs.2⟩ hload
  · have hsafe := h
    unfold Safe at hsafe
    rw [hst] at hsafe
    unfold plainInput
    rw [hst]
    exact stays_onCore (decEmit_stops henv hst hsafe.1 hsafe.2)
  · have hsafe := h
    have hinv := hs.1
    unfold Safe at hsafe
    unfold Inv at hinv
    rw [hst] at hsafe hinv
    unfold plainInput
    rw [hst]
    exact stays_onCore (decFinish_stops hinv hsafe.1 hsafe.2 (hk hst))
  · unfold plainInput decodeHeader
    simp only [hst]
    exact fun h => absurd h (by decide)

/-- The application sets no source, and leaves none, but those that hold blocks of `file`. -/
def ServesSource (file : List UInt8) (app : AppSource) : Prop :=
  ∀ ret src, (∀ source, src = some source → source.Faithful file) →
    ∀ source, app ret src = some source → source.Faithful file

theorem safe_initStream (flags : Flags) {src : Option Source}
    (hsrc : ∀ source, src = some source → source.Faithful file) :
    Safe E file (initStream flags src : Stream σ).core := by
  refine ⟨⟨(initStream flags src : Stream σ).core.win.kept, 4, 3, true⟩, ⟨rfl, rfl, rfl, ?_⟩,
    rfl, rfl, fun _ => rfl, fun _ => ⟨rfl, rfl⟩, fun h => absurd h (Nat.not_succ_le_zero _),
    fun h => absurd h (Nat.not_succ_le_zero _), fun h => absurd h (Nat.not_succ_le_zero _),
    fun h => absurd h (Nat.not_succ_le_zero _), fun h => absurd h (Nat.not_succ_le_zero _),
    fun k h => absurd h (Nat.not_lt_zero _), fun h => absurd h (Nat.not_succ_le_zero _)⟩
  exact ⟨⟨fun k => by cases k <;> exact Nat.zero_le _, ⟨rfl, rfl⟩, fun _ => rfl,
    fun _ => Nat.zero_le _, hsrc⟩, rfl⟩

/-- A source of blocks of `2 ^ k` bytes with none read yet. -/
def freshSource (k : ℕ) : Source := { blksize := 2 ^ k, shiftby := k, maskby := 2 ^ k - 1 }

theorem freshSource_faithful (file : List UInt8) {k : ℕ} (hk : k < 64) :
    (freshSource k).Faithful file := ⟨⟨hk, rfl, rfl⟩, fun _ h => nomatch h⟩

/-- With every window executed, one that ends does not copy from the target. -/
theorem Safe.keepsBuffer {c : Core σ} (h : Safe Flags.Emits file c) (hs : c.decState = .finish)
    (he : c.win.flags.Emits) : c.win.KeepsBuffer := by
  unfold Safe at h
  rw [hs] at h
  intro ht
  exact absurd ((h.1.target (fun _ hf => hf) he).symm.trans ht) (by decide)

theorem plainInput_stays {env : Env σ} (hsec : ∀ id, env.secondary id = none)
    (henv : ServesBlocks file env.getblk) {s : Reader σ} (hs : Holds Inv s)
    (h : Safe Flags.Emits file s.core) : Stays Flags.Emits file (plainInput env s) :=
  plainInput_safe (fun _ hf => hf) hsec henv hs h h.keepsBuffer

/-- No access of the next call leaves its buffer. While a window is executed, the cursors lie in
their sections, and the output in the buffer allocated last. -/
def InBounds (env : Env σ) (s : Stream σ) : Prop :=
  decodeInput env s ≠ .fault ∧
    (s.core.decState = .emit →
      (∀ k, (s.core.win.sect k).buf ≤ (s.core.win.sect k).bufMax ∧
        (s.core.win.sect k).bufMax ≤ (s.core.win.sect k).mem.length) ∧
      s.core.win.nextOut = s.core.win.decBuffer ∧ s.core.win.out.length ≤ s.core.win.spaceOut)

section Runs
variable {env : Env σ} {app : AppSource} (hE : ∀ f : Flags, f.Emits → E f)
  (hsec : ∀ id, env.secondary id = none) (henv : ServesBlocks file env.getblk)

include hE hsec henv in
theorem Safe.inBounds {s : Stream σ} (hinv : StreamInv s) (h : Safe E file s.core) :
    InBounds env s := by
  refine ⟨fun hf => ?_, fun hst => ?_⟩
  · have hne : s.core.decState ≠ .finish := by
      intro hst
      unfold decodeInput at hf
      rw [hst] at hf
      cases hf
    have hstay := plainInput_safe hE hsec henv hinv.1 h fun hst => absurd hst hne
    rw [← (decodeInput_plain env hinv).1, hf] at hstay
    exact hstay
  · unfold Safe at h
    rw [hst] at h
    obtain ⟨-, hp⟩ := h
    exact ⟨fun k => ⟨hp.buf_le k, hp.max_le k⟩, hp.buffer, hp.room⟩

variable (happ : ServesSource file app) (flags : Flags) {src : Option Source}
  (hsrc : ∀ source, src = some source → source.Faithful file)
include hE hsec henv happ hsrc

/-- In every state in which the decoder is called its invariants hold, if what the application
does between calls keeps them and no call exchanges the output buffer for another. -/
theorem visits_safe {A : Stream σ → Stream σ → Prop} {P : Stream σ → Prop}
    (hact : ∀ s t, A s t → StreamInv s ∧ Safe E file s.core → StreamInv t ∧ Safe E file t.core)
    (hP : ∀ s, Safe E file s.core → P s → s.core.decState = .finish → E s.core.win.flags →
      s.core.win.KeepsBuffer)
    {s : Stream σ} (h : (decodeDriver env app).Visits A P (initStream flags src) s) :
    StreamInv s ∧ Safe E file s.core := by
  have hcall : ∀ s : Stream σ, StreamInv s ∧ Safe E file s.core → P s →
      Stays E file ((decodeInput env s).mapState Stream.toReader) := by
    intro s hs hp
    rw [(decodeInput_plain env hs.1).1]
    exact plainInput_safe hE hsec henv hs.1.1 hs.2 (hP s hs.2 hp)
  have hp := decodeDriver_projects env app
  refine h.invariant (I := fun s => StreamInv s ∧ Safe E file s.core)
    ⟨streamInv_initStream flags src, safe_initStream flags hsrc⟩ (fun s t hs ha => hact s t ha hs)
    ?_ ?_
  · intro s s' hs hps hc c
    refine ⟨hp.inv_supply s s' hs.1 hc c, ?_⟩
    have hstay := hcall s hs hps
    rw [show decodeInput env s = .starved s' from hc] at hstay
    exact hstay
  · intro s e s' s'' hs hps hc ha
    refine ⟨hp.inv_react s e s' s'' hs.1 hc ha, ?_⟩
    have hstay := hcall s hs hps
    rw [show decodeInput env s = .stop e s' from hc] at hstay
    simp only [decodeDriver, Reader.answer] at ha
    split at ha
    · rename_i ho
      cases ha
      obtain ⟨hfaith, hsafe⟩ := hstay ho
      exact hsafe _ (happ _ _ hfaith)
    · cases ha

end Runs

/-- Under flags that stay as they are, whatever bytes the decoder is fed, and however they are
cut into chunks, every call stays in bounds. -/
theorem decodeInput_ne_fault {env : Env σ} {app : AppSource}
    (hsec : ∀ id, env.secondary id = none) (henv : ServesBlocks file env.getblk)
    (happ : ServesSource file app) (flags : Flags) {src : Option Source}
    (hsrc : ∀ source, src = some source → source.Faithful file) {s : Stream σ}
    (h : (decodeDriver env app).Reaches (initStream flags src) s) : InBounds env s := by
  have hE : ∀ f : Flags, f.Emits → f.Emits := fun _ hf => hf
  obtain ⟨hinv, hsafe⟩ := visits_safe hE hsec henv happ flags hsrc
    (A := fun _ _ => False) (fun _ _ ha => ha.elim) (fun _ hs _ => hs.keepsBuffer) h.visits
  exact hsafe.inBounds hE hsec henv hinv

end Xdelta
