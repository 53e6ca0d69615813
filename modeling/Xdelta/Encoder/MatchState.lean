import Xdelta.Encoder.StringMatch

/-!
# The state of the string matcher

At the top of its loop the checksums and the run are those of the bytes at the input
position, however the matcher came there: rolled on byte by byte, computed afresh, or past
a run it has expanded.
-/
namespace Xdelta
open Chunked

/-- The `t` bytes before `e` are all `c`. -/
def EndsIn (mem : List UInt8) (e t : ℕ) (c : UInt8) : Prop :=
  ∀ i, e - t ≤ i → i < e → mem[i]? = some c

theorem EndsIn.mono {mem : List UInt8} {e t t' : ℕ} {c : UInt8} (h : EndsIn mem e t c)
    (ht : t' ≤ t) : EndsIn mem e t' c :=
  fun i hi hie => h i (by omega) hie

theorem endsIn_succ {mem : List UInt8} {e t : ℕ} {c : UInt8} :
    EndsIn mem (e + 1) (t + 1) c ↔ EndsIn mem e t c ∧ mem[e]? = some c := by
  constructor
  · intro h
    exact ⟨fun i hi hie => h i (by omega) (by omega), h e (by omega) (by omega)⟩
  · rintro ⟨h, he⟩ i hi hie
    rcases Nat.lt_succ_iff_lt_or_eq.mp hie with hlt | rfl
    · exact h i (by omega) hlt
    · exact he

/-- `run_l` is the length of the run before `e`, as far as it is looked at from `s` on. Once
expanded it may be more than that. -/
structure RunTracks (mem : List UInt8) (s e : ℕ) (r : RunState) : Prop where
  same : EndsIn mem e (min r.runL (e - s)) r.runC
  long : ∀ t c, t ≤ e - s → EndsIn mem e t c → t ≤ r.runL

section Runs

variable {W : Width} {mem : List UInt8} {s e : ℕ} {r : RunState}

theorem RunTracks.start (mem : List UInt8) (s : ℕ) (r : RunState) : RunTracks mem s s r := by
  constructor
  · intro i hi hie
    omega
  · intro t c ht _
    omega

theorem RunTracks.mono {s' : ℕ} (h : RunTracks mem s e r) (hs : s ≤ s') : RunTracks mem s' e r := by
  constructor
  · exact h.same.mono (by omega)
  · intro t c ht hends
    exact h.long t c (by omega) hends

/-- `NEXTRUN` goes on to the next byte, as long as `run_l` can be incremented. -/
theorem RunTracks.next {c : UInt8} (h : RunTracks mem s e r) (hs : s ≤ e)
    (hc : mem[e]? = some c) (hwrap : c = r.runC → r.runL + 1 < W.modulus) :
    RunTracks mem s (e + 1) (r.next W c) := by
  unfold RunState.next
  by_cases hsame : c = r.runC
  · rw [if_pos hsame, W.add_eq (hwrap hsame)]
    constructor
    · have hlen : min (r.runL + 1) (e + 1 - s) = min r.runL (e - s) + 1 := by omega
      change EndsIn mem (e + 1) (min (r.runL + 1) (e + 1 - s)) r.runC
      rw [hlen]
      exact endsIn_succ.mpr ⟨h.same, hsame ▸ hc⟩
    · rintro (_ | t) c' ht hends
      · exact Nat.zero_le _
      · exact Nat.succ_le_succ (h.long t c' (by omega) (endsIn_succ.mp hends).1)
  · rw [if_neg hsame]
    constructor
    · have hlen : min 1 (e + 1 - s) = 0 + 1 := by omega
      change EndsIn mem (e + 1) (min 1 (e + 1 - s)) c
      rw [hlen]
      exact endsIn_succ.mpr ⟨fun i hi hie => by omega, hc⟩
    · rintro (_ | _ | t) c' ht hends
      · exact Nat.zero_le _
      · exact le_rfl
      · -- two equal bytes before: the last one would have been in the run
        obtain ⟨hbefore, hlast⟩ := endsIn_succ.mp hends
        have hlong := h.long (t + 1) c' (by omega) hbefore
        have hrun : mem[e - 1]? = some r.runC := h.same (e - 1) (by omega) (by omega)
        have hbyte : mem[e - 1]? = some c' := hbefore (e - 1) (by omega) (by omega)
        rw [hc] at hlast
        rw [hrun] at hbyte
        exact absurd ((Option.some_inj.mp hlast).trans (Option.some_inj.mp hbyte).symm) hsame

theorem RunState.runL_next_le {c : UInt8} {n : ℕ} (h : r.runL ≤ n) (hn : n + 1 < W.modulus) :
    (r.next W c).runL ≤ n + 1 := by
  unfold RunState.next
  split_ifs
  · change W.add r.runL 1 ≤ n + 1
    rw [W.add_eq (by omega)]
    omega
  · exact Nat.succ_le_succ (Nat.zero_le n)

theorem RunTracks.foldl {k : ℕ} (h : RunTracks mem s e r) (hs : s ≤ e) (hrun : r.runL ≤ e - s)
    (hlen : e + k ≤ mem.length) (hwidth : mem.length < W.modulus) :
    RunTracks mem s (e + k) (((mem.drop e).take k).foldl (RunState.next W) r) := by
  induction k generalizing e r with
  | zero => exact h
  | succ k ih =>
    rw [List.drop_eq_getElem_cons (by omega), List.take_succ_cons, List.foldl_cons,
      show e + (k + 1) = e + 1 + k by omega]
    apply ih
    · exact h.next hs (List.getElem?_eq_getElem (by omega)) fun _ => by omega
    · omega
    · have hle := RunState.runL_next_le (W := W) (c := mem[e]) hrun (by omega)
      omega
    · omega

theorem comprun_tracks {pos slook : ℕ} (hrun : comprun W mem pos slook = some r)
    (hwidth : mem.length < W.modulus) : RunTracks mem pos (pos + slook) r := by
  obtain ⟨seg, hseg, rfl⟩ := Option.map_eq_some_iff.mp hrun
  unfold bytesAt at hseg
  split_ifs at hseg with hfits
  rw [← Option.some_inj.mp hseg]
  exact (RunTracks.start mem pos ⟨0, 0⟩).foldl le_rfl (Nat.zero_le _) hfits hwidth

theorem comprun_isSome {pos slook : ℕ} (h : pos + slook ≤ mem.length) :
    (comprun W mem pos slook).isSome := by
  simp [comprun, bytesAt, h]

theorem expandRun_ge {pos room len len' : ℕ} {c : UInt8}
    (h : expandRun mem pos c room len = some len') : len ≤ len' := by
  induction room generalizing len with
  | zero => exact (Option.some_inj.mp h).le
  | succ room ih =>
    unfold expandRun at h
    cases hbyte : mem[pos + len]? with
    | none => simp [hbyte] at h
    | some b =>
      rw [hbyte] at h
      dsimp only at h
      split_ifs at h
      · exact (Nat.le_succ len).trans (ih h)
      · exact (Option.some_inj.mp h).le

theorem expandRun_isSome {pos room len : ℕ} (c : UInt8) (h : pos + (len + room) ≤ mem.length) :
    (expandRun mem pos c room len).isSome := by
  induction room generalizing len with
  | zero => rfl
  | succ room ih =>
    unfold expandRun
    rw [List.getElem?_eq_getElem (by omega)]
    dsimp only
    split_ifs
    · exact ih (by omega)
    · rfl

theorem RunTracks.expand {len : ℕ} (h : RunTracks mem s e r) (hrun : e - s ≤ r.runL)
    (hlen : r.runL ≤ len) : RunTracks mem s e { r with runL := len } := by
  constructor
  · have hmin : min len (e - s) = min r.runL (e - s) := by omega
    change EndsIn mem e (min len (e - s)) r.runC
    rw [hmin]
    exact h.same
  · intro t c ht hends
    exact (h.long t c ht hends).trans hlen

end Runs

/-- The input of a call: `avail_in` bytes, a number that fits in `usize_t`. -/
structure Given (cfg : MatchCfg) (m : Matcher) : Prop where
  length : m.enc.nextIn.length = m.enc.availIn
  width : m.enc.availIn < cfg.sizeT.modulus

structure Looking.Bounded (cfg : MatchCfg) (look : Looking) : Prop where
  small : look.scksum < Width.w32.modulus
  large : look.lcksum < cfg.sizeT.modulus

structure Tracks (cfg : MatchCfg) (look : Looking) (m : Matcher) : Prop where
  fits : m.search.inputPosition + cfg.smatcher.smallLook ≤ m.enc.availIn
  small : look.doSmall = true → scksum m.enc.window m.search.inputPosition = some look.scksum
  large : look.doLarge = true →
    m.search.inputPosition + cfg.smatcher.largeLook ≤ m.enc.availIn →
    largeCksum cfg.sizeT cfg.largeCfg m.enc.window m.search.inputPosition cfg.smatcher.largeLook =
      some look.lcksum
  run : RunTracks m.enc.window m.search.inputPosition
    (m.search.inputPosition + cfg.smatcher.smallLook) look.run

/-- What holds at each place of `xd3_string_match`. -/
def Phase.Inv (cfg : MatchCfg) : Phase → Matcher → Prop
  | .restart look, m => Given cfg m ∧ look.Bounded cfg
  | .top look, m => Given cfg m ∧ look.Bounded cfg ∧ Tracks cfg look m
  | .update look, m => Given cfg m ∧ look.Bounded cfg ∧ Tracks cfg look m
  | .done, _ => True

/-- The sums that the code computes from the position do not wrap around, `run_l` can be
incremented, and the weights were computed for all of the `large_look` bytes. -/
def Unwrapped (cfg : MatchCfg) : Phase → Matcher → Prop
  | .restart look, m =>
    m.search.inputPosition + cfg.smatcher.smallLook < cfg.sizeT.modulus ∧
      (m.search.inputPosition + cfg.smatcher.smallLook ≤ m.enc.availIn → look.doLarge = true →
        m.search.inputPosition + cfg.smatcher.largeLook < cfg.sizeT.modulus)
  | .update look, m =>
    m.search.inputPosition + cfg.smatcher.smallLook ≠ m.enc.availIn →
      (m.enc.window[m.search.inputPosition + cfg.smatcher.smallLook]? = some look.run.runC →
        look.run.runL + 1 < cfg.sizeT.modulus) ∧
      (look.doLarge = true →
        m.search.inputPosition + cfg.smatcher.largeLook < cfg.sizeT.modulus ∧
        (m.search.inputPosition + cfg.smatcher.largeLook < m.enc.availIn →
          cfg.smatcher.largeLook < 2 ^ 31))
  | _, _ => True

section Keeping

variable {cfg : MatchCfg} {look : Looking} {m m' : Matcher}

theorem Matcher.place_eq (h : m'.place = m.place) : m'.enc.nextIn = m.enc.nextIn ∧
    m'.enc.availIn = m.enc.availIn ∧ m'.search.inputPosition = m.search.inputPosition := by
  simpa [Matcher.place, Encoder.input, and_assoc] using h

theorem Given.length_window (h : Given cfg m) : m.enc.window.length = m.enc.availIn := by
  unfold Encoder.window
  rw [List.length_take, h.length, min_self]

theorem Given.congr (h : Given cfg m) (hin : m'.enc.input = m.enc.input) : Given cfg m' := by
  obtain ⟨hnext, havail⟩ : m'.enc.nextIn = m.enc.nextIn ∧ m'.enc.availIn = m.enc.availIn := by
    simpa [Encoder.input] using hin
  constructor
  · rw [hnext, havail]
    exact h.length
  · rw [havail]
    exact h.width

theorem Tracks.congr (h : Tracks cfg look m) (hplace : m'.place = m.place) : Tracks cfg look m' := by
  obtain ⟨hnext, havail, hpos⟩ := Matcher.place_eq hplace
  have hwindow : m'.enc.window = m.enc.window := by rw [Encoder.window, hnext, havail]; rfl
  constructor
  · rw [hpos, havail]
    exact h.fits
  · rw [hwindow, hpos]
    exact h.small
  · rw [hwindow, hpos, havail]
    exact h.large
  · rw [hwindow, hpos]
    exact h.run

theorem Phase.Inv.congr (h : Phase.Inv cfg (.top look) m) (hplace : m'.place = m.place) :
    Phase.Inv cfg (.top look) m' :=
  ⟨h.1.congr (congrArg Prod.fst hplace), h.2.1, h.2.2.congr hplace⟩

theorem Fixes.inv {α : Type} {o : Outcome Matcher Stop α} (ho : Fixes Matcher.place m o)
    (h : Phase.Inv cfg (.top look) m) :
    o.Goes (fun _ m' => Phase.Inv cfg (.top look) m') (fun _ => True) fun _ _ => True := by
  apply ho.mono
  · exact fun _ m' hm' => h.congr hm'
  · exact fun _ _ => trivial
  · exact fun _ _ _ => trivial

theorem Phase.Inv.moved (h : Phase.Inv cfg (.top look) m) (next : ℕ) :
    Phase.Inv cfg (.top { look with nextMovePoint := next }) m :=
  ⟨h.1, ⟨h.2.1.small, h.2.1.large⟩, ⟨h.2.2.fits, h.2.2.small, h.2.2.large, h.2.2.run⟩⟩

theorem handleLazy_inv (h : Phase.Inv cfg (.top look) m) (mlen : ℕ) :
    (handleLazy cfg mlen look m).Goes (fun phase m' => phase.Inv cfg m') (fun _ => True)
      fun _ _ => True := by
  unfold handleLazy
  dsimp only
  split_ifs
  · exact h.congr rfl
  · exact ⟨h.1.congr rfl, h.2.1⟩

/-- The result of one attempt at a match: a phase to go on with, or the top of the loop still. -/
def Attempted (cfg : MatchCfg) (look : Looking) (found : Option Phase) (m : Matcher) : Prop :=
  match found with
  | some phase => phase.Inv cfg m
  | none => Phase.Inv cfg (.top look) m

theorem tryRun_inv (h : Phase.Inv cfg (.top look) m) :
    (tryRun cfg look m).Goes (fun r m' => Attempted cfg r.2 r.1 m') (fun _ => True)
      fun _ _ => True := by
  unfold tryRun
  dsimp only
  by_cases hrun : look.run.runL = cfg.smatcher.smallLook
  · rw [if_pos hrun]
    cases hexpand : expandRun m.enc.window m.search.inputPosition look.run.runC
        (cfg.sizeT.sub m.enc.availIn m.search.inputPosition - look.run.runL) look.run.runL with
    | none => trivial
    | some len =>
      have htop : Phase.Inv cfg (.top { look with run := { look.run with runL := len } }) m := by
        refine ⟨h.1, ⟨h.2.1.small, h.2.1.large⟩, ⟨h.2.2.fits, h.2.2.small, h.2.2.large, ?_⟩⟩
        exact h.2.2.run.expand (by omega) (expandRun_ge hexpand)
      dsimp only
      split_ifs
      · apply ((emitRun_fixes m _ _ _).inv htop).andThen
        intro _ m' hm'
        apply (handleLazy_inv hm' len).andThen
        intro phase m'' hm''
        exact hm''
      · exact htop
  · rw [if_neg hrun]
    exact h

theorem tryEntry_inv (h : Phase.Inv cfg (.top look) m) (low : ℕ) :
    (tryEntry cfg look low m).Goes (fun found m' => Attempted cfg look found m') (fun _ => True)
      fun _ _ => True := by
  unfold tryEntry
  split_ifs
  · exact h
  · apply ((sourceMatchSetup_fixes m _).inv h).andThen
    intro ready m' hm'
    split_ifs
    · apply ((sourceExtendMatch_fixes m' _).inv hm').andThen
      intro _ m'' hm''
      split_ifs
      · apply (handleLazy_inv hm'' _).andThen
        intro phase m₃ hm₃
        exact hm₃
      · exact hm''
    · exact hm'

theorem tryLarge_inv (h : Phase.Inv cfg (.top look) m) :
    (tryLarge cfg look m).Goes (fun r m' => Attempted cfg r.2 r.1 m') (fun _ => True)
      fun _ _ => True := by
  unfold tryLarge
  split_ifs
  · apply ((srcwinMovePoint_fixes m place_ignoresMatch.toIgnoresSource _).inv h).andThen
    intro next m' hm'
    apply (tryEntry_inv (hm'.moved next) _).andThen
    intro found m'' hm''
    exact hm''
  · apply (tryEntry_inv (h.moved _) _).andThen
    intro found m'' hm''
    exact hm''
  · exact h

theorem trySmall_inv (h : Phase.Inv cfg (.top look) m) :
    (trySmall cfg look m).Goes (fun found m' => Attempted cfg look found m') (fun _ => True)
      fun _ _ => True := by
  unfold trySmall
  dsimp only
  by_cases hsmall : look.doSmall = true
  · rw [if_pos hsmall]
    generalize checksumHash cfg.smallCfg look.scksum = sinx
    generalize m.search.smallTable.getD (fun _ => 0) sinx = entry
    apply Outcome.Goes.andThen (Q := fun _ m' => Phase.Inv cfg (.top look) m')
    · split_ifs
      · exact h
      · exact (smatch_fixes m _ _).inv h
    · intro r m' hm'
      generalize hins : m'.search.scksumInsert cfg.env sinx m'.search.inputPosition = inserted
      have hentered : Phase.Inv cfg (.top look) { m' with search := inserted } := by
        rw [← hins]
        exact hm'.congr rfl
      split_ifs
      · apply ((foundMatch_fixes _ _ _ _ _).inv hentered).andThen
        intro _ m'' hm''
        apply (handleLazy_inv hm'' _).andThen
        intro phase m₃ hm₃
        exact hm₃
      · exact hentered
  · rw [if_neg hsmall]
    exact h

theorem topLoop_inv (h : Phase.Inv cfg (.top look) m) :
    (topLoop cfg look m).Goes (fun phase m' => phase.Inv cfg m') (fun _ => True)
      fun _ _ => True := by
  apply (tryRun_inv h).andThen
  rintro ⟨found, look₁⟩ m₁ hm₁
  cases found with
  | some phase => exact hm₁
  | none =>
    apply (tryLarge_inv hm₁).andThen
    rintro ⟨found, look₂⟩ m₂ hm₂
    cases found with
    | some phase => exact hm₂
    | none =>
      apply (trySmall_inv hm₂).andThen
      intro found m₃ hm₃
      cases found with
      | some phase => exact hm₃
      | none =>
        have hlast : Phase.Inv cfg (.top look₂) m₃ := hm₃
        dsimp only
        split_ifs
        · exact hlast.congr rfl
        · exact hlast

theorem Looking.afresh_spec {mem : List UInt8} {pos : ℕ} {look' : Looking}
    (h : look.afresh cfg mem pos = some look') :
    look'.doSmall = look.doSmall ∧ look'.doLarge = look.doLarge ∧ look'.lcksum = look.lcksum ∧
      (look.doSmall = true → Xdelta.scksum mem pos = some look'.scksum) ∧
      (look.doSmall = false → look'.scksum = look.scksum) ∧
      comprun cfg.sizeT mem pos cfg.smatcher.smallLook = some look'.run := by
  unfold Looking.afresh at h
  cases hrun : comprun cfg.sizeT mem pos cfg.smatcher.smallLook with
  | none => simp [hrun] at h
  | some run =>
    cases hdo : look.doSmall with
    | false =>
      simp only [hdo, hrun, Bool.false_eq_true, if_false, Option.some_inj] at h
      subst h
      simp
    | true =>
      cases hs : Xdelta.scksum mem pos with
      | none => simp [hdo, hrun, hs] at h
      | some c =>
        simp only [hdo, hrun, hs, if_true, Option.some_inj] at h
        subst h
        simp

theorem Looking.afresh_bounded {mem : List UInt8} {pos : ℕ} {look' : Looking}
    (h : look.afresh cfg mem pos = some look') (hb : look.Bounded cfg) : look'.Bounded cfg := by
  obtain ⟨-, -, hl, hsome, hnone, -⟩ := Looking.afresh_spec h
  constructor
  · cases hdo : look.doSmall with
    | true => exact scksum_lt (hsome hdo)
    | false =>
      rw [hnone hdo]
      exact hb.small
  · rw [hl]
    exact hb.large

theorem restartLoop_inv (hgiven : Given cfg m) (hbounded : look.Bounded cfg)
    (hfit : Unwrapped cfg (.restart look) m) :
    (restartLoop cfg look m).Goes (fun phase m' => phase.Inv cfg m') (fun _ => True)
      fun _ _ => True := by
  obtain ⟨hsmallFit, hlargeFit⟩ := hfit
  unfold restartLoop
  rw [cfg.sizeT.add_eq hsmallFit]
  by_cases hroom : m.enc.availIn < m.search.inputPosition + cfg.smatcher.smallLook
  · rw [if_pos hroom]
    trivial
  rw [if_neg hroom]
  generalize hstart : ({ m with search := { m.search with
    minMatch := m.freshMinMatch cfg.sizeT } } : Matcher) = m₁
  have hplace : m₁.place = m.place := by
    rw [← hstart]
    rfl
  obtain ⟨-, havail, hpos⟩ := Matcher.place_eq hplace
  have hgiven₁ : Given cfg m₁ := hgiven.congr (congrArg Prod.fst hplace)
  dsimp only
  cases hfresh : look.afresh cfg m₁.enc.window m₁.search.inputPosition with
  | none => trivial
  | some look₁ =>
    obtain ⟨hdoSmall, hdoLarge, -, hsmall, -, hrun⟩ := Looking.afresh_spec hfresh
    have hbounded₁ := Looking.afresh_bounded hfresh hbounded
    have hwidth : m₁.enc.window.length < cfg.sizeT.modulus := by
      rw [hgiven₁.length_window]
      exact hgiven₁.width
    have htracks {m₂ : Matcher} (hm₂ : m₂.place = m₁.place) (next l : ℕ)
        (hl : look₁.doLarge = true →
          m₂.search.inputPosition + cfg.smatcher.largeLook ≤ m₂.enc.availIn →
          largeCksum cfg.sizeT cfg.largeCfg m₂.enc.window m₂.search.inputPosition
            cfg.smatcher.largeLook = some l) :
        Tracks cfg { look₁ with nextMovePoint := next, lcksum := l } m₂ := by
      obtain ⟨hnext₂, havail₂, hpos₂⟩ := Matcher.place_eq hm₂
      have hwindow : m₂.enc.window = m₁.enc.window := by
        rw [Encoder.window, hnext₂, havail₂]
        rfl
      constructor
      · rw [hpos₂, havail₂, havail, hpos]
        exact Nat.not_lt.mp hroom
      · rw [hwindow, hpos₂]
        exact fun hdo => hsmall (hdoSmall.symm.trans hdo)
      · exact hl
      · rw [hwindow, hpos₂]
        exact comprun_tracks hrun hwidth
    dsimp only
    split_ifs with hlarge
    · apply Outcome.Goes.andThen (Q := fun _ m₂ => m₂.place = m₁.place)
      · apply (srcwinMovePoint_fixes m₁ place_ignoresMatch.toIgnoresSource cfg.env).mono
        · exact fun _ _ hm₂ => hm₂
        · exact fun _ _ => trivial
        · exact fun _ _ _ => trivial
      intro next m₂ hm₂
      cases hcksum : largeCksum cfg.sizeT cfg.largeCfg m₂.enc.window m₂.search.inputPosition
          cfg.smatcher.largeLook with
      | none => trivial
      | some c =>
        refine ⟨hgiven₁.congr (congrArg Prod.fst hm₂), ⟨hbounded₁.small, ?_⟩, ?_⟩
        · exact largeCksum_lt _ hcksum
        · exact htracks hm₂ next c fun _ _ => hcksum
    · refine ⟨hgiven₁, hbounded₁, htracks rfl look₁.nextMovePoint look₁.lcksum ?_⟩
      intro hdo hremains
      rw [hpos, havail] at hremains
      have hwrap := hlargeFit (Nat.not_lt.mp hroom) (hdoLarge.symm.trans hdo)
      refine absurd ⟨hdo, ?_⟩ hlarge
      rw [hpos, havail, cfg.sizeT.add_eq hwrap]
      exact hremains

theorem Looking.next_spec {mem : List UInt8} {pos availIn : ℕ} {look' : Looking}
    (h : look.next cfg mem pos availIn = some look') :
    look'.doSmall = look.doSmall ∧ look'.doLarge = look.doLarge ∧
      (∃ c, mem[pos + cfg.smatcher.smallLook]? = some c ∧
        look'.run = look.run.next cfg.sizeT c) ∧
      (if look.doSmall then smallCksumUpdate mem pos else some look.scksum) = some look'.scksum ∧
      (if look.doLarge = true ∧ cfg.sizeT.add pos cfg.smatcher.largeLook < availIn then
        largeCksumUpdate cfg.sizeT cfg.largeCfg look.lcksum mem pos cfg.smatcher.largeLook
      else some look.lcksum) = some look'.lcksum := by
  unfold Looking.next at h
  split at h
  · rename_i c s l hc hs hl
    obtain rfl := Option.some_inj.mp h
    exact ⟨rfl, rfl, ⟨c, hc, rfl⟩, hs, hl⟩
  · cases h

theorem largeCksumUpdate_lt {W : Width} {hcfg : HashCfg} {c c' : ℕ} {mem : List UInt8}
    {pos look : ℕ} (h : largeCksumUpdate W hcfg c mem pos look = some c') : c' < W.modulus := by
  unfold largeCksumUpdate at h
  split at h
  · rw [← Option.some_inj.mp h]
    exact W.add_lt _ _
  · cases h

theorem Looking.next_bounded {mem : List UInt8} {pos availIn : ℕ} {look' : Looking}
    (h : look.next cfg mem pos availIn = some look') (hb : look.Bounded cfg) :
    look'.Bounded cfg := by
  obtain ⟨-, -, -, hs, hl⟩ := Looking.next_spec h
  constructor
  · split_ifs at hs
    · exact scksum_lt hs
    · rw [← Option.some_inj.mp hs]
      exact hb.small
  · split_ifs at hl
    · exact largeCksumUpdate_lt hl
    · rw [← Option.some_inj.mp hl]
      exact hb.large

theorem updateOne_inv (haccept : cfg.Accepted) (h : Phase.Inv cfg (.update look) m)
    (hfit : Unwrapped cfg (.update look) m) :
    (updateOne cfg look m).Goes (fun phase m' => phase.Inv cfg m') (fun _ => True)
      fun _ _ => True := by
  obtain ⟨hgiven, hbounded, htracks⟩ := h
  have hwidth := hgiven.width
  have hfits := htracks.fits
  unfold updateOne
  dsimp only
  rw [cfg.sizeT.add_eq (hfits.trans_lt hwidth)]
  by_cases hend : m.search.inputPosition + cfg.smatcher.smallLook = m.enc.availIn
  · rw [if_pos hend]
    trivial
  rw [if_neg hend]
  obtain ⟨hrunFit, hlargeFit⟩ := hfit hend
  have hsmallLook := haccept.2.2
  have hone : cfg.sizeT.add m.search.inputPosition 1 = m.search.inputPosition + 1 :=
    cfg.sizeT.add_eq (by omega)
  cases hnext : look.next cfg m.enc.window m.search.inputPosition m.enc.availIn with
  | none => trivial
  | some look' =>
    obtain ⟨hdoSmall, hdoLarge, ⟨c, hc, hrun⟩, hs, hl⟩ := Looking.next_spec hnext
    refine ⟨hgiven.congr rfl, Looking.next_bounded hnext hbounded, ?_⟩
    rw [hone]
    constructor
    · change m.search.inputPosition + 1 + cfg.smatcher.smallLook ≤ m.enc.availIn
      omega
    · intro hdo
      rw [hdoSmall.symm.trans hdo, if_pos rfl, smallCksumUpdate_eq] at hs
      exact hs
    · intro hdo hremains
      change m.search.inputPosition + 1 + cfg.smatcher.largeLook ≤ m.enc.availIn at hremains
      have hdo' := hdoLarge.symm.trans hdo
      obtain ⟨hwrap, hpowers⟩ := hlargeFit hdo'
      have hmore : m.search.inputPosition + cfg.smatcher.largeLook < m.enc.availIn := by omega
      rw [cfg.sizeT.add_eq hwrap, if_pos ⟨hdo', hmore⟩] at hl
      rw [← hl]
      symm
      apply largeCksumUpdate_eq
      · have := haccept.1
        exact lt_of_lt_of_le (by decide) this
      · exact hpowers hmore
      · rwa [hgiven.length_window]
      · exact htracks.large hdo' hmore.le
    · rw [hrun]
      change RunTracks m.enc.window (m.search.inputPosition + 1)
        (m.search.inputPosition + 1 + cfg.smatcher.smallLook) _
      rw [Nat.add_right_comm]
      have hstep := htracks.run.next (Nat.le_add_right _ _) hc fun hsame => hrunFit (hsame ▸ hc)
      exact hstep.mono (Nat.le_succ _)

/-- Every step that meets the condition keeps the invariant. -/
theorem matchStep_inv {phase : Phase} (haccept : cfg.Accepted) (h : phase.Inv cfg m)
    (hfit : Unwrapped cfg phase m) :
    (matchStep cfg phase m).Goes (fun phase' m' => phase'.Inv cfg m') (fun _ => True)
      fun _ _ => True := by
  cases phase with
  | restart look => exact restartLoop_inv h.1 h.2 hfit
  | top look => exact topLoop_inv h
  | update look => exact updateOne_inv haccept h hfit
  | done => trivial

theorem Matcher.input_stringMatchInit (m : Matcher) (env : EncEnv) :
    (m.stringMatchInit env).enc.input = m.enc.input := by
  unfold Matcher.stringMatchInit
  by_cases hskip : m.enc.flags.nocompress = true
  · rw [if_pos hskip]
  · rw [if_neg hskip]
    cases m.search.smallTable with
    | none => rfl
    | some t =>
      dsimp only
      split_ifs <;> rfl

theorem Matching.inv {m₀ : Matcher} {phase : Phase} (haccept : cfg.Accepted) (hgiven : Given cfg m₀)
    (h : Matching cfg (Unwrapped cfg) m₀ phase m) : phase.Inv cfg m := by
  induction h with
  | enter _ =>
    refine ⟨hgiven.congr (Matcher.input_stringMatchInit m₀ cfg.env), ?_, cfg.sizeT.modulus_pos⟩
    exact Width.w32.modulus_pos
  | step _ hcond hstep ih =>
    have hgoes := matchStep_inv haccept ih hcond
    rw [hstep] at hgoes
    exact hgoes

end Keeping

/-- The local variables at the top of the loop: the checksums are those of the bytes at the input
position, a run of `small_look` is one, no such run is overlooked, and the hashes are indices. -/
structure AtTop (cfg : MatchCfg) (look : Looking) (m : Matcher) : Prop where
  small : look.doSmall = true → scksum m.enc.window m.search.inputPosition = some look.scksum
  large : look.doLarge = true →
    m.search.inputPosition + cfg.smatcher.largeLook ≤ m.enc.availIn →
    largeCksum cfg.sizeT cfg.largeCfg m.enc.window m.search.inputPosition cfg.smatcher.largeLook =
      some look.lcksum
  run : look.run.runL = cfg.smatcher.smallLook → ∀ i < cfg.smatcher.smallLook,
    m.enc.window[m.search.inputPosition + i]? = some look.run.runC
  found : ∀ c, (∀ i < cfg.smatcher.smallLook, m.enc.window[m.search.inputPosition + i]? = some c) →
    cfg.smatcher.smallLook ≤ look.run.runL
  small_hash : checksumHash cfg.smallCfg look.scksum < cfg.smallCfg.size
  large_hash : checksumHash cfg.largeCfg look.lcksum < cfg.largeCfg.size

/-- What the step reads of the input is there, `next_in[0 .. avail_in)`. -/
def ReadsInside (cfg : MatchCfg) : Phase → Matcher → Prop
  | .restart look, m =>
    cfg.sizeT.add m.search.inputPosition cfg.smatcher.smallLook ≤ m.enc.availIn →
      (look.afresh cfg m.enc.window m.search.inputPosition).isSome ∧
      (look.largeRemains cfg m → (largeCksum cfg.sizeT cfg.largeCfg m.enc.window
        m.search.inputPosition cfg.smatcher.largeLook).isSome)
  | .top look, m =>
    look.run.runL = cfg.smatcher.smallLook →
      (expandRun m.enc.window m.search.inputPosition look.run.runC
        (cfg.sizeT.sub m.enc.availIn m.search.inputPosition - look.run.runL)
        look.run.runL).isSome
  | .update look, m =>
    cfg.sizeT.add m.search.inputPosition cfg.smatcher.smallLook ≠ m.enc.availIn →
      (look.next cfg m.enc.window m.search.inputPosition m.enc.availIn).isSome
  | .done, _ => True

section Top

variable {cfg : MatchCfg} {look : Looking} {m : Matcher}

theorem Phase.Inv.atTop (h : Phase.Inv cfg (.top look) m) : AtTop cfg look m := by
  obtain ⟨-, hbounded, htracks⟩ := h
  have hspan : m.search.inputPosition + cfg.smatcher.smallLook - m.search.inputPosition =
      cfg.smatcher.smallLook := by omega
  constructor
  · exact htracks.small
  · exact htracks.large
  · intro hrun i hi
    have hsame := htracks.run.same
    rw [hspan, hrun, min_self] at hsame
    exact hsame _ (by omega) (by omega)
  · intro c hall
    apply htracks.run.long cfg.smatcher.smallLook c hspan.ge
    intro i hi hie
    have hbyte := hall (i - m.search.inputPosition) (by omega)
    rwa [show m.search.inputPosition + (i - m.search.inputPosition) = i by omega] at hbyte
  · apply checksumHash_lt
    exact hbounded.small.trans_le (by cases cfg.sizeT <;> decide)
  · exact checksumHash_lt _ _ _ hbounded.large

theorem Looking.afresh_isSome {mem : List UInt8} {pos : ℕ} (haccept : cfg.Accepted)
    (h : pos + cfg.smatcher.smallLook ≤ mem.length) : (look.afresh cfg mem pos).isSome := by
  have hlook : 4 ≤ cfg.smatcher.smallLook := haccept.2.2
  have hsmall : (Xdelta.scksum mem pos).isSome := scksum_isSome (by omega)
  obtain ⟨c, hc⟩ := Option.isSome_iff_exists.mp hsmall
  obtain ⟨r, hr⟩ := Option.isSome_iff_exists.mp (comprun_isSome (W := cfg.sizeT) h)
  unfold Looking.afresh
  rw [hr, hc]
  cases look.doSmall <;> rfl

theorem largeCksumUpdate_isSome {W : Width} {hcfg : HashCfg} {c pos look : ℕ} {mem : List UInt8}
    (h : pos + look < mem.length) : (largeCksumUpdate W hcfg c mem pos look).isSome := by
  unfold largeCksumUpdate
  rw [List.getElem?_eq_getElem h, List.getElem?_eq_getElem (by omega)]
  rfl

theorem Phase.Inv.readsInside {phase : Phase} (haccept : cfg.Accepted) (h : phase.Inv cfg m)
    (hfit : Unwrapped cfg phase m) : ReadsInside cfg phase m := by
  cases phase with
  | restart look =>
    obtain ⟨hgiven, -⟩ := h
    intro hroom
    rw [cfg.sizeT.add_eq hfit.1] at hroom
    constructor
    · apply Looking.afresh_isSome haccept
      rwa [hgiven.length_window]
    · rintro ⟨hdo, hremains⟩
      rw [cfg.sizeT.add_eq (hfit.2 hroom hdo)] at hremains
      apply largeCksum_isSome
      rwa [hgiven.length_window]
  | top look =>
    obtain ⟨hgiven, -, htracks⟩ := h
    intro hrun
    have hfits := htracks.fits
    apply expandRun_isSome
    rw [hgiven.length_window, cfg.sizeT.sub_eq hgiven.width (by omega)]
    omega
  | update look =>
    obtain ⟨hgiven, -, htracks⟩ := h
    have hfits := htracks.fits
    intro hend
    rw [cfg.sizeT.add_eq (hfits.trans_lt hgiven.width)] at hend
    have hlook : 4 ≤ cfg.smatcher.smallLook := haccept.2.2
    have hlen := hgiven.length_window
    have hsmall : (scksum m.enc.window (m.search.inputPosition + 1)).isSome :=
      scksum_isSome (by omega)
    obtain ⟨s, hs⟩ := Option.isSome_iff_exists.mp hsmall
    have hlarge : (if look.doLarge = true ∧
        cfg.sizeT.add m.search.inputPosition cfg.smatcher.largeLook < m.enc.availIn then
          largeCksumUpdate cfg.sizeT cfg.largeCfg look.lcksum m.enc.window m.search.inputPosition
            cfg.smatcher.largeLook
        else some look.lcksum).isSome := by
      split_ifs with hmore
      · have hwrap := ((hfit hend).2 hmore.1).1
        have hlt := hmore.2
        rw [cfg.sizeT.add_eq hwrap] at hlt
        apply largeCksumUpdate_isSome
        rwa [hlen]
      · rfl
    obtain ⟨l, hl⟩ := Option.isSome_iff_exists.mp hlarge
    have hbyte : m.enc.window[m.search.inputPosition + cfg.smatcher.smallLook]? =
        some (m.enc.window.get ⟨m.search.inputPosition + cfg.smatcher.smallLook, by omega⟩) :=
      List.getElem?_eq_getElem (by omega)
    unfold Looking.next
    rw [hl, hbyte, smallCksumUpdate_eq, hs]
    cases look.doSmall <;> rfl
  | done => trivial

end Top

/-- In every call whose steps meet `Unwrapped`, the local variables are right whenever the matcher
comes to the top of its loop, and no byte past the input is read. -/
theorem matching_right {cfg : MatchCfg} {m₀ m : Matcher} {phase : Phase} (haccept : cfg.Accepted)
    (hgiven : Given cfg m₀) (h : Matching cfg (Unwrapped cfg) m₀ phase m) :
    (∀ look, phase = .top look → AtTop cfg look m) ∧
      (Unwrapped cfg phase m → ReadsInside cfg phase m) := by
  have hinv := h.inv haccept hgiven
  constructor
  · rintro look rfl
    exact hinv.atTop
  · exact fun hfit => hinv.readsInside haccept hfit

def sixMatcher : Matcher :=
  { enc := { flags := { nocompress := true }
             src := .live { blksize := 16, shiftby := 4, maskby := 15, eofKnown := true }
             nextIn := [1, 2, 3, 4, 5, 6]
             availIn := 6 } }

def sixCfg (largeLook : ℕ) : MatchCfg := { smatcher := ⟨largeLook, 1, 4, 1, 1, 0, 0⟩, sizeT := .w32 }

def sixAt (pos : ℕ) : Matcher :=
  { sixMatcher with search := { inputPosition := pos, minMatch := 4 } }

def sixLooking (runC : UInt8) : Looking := { doSmall := false, doLarge := true, run := ⟨1, runC⟩ }

theorem sixMatcher_steps {cfg : MatchCfg} (h : cfg = sixCfg 9 ∨ cfg = sixCfg (2 ^ 32 - 1)) :
    matchStep cfg (.restart sixMatcher.looking) (sixMatcher.stringMatchInit cfg.env) =
        .ok (.top (sixLooking 4)) (sixAt 0) ∧
      matchStep cfg (.top (sixLooking 4)) (sixAt 0) = .ok (.update (sixLooking 4)) (sixAt 0) ∧
      matchStep cfg (.update (sixLooking 4)) (sixAt 0) = .ok (.top (sixLooking 5)) (sixAt 1) := by
  rcases h with rfl | rfl
  · exact ⟨rfl, rfl, rfl⟩
  · exact ⟨rfl, rfl, rfl⟩

theorem sixMatcher_given (largeLook : ℕ) : Given (sixCfg largeLook) sixMatcher :=
  ⟨rfl, show 6 < 2 ^ 32 by decide⟩

/-- A usual look: the run of the matcher to the second byte. -/
theorem sixMatcher_matching :
    Matching (sixCfg 9) (Unwrapped (sixCfg 9)) sixMatcher (.top (sixLooking 5)) (sixAt 1) := by
  obtain ⟨hrestart, htop, hupdate⟩ := sixMatcher_steps (.inl rfl)
  apply Matching.step _ _ hupdate
  · apply Matching.step _ trivial htop
    apply Matching.step (.enter (by decide)) _ hrestart
    exact ⟨show 0 + 4 < 2 ^ 32 by decide, fun _ _ => show 0 + 9 < 2 ^ 32 by decide⟩
  · intro _
    refine ⟨fun _ => show 1 + 1 < 2 ^ 32 by decide, fun _ => ⟨show 0 + 9 < 2 ^ 32 by decide, ?_⟩⟩
    intro _
    exact show 9 < 2 ^ 31 by decide

theorem matching_right_six : AtTop (sixCfg 9) (sixLooking 5) (sixAt 1) :=
  (matching_right (by decide) (sixMatcher_given 9) sixMatcher_matching).1 _ rfl

/-- With a `large_look` of `2 ^ 32 - 1` the sum of it and the position wraps around at the second
byte, and the byte read for the large checksum is far past the input. -/
theorem matching_right_fails :
    ¬ ∀ (cfg : MatchCfg) (m₀ m : Matcher) (phase : Phase), cfg.Accepted → Given cfg m₀ →
      Matching cfg (fun _ _ => True) m₀ phase m →
      (∀ look, phase = .top look → AtTop cfg look m) ∧ ReadsInside cfg phase m := by
  intro h
  obtain ⟨hrestart, htop, hupdate⟩ := sixMatcher_steps (.inr rfl)
  have hsecond : matchStep (sixCfg (2 ^ 32 - 1)) (.top (sixLooking 5)) (sixAt 1) =
      .ok (.update { sixLooking 5 with nextMovePoint := 2 ^ 32 - 1 }) (sixAt 1) := rfl
  have hrun : Matching (sixCfg (2 ^ 32 - 1)) (fun _ _ => True) sixMatcher
      (.update { sixLooking 5 with nextMovePoint := 2 ^ 32 - 1 }) (sixAt 1) := by
    apply Matching.step _ trivial hsecond
    apply Matching.step _ trivial hupdate
    apply Matching.step _ trivial htop
    exact Matching.step (.enter (by decide)) trivial hrestart
  have hread := (h _ _ _ _ (by decide) (sixMatcher_given _) hrun).2 (by decide)
  exact absurd hread (by decide)

end Xdelta
