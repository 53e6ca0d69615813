import Xdelta.Encoder.Buffering
import Xdelta.Encoder.Delta
import Xdelta.Encoder.Queue
import Xdelta.IntegerCodec
import Xdelta.SourceEnd

/-!
# Headers the decoder refuses

The decoder bounds the length of a window, the end of its source window and the lengths of
all windows before it. The encoder cuts its windows by `winsize` and by the chunks of input,
and consults none of these bounds. Its headers are accepted exactly when the windows that the
chunks are cut into keep them.
-/
namespace Xdelta
open Chunked

/-- `srclen` and `srcbase` of the source, if there is one. -/
def Encoder.sourceWindow (e : Encoder) : Option (ℕ × ℕ) :=
  match e.src with
  | .live source => some (source.srclen, source.srcbase)
  | _ => none

def Encoder.choice (e : Encoder) : ℕ × Bool × ℕ × ℕ × Option (ℕ × ℕ) :=
  (e.availIn, e.srcwinDecided, e.matchMinaddr, e.matchMaxaddr, e.sourceWindow)

/-- A match of the source bytes from `lo` to `hi` widens the range in use. -/
def Encoder.widen (e : Encoder) (lo hi : ℕ) : Encoder :=
  { e with
    matchMinaddr := if e.matchMaxaddr = 0 ∨ lo < e.matchMinaddr then lo else e.matchMinaddr
    matchMaxaddr := max e.matchMaxaddr hi }

/-- The greatest length that `xd3_srcwin_setup` may choose. -/
def Encoder.reach (e : Encoder) : ℕ :=
  max (e.matchMaxaddr - e.matchMinaddr)
    (if e.encState = .instr then 0 else e.availIn + (e.availIn >>> 2))

/-- The source window ends below 2^64, and so do the addresses of the target after it. -/
def Encoder.ReachFits (e : Encoder) : Prop :=
  e.matchMinaddr + e.reach < xoff.modulus ∧ e.reach + e.availIn < usize.modulus

/-- What becomes of these fields in the course of a window. `xd3_srcwin_setup` is called once at
most, while matches are still looked for or after the last one, in a state that meets `cond`. -/
inductive Chosen (cond : Encoder → Prop) : Encoder → Prop
  | start {e} : e.availIn < usize.modulus → e.srcwinDecided = false → e.matchMinaddr = 0 →
      e.matchMaxaddr = 0 → (∀ p, e.sourceWindow = some p → p = (0, 0)) → Chosen cond e
  | found {e} (lo hi) : Chosen cond e → lo ≤ hi → hi < xoff.modulus → Chosen cond (e.widen lo hi)
  | setup {e e'} : Chosen cond e → e.srcwinDecided = false → cond e →
      srcwinSetup e = .ok () e' → Chosen cond e'
  | other {e e'} : Chosen cond e → e'.choice = e.choice → Chosen cond e'

/-- The range in use is a range, and the source window chosen keeps the bounds. -/
structure Bounded (e : Encoder) : Prop where
  range : e.matchMinaddr ≤ e.matchMaxaddr
  maxaddr : e.matchMaxaddr < xoff.modulus
  window : ∀ p, e.sourceWindow = some p →
    p.2 + p.1 < xoff.modulus ∧ p.1 + e.availIn < usize.modulus

theorem Bounded.congr {e e' : Encoder} (h : Bounded e) (hc : e'.choice = e.choice) :
    Bounded e' := by
  simp only [Encoder.choice, Prod.mk.injEq] at hc
  obtain ⟨havail, -, hmin, hmax, hwin⟩ := hc
  constructor
  · rw [hmin, hmax]
    exact h.range
  · rw [hmax]
    exact h.maxaddr
  · rw [havail, hwin]
    exact h.window

theorem Bounded.widen {e : Encoder} (h : Bounded e) {lo hi : ℕ} (hle : lo ≤ hi)
    (hhi : hi < xoff.modulus) : Bounded (e.widen lo hi) where
  range := by
    have hrange := h.range
    unfold Encoder.widen
    dsimp only
    split_ifs <;> omega
  maxaddr := max_lt h.maxaddr hhi
  window := h.window

/-- The guess is not longer than the greatest length, whether it is clipped or not. -/
theorem Source.guess_le (source : Source) (base length availIn : ℕ) :
    (source.guess base length availIn).srcbase = base ∧
      (source.guess base length availIn).srclen ≤ max length (availIn + (availIn >>> 2)) := by
  have hwrap : usize.add availIn (availIn >>> 2) ≤ availIn + (availIn >>> 2) := Nat.mod_le _ _
  unfold Source.guess
  dsimp only
  split_ifs with hknown hclip
  all_goals
    dsimp only at *
    exact ⟨rfl, by omega⟩

/-- After the last match, the source window is the range in use. -/
theorem srcwinSetup_instr {e : Encoder} {source : Source} (hsrc : e.src = .live source)
    (hinstr : e.encState = .instr) (hne : e.matchMaxaddr ≠ 0) :
    srcwinSetup e = .ok () { e with
      srcwinDecided := true
      src := .live { source with
        srcbase := e.matchMinaddr
        srclen := xoff.sub e.matchMaxaddr e.matchMinaddr }
      taroff := xoff.sub e.matchMaxaddr e.matchMinaddr } := by
  unfold srcwinSetup
  rw [hsrc]
  dsimp only
  rw [if_neg fun h => hne h.2, if_pos hinstr]

/-- The step: `xd3_srcwin_setup` chooses within the reach. -/
theorem Bounded.setup {e e' : Encoder} (h : Bounded e) (hfits : e.ReachFits)
    (hok : srcwinSetup e = .ok () e') : Bounded e' := by
  obtain ⟨hend, htarget⟩ := hfits
  have hlength : xoff.sub e.matchMaxaddr e.matchMinaddr = e.matchMaxaddr - e.matchMinaddr :=
    xoff.sub_eq h.maxaddr h.range
  unfold srcwinSetup at hok
  split at hok
  · rename_i source hsrc
    dsimp only at hok
    split at hok
    · cases hok
      exact ⟨h.range, h.maxaddr, h.window⟩
    · cases hok
      refine ⟨h.range, h.maxaddr, fun p hp => ?_⟩
      cases hp
      rw [hlength]
      unfold Encoder.reach at hend htarget
      split_ifs at hend htarget ⊢ with hinstr
      · simp only [Nat.max_zero] at hend htarget
        exact ⟨hend, htarget⟩
      · obtain ⟨hbase, hlen⟩ := source.guess_le e.matchMinaddr (e.matchMaxaddr - e.matchMinaddr)
          e.availIn
        dsimp only
        rw [hbase]
        exact ⟨by omega, by omega⟩
  · cases hok

theorem Chosen.bounded {e : Encoder} (h : Chosen Encoder.ReachFits e) : Bounded e := by
  induction h with
  | start havail _ hmin hmax hwin =>
    refine ⟨by rw [hmin, hmax], by rw [hmax]; exact xoff.modulus_pos, fun p hp => ?_⟩
    rw [hwin p hp, Nat.zero_add, Nat.zero_add]
    exact ⟨xoff.modulus_pos, havail⟩
  | found lo hi _ hle hhi ih => exact ih.widen hle hhi
  | setup _ _ hfits hok ih => exact ih.setup hfits hok
  | other _ hc ih => exact ih.congr hc

theorem Bounded.usedSource {e : Encoder} (h : Bounded e) (havail : e.availIn < usize.modulus)
    {hdr : WinHdr} (hsource : hdr.source = e.usedSource) (htgt : hdr.tgtLen = e.availIn) :
    hdr.srcbase + hdr.srclen < xoff.modulus ∧ hdr.srclen + hdr.tgtLen < usize.modulus := by
  unfold WinHdr.srcbase WinHdr.srclen
  rw [hsource, htgt]
  cases hused : e.usedSource with
  | none => exact ⟨xoff.modulus_pos, by rwa [Option.map_none, Option.getD_none, Nat.zero_add]⟩
  | some p =>
    refine h.window p ?_
    unfold Encoder.usedSource at hused
    unfold Encoder.sourceWindow
    cases hsrc : e.src with
    | live source =>
      simp only [hsrc] at hused
      split at hused
      · exact hused
      · cases hused
    | null => simp only [hsrc] at hused; cases hused
    | dead => simp only [hsrc] at hused; cases hused

/-- The lengths of the windows made of a chunk of `n` bytes while `held` bytes are held. -/
def chunkSizes (winsize : ℕ) (flush : Bool) (held n : ℕ) : List ℕ :=
  if held = 0 ∧ (winsize ≤ n ∨ flush = true) then [n]
  else if winsize < held + n then
    if held + n - winsize < winsize ∧ flush = false then [winsize]
    else [winsize, held + n - winsize]
  else if held + n < winsize ∧ flush = false then []
  else [held + n]

def windowSizes (winsize : ℕ) : ℕ → List ℕ → List ℕ
  | _, [] => []
  | held, [n] => chunkSizes winsize true held n
  | held, n :: ns => chunkSizes winsize false held n ++ windowSizes winsize (heldAfter winsize held n) ns

section Sizes
variable {winsize : ℕ} {flush : Bool} {next : Option (List UInt8)} {held chunk : List UInt8}
  {windows : List (List UInt8)} {s : EncInput}

theorem encodeChunk_sizes (hw : winsize < usize.modulus) (hroom : held = [] ∨ held.length < winsize)
    (hrun : encodeChunk winsize flush chunk ⟨next, held, none⟩ = some (windows, s)) :
    windows.map List.length = chunkSizes winsize flush held.length chunk.length := by
  unfold chunkSizes
  by_cases hdirect : held.length = 0 ∧ (winsize ≤ chunk.length ∨ flush = true)
  · rw [if_pos hdirect]
    obtain ⟨hempty, hlong⟩ := hdirect
    cases List.length_eq_zero_iff.mp hempty
    rw [encodeChunk_direct hlong] at hrun
    cases hrun
    rfl
  · rw [if_neg hdirect]
    have hle : held.length ≤ winsize := by
      rcases hroom with rfl | hlt
      · exact Nat.zero_le _
      · exact hlt.le
    have hheld : held ≠ [] ∨ (chunk.length < winsize ∧ flush = false) := by
      by_cases hempty : held = []
      · right
        simpa [hempty] using hdirect
      · exact .inl hempty
    rw [encodeChunk_gathers hw hle hheld] at hrun
    have hleft : (chunk.drop (winsize - held.length)).length = held.length + chunk.length - winsize := by
      rw [List.length_drop]
      omega
    by_cases hlong : winsize - held.length < chunk.length
    · rw [if_pos hlong] at hrun
      rw [if_pos (by omega)]
      by_cases hfits : (chunk.drop (winsize - held.length)).length ≤ winsize
      · rw [windowsFrom_spill hw _ hfits, hleft] at hrun
        have hwindow : (held ++ chunk.take (winsize - held.length)).length = winsize := by
          rw [List.length_append, List.length_take]
          omega
        split_ifs at hrun ⊢ with hshort
        · cases hrun
          rw [List.map_singleton, hwindow]
        · cases hrun
          rw [List.map_cons, List.map_singleton, hwindow, hleft]
      · rw [windowsFrom_overrun _ (Nat.lt_of_not_le hfits)] at hrun
        cases hrun
    · rw [if_neg hlong] at hrun
      rw [if_neg (by omega)]
      split_ifs at hrun ⊢ with hshort
      · cases hrun
        rfl
      · cases hrun
        rw [List.map_singleton, List.length_append]

theorem encodeChunks_sizes (hw : winsize < usize.modulus) (chunks : List (List UInt8))
    (next : Option (List UInt8)) (held : List UInt8) (hroom : held = [] ∨ held.length < winsize)
    {windows : List (List UInt8)}
    (hrun : encodeChunks winsize chunks ⟨next, held, none⟩ = some windows) :
    windows.map List.length = windowSizes winsize held.length (chunks.map List.length) := by
  induction chunks generalizing next held windows with
  | nil =>
    cases hrun
    rfl
  | cons chunk chunks ih =>
    cases chunks with
    | nil =>
      rw [encodeChunks, Option.map_eq_some_iff] at hrun
      obtain ⟨⟨windows', s⟩, hchunk, rfl⟩ := hrun
      exact encodeChunk_sizes hw hroom hchunk
    | cons second chunks =>
      rw [encodeChunks, Option.bind_eq_some_iff] at hrun
      · obtain ⟨⟨first, s⟩, hchunk, hrest⟩ := hrun
        rw [Option.map_eq_some_iff] at hrest
        obtain ⟨later, hlater, rfl⟩ := hrest
        have hfits : held ≠ [] → held.length + chunk.length ≤ 2 * winsize := by
          intro hne
          by_contra hlong
          have hle : held.length ≤ winsize := by
            rcases hroom with rfl | hlt
            · exact absurd rfl hne
            · exact hlt.le
          rw [encodeChunk_overruns hw hle hne (Nat.lt_of_not_le hlong)] at hchunk
          cases hchunk
        obtain ⟨windows', next', held', hkeeps, -, -, hheld⟩ :=
          @encodeChunk_keeps winsize false next held chunk hw hroom hfits
        cases hkeeps.symm.trans hchunk
        have hroom' : held' = [] ∨ held'.length < winsize := by
          rcases heldAfter_room winsize held.length chunk.length with h | h
          · exact .inl (List.length_eq_zero_iff.1 ((hheld rfl).trans h))
          · exact .inr ((hheld rfl).trans_lt h)
        rw [List.map_append, encodeChunk_sizes hw hroom hchunk, ih next' held' hroom' hlater,
          hheld rfl]
        rfl
      · simp

end Sizes

/-- The decoder waits for the next window after one whose header left the fields `c`: the
sections, the instructions and the end of the window change none of these. -/
structure Resumed {σ : Type} (c c' : Core σ) : Prop where
  decState : c'.decState = .winind
  decWinstart : c'.decWinstart = c.decWinstart
  decTgtlen : c'.win.decTgtlen = c.win.decTgtlen

/-- The header states read the bytes `b` and report a window; `c` and `c'` are the fields before
and after. -/
def Reported {σ : Type} (env : Env σ) (b : List UInt8) (c c' : Core σ) : Prop :=
  ∀ rest, ∃ inp, decodeHeader env ⟨⟨b ++ rest, 0, 0⟩, c⟩ =
    .stop ⟨if c'.currentWindow = 0 then .gotheader else .winstart, none⟩ ⟨inp, c'⟩

/-- One window after the other is reported. -/
inductive HeadersPass {σ : Type} (env : Env σ) : Core σ → List (List UInt8) → Prop
  | nil {c} : HeadersPass env c []
  | cons {c c' b bs} : Reported env b c c' → (∀ c'', Resumed c' c'' → HeadersPass env c'' bs) →
      HeadersPass env c (b :: bs)

/-- No window is longer than the decoder's limit, and each starts, after those before it, at an
offset that `xoff_t` holds. -/
def WithinLimits : ℕ → List ℕ → Prop
  | _, [] => True
  | start, n :: ns => start < xoff.modulus ∧ n ≤ hardMaxWinsize ∧ WithinLimits (start + n) ns

instance : (start : ℕ) → (ns : List ℕ) → Decidable (WithinLimits start ns)
  | _, [] => .isTrue trivial
  | start, n :: ns =>
    have := instDecidableWithinLimits (start + n) ns
    inferInstanceAs (Decidable (_ ∧ _ ∧ _))

section Windows
variable {σ : Type} {env : Env σ}

/-- A decoder before a window that starts at `start`. -/
structure Before (start : ℕ) (c : Core σ) : Prop where
  winstart : c.decWinstart < xoff.modulus
  sum : c.decWinstart + c.win.decTgtlen = start

/-- The header of one window: refused, or reported with the next one starting after it. -/
theorem WinHdr.reported_or_refused (h : WinHdr) (hf : h.Fits) (hplain : h.delInd = 0)
    (hcopy : h.srcbase + h.srclen < xoff.modulus) (htarget : h.srclen + h.tgtLen < usize.modulus)
    {start : ℕ} {c : Core σ} (hc : Before start c) (rest : List UInt8) (t : ℕ) :
    Reports (start < xoff.modulus ∧ h.tgtLen ≤ hardMaxWinsize) (h.decoded c) rest
      (fromWinind ⟨⟨h.bytes ++ rest, t, 0⟩, c⟩) := by
  refine (h.decodes hf c rest t).of_iff ?_
  have hover : xoff.overflow c.decWinstart c.win.decTgtlen = false ↔ start < xoff.modulus := by
    rw [← Bool.not_eq_true, xoff.overflow_iff hc.winstart, hc.sum, Nat.not_le]
  constructor
  · intro ha
    exact ⟨hover.mp ha.winstart, ha.hard⟩
  · rintro ⟨hstart, hhard⟩
    exact ⟨hover.mpr hstart, hcopy, htarget, hhard, fun hne => absurd hplain hne⟩

/-- What is reported leaves the decoder before the window after it. -/
theorem Before.decoded {start : ℕ} {c : Core σ} (hc : Before start c) (hstart : start < xoff.modulus)
    (h : WinHdr) : Before (start + h.tgtLen) (h.decoded c) := by
  have hadd : xoff.add c.decWinstart c.win.decTgtlen = start := by
    rw [xoff.add_eq (by rw [hc.sum]; exact hstart), hc.sum]
  constructor
  · exact hadd.trans_lt hstart
  · exact congrArg (· + h.tgtLen) hadd

theorem Before.resumed {start : ℕ} {c c' : Core σ} (hc : Before start c) (h : Resumed c c') :
    Before start c' := by
  constructor
  · rw [h.decWinstart]
    exact hc.winstart
  · rw [h.decWinstart, h.decTgtlen]
    exact hc.sum

/-- A window in front of others: it is reported if it keeps the limits, and then they are read. -/
theorem headersPass_cons_iff {w : EncodedWindow} (hplain : w.hdr.delInd = 0)
    (hcopy : w.hdr.srcbase + w.hdr.srclen < xoff.modulus)
    (htarget : w.hdr.srclen + w.hdr.tgtLen < usize.modulus) {start : ℕ} {c c₀ : Core σ}
    (hc : Before start c₀) {b : List UInt8} {bs : List (List UInt8)}
    (hread : ∀ rest, ∃ t, decodeHeader env ⟨⟨b ++ rest, 0, 0⟩, c⟩ =
      fromWinind ⟨⟨w.hdr.bytes ++ (w.sections ++ rest), t, 0⟩, c₀⟩) :
    HeadersPass env c (b :: bs) ↔ (start < xoff.modulus ∧ w.hdr.tgtLen ≤ hardMaxWinsize) ∧
      ∀ c'', Resumed (w.hdr.decoded c₀) c'' → HeadersPass env c'' bs := by
  constructor
  · intro hpass
    cases hpass with
    | cons hreported hlater =>
      obtain ⟨t, ht⟩ := hread []
      obtain ⟨inp, hinp⟩ := hreported []
      rcases w.hdr.reported_or_refused w.fits hplain hcopy htarget hc (w.sections ++ []) t with
        ⟨hok, t', hstop⟩ | ⟨-, e, s, hstop, hno⟩
      · obtain ⟨-, hsame⟩ := Outcome.stop.inj (hinp.symm.trans (ht.trans hstop))
        cases hsame
        exact ⟨hok, hlater⟩
      · obtain ⟨hret, -⟩ := Outcome.stop.inj (hinp.symm.trans (ht.trans hstop))
        rw [← hret] at hno
        dsimp only at hno
        split at hno <;> cases hno
  · rintro ⟨hok, hlater⟩
    refine .cons (fun rest => ?_) hlater
    obtain ⟨t, ht⟩ := hread rest
    rcases w.hdr.reported_or_refused w.fits hplain hcopy htarget hc (w.sections ++ rest) t with
      ⟨-, t', hstop⟩ | ⟨hnot, -⟩
    · exact ⟨_, ht.trans hstop⟩
    · exact absurd hok hnot

/-- The streams of a run without secondary compression, whose source windows keep the bounds. -/
structure Plain (e : Encoder) : Prop where
  flushable : e.Flushable
  bounded : Bounded e
  secType : e.secType = none

theorem Plain.delInd {e : Encoder} (h : Plain e) : e.delInd = 0 := by
  have hnone : ∀ k, e.compressed k = none := by
    intro k
    unfold Encoder.compressed
    rw [h.secType]
  unfold Encoder.delInd
  simp [hnone]

/-- The step: the window of a stream in front of others, once the file header has been read. -/
theorem Plain.headersPass_iff {e : Encoder} (h : Plain e) {start : ℕ} {c c₀ : Core σ}
    (hc : Before start c₀) {b : List UInt8} {bs : List (List UInt8)} {ns : List ℕ}
    (hread : ∀ rest, ∃ t, decodeHeader env ⟨⟨b ++ rest, 0, 0⟩, c⟩ =
      fromWinind ⟨⟨(e.encoded h.flushable).bytes ++ rest, t, 0⟩, c₀⟩)
    (hlater : ∀ c'' : Core σ, Before (start + e.availIn) c'' → c''.decState = .winind →
      (HeadersPass env c'' bs ↔ WithinLimits (start + e.availIn) ns)) :
    HeadersPass env c (b :: bs) ↔ WithinLimits start (e.availIn :: ns) := by
  have hbounds := @Bounded.usedSource e h.bounded h.flushable.availIn
    (e.encoded h.flushable).hdr rfl rfl
  have hread' : ∀ rest, ∃ t, decodeHeader env ⟨⟨b ++ rest, 0, 0⟩, c⟩ =
      fromWinind ⟨⟨(e.encoded h.flushable).hdr.bytes ++ ((e.encoded h.flushable).sections ++ rest),
        t, 0⟩, c₀⟩ := by
    intro rest
    obtain ⟨t, ht⟩ := hread rest
    refine ⟨t, ?_⟩
    rw [ht, EncodedWindow.bytes, List.append_assoc]
  rw [headersPass_cons_iff h.delInd hbounds.1 hbounds.2 hc hread', WithinLimits, and_assoc]
  refine and_congr_right fun hstart => and_congr_right fun _ => ?_
  have hnext := hc.decoded hstart (e.encoded h.flushable).hdr
  constructor
  · intro hall
    have hresumed : Resumed ((e.encoded h.flushable).hdr.decoded c₀)
        { (e.encoded h.flushable).hdr.decoded c₀ with decState := .winind } := ⟨rfl, rfl, rfl⟩
    exact (hlater _ (hnext.resumed hresumed) rfl).mp (hall _ hresumed)
  · intro hlimits c'' hresumed
    exact (hlater c'' (hnext.resumed hresumed) hresumed.decState).mpr hlimits

theorem laterHeaders_iff {es : List Encoder} (h : ∀ e ∈ es, Plain e)
    (hw : ∀ e ∈ es, e.currentWindow ≠ 0) {start : ℕ} {c : Core σ} (hc : Before start c)
    (hstate : c.decState = .winind) :
    HeadersPass env c (es.map Encoder.flushed) ↔ WithinLimits start (es.map (·.availIn)) := by
  induction es generalizing start c with
  | nil => exact iff_of_true .nil trivial
  | cons e es ih =>
    have he := h e List.mem_cons_self
    refine he.headersPass_iff hc (fun rest => ⟨0, ?_⟩) fun c'' hc'' hstate'' =>
      ih (fun e he => h e (List.mem_cons_of_mem _ he)) (fun e he => hw e (List.mem_cons_of_mem _ he))
        hc'' hstate''
    rw [Encoder.flushed_eq he.flushable, Encoder.written, if_neg (hw e List.mem_cons_self),
      List.nil_append]
    unfold decodeHeader
    rw [hstate]

theorem headers_iff {es : List Encoder} (hes : Flushes es) (h : ∀ e ∈ es, Plain e) (flags : Flags)
    (src : Option Source) :
    HeadersPass env (initStream flags src : Stream σ).core (es.map Encoder.flushed) ↔
      WithinLimits 0 (es.map (·.availIn)) := by
  cases es with
  | nil => exact iff_of_true .nil trivial
  | cons e es =>
    have he := h e List.mem_cons_self
    have hid : e.fileHdr.secId = none := by
      unfold Encoder.fileHdr
      rw [he.secType, Option.map_none]
    have hw : ∀ e ∈ es, e.currentWindow ≠ 0 := by
      intro e' he'
      obtain ⟨k, hk⟩ := List.getElem?_of_mem he'
      rw [hes.window (k + 1) e' hk]
      exact Nat.succ_ne_zero k
    rcases e.fileHdr.decodes he.flushable.appheader env
        (c := (initStream flags src : Stream σ).core) rfl rfl 0 with
      ⟨⟨t, hfile⟩, -⟩ | ⟨-, id, hid', -⟩
    · have hbefore : Before 0 (e.fileHdr.decoded env (initStream flags src : Stream σ).core t) :=
        ⟨xoff.modulus_pos, rfl⟩
      refine he.headersPass_iff hbefore (fun rest => ⟨t, ?_⟩) fun c'' hc'' hstate'' =>
        laterHeaders_iff (fun e he => h e (List.mem_cons_of_mem _ he)) hw hc'' hstate''
      rw [Encoder.flushed_eq he.flushable, Encoder.written, if_pos (hes.window 0 e rfl),
        List.append_assoc]
      exact hfile _
    · rw [hid] at hid'
      cases hid'

end Windows

/-- A run of an encoder without secondary compression on chunks of input, the last of which is
flushed: the streams about to write the windows that the chunks are cut into, each with a source
window that was chosen in a state that meets `cond`. -/
structure EncoderRun (cond : Encoder → Prop) (winsize : ℕ) (chunks : List (List UInt8))
    (es : List Encoder) : Prop where
  winsize_pos : 0 < winsize
  winsize_le : winsize ≤ maxSrcWinsz
  windows : encodeChunks winsize chunks {} = some (es.map (·.nextIn))
  availIn : ∀ e ∈ es, e.availIn = e.nextIn.length
  flushes : Flushes es
  chosen : ∀ e ∈ es, Chosen cond e
  secType : ∀ e ∈ es, e.secType = none

theorem EncoderRun.plain {winsize : ℕ} {chunks : List (List UInt8)} {es : List Encoder}
    (h : EncoderRun Encoder.ReachFits winsize chunks es) : ∀ e ∈ es, Plain e :=
  fun e he => ⟨h.flushes.flushable e he, (h.chosen e he).bounded, h.secType e he⟩

theorem EncoderRun.sizes {cond : Encoder → Prop} {winsize : ℕ} {chunks : List (List UInt8)}
    {es : List Encoder} (h : EncoderRun cond winsize chunks es) :
    es.map (·.availIn) = windowSizes winsize 0 (chunks.map List.length) := by
  have hw : winsize < usize.modulus := h.winsize_le.trans_lt (by decide)
  have hsizes := encodeChunks_sizes hw chunks none [] (.inl rfl) h.windows
  rw [List.map_map] at hsizes
  exact (List.map_congr_left h.availIn).trans hsizes

/-- The headers of a run pass the decoder's checks exactly when the chunks are cut into windows
within the decoder's limits. -/
theorem headers_pass_iff {σ : Type} (env : Env σ) (flags : Flags) (src : Option Source)
    {winsize : ℕ} {chunks : List (List UInt8)} {es : List Encoder}
    (run : EncoderRun Encoder.ReachFits winsize chunks es) :
    HeadersPass env (initStream flags src : Stream σ).core (es.map Encoder.flushed) ↔
      WithinLimits 0 (windowSizes winsize 0 (chunks.map List.length)) := by
  rw [headers_iff run.flushes run.plain, run.sizes]

def copied : Encoder where
  encState := .instr
  src := .live { blksize := 16, onblk := 8, shiftby := 4, maskby := 15, srclen := 4, srcbase := 3 }
  nextIn := [4, 5, 6, 7]
  availIn := 4
  srcwinDecided := true
  matchMinaddr := 3
  matchMaxaddr := 7
  taroff := 4
  inst := [20]
  addr := [0]

theorem encoderRun_copied : EncoderRun Encoder.ReachFits 8 [[4, 5, 6, 7]] [copied] where
  winsize_pos := by decide
  winsize_le := by decide
  windows := by decide
  availIn e he := by
    cases List.mem_singleton.mp he
    rfl
  flushes := by
    constructor
    · intro e he
      cases List.mem_singleton.mp he
      refine ⟨rfl, by decide, fun p hp => ?_, by decide, by decide, fun app happ => ?_, by decide⟩
      · cases hp
        decide
      · cases happ
    · intro k e he
      cases k with
      | zero => cases he; rfl
      | succ k => cases he
  chosen e he := by
    cases List.mem_singleton.mp he
    let fresh : Encoder := { copied with
      src := .live { blksize := 16, onblk := 8, shiftby := 4, maskby := 15 }
      srcwinDecided := false
      matchMinaddr := 0
      matchMaxaddr := 0
      taroff := 0 }
    have hstart : Chosen Encoder.ReachFits fresh := by
      refine .start (by decide) rfl rfl rfl fun p hp => ?_
      cases hp
      rfl
    have hfits : (fresh.widen 3 7).ReachFits := ⟨by decide, by decide⟩
    have hsetup : srcwinSetup (fresh.widen 3 7) = .ok () copied := by
      have hlength : xoff.sub 7 3 = 4 := by decide
      have hchosen := @srcwinSetup_instr (fresh.widen 3 7) _ rfl rfl (by decide)
      rw [show (fresh.widen 3 7).matchMaxaddr = 7 from rfl,
        show (fresh.widen 3 7).matchMinaddr = 3 from rfl, hlength] at hchosen
      exact hchosen
    exact .setup (.found 3 7 hstart (by decide) (by decide)) rfl hfits hsetup
  secType e he := by
    cases List.mem_singleton.mp he
    rfl

/-- The header of a window of four bytes with a source window passes. -/
theorem headers_pass_iff_copied :
    HeadersPass ({} : Env Unit) (initStream {} none : Stream Unit).core
        ([copied].map Encoder.flushed) ↔
      WithinLimits 0 (windowSizes 8 0 [4]) :=
  headers_pass_iff {} {} none encoderRun_copied

/-- A stream about to write `n` zero bytes as one RUN. -/
def zeroRun (n : ℕ) : Encoder where
  encState := .instr
  nextIn := List.replicate n 0
  availIn := n
  data := [0]
  inst := 0 :: emitInteger n

/-- A chunk that is flushed at once is one window, however long it is. -/
theorem encoderRun_zeroRun {winsize n : ℕ} (hpos : 0 < winsize) (hle : winsize ≤ maxSrcWinsz)
    (hn : n < usize.modulus) :
    EncoderRun Encoder.ReachFits winsize [List.replicate n 0] [zeroRun n] where
  winsize_pos := hpos
  winsize_le := hle
  windows := by
    rw [encodeChunks, show ({} : EncInput) = ⟨none, [], none⟩ from rfl, encodeChunk_direct (.inr rfl)]
    rfl
  availIn e he := by
    cases List.mem_singleton.mp he
    exact List.length_replicate.symm
  flushes := by
    constructor
    · intro e he
      cases List.mem_singleton.mp he
      have hlen := emitInteger_length_le n
      refine ⟨rfl, fun hdead => ?_, fun p hp => ?_, hn, Nat.two_pow_pos 32, fun app happ => ?_, ?_⟩
      · cases hdead
      · cases hp
      · cases happ
      · change (emitInteger n).length + 1 + 0 + 1 < usize.modulus
        have hmod : usize.modulus = 2 ^ 64 := rfl
        omega
    · intro k e he
      cases k with
      | zero => cases he; rfl
      | succ k => cases he
  chosen e he := by
    cases List.mem_singleton.mp he
    refine .start hn rfl rfl rfl fun p hp => ?_
    cases hp
  secType e he := by
    cases List.mem_singleton.mp he
    rfl

/-- The chunk of 2^26 + 1 bytes that is flushed with the default `winsize` becomes a window whose
header the decoder refuses. -/
theorem headers_refused :
    EncoderRun Encoder.ReachFits (2 ^ 23) [List.replicate (2 ^ 26 + 1) 0] [zeroRun (2 ^ 26 + 1)] ∧
      ¬ HeadersPass ({} : Env Unit) (initStream {} none : Stream Unit).core
        ([zeroRun (2 ^ 26 + 1)].map Encoder.flushed) := by
  have run := @encoderRun_zeroRun (2 ^ 23) (2 ^ 26 + 1) (by decide) (by decide) (by decide)
  refine ⟨run, fun hpass => ?_⟩
  have hlimits := (headers_iff run.flushes run.plain {} none).mp hpass
  exact absurd hlimits (by decide)

end Xdelta
