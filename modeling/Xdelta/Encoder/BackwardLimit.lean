import Xdelta.Encoder.EncodeSearch

/-!
# The limit of a match backwards

A match in the source may reach back over what is queued, to the bytes that are encoded
already, or with `XD3_BEGREEDY` to the last match only. The limit is at or before the
input position, unless lazy matching has gone on inside the last match.
-/
namespace Xdelta
open Chunked

structure Emitted (inst : Rinst) (m m' : Matcher) : Prop where
  search : m'.search = m.search
  flags : m'.enc.flags = m.enc.flags
  used : m'.enc.ioptUsed = m.enc.ioptUsed ++ [inst]
  unlimited : m'.enc.ioptUnlimited = m.enc.ioptUnlimited
  unencoded : m'.enc.unencodedOffset = m.enc.unencodedOffset
  availIn : m'.enc.availIn = m.enc.availIn

theorem ioptGetSlot_emitted {m : Matcher} (h : m.enc.ioptUnlimited = true) (inst : Rinst) :
    (onEnc (ioptGetSlot inst) m).Goes (fun _ m' => Emitted inst m m') (fun _ => False)
      fun _ _ => False := by
  apply Outcome.Goes.mapState
  change (ioptGetSlot inst m.enc).Goes _ _ _
  unfold ioptGetSlot
  apply Outcome.Goes.andThen (Q := fun _ e => ∃ free size,
    e = { m.enc with ioptFree := free, ioptSize := size })
  · rw [if_pos h]
    split_ifs
    · exact ⟨_, _, rfl⟩
    · exact ⟨_, _, rfl⟩
  · rintro _ e ⟨free, size, rfl⟩
    split_ifs
    · trivial
    · exact ⟨rfl, rfl, rfl, rfl, rfl, rfl⟩

theorem Emitted.lastMatched {inst : Rinst} {m m' : Matcher} (h : Emitted inst m m') :
    m'.enc.ioptLastMatched = usize.add inst.pos inst.size := by
  unfold Encoder.ioptLastMatched
  rw [h.used, List.getLast?_append_cons]
  rfl

structure Loose (m : Matcher) : Prop where
  unlimited : m.enc.ioptUnlimited = true
  unencoded : m.enc.unencodedOffset = 0
  position : m.search.inputPosition < usize.modulus
  width : m.enc.availIn < usize.modulus

structure Limits (m : Matcher) : Prop extends Loose m where
  greedy : m.enc.flags.begreedy = true → m.enc.ioptLastMatched ≤ m.search.inputPosition

def Idle (m : Matcher) : Prop := m.search.matchState = .target ∨ m.search.matchState = .searching

/-- The match extended stays within its limit, and the limit before the position. -/
structure Backed (m : Matcher) : Prop where
  back : m.search.matchBack ≤ m.search.matchMaxback
  limit : m.search.matchMaxback + m.greedyOrNot ≤ m.search.inputPosition

def Phase.Kept : Phase → Matcher → Prop
  | .restart _, m => Limits m ∧ Idle m ∧ m.enc.availIn ≠ 0
  | .top _, m => Limits m ∧ Idle m ∧ m.enc.availIn ≠ 0
  | .update _, m => Loose m ∧ Idle m ∧ m.enc.availIn ≠ 0
  | .done, m => Idle m

def HeldUp (m : Matcher) : Prop := Limits m ∧ (Idle m ∨ Backed m ∧ m.enc.availIn ≠ 0)

def Stage.Kept : Stage → Matcher → Prop
  | Stage.entry, m => Limits m ∧ (Idle m ∨ Backed m ∧ m.enc.availIn ≠ 0 ∧ m.enc.src ≠ .null)
  | Stage.phase place, m => place.Kept m

def Matcher.bounds (m : Matcher) : (EncFlags × List Rinst × Bool × ℕ × ℕ) × ℕ × ℕ :=
  ((m.enc.flags, m.enc.ioptUsed, m.enc.ioptUnlimited, m.enc.unencodedOffset, m.enc.availIn),
    m.search.inputPosition, m.search.matchMaxback)

def Matcher.progress (m : Matcher) :
    ((EncFlags × List Rinst × Bool × ℕ × ℕ) × ℕ × ℕ) × MatchState × ℕ :=
  (m.bounds, m.search.matchState, m.search.matchBack)

theorem progress_ignoresSource : IgnoresSource Matcher.progress := by
  constructor <;> intros <;> rfl

section Keeping

variable {cfg : MatchCfg} {look : Looking} {m m' : Matcher}

theorem Matcher.bounds_eq (h : m'.bounds = m.bounds) : m'.enc.flags = m.enc.flags ∧
    m'.enc.ioptUsed = m.enc.ioptUsed ∧ m'.enc.ioptUnlimited = m.enc.ioptUnlimited ∧
    m'.enc.unencodedOffset = m.enc.unencodedOffset ∧ m'.enc.availIn = m.enc.availIn ∧
    m'.search.inputPosition = m.search.inputPosition ∧
    m'.search.matchMaxback = m.search.matchMaxback := by
  simpa [Matcher.bounds, and_assoc] using h

theorem Loose.congr (h : Loose m) (hb : m'.bounds = m.bounds) : Loose m' := by
  obtain ⟨-, -, hunlimited, hunencoded, havail, hpos, -⟩ := Matcher.bounds_eq hb
  constructor
  · rw [hunlimited]
    exact h.unlimited
  · rw [hunencoded]
    exact h.unencoded
  · rw [hpos]
    exact h.position
  · rw [havail]
    exact h.width

theorem Matcher.lastMatched_congr (hb : m'.enc.ioptUsed = m.enc.ioptUsed) :
    m'.enc.ioptLastMatched = m.enc.ioptLastMatched := by
  rw [Encoder.ioptLastMatched, hb]
  rfl

theorem Limits.congr (h : Limits m) (hb : m'.bounds = m.bounds) : Limits m' := by
  obtain ⟨hflags, hused, -, -, -, hpos, -⟩ := Matcher.bounds_eq hb
  refine ⟨h.toLoose.congr hb, ?_⟩
  rw [hflags, Matcher.lastMatched_congr hused, hpos]
  exact h.greedy

theorem Matcher.greedyOrNot_congr (hb : m'.bounds = m.bounds) : m'.greedyOrNot = m.greedyOrNot := by
  obtain ⟨hflags, hused, -, hunencoded, -, -, -⟩ := Matcher.bounds_eq hb
  unfold Matcher.greedyOrNot
  rw [hflags, Matcher.lastMatched_congr hused, hunencoded]

theorem Backed.congr (h : Backed m) (hb : m'.bounds = m.bounds)
    (hback : m'.search.matchBack = m.search.matchBack) : Backed m' := by
  obtain ⟨-, -, -, -, -, hpos, hmax⟩ := Matcher.bounds_eq hb
  constructor
  · rw [hback, hmax]
    exact h.back
  · rw [hmax, hpos, Matcher.greedyOrNot_congr hb]
    exact h.limit

/-- The subtraction that makes `match_maxback` does not underflow. -/
theorem Limits.le_position (h : Limits m) : m.greedyOrNot ≤ m.search.inputPosition := by
  unfold Matcher.greedyOrNot
  split_ifs with hflag
  · exact h.greedy hflag
  · rw [h.unencoded]
    exact Nat.zero_le _

/-- A match that has been set up, or rejected. -/
structure Ready (m : Matcher) (ready : Bool) (m' : Matcher) : Prop where
  enc : m'.enc = m.enc
  position : m'.search.inputPosition = m.search.inputPosition
  back : m'.search.matchBack = 0
  limit : m'.search.matchMaxback + m.greedyOrNot ≤ m.search.inputPosition
  idle : ready = false → Idle m'

theorem sourceMatchSetup_ready (h : Limits m) (srcpos : ℕ) :
    (sourceMatchSetup srcpos m).Goes (fun ready m' => Ready m ready m') (fun _ => False)
      fun _ _ => False := by
  have hle := h.le_position
  have hsub : usize.sub m.search.inputPosition
      (if m.enc.flags.begreedy = true then m.enc.ioptLastMatched else m.enc.unencodedOffset) =
      m.search.inputPosition - m.greedyOrNot := usize.sub_eq h.position hle
  have hroom : m.search.inputPosition - m.greedyOrNot + m.greedyOrNot ≤ m.search.inputPosition := by
    omega
  unfold sourceMatchSetup
  cases m.enc.src with
  | null => trivial
  | dead => trivial
  | live src =>
    dsimp only
    rw [hsub]
    generalize m.search.inputPosition - m.greedyOrNot = room at hroom
    split_ifs
    · exact ⟨rfl, rfl, rfl, by simpa using hle, fun _ => .inr rfl⟩
    · exact ⟨rfl, rfl, rfl, by simpa using hle, fun _ => .inr rfl⟩
    · exact ⟨rfl, rfl, rfl, hroom.trans' (Nat.add_le_add_right (min_le_left _ _) _), nofun⟩
    · exact ⟨rfl, rfl, rfl, hroom.trans' (Nat.add_le_add_right (min_le_left _ _) _), nofun⟩
    · exact ⟨rfl, rfl, rfl, hroom, fun _ => .inr rfl⟩
    · exact ⟨rfl, rfl, rfl, hroom.trans' (Nat.add_le_add_right (min_le_left _ _) _), nofun⟩

theorem Ready.bounds {ready : Bool} (h : Ready m ready m') : Limits m → Limits m' := by
  intro hm
  constructor
  · constructor
    · rw [h.enc]
      exact hm.unlimited
    · rw [h.enc]
      exact hm.unencoded
    · rw [h.position]
      exact hm.position
    · rw [h.enc]
      exact hm.width
  · rw [h.enc, h.position]
    exact hm.greedy

theorem Ready.backed {ready : Bool} (h : Ready m ready m') : Backed m' := by
  constructor
  · rw [h.back]
    exact Nat.zero_le _
  · have hgreedy : m'.greedyOrNot = m.greedyOrNot := by
      unfold Matcher.greedyOrNot
      rw [h.enc]
    rw [hgreedy, h.position]
    exact h.limit

def Reaching (m m' : Matcher) : Prop :=
  m'.bounds = m.bounds ∧ m'.search.matchBack ≤ m'.search.matchMaxback

theorem Reaching.backed (h : Reaching m m') (hm : Backed m) : Backed m' := by
  obtain ⟨-, -, -, -, -, hpos, hmax⟩ := Matcher.bounds_eq h.1
  constructor
  · exact h.2
  · rw [hmax, hpos, Matcher.greedyOrNot_congr h.1]
    exact hm.limit

theorem Reaching.trans {m₁ m₂ m₃ : Matcher} (h : Reaching m₁ m₂) (h' : Reaching m₂ m₃) :
    Reaching m₁ m₃ :=
  ⟨h'.1.trans h.1, h'.2⟩

theorem Outcome.Keeps.trans_reaching {α : Type} {o : Outcome Matcher Stop α} (h : Reaching m m')
    (ho : o.Keeps (Reaching m')) : o.Keeps (Reaching m) := by
  apply ho.mono
  · exact fun _ _ hs => h.trans hs
  · exact fun _ hs => h.trans hs
  · exact fun _ _ hs => h.trans hs

theorem tryBlock_reaching (env : EncEnv) (blkno : ℕ)
    (h : m.search.matchBack ≤ m.search.matchMaxback) :
    (tryBlock env blkno m).Keeps (Reaching m) := by
  have hfix := tryBlock_fixes m progress_ignoresSource env blkno
  have hreach : ∀ m', m'.progress = m.progress → Reaching m m' := by
    intro m' hm'
    have hb : m'.bounds = m.bounds := congrArg (fun t => t.1) hm'
    have hback : m'.search.matchBack = m.search.matchBack := congrArg (fun t => t.2.2) hm'
    obtain ⟨-, -, -, -, -, -, hmax⟩ := Matcher.bounds_eq hb
    exact ⟨hb, by rw [hback, hmax]; exact h⟩
  apply hfix.mono
  · exact fun _ _ hs => hreach _ hs
  · exact fun _ hs => hreach _ hs
  · exact fun _ _ hs => hreach _ hs

theorem backwardBytes_reaching (block : List UInt8) {tryrem tryoff streamoff : ℕ}
    (h : m.search.matchBack + tryrem ≤ m.search.matchMaxback) :
    (backwardBytes block tryrem tryoff streamoff m).Keeps (Reaching m) := by
  induction tryrem generalizing m tryoff streamoff with
  | zero => exact ⟨rfl, h⟩
  | succ tryrem ih =>
    unfold backwardBytes
    split_ifs
    · trivial
    · cases byteAt block (tryoff - 1) with
      | none => trivial
      | some a =>
        cases byteAt m.enc.window (streamoff - 1) with
        | none => trivial
        | some b =>
          dsimp only
          split_ifs
          · have hmore : Reaching m { m with search := { m.search with
                matchBack := m.search.matchBack + 1 } } :=
              ⟨rfl, show m.search.matchBack + 1 ≤ m.search.matchMaxback by omega⟩
            apply Outcome.Keeps.trans_reaching hmore
            apply ih
            change m.search.matchBack + 1 + tryrem ≤ m.search.matchMaxback
            omega
          · exact ⟨rfl, by omega⟩

theorem backwardLoop_reaching (env : EncEnv) {blksize fuel tryblk tryoff streamoff : ℕ}
    (h : m.search.matchBack ≤ m.search.matchMaxback) :
    (backwardLoop env blksize fuel tryblk tryoff streamoff m).Keeps (Reaching m) := by
  induction fuel generalizing m tryblk tryoff streamoff with
  | zero => trivial
  | succ fuel ih =>
    unfold backwardLoop
    by_cases hmore : m.search.matchBack < m.search.matchMaxback
    · rw [if_pos hmore]
      generalize (if tryoff = 0 then xoff.sub tryblk 1 else tryblk) = blk
      generalize (if tryoff = 0 then blksize else tryoff) = off
      apply (tryBlock_reaching env _ h).andThen
      intro toofar m₁ h₁
      cases toofar with
      | true => exact h₁
      | false =>
        apply Outcome.Keeps.trans_reaching h₁
        have hfits : m₁.search.matchBack +
            min off (m₁.search.matchMaxback - m₁.search.matchBack) ≤ m₁.search.matchMaxback := by
          have := h₁.2
          omega
        apply (backwardBytes_reaching m₁.curblk hfits).andThen
        intro reached m₂ h₂
        cases reached with
        | none => exact h₂
        | some r => exact Outcome.Keeps.trans_reaching h₂ (ih h₂.2)
    · rw [if_neg hmore]
      exact ⟨rfl, h⟩

theorem extendBackward_reaching (env : EncEnv) (src : Source)
    (h : m.search.matchBack ≤ m.search.matchMaxback) :
    (extendBackward env src m).Keeps (Reaching m) := by
  unfold extendBackward
  split_ifs
  · apply (backwardLoop_reaching env h).andThen
    intro ended m' hm'
    cases ended <;> exact hm'
  · exact ⟨rfl, h⟩

theorem extendForward_reaching (env : EncEnv) (src : Source)
    (h : m.search.matchBack ≤ m.search.matchMaxback) :
    (extendForward env src m).Keeps (Reaching m) := by
  have hfix : Fixes Matcher.progress m (extendForward env src m) :=
    forwardLoop_fixes m progress_ignoresSource (fun _ _ => rfl) _ _ _ _ _ _
  have hreach : ∀ m', m'.progress = m.progress → Reaching m m' := by
    intro m' hm'
    have hb : m'.bounds = m.bounds := congrArg (fun t => t.1) hm'
    have hback : m'.search.matchBack = m.search.matchBack := congrArg (fun t => t.2.2) hm'
    obtain ⟨-, -, -, -, -, -, hmax⟩ := Matcher.bounds_eq hb
    exact ⟨hb, by rw [hback, hmax]; exact h⟩
  apply hfix.mono
  · exact fun _ _ hs => hreach _ hs
  · exact fun _ hs => hreach _ hs
  · exact fun _ _ hs => hreach _ hs

/-- What has become of a match that was extended: it was too short, or it is the last one in the
queue and ends where the search goes on. What is new in the queue starts at the limit or after. -/
structure Recorded (m m' : Matcher) : Prop where
  loose : Loose m'
  idle : Idle m'
  position : m'.search.inputPosition = m.search.inputPosition
  availIn : m'.enc.availIn = m.enc.availIn
  last : (m'.enc.flags.begreedy = true → m'.enc.ioptLastMatched ≤ m'.search.inputPosition) ∧
      m'.search.matchFwd = 0 ∨
    m'.enc.ioptLastMatched = usize.add m'.search.inputPosition m'.search.matchFwd
  new : ∀ r ∈ m'.enc.ioptUsed, r ∈ m.enc.ioptUsed ∨ m.greedyOrNot ≤ r.pos

theorem usize_add_cancel {p b : ℕ} (f : ℕ) (h : b ≤ p) (hp : p < usize.modulus) :
    usize.add (usize.sub p b) (usize.add b f) = usize.add p f := by
  rw [usize.sub_eq hp h, Width.add, Width.add, Width.add, Nat.add_mod_mod,
    show p - b + (b + f) = p + f by omega]

theorem Encoder.mem_ioptErase {e : Encoder} {pos : ℕ} {r : Rinst}
    (h : r ∈ (e.ioptErase pos).ioptUsed) : r ∈ e.ioptUsed := by
  unfold Encoder.ioptErase at h
  have hmem := List.mem_reverse.mp h
  exact List.mem_reverse.mp ((List.dropWhile_sublist _).subset hmem)

/-- The instructions that a match covers are erased, the rest is as it was. -/
structure Taken (m m₁ : Matcher) : Prop where
  flags : m₁.enc.flags = m.enc.flags
  used : ∀ r ∈ m₁.enc.ioptUsed, r ∈ m.enc.ioptUsed
  unlimited : m₁.enc.ioptUnlimited = m.enc.ioptUnlimited
  unencoded : m₁.enc.unencodedOffset = m.enc.unencodedOffset
  availIn : m₁.enc.availIn = m.enc.availIn
  position : m₁.search.inputPosition = m.search.inputPosition
  fwd : m₁.search.matchFwd = m.search.matchFwd
  state : m₁.search.matchState = m.search.matchState

theorem takeMatch_taken (m : Matcher) : Taken m m.takeMatch := by
  unfold Matcher.takeMatch
  generalize usize.sub m.search.inputPosition m.search.matchBack = target
  generalize xoff.sub m.search.matchSrcpos m.search.matchBack = start
  generalize xoff.add m.search.matchSrcpos m.search.matchFwd = stop
  dsimp only
  by_cases hback : 0 < m.search.matchBack
  · rw [if_pos hback]
    exact ⟨rfl, fun r hr => Encoder.mem_ioptErase hr, rfl, rfl, rfl, rfl, rfl, rfl⟩
  · rw [if_neg hback]
    exact ⟨rfl, fun r hr => hr, rfl, rfl, rfl, rfl, rfl, rfl⟩

theorem recordMatch_recorded (hlim : Limits m) (hback : Backed m) :
    (recordMatch m).Goes (fun _ m' => Recorded m m') (fun _ => False) fun _ _ => False := by
  have hb := hback.back
  have hl := hback.limit
  unfold recordMatch
  dsimp only
  split_ifs
  · exact ⟨⟨hlim.unlimited, hlim.unencoded, hlim.position, hlim.width⟩, .inr rfl, rfl, rfl,
      .inl ⟨hlim.greedy, rfl⟩, fun r hr => .inl hr⟩
  have htaken := takeMatch_taken { m with search := { m.search with matchState := .searching } }
  generalize ({ m with search := { m.search with
    matchState := .searching } } : Matcher).takeMatch = m₁ at htaken
  apply (ioptGetSlot_emitted (htaken.unlimited.trans hlim.unlimited) _).andThen
  intro _ m₂ hm₂
  have hrecorded : ∀ m₃, m₃.enc = m₂.enc → Idle m₃ →
      m₃.search.inputPosition = m₂.search.inputPosition →
      m₃.search.matchFwd = m₂.search.matchFwd → Recorded m m₃ := by
    intro m₃ henc hidle hpos hfwd
    have hpos₃ : m₃.search.inputPosition = m.search.inputPosition := by
      rw [hpos, hm₂.search]
      exact htaken.position
    have hfwd₃ : m₃.search.matchFwd = m.search.matchFwd := by
      rw [hfwd, hm₂.search]
      exact htaken.fwd
    refine ⟨⟨?_, ?_, ?_, ?_⟩, hidle, hpos₃, ?_, ?_, ?_⟩
    · rw [henc, hm₂.unlimited]
      exact htaken.unlimited.trans hlim.unlimited
    · rw [henc, hm₂.unencoded]
      exact htaken.unencoded.trans hlim.unencoded
    · rw [hpos₃]
      exact hlim.position
    · rw [henc, hm₂.availIn]
      exact htaken.availIn.symm ▸ hlim.width
    · rw [henc, hm₂.availIn]
      exact htaken.availIn
    · right
      rw [henc, hm₂.lastMatched, hpos₃, hfwd₃]
      exact usize_add_cancel _ (by omega) hlim.position
    · intro r hr
      rw [henc, hm₂.used, List.mem_append, List.mem_singleton] at hr
      rcases hr with hr | rfl
      · exact .inl (htaken.used r hr)
      · right
        change m.greedyOrNot ≤ usize.sub m.search.inputPosition m.search.matchBack
        rw [usize.sub_eq hlim.position (by omega)]
        omega
  split_ifs
  · exact hrecorded _ rfl (.inl rfl) rfl rfl
  · apply hrecorded _ rfl _ rfl rfl
    right
    rw [hm₂.search]
    exact htaken.state

/-- A match that is extended is recorded within its limit, or the search is interrupted. -/
theorem sourceExtendMatch_recorded (hlim : Limits m) (hback : Backed m) (havail : m.enc.availIn ≠ 0)
    (env : EncEnv) : (sourceExtendMatch env m).Goes (fun _ m' => Recorded m m') (fun _ => True)
      fun _ m' => HeldUp m' := by
  have hpaused : ∀ m', Reaching m m' → HeldUp m' := by
    intro m' hm'
    refine ⟨hlim.congr hm'.1, .inr ⟨hm'.backed hback, ?_⟩⟩
    rw [(Matcher.bounds_eq hm'.1).2.2.2.2.1]
    exact havail
  have hpause : ∀ {α : Type} {o : Outcome Matcher Stop α}, o.Keeps (Reaching m) →
      o.Goes (fun _ m' => Reaching m m') (fun _ => True) fun _ m' => HeldUp m' := by
    intro α o ho
    apply ho.mono
    · exact fun _ _ hs => hs
    · exact fun _ _ => trivial
    · exact fun _ _ hs => hpaused _ hs
  unfold sourceExtendMatch
  cases m.enc.src with
  | null => trivial
  | dead => trivial
  | live src =>
    apply (hpause (extendBackward_reaching env src hback.back)).andThen
    intro ended m₁ h₁
    apply Outcome.Goes.andThen (Q := fun _ m₂ => Reaching m m₂)
    · split_ifs
      · exact hpause (Outcome.Keeps.trans_reaching h₁ (extendForward_reaching env src h₁.2))
      · exact h₁
    · intro _ m₂ h₂
      have hbounds := Matcher.bounds_eq h₂.1
      apply (recordMatch_recorded (hlim.congr h₂.1) (h₂.backed hback)).mono
      · intro _ m₃ h₃
        refine ⟨h₃.loose, h₃.idle, ?_, ?_, h₃.last, ?_⟩
        · rw [h₃.position, hbounds.2.2.2.2.2.1]
        · rw [h₃.availIn, hbounds.2.2.2.2.1]
        · rw [← Matcher.greedyOrNot_congr h₂.1, ← hbounds.2.1]
          exact h₃.new
      · exact fun _ h => h.elim
      · exact fun _ _ h => h.elim

theorem Emitted.loose {inst : Rinst} (h : Emitted inst m m') (hm : Loose m) : Loose m' := by
  constructor
  · rw [h.unlimited]
    exact hm.unlimited
  · rw [h.unencoded]
    exact hm.unencoded
  · rw [h.search]
    exact hm.position
  · rw [h.availIn]
    exact hm.width

theorem Emitted.idle {inst : Rinst} (h : Emitted inst m m') (hm : Idle m) : Idle m' := by
  unfold Idle
  rw [h.search]
  exact hm

/-- Passing over an instruction, the search goes on where it ends; or it goes on inside. -/
theorem handleLazy_kept (hW : cfg.sizeT = usize) (hloose : Loose m) (hidle : Idle m)
    (havail : m.enc.availIn ≠ 0) {mlen : ℕ}
    (hlast : m.enc.ioptLastMatched = usize.add m.search.inputPosition mlen) :
    (handleLazy cfg mlen look m).Goes (fun phase m' => phase.Kept m') (fun _ => True)
      fun _ m' => HeldUp m' := by
  unfold handleLazy
  rw [hW]
  dsimp only
  split_ifs
  · exact ⟨⟨hloose.unlimited, hloose.unencoded, hloose.position, hloose.width⟩, hidle, havail⟩
  · exact ⟨⟨⟨hloose.unlimited, hloose.unencoded, usize.add_lt _ _, hloose.width⟩,
      fun _ => hlast.le⟩, hidle, havail⟩

def FoundKept (look : Looking) (found : Option Phase) (m : Matcher) : Prop :=
  match found with
  | some phase => phase.Kept m
  | none => Phase.Kept (.top look) m

/-- An instruction at the input position, which is then passed over. -/
theorem emit_kept (hW : cfg.sizeT = usize) (h : Phase.Kept (.top look) m) {inst : Rinst}
    (hpos : inst.pos = m.search.inputPosition) (look' : Looking) :
    ((onEnc (ioptGetSlot inst) m).andThen fun _ m' => handleLazy cfg inst.size look' m').Goes
      (fun phase m' => phase.Kept m') (fun _ => True) fun _ m' => HeldUp m' := by
  obtain ⟨hlim, hidle, havail⟩ := h
  apply Outcome.Goes.andThen (Q := fun _ m' => Emitted inst m m')
  · apply (ioptGetSlot_emitted hlim.unlimited inst).mono
    · exact fun _ _ hs => hs
    · exact fun _ _ => trivial
    · exact fun _ _ hs => hs.elim
  · intro _ m' hm'
    apply handleLazy_kept hW (hm'.loose hlim.toLoose) (hm'.idle hidle)
    · rw [hm'.availIn]
      exact havail
    · rw [hm'.lastMatched, hm'.search, hpos]

theorem tryRun_kept (hW : cfg.sizeT = usize) (h : Phase.Kept (.top look) m) :
    (tryRun cfg look m).Goes (fun r m' => FoundKept r.2 r.1 m') (fun _ => True)
      fun _ m' => HeldUp m' := by
  unfold tryRun
  dsimp only
  by_cases hrun : look.run.runL = cfg.smatcher.smallLook
  · rw [if_pos hrun]
    cases expandRun m.enc.window m.search.inputPosition look.run.runC
        (cfg.sizeT.sub m.enc.availIn m.search.inputPosition - look.run.runL) look.run.runL with
    | none => trivial
    | some len =>
      dsimp only
      split_ifs
      · rw [← Outcome.andThen_assoc]
        apply (emit_kept hW h rfl _).andThen
        intro phase m' hm'
        exact hm'
      · exact h
  · rw [if_neg hrun]
    exact h

theorem Phase.Kept.congr (h : Phase.Kept (.top look) m) (hm' : m'.progress = m.progress) :
    Phase.Kept (.top look) m' := by
  have hb : m'.bounds = m.bounds := congrArg (fun t => t.1) hm'
  refine ⟨h.1.congr hb, ?_, ?_⟩
  · have hstate : m'.search.matchState = m.search.matchState := congrArg (fun t => t.2.1) hm'
    unfold Idle
    rw [hstate]
    exact h.2.1
  · rw [(Matcher.bounds_eq hb).2.2.2.2.1]
    exact h.2.2

theorem movePoint_kept (h : Phase.Kept (.top look) m) (env : EncEnv) :
    (srcwinMovePoint env m).Goes (fun _ m' => Phase.Kept (.top look) m') (fun _ => True)
      fun _ m' => HeldUp m' := by
  apply (srcwinMovePoint_fixes m progress_ignoresSource env).mono
  · exact fun _ _ hs => Phase.Kept.congr h hs
  · exact fun _ _ => trivial
  · intro _ m' hs
    have hkept := Phase.Kept.congr h hs
    exact ⟨hkept.1, .inl hkept.2.1⟩

theorem tryEntry_kept (hW : cfg.sizeT = usize) (h : Phase.Kept (.top look) m) (low : ℕ) :
    (tryEntry cfg look low m).Goes (fun found m' => FoundKept look found m') (fun _ => True)
      fun _ m' => HeldUp m' := by
  obtain ⟨hlim, hidle, havail⟩ := h
  unfold tryEntry
  split_ifs
  · exact ⟨hlim, hidle, havail⟩
  · apply Outcome.Goes.andThen (Q := fun ready m' => Ready m ready m')
    · apply (sourceMatchSetup_ready hlim _).mono
      · exact fun _ _ hs => hs
      · exact fun _ _ => trivial
      · exact fun _ _ hs => hs.elim
    · intro ready m₁ h₁
      have havail₁ : m₁.enc.availIn ≠ 0 := by
        rw [h₁.enc]
        exact havail
      split_ifs with hready
      · apply (sourceExtendMatch_recorded (h₁.bounds hlim) h₁.backed havail₁ cfg.env).andThen
        intro _ m₂ h₂
        have havail₂ : m₂.enc.availIn ≠ 0 := by
          rw [h₂.availIn]
          exact havail₁
        split_ifs with hfwd
        · have hlast : m₂.enc.ioptLastMatched =
              usize.add m₂.search.inputPosition m₂.search.matchFwd := by
            rcases h₂.last with ⟨-, hzero⟩ | hlast
            · exact absurd hzero (Nat.ne_of_gt hfwd)
            · exact hlast
          apply (handleLazy_kept hW h₂.loose h₂.idle havail₂ hlast).andThen
          intro phase m₃ h₃
          exact h₃
        · refine ⟨⟨h₂.loose, fun hflag => ?_⟩, h₂.idle, havail₂⟩
          rcases h₂.last with ⟨hle, -⟩ | hlast
          · exact hle hflag
          · rw [hlast, Nat.eq_zero_of_not_pos hfwd, usize.add_eq h₂.loose.position]
            exact le_rfl
      · exact ⟨h₁.bounds hlim, h₁.idle (Bool.eq_false_iff.mpr hready), havail₁⟩

theorem tryLarge_kept (hW : cfg.sizeT = usize) (h : Phase.Kept (.top look) m) :
    (tryLarge cfg look m).Goes (fun r m' => FoundKept r.2 r.1 m') (fun _ => True)
      fun _ m' => HeldUp m' := by
  unfold tryLarge
  split_ifs
  · apply (movePoint_kept h cfg.env).andThen
    intro next m' hm'
    have hnext : Phase.Kept (.top { look with nextMovePoint := next }) m' := hm'
    apply (tryEntry_kept hW hnext _).andThen
    intro found m'' hm''
    exact hm''
  · have hnext : Phase.Kept (.top { look with nextMovePoint := look.nextMovePoint }) m := h
    apply (tryEntry_kept hW hnext _).andThen
    intro found m'' hm''
    exact hm''
  · exact h

theorem trySmall_kept (hW : cfg.sizeT = usize) (h : Phase.Kept (.top look) m) :
    (trySmall cfg look m).Goes (fun found m' => FoundKept look found m') (fun _ => True)
      fun _ m' => HeldUp m' := by
  unfold trySmall
  dsimp only
  by_cases hsmall : look.doSmall = true
  · rw [if_pos hsmall]
    generalize checksumHash cfg.smallCfg look.scksum = sinx
    generalize m.search.smallTable.getD (fun _ => 0) sinx = entry
    apply Outcome.Goes.andThen (Q := fun _ m' => Phase.Kept (.top look) m')
    · split_ifs
      · exact h
      · apply (smatch_fixes m cfg.env entry).mono
        · exact fun _ _ hs => Phase.Kept.congr h hs
        · exact fun _ _ => trivial
        · intro _ m' hs
          have hkept := Phase.Kept.congr h hs
          exact ⟨hkept.1, .inl hkept.2.1⟩
    · intro r m' hm'
      generalize hins : m'.search.scksumInsert cfg.env sinx m'.search.inputPosition = inserted
      have hentered : Phase.Kept (.top look) { m' with search := inserted } := by
        rw [← hins]
        exact Phase.Kept.congr hm' rfl
      split_ifs
      · rw [← Outcome.andThen_assoc]
        apply (emit_kept hW hentered rfl _).andThen
        intro phase m₃ hm₃
        exact hm₃
      · exact hentered
  · rw [if_neg hsmall]
    exact h

theorem topLoop_kept (hW : cfg.sizeT = usize) (h : Phase.Kept (.top look) m) :
    (topLoop cfg look m).Goes (fun phase m' => phase.Kept m') (fun _ => True)
      fun _ m' => HeldUp m' := by
  apply (tryRun_kept hW h).andThen
  rintro ⟨found, look₁⟩ m₁ hm₁
  cases found with
  | some phase => exact hm₁
  | none =>
    apply (tryLarge_kept hW hm₁).andThen
    rintro ⟨found, look₂⟩ m₂ hm₂
    cases found with
    | some phase => exact hm₂
    | none =>
      apply (trySmall_kept hW hm₂).andThen
      intro found m₃ hm₃
      cases found with
      | some phase => exact hm₃
      | none =>
        have hlast : Phase.Kept (.top look₂) m₃ := hm₃
        dsimp only
        split_ifs
        · exact ⟨⟨hlast.1.unlimited, hlast.1.unencoded, hlast.1.position, hlast.1.width⟩,
            hlast.2⟩
        · exact ⟨hlast.1.toLoose, hlast.2⟩

theorem restartLoop_kept (h : Phase.Kept (.restart look) m) :
    (restartLoop cfg look m).Goes (fun phase m' => phase.Kept m') (fun _ => True)
      fun _ m' => HeldUp m' := by
  unfold restartLoop
  by_cases hroom : m.enc.availIn < cfg.sizeT.add m.search.inputPosition cfg.smatcher.smallLook
  · rw [if_pos hroom]
    exact h.2.1
  rw [if_neg hroom]
  generalize hstart : ({ m with search := { m.search with
    minMatch := m.freshMinMatch cfg.sizeT } } : Matcher) = m₁
  have htop : Phase.Kept (.top look) m := h
  have h₁ : Phase.Kept (.top look) m₁ := by
    rw [← hstart]
    exact htop.congr rfl
  dsimp only
  cases look.afresh cfg m₁.enc.window m₁.search.inputPosition with
  | none => trivial
  | some look₁ =>
    dsimp only
    split_ifs
    · apply (movePoint_kept h₁ cfg.env).andThen
      intro next m₂ hm₂
      cases largeCksum cfg.sizeT cfg.largeCfg m₂.enc.window m₂.search.inputPosition
          cfg.smatcher.largeLook with
      | none => trivial
      | some c => exact hm₂
    · exact h₁

/-- `updateone` goes on to the next byte, which is not inside the last match if this one is not. -/
theorem updateOne_kept (hW : cfg.sizeT = usize) (h : Phase.Kept (.update look) m)
    (hout : m.enc.flags.begreedy = true → m.enc.ioptLastMatched ≤ m.search.inputPosition) :
    (updateOne cfg look m).Goes (fun phase m' => phase.Kept m') (fun _ => True)
      fun _ m' => HeldUp m' := by
  obtain ⟨hloose, hidle, havail⟩ := h
  unfold updateOne
  dsimp only
  split_ifs
  · exact hidle
  · cases hnext : look.next cfg m.enc.window m.search.inputPosition m.enc.availIn with
    | none => trivial
    | some look' =>
      have hread : m.search.inputPosition < m.enc.availIn := by
        unfold Looking.next at hnext
        split at hnext
        · rename_i c s l hc hs hl
          have hlt := (List.getElem?_eq_some_iff.mp hc).1
          unfold Encoder.window at hlt
          rw [List.length_take] at hlt
          omega
        · cases hnext
      have hone : usize.add m.search.inputPosition 1 = m.search.inputPosition + 1 :=
        usize.add_eq (lt_of_le_of_lt hread hloose.width)
      rw [hW]
      refine ⟨⟨⟨hloose.unlimited, hloose.unencoded, usize.add_lt _ _, hloose.width⟩, fun hflag => ?_⟩,
        hidle, havail⟩
      change m.enc.ioptLastMatched ≤ usize.add m.search.inputPosition 1
      rw [hone]
      exact (hout hflag).trans (Nat.le_succ _)

/-- With `XD3_BEGREEDY`, lazy matching does not go on inside the last match: `updateone` is not
reached from an instruction that has just been emitted. -/
def NotInside : Stage → Matcher → Prop
  | .phase (.update _), m =>
    m.enc.flags.begreedy = true → m.enc.ioptLastMatched ≤ m.search.inputPosition
  | _, _ => True

instance (stage : Stage) (m : Matcher) : Decidable (NotInside stage m) := by
  unfold NotInside
  split <;> infer_instance

theorem matchStep_kept {phase : Phase} (hW : cfg.sizeT = usize) (h : phase.Kept m)
    (hcond : NotInside (.phase phase) m) :
    (matchStep cfg phase m).Goes (fun phase' m' => phase'.Kept m') (fun _ => True)
      fun _ m' => HeldUp m' := by
  cases phase with
  | restart look => exact restartLoop_kept h
  | top look => exact topLoop_kept hW h
  | update look => exact updateOne_kept hW h hcond
  | done => exact h

/-- A match that was waiting is extended, and passed over. -/
theorem resumeMatch_kept (hW : cfg.sizeT = usize) (hlim : Limits m) (hback : Backed m)
    (havail : m.enc.availIn ≠ 0) :
    (resumeMatch cfg m).Goes (fun _ m' => Limits m' ∧ Idle m') (fun _ => True)
      fun _ m' => HeldUp m' := by
  unfold resumeMatch
  rw [if_neg havail, hW]
  apply (sourceExtendMatch_recorded hlim hback havail cfg.env).andThen
  intro _ m' hm'
  refine ⟨⟨⟨hm'.loose.unlimited, hm'.loose.unencoded, usize.add_lt _ _, hm'.loose.width⟩,
    fun hflag => ?_⟩, hm'.idle⟩
  change m'.enc.ioptLastMatched ≤ usize.add m'.search.inputPosition m'.search.matchFwd
  rcases hm'.last with ⟨hle, hzero⟩ | hlast
  · rw [hzero, usize.add_eq hm'.loose.position]
    exact hle hflag
  · exact hlast.le

theorem reenterMatch_kept (hW : cfg.sizeT = usize) (h : Stage.Kept .entry m) :
    (reenterMatch cfg m).Goes (fun _ m' => Limits m' ∧ Idle m') (fun _ => True)
      fun _ m' => HeldUp m' := by
  obtain ⟨hlim, hstate⟩ := h
  unfold reenterMatch
  by_cases hsrc : m.enc.src = .null
  · rw [if_pos hsrc]
    rcases hstate with hidle | ⟨-, -, hlive⟩
    · exact ⟨hlim, hidle⟩
    · exact absurd hsrc hlive
  rw [if_neg hsrc]
  cases hm : m.search.matchState with
  | target =>
    dsimp only
    split_ifs with havail
    · apply Outcome.Goes.andThen (Q := fun ready m' => Ready m ready m')
      · apply (sourceMatchSetup_ready hlim _).mono
        · exact fun _ _ hs => hs
        · exact fun _ _ => trivial
        · exact fun _ _ hs => hs.elim
      · intro ready m₁ h₁
        apply resumeMatch_kept hW
        · exact (h₁.bounds hlim).congr rfl
        · exact h₁.backed.congr rfl rfl
        · rw [h₁.enc]
          exact Nat.ne_of_gt havail
    · unfold resumeMatch
      rw [if_pos (Nat.eq_zero_of_not_pos havail)]
      exact ⟨hlim.congr rfl, .inr rfl⟩
  | searching => exact ⟨hlim, .inr hm⟩
  | backward =>
    rcases hstate with hidle | ⟨hback, havail, -⟩
    · simp [Idle, hm] at hidle
    · exact resumeMatch_kept hW hlim hback havail
  | forward =>
    rcases hstate with hidle | ⟨hback, havail, -⟩
    · simp [Idle, hm] at hidle
    · exact resumeMatch_kept hW hlim hback havail

theorem stringMatchInit_bounds (m : Matcher) (env : EncEnv) :
    (m.stringMatchInit env).progress = m.progress := by
  unfold Matcher.stringMatchInit
  by_cases hskip : m.enc.flags.nocompress = true
  · rw [if_pos hskip]
  · rw [if_neg hskip]
    cases m.search.smallTable with
    | none => rfl
    | some t =>
      dsimp only
      split_ifs <;> rfl

theorem searchStep_kept {stage : Stage} (hW : cfg.sizeT = usize) (h : stage.Kept m)
    (hcond : NotInside stage m) :
    (searchStep cfg stage m).Goes (fun stage' m' => stage'.Kept m') (fun _ => True)
      fun _ m' => HeldUp m' := by
  cases stage with
  | entry =>
    apply (reenterMatch_kept hW h).andThen
    intro _ m' hm'
    split_ifs with hroom
    · exact hm'.2
    · rw [not_or] at hroom
      have htop : Phase.Kept (.top m'.looking) m' := ⟨hm'.1, hm'.2, hroom.1⟩
      exact Phase.Kept.congr htop (stringMatchInit_bounds m' cfg.env)
  | phase place =>
    apply (matchStep_kept hW h hcond).andThen
    intro place' m' hm'
    exact hm'

theorem WindowStart.limits (h : WindowStart m) (hwidth : m.enc.availIn < usize.modulus)
    (hunlimited : m.enc.ioptUnlimited = true) : Limits m := by
  refine ⟨⟨hunlimited, h.unencoded, ?_, hwidth⟩, fun _ => ?_⟩
  · rw [h.position]
    exact usize.modulus_pos
  · unfold Encoder.ioptLastMatched
    rw [h.used]
    exact Nat.zero_le _

theorem Encoding.kept {stage : Stage} (hW : cfg.sizeT = usize) (h : Encoding cfg NotInside stage m) :
    stage.Kept m := by
  induction h with
  | start hstart hwidth hunlimited htarget =>
    exact ⟨hstart.limits hwidth hunlimited, .inl (.inl htarget)⟩
  | step _ hcond hstep ih =>
    have hgoes := searchStep_kept hW ih hcond
    rw [hstep] at hgoes
    exact hgoes
  | block source _ hcond hstep ih =>
    have hgoes := searchStep_kept hW ih hcond
    rw [hstep] at hgoes
    obtain ⟨hlim, hstate⟩ := hgoes
    refine ⟨hlim.congr rfl, ?_⟩
    rcases hstate with hidle | ⟨hback, havail⟩
    · exact .inl hidle
    · exact .inr ⟨hback.congr rfl rfl, havail, nofun⟩
  | window _ hstart hwidth hunlimited hstate ih =>
    refine ⟨hstart.limits hwidth hunlimited, .inl ?_⟩
    unfold Idle
    rw [hstate]
    exact ih

end Keeping

/-- At the calls the step makes: the position is not before the limit, `match_maxback` is at most
the position, the loop backwards only compares bytes of the window, and what is recorded starts at
the limit or after. -/
structure LimitsRight (cfg : MatchCfg) (stage : Stage) (m : Matcher) : Prop where
  setup : ∀ srcpos m', SetupAt cfg stage m srcpos m' →
    m'.greedyOrNot ≤ m'.search.inputPosition ∧
      ∀ ready m'', sourceMatchSetup srcpos m' = .ok ready m'' →
        m''.search.matchMaxback ≤ m''.search.inputPosition
  compares : ∀ m' blksize so m'', ExtendAt cfg stage m m' →
    BackRounds cfg.env blksize (usize.sub m'.search.inputPosition m'.search.matchBack) m' so m'' →
      m''.search.matchMaxback - m''.search.matchBack ≤ so ∧ so ≤ m'.search.inputPosition
  recorded : ∀ m' m'', ExtendAt cfg stage m m' → sourceExtendMatch cfg.env m' = .ok () m'' →
    ∀ r ∈ m''.enc.ioptUsed, r ∈ m'.enc.ioptUsed ∨ m'.greedyOrNot ≤ r.pos

section Calls

variable {cfg : MatchCfg} {stage : Stage} {m m' : Matcher}

theorem SetupAt.limits {srcpos : ℕ} (hW : cfg.sizeT = usize) (h : SetupAt cfg stage m srcpos m')
    (hm : stage.Kept m) : Limits m' ∧ m'.enc.availIn ≠ 0 := by
  cases h with
  | entry _ _ havail => exact ⟨hm.1, Nat.ne_of_gt havail⟩
  | @top look look' _ m₁ _ next hrun _ hmove _ =>
    have htop : Phase.Kept (.top look) m := hm
    have hrunKept := tryRun_kept hW htop
    rw [hrun] at hrunKept
    have h₁ : Phase.Kept (.top look') m₁ := hrunKept
    split_ifs at hmove
    · have hmoveKept := movePoint_kept h₁ cfg.env
      rw [hmove] at hmoveKept
      exact ⟨hmoveKept.1, hmoveKept.2.2⟩
    · cases hmove
      exact ⟨h₁.1, h₁.2.2⟩

theorem sourceMatchSetup_eq_ready {srcpos : ℕ} {ready : Bool} (h : Limits m)
    (hsetup : sourceMatchSetup srcpos m = .ok ready m') : Ready m ready m' := by
  have hgoes := sourceMatchSetup_ready h srcpos
  rw [hsetup] at hgoes
  exact hgoes

theorem ExtendAt.limits (hW : cfg.sizeT = usize) (h : ExtendAt cfg stage m m')
    (hm : stage.Kept m) : Limits m' ∧ Backed m' ∧ m'.enc.availIn ≠ 0 := by
  cases h with
  | again _ hstate havail =>
    rcases hm.2 with hidle | ⟨hback, -⟩
    · rcases hstate with hstate | hstate <;> simp [Idle, hstate] at hidle
    · exact ⟨hm.1, hback, havail⟩
  | entry hat hsetup =>
    obtain ⟨hlim, havail⟩ := hat.limits hW hm
    have hready := sourceMatchSetup_eq_ready hlim hsetup
    exact ⟨(hready.bounds hlim).congr rfl, hready.backed.congr rfl rfl, hready.enc ▸ havail⟩
  | top hat hsetup =>
    obtain ⟨hlim, havail⟩ := hat.limits hW hm
    have hready := sourceMatchSetup_eq_ready hlim hsetup
    exact ⟨hready.bounds hlim, hready.backed, hready.enc ▸ havail⟩

theorem backwardBytes_streamoff {block : List UInt8} {tryrem tryoff streamoff tryoff' so : ℕ}
    (h : backwardBytes block tryrem tryoff streamoff m = .ok (some (tryoff', so)) m') :
    so + m'.search.matchBack = streamoff + m.search.matchBack := by
  induction tryrem generalizing m tryoff streamoff with
  | zero =>
    cases h
    rfl
  | succ tryrem ih =>
    unfold backwardBytes at h
    split_ifs at h with hedge
    rw [not_or] at hedge
    cases ha : byteAt block (tryoff - 1) with
    | none => simp [ha] at h
    | some a =>
      cases hb : byteAt m.enc.window (streamoff - 1) with
      | none => simp [ha, hb] at h
      | some b =>
        rw [ha, hb] at h
        dsimp only at h
        split_ifs at h
        · have hrest := ih h
          change so + m'.search.matchBack = streamoff - 1 + (m.search.matchBack + 1) at hrest
          omega
        · cases h

theorem BackRounds.reaching {env : EncEnv} {blksize streamoff so : ℕ}
    (h : BackRounds env blksize streamoff m so m')
    (hback : m.search.matchBack ≤ m.search.matchMaxback) :
    Reaching m m' ∧ so + m'.search.matchBack = streamoff + m.search.matchBack := by
  induction h with
  | first => exact ⟨⟨rfl, hback⟩, rfl⟩
  | @next so so' tryblk tryoff tryoff' m₁ m₂ m₃ _ _ hblock hbytes ih =>
    obtain ⟨hreach, hsum⟩ := ih
    have hkeep := tryBlock_reaching env tryblk hreach.2
    have hfix := (tryBlock_fixes m₁ progress_ignoresSource env tryblk).of_ok hblock
    rw [hblock] at hkeep
    have hsame : m₂.search.matchBack = m₁.search.matchBack := congrArg (fun t => t.2.2) hfix
    have hfits : m₂.search.matchBack +
        min tryoff (m₂.search.matchMaxback - m₂.search.matchBack) ≤ m₂.search.matchMaxback := by
      have hle : m₂.search.matchBack ≤ m₂.search.matchMaxback := hkeep.2
      omega
    have hbytesKeep : (backwardBytes m₂.curblk
        (min tryoff (m₂.search.matchMaxback - m₂.search.matchBack)) tryoff so m₂).Keeps
          (Reaching m₂) := backwardBytes_reaching m₂.curblk hfits
    rw [hbytes] at hbytesKeep
    refine ⟨(hreach.trans hkeep).trans hbytesKeep, ?_⟩
    rw [backwardBytes_streamoff hbytes, hsame]
    exact hsum

/-- In every run in which lazy matching does not go on inside a match with `XD3_BEGREEDY`, the
limits backwards are right at every call. -/
theorem backwardLimits_right (hW : cfg.sizeT = usize) (h : Encoding cfg NotInside stage m) :
    LimitsRight cfg stage m := by
  have hkept := h.kept hW
  constructor
  · intro srcpos m' hat
    obtain ⟨hlim, -⟩ := hat.limits hW hkept
    refine ⟨hlim.le_position, fun ready m'' hsetup => ?_⟩
    have hready := sourceMatchSetup_eq_ready hlim hsetup
    rw [hready.position]
    exact (Nat.le_add_right _ _).trans hready.limit
  · intro m' blksize so m'' hat hrounds
    obtain ⟨hlim, hback, -⟩ := hat.limits hW hkept
    obtain ⟨hreach, hsum⟩ := hrounds.reaching hback.back
    have hmax := (Matcher.bounds_eq hreach.1).2.2.2.2.2.2
    have hb := hback.back
    have hl := hback.limit
    rw [usize.sub_eq hlim.position (by omega)] at hsum
    omega
  · intro m' m'' hat hextend
    obtain ⟨hlim, hback, havail⟩ := hat.limits hW hkept
    have hgoes := sourceExtendMatch_recorded hlim hback havail cfg.env
    rw [hextend] at hgoes
    exact hgoes.new

end Calls

/-- `n` steps of the search without an interruption, each of which meets `cond`. -/
def runSearch (cfg : MatchCfg) (cond : Stage → Matcher → Prop) [∀ s m, Decidable (cond s m)] :
    ℕ → Stage → Matcher → Option (Stage × Matcher)
  | 0, stage, m => some (stage, m)
  | n + 1, stage, m =>
    if cond stage m then
      match searchStep cfg stage m with
      | .ok stage' m' => runSearch cfg cond n stage' m'
      | _ => none
    else none

theorem runSearch_encoding {cfg : MatchCfg} {cond : Stage → Matcher → Prop}
    [∀ s m, Decidable (cond s m)] {n : ℕ} {stage stage' : Stage} {m m' : Matcher}
    (h : Encoding cfg cond stage m) (hrun : runSearch cfg cond n stage m = some (stage', m')) :
    Encoding cfg cond stage' m' := by
  induction n generalizing stage m with
  | zero =>
    cases hrun
    exact h
  | succ n ih =>
    unfold runSearch at hrun
    split_ifs at hrun with hcond
    cases hstep : searchStep cfg stage m with
    | ok stage₁ m₁ =>
      rw [hstep] at hrun
      exact ih (h.step hcond hstep) hrun
    | starved m₁ => simp [hstep] at hrun
    | stop e m₁ => simp [hstep] at hrun
    | fault => simp [hstep] at hrun

/-- A run of eight zeros in the window; the source is `9 0 0 0 0`. -/
def greedyMatcher (begreedy : Bool) : Matcher :=
  { enc := { flags := { nocompress := true, begreedy := begreedy }
             src := .live { blksize := 16, shiftby := 4, maskby := 15, maxWinsize := 16
                            onlastblk := 5, eofKnown := true
                            curblk := some [9, 0, 0, 0, 0], onblk := 5 }
             nextIn := [0, 0, 0, 0, 0, 0, 0, 0, 1, 2]
             availIn := 10
             ioptUnlimited := true }
    search := { minMatch := 4 } }

def lazyCfg : MatchCfg := { smatcher := ⟨4, 1, 4, 1, 1, 100, 0⟩ }

theorem greedyMatcher_encoding (begreedy : Bool) (cond : Stage → Matcher → Prop) :
    Encoding lazyCfg cond .entry (greedyMatcher begreedy) :=
  .start ⟨rfl, rfl, rfl⟩ (show 10 < 2 ^ 64 by decide) rfl rfl

structure Glance where
  runL : ℕ
  doLarge : Bool
  nextMovePoint : ℕ
  begreedy : Bool
  position : ℕ
  availIn : ℕ
  last : ℕ
  entry : ℕ
  deriving DecidableEq

def glance : Stage × Matcher → Option Glance
  | (.phase (.top look), m) =>
    some ⟨look.run.runL, look.doLarge, look.nextMovePoint, m.enc.flags.begreedy,
      m.search.inputPosition, m.enc.availIn, m.enc.ioptLastMatched,
      m.search.largeTable (checksumHash lazyCfg.largeCfg look.lcksum)⟩
  | _ => none

theorem glance_eq {s : Stage × Matcher} {g : Glance} (h : glance s = some g) :
    ∃ look m, s = (.phase (.top look), m) ∧ look.run.runL = g.runL ∧ look.doLarge = g.doLarge ∧
      look.nextMovePoint = g.nextMovePoint ∧ m.enc.flags.begreedy = g.begreedy ∧
      m.search.inputPosition = g.position ∧ m.enc.availIn = g.availIn ∧
      m.enc.ioptLastMatched = g.last ∧
      m.search.largeTable (checksumHash lazyCfg.largeCfg look.lcksum) = g.entry := by
  unfold glance at h
  split at h
  · rename_i look m
    obtain rfl := Option.some_inj.mp h
    exact ⟨look, m, rfl, rfl, rfl, rfl, rfl, rfl, rfl, rfl, rfl⟩
  · cases h

/-- Without `XD3_BEGREEDY` the search looks on inside the run, with the limit at the start. -/
theorem backwardLimits_right_lazy : ∃ look m, m.search.inputPosition = 1 ∧
    m.enc.ioptLastMatched = 8 ∧ LimitsRight lazyCfg (.phase (.top look)) m := by
  have hrun : (runSearch lazyCfg NotInside 4 .entry (greedyMatcher false)).bind glance =
      some ⟨9, true, 2 ^ 64 - 1, false, 1, 10, 8, 2⟩ := by decide +kernel
  obtain ⟨s, hs, hglance⟩ := Option.bind_eq_some_iff.mp hrun
  obtain ⟨look, m, rfl, -, -, -, -, hpos, -, hlast, -⟩ := glance_eq hglance
  exact ⟨look, m, hpos, hlast,
    backwardLimits_right rfl (runSearch_encoding (greedyMatcher_encoding false _) hs)⟩

/-- With `XD3_BEGREEDY` the setup one byte into the run subtracts its end, 8, from the position, 1. -/
theorem backwardLimits_right_fails :
    ¬ ∀ (cfg : MatchCfg) (stage : Stage) (m : Matcher), cfg.sizeT = usize →
      Encoding cfg (fun _ _ => True) stage m → LimitsRight cfg stage m := by
  intro h
  have hrun : (runSearch lazyCfg (fun _ _ => True) 4 .entry (greedyMatcher true)).bind glance =
      some ⟨9, true, 2 ^ 64 - 1, true, 1, 10, 8, 2⟩ := by decide +kernel
  obtain ⟨s, hs, hglance⟩ := Option.bind_eq_some_iff.mp hrun
  obtain ⟨look, m, rfl, hrunL, hdo, hnext, hflag, hpos, havail, hlast, hentry⟩ :=
    glance_eq hglance
  have hright := h _ _ _ rfl (runSearch_encoding (greedyMatcher_encoding true _) hs)
  have htry : tryRun lazyCfg look m = .ok (none, look) m := by
    unfold tryRun
    rw [hrunL]
    rfl
  have hremains : look.largeRemains lazyCfg m := by
    refine ⟨hdo, ?_⟩
    rw [hpos, havail]
    decide
  have hmove : (if look.nextMovePoint ≤ m.search.inputPosition then srcwinMovePoint lazyCfg.env m
      else .ok look.nextMovePoint m) = .ok look.nextMovePoint m := by
    rw [if_neg]
    rw [hnext, hpos]
    decide
  have hat := SetupAt.top htry hremains hmove (by rw [hentry]; decide)
  have hle := (hright.setup _ _ hat).1
  unfold Matcher.greedyOrNot at hle
  rw [if_pos hflag, hlast, hpos] at hle
  exact absurd hle (by decide)

end Xdelta
