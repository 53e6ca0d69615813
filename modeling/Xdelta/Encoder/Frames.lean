import Xdelta.Encoder.Search

/-!
# What the matcher's routines leave alone

Entering instructions, indexing the source and extending a match change neither the window
nor the position in it.
-/
namespace Xdelta
open Chunked

section Fixing

variable {σ τ α γ β : Type} {p : σ → β} {s : σ}

/-- However the routine ends, `p` is what it was in `s`. -/
def Fixes (p : σ → β) (s : σ) (o : Outcome σ Stop α) : Prop := o.Keeps fun s' => p s' = p s

theorem Fixes.of_ok {o : Outcome σ Stop α} {a : α} {s' : σ} (h : Fixes p s o)
    (ho : o = .ok a s') : p s' = p s := by
  rw [ho] at h
  exact h

theorem Fixes.congr {t : σ} {o : Outcome σ Stop α} (h : Fixes p t o) (ht : p t = p s) :
    Fixes p s o := by
  unfold Fixes at h
  rwa [ht] at h

theorem Fixes.andThen {o : Outcome σ Stop α} {k : α → Routine σ Stop γ} (ho : Fixes p s o)
    (hk : ∀ a s', Fixes p s' (k a s')) : Fixes p s (o.andThen k) := by
  apply Outcome.Goes.andThen ho
  intro a s' hs'
  apply (hk a s').mono
  · exact fun _ s'' hs'' => hs''.trans hs'
  · exact fun s'' hs'' => hs''.trans hs'
  · exact fun _ s'' hs'' => hs''.trans hs'

theorem Fixes.mapState {q : τ → γ} {f : τ → σ} {t : τ} {o : Outcome τ Stop α} (ho : Fixes q t o)
    (h : ∀ t', q t' = q t → p (f t') = p s) : Fixes p s (o.mapState f) := by
  apply Outcome.Goes.mapState
  apply ho.mono
  · exact fun _ t' ht' => h t' ht'
  · exact fun t' ht' => h t' ht'
  · exact fun _ t' ht' => h t' ht'

theorem fixes_of_forall {o : Outcome σ Stop α} (h : ∀ s', p s' = p s) : Fixes p s o :=
  Outcome.goes_of_forall (fun _ => h) h (fun _ => h) o

end Fixing

def Encoder.input (e : Encoder) : List UInt8 × ℕ := (e.nextIn, e.availIn)

section Queue

variable (e : Encoder)

theorem srcwinSetup_fixes : Fixes Encoder.input e (srcwinSetup e) := by
  unfold srcwinSetup
  cases e.src with
  | null => trivial
  | dead => trivial
  | live source =>
    dsimp only
    split_ifs <;> rfl

theorem copyAddress_fixes (inst : Rinst) : Fixes Encoder.input e (copyAddress inst e) := by
  unfold copyAddress
  cases e.src with
  | null => rfl
  | dead => trivial
  | live source =>
    apply Fixes.andThen
    · split_ifs
      · rfl
      · exact srcwinSetup_fixes e
    · intro _ e'
      cases e'.src with
      | null => trivial
      | dead => trivial
      | live source' => split_ifs <;> rfl

theorem encodeOperands_fixes (inst : Rinst) : Fixes Encoder.input e (encodeOperands inst e) := by
  unfold encodeOperands
  cases inst.type with
  | cpy mode =>
    apply (copyAddress_fixes e inst).andThen
    intro addr e'
    rfl
  | run => rfl
  | noop => rfl
  | add =>
    dsimp only
    split_ifs
    · rfl
    · trivial

theorem Encoder.input_freeNonadd (inst : Rinst) : (e.freeNonadd inst).input = e.input := by
  unfold Encoder.freeNonadd
  split_ifs <;> rfl

theorem Encoder.input_pair (inst : Rinst) : (e.pair inst).input = e.input := by
  unfold Encoder.pair
  rcases chooseInstruction e.iout { inst with code2 := 0 } with ⟨iout, inst'⟩
  cases iout with
  | none => rfl
  | some iout =>
    dsimp only
    split_ifs
    · change (((e.emitDouble iout.code2).freeNonadd iout).freeNonadd inst').input = _
      rw [Encoder.input_freeNonadd, Encoder.input_freeNonadd]
      rfl
    · change ((e.emitSingle iout iout.code1).freeNonadd iout).input = _
      rw [Encoder.input_freeNonadd]
      rfl

theorem finishEncoding_fixes (inst : Rinst) : Fixes Encoder.input e (finishEncoding inst e) := by
  apply (encodeOperands_fixes e inst).andThen
  rintro ⟨inst', addr⟩ e'
  exact Encoder.input_pair _ _

theorem ioptAddEncoding_fixes (inst : Rinst) : Fixes Encoder.input e (ioptAddEncoding inst e) := by
  apply Fixes.andThen
  · unfold ioptAdd
    split_ifs
    · exact finishEncoding_fixes e _
    · rfl
  · intro _ e'
    exact finishEncoding_fixes e' inst

theorem flushFront_fixes (force : Bool) (fuel flushed : ℕ) :
    Fixes Encoder.input e (flushFront force fuel flushed e) := by
  induction fuel generalizing e flushed with
  | zero => rfl
  | succ fuel ih =>
    unfold flushFront
    cases e.ioptUsed with
    | nil => rfl
    | cons renc rest =>
      apply (ioptAddEncoding_fixes { e with ioptUsed := rest } renc).andThen
      intro _ e'
      split_ifs
      · exact ih e' flushed
      · rfl
      · exact ih e' (flushed + 1)

theorem ioptGetSlot_fixes (inst : Rinst) : Fixes Encoder.input e (ioptGetSlot inst e) := by
  apply Fixes.andThen
  · split_ifs
    · rfl
    · exact flushFront_fixes _ _ _ _
    · rfl
  · intro _ e'
    split_ifs
    · trivial
    · rfl

end Queue

/-- An observation of the matcher that the source and what is indexed of it do not change. -/
structure IgnoresSource {β : Type} (p : Matcher → β) : Prop where
  source : ∀ (m : Matcher) (src : SourceRef), p { m with enc := { m.enc with src := src } } = p m
  index : ∀ (m : Matcher) (table offsets : ℕ → ℕ) (cksumPos : ℕ), p { m with search := { m.search with
    largeTable := table, largeOffsets := offsets, srcwinCksumPos := cksumPos } } = p m

/-- An observation that the progress of a match does not change either. -/
structure IgnoresMatch {β : Type} (p : Matcher → β) : Prop extends IgnoresSource p where
  progress : ∀ (m : Matcher) (state : MatchState) (back fwd : ℕ), p { m with search := { m.search with
    matchState := state, matchBack := back, matchFwd := fwd } } = p m

def Matcher.place (m : Matcher) : (List UInt8 × ℕ) × ℕ := (m.enc.input, m.search.inputPosition)

theorem place_ignoresMatch : IgnoresMatch Matcher.place := by
  constructor
  · constructor <;> intros <;> rfl
  · intros
    rfl

section Searching

variable {β : Type} {p : Matcher → β} (m : Matcher)

theorem onEnc_fixes {α : Type} {f : Enc α} (h : Fixes Encoder.input m.enc (f m.enc)) :
    Fixes Matcher.place m (onEnc f m) := by
  apply h.mapState
  intro e he
  exact congrArg (·, m.search.inputPosition) he

theorem emitRun_fixes (pos size : ℕ) (runC : UInt8) :
    Fixes Matcher.place m (onEnc (emitRun pos size runC) m) :=
  onEnc_fixes m (ioptGetSlot_fixes _ _)

theorem foundMatch_fixes (pos size addr : ℕ) (isSource : Bool) :
    Fixes Matcher.place m (onEnc (foundMatch pos size addr isSource) m) :=
  onEnc_fixes m (ioptGetSlot_fixes _ _)

theorem onSource_fixes (hp : IgnoresSource p) {α : Type} (f : Routine Source Stop α) :
    Fixes p m (onSource f m) := by
  unfold onSource
  cases m.enc.src with
  | null => trivial
  | dead => trivial
  | live source =>
    apply Fixes.mapState (q := fun _ => ()) (t := source) (fixes_of_forall fun _ => rfl)
    intro source' _
    exact hp.source m (.live source')

theorem tryBlock_fixes (hp : IgnoresSource p) (env : EncEnv) (blkno : ℕ) :
    Fixes p m (tryBlock env blkno m) := by
  have h := onSource_fixes m hp (getblk env.getblk blkno)
  unfold tryBlock
  cases hon : onSource (getblk env.getblk blkno) m with
  | ok a m' => rwa [hon] at h
  | starved m' => rwa [hon] at h
  | fault => trivial
  | stop e m' =>
    rw [hon] at h
    dsimp only
    split_ifs
    · exact h
    · exact h

theorem backwardBytes_fixes (hp : IgnoresMatch p) (block : List UInt8)
    (tryrem tryoff streamoff : ℕ) : Fixes p m (backwardBytes block tryrem tryoff streamoff m) := by
  induction tryrem generalizing m tryoff streamoff with
  | zero => rfl
  | succ tryrem ih =>
    unfold backwardBytes
    split_ifs
    · trivial
    · cases byteAt block (tryoff - 1) with
      | none => trivial
      | some a =>
        cases byteAt m.enc.window (streamoff - 1) with
        | none => trivial
        | some b =>
          dsimp only
          split_ifs
          · apply (ih { m with search := { m.search with matchBack := m.search.matchBack + 1 } } _ _).congr
            exact hp.progress m _ _ _
          · rfl

theorem backwardLoop_fixes (hp : IgnoresMatch p) (env : EncEnv)
    (blksize fuel tryblk tryoff streamoff : ℕ) :
    Fixes p m (backwardLoop env blksize fuel tryblk tryoff streamoff m) := by
  induction fuel generalizing m tryblk tryoff streamoff with
  | zero => trivial
  | succ fuel ih =>
    unfold backwardLoop
    by_cases hmore : m.search.matchBack < m.search.matchMaxback
    · rw [if_pos hmore]
      generalize (if tryoff = 0 then xoff.sub tryblk 1 else tryblk) = blk
      generalize (if tryoff = 0 then blksize else tryoff) = off
      apply (tryBlock_fixes m hp.toIgnoresSource env _).andThen
      intro toofar m'
      cases toofar with
      | true => exact rfl
      | false =>
        apply (backwardBytes_fixes m' hp _ _ _ _).andThen
        intro reached m''
        cases reached with
        | none => exact rfl
        | some r => exact ih m'' _ _ _
    · rw [if_neg hmore]
      exact rfl

theorem extendBackward_fixes (hp : IgnoresMatch p) (env : EncEnv) (src : Source) :
    Fixes p m (extendBackward env src m) := by
  unfold extendBackward
  split_ifs
  · apply (backwardLoop_fixes m hp _ _ _ _ _ _).andThen
    intro ended m'
    cases ended with
    | doneback => exact hp.progress m' _ _ _
    | donefwd => rfl
  · rfl

theorem forwardLoop_fixes (hp : IgnoresSource p)
    (hfwd : ∀ (m : Matcher) (fwd : ℕ), p { m with search := { m.search with matchFwd := fwd } } = p m)
    (env : EncEnv) (blksize fuel tryblk tryoff streamoff : ℕ) :
    Fixes p m (forwardLoop env blksize fuel tryblk tryoff streamoff m) := by
  induction fuel generalizing m tryblk tryoff streamoff with
  | zero => trivial
  | succ fuel ih =>
    unfold forwardLoop
    by_cases hmore : m.search.matchFwd < m.search.matchMaxfwd
    · rw [if_pos hmore]
      generalize (if tryoff = blksize then xoff.add tryblk 1 else tryblk) = blk
      generalize (if tryoff = blksize then 0 else tryoff) = off
      apply (tryBlock_fixes m hp env _).andThen
      intro toofar m'
      dsimp only
      generalize min (m'.search.matchMaxfwd - m'.search.matchFwd) (m'.curblk.length - off) = room
      generalize forwardMatch (m'.curblk.drop off) (m'.enc.window.drop streamoff) room = matched
      split_ifs
      · exact rfl
      · trivial
      · exact rfl
      · trivial
      · exact hfwd m' _
      · apply (ih { m' with search := { m'.search with matchFwd := m'.search.matchFwd + matched } }
          _ _ _).congr
        exact hfwd m' _
    · rw [if_neg hmore]
      exact rfl

theorem Matcher.place_takeMatch : m.takeMatch.place = m.place := by
  unfold Matcher.takeMatch
  generalize usize.sub m.search.inputPosition m.search.matchBack = target
  generalize xoff.sub m.search.matchSrcpos m.search.matchBack = start
  generalize xoff.add m.search.matchSrcpos m.search.matchFwd = stop
  dsimp only [Matcher.place, Encoder.input]
  by_cases hback : 0 < m.search.matchBack
  · rw [if_pos hback]
    rfl
  · rw [if_neg hback]

theorem recordMatch_fixes : Fixes Matcher.place m (recordMatch m) := by
  unfold recordMatch
  dsimp only
  split_ifs
  · rfl
  · apply Fixes.andThen
    · apply (foundMatch_fixes _ _ _ _ _).congr
      exact Matcher.place_takeMatch _
    · intro _ m'
      split_ifs <;> rfl

theorem sourceExtendMatch_fixes (env : EncEnv) :
    Fixes Matcher.place m (sourceExtendMatch env m) := by
  unfold sourceExtendMatch
  cases m.enc.src with
  | null => trivial
  | dead => trivial
  | live src =>
    apply (extendBackward_fixes m place_ignoresMatch env src).andThen
    intro ended m'
    apply Fixes.andThen
    · split_ifs
      · exact forwardLoop_fixes m' place_ignoresMatch.toIgnoresSource (fun _ _ => rfl) _ _ _ _ _ _
      · rfl
    · intro _ m''
      exact recordMatch_fixes m''

theorem sourceMatchSetup_fixes (srcpos : ℕ) : Fixes Matcher.place m (sourceMatchSetup srcpos m) := by
  unfold sourceMatchSetup
  cases m.enc.src with
  | null => trivial
  | dead => trivial
  | live src =>
    dsimp only
    split_ifs <;> rfl

theorem smatch_fixes (env : EncEnv) (base : ℕ) : Fixes p m (smatch env base m) := by
  unfold smatch
  dsimp only
  generalize smatchLoop env m _ (base - 1) {} = r
  cases r with
  | none => trivial
  | some r =>
    dsimp only
    split_ifs <;> rfl

theorem indexBlock_search {env : EncEnv} {block : List UInt8} {base fuel : ℕ} {oldpos blkpos : ℤ}
    {s s' : Search} (h : indexBlock env block base oldpos fuel blkpos s = some s') :
    ∃ table offsets, s' = { s with largeTable := table, largeOffsets := offsets } := by
  induction fuel generalizing blkpos s with
  | zero => cases h
  | succ fuel ih =>
    unfold indexBlock at h
    dsimp only at h
    split_ifs at h
    · obtain ⟨table, offsets, rfl⟩ := ih h
      exact ⟨table, offsets, rfl⟩
    · exact ⟨_, _, (Option.some_inj.mp h).symm⟩

theorem indexFetched_fixes (hp : IgnoresSource p) (env : EncEnv) (blkno blkrem : ℕ) :
    Fixes p m (indexFetched env blkno blkrem m) := by
  unfold indexFetched
  cases m.enc.src with
  | null => trivial
  | dead => trivial
  | live src =>
    dsimp only
    split_ifs
    · exact hp.index m _ _ _
    · generalize hindex : indexBlock env m.curblk _ _ _ _ m.search = s
      cases s with
      | none => trivial
      | some s =>
        obtain ⟨table, offsets, hs⟩ := indexBlock_search hindex
        subst hs
        exact hp.index m _ _ _

theorem indexRound_fixes (hp : IgnoresSource p) (env : EncEnv) (src : Source) :
    Fixes p m (indexRound env src m) := by
  unfold indexRound
  rcases src.blksizeDiv m.search.srcwinCksumPos with ⟨blkno, blkrem⟩
  have h := onSource_fixes m hp (getblk env.getblk blkno)
  dsimp only
  cases hon : onSource (getblk env.getblk blkno) m with
  | ok a m' =>
    rw [hon] at h
    exact (indexFetched_fixes m' hp env blkno blkrem).congr h
  | starved m' => rwa [hon] at h
  | stop e m' => rwa [hon] at h
  | fault => trivial

theorem indexLoop_fixes (hp : IgnoresSource p) (env : EncEnv) (target fuel : ℕ) :
    Fixes p m (indexLoop env target fuel m) := by
  induction fuel generalizing m with
  | zero => trivial
  | succ fuel ih =>
    unfold indexLoop
    cases m.enc.src with
    | null => trivial
    | dead => trivial
    | live src =>
      dsimp only
      split_ifs
      · apply (indexRound_fixes m hp env src).andThen
        intro _ m'
        exact ih m'
      · rfl

theorem finishMove_fixes (hp : IgnoresSource p) (env : EncEnv) (target : ℕ) :
    Fixes p m (finishMove env target m) := by
  unfold finishMove
  cases m.enc.src with
  | null => trivial
  | dead => trivial
  | live src =>
    dsimp only
    split_ifs
    · exact hp.index m _ _ _
    · rfl

theorem srcwinMovePoint_fixes (hp : IgnoresSource p) (env : EncEnv) :
    Fixes p m (srcwinMovePoint env m) := by
  unfold srcwinMovePoint
  cases m.enc.src with
  | null => trivial
  | dead => trivial
  | live src =>
    dsimp only
    split_ifs
    · rfl
    · apply Fixes.andThen
      · generalize max m.search.srcwinCksumPos m.search.maxsrcaddr = pos
        apply (indexLoop_fixes { m with search := { m.search with srcwinCksumPos := pos } } hp env _
          _).congr
        exact hp.index m _ _ _
      · intro _ m'
        exact finishMove_fixes m' hp env _

end Searching

end Xdelta
