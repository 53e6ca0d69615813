import Xdelta.Encoder.StringMatch

/-!
# Searching a window

The state `ENC_SEARCH` of `xd3_encode_input`: a match of the previous window is continued, or
the one that a missing source block interrupted, and then the string matcher is called. It is
entered anew after every block the application delivers.
-/
namespace Xdelta
open Chunked

/-- The end of the reentrant matching: the match is extended and passed over. -/
def resumeMatch (cfg : MatchCfg) : Mat Unit := fun m =>
  if m.enc.availIn = 0 then .ok () m
  else
    (sourceExtendMatch cfg.env m).andThen fun _ m =>
    .ok () { m with search := { m.search with
      inputPosition := cfg.sizeT.add m.search.inputPosition m.search.matchFwd } }

def reenterMatch (cfg : MatchCfg) : Mat Unit := fun m =>
  if m.enc.src = .null then .ok () m
  else
    match m.search.matchState with
    | .target =>
      if 0 < m.enc.availIn then
        -- the result of the setup is not looked at
        (sourceMatchSetup m.search.matchSrcpos m).andThen fun _ m =>
        resumeMatch cfg { m with search := { m.search with matchState := .forward } }
      else
        resumeMatch cfg { m with search := { m.search with
          matchState := .searching, matchFwd := 0 } }
    | .searching => .ok () m
    | _ => resumeMatch cfg m

inductive Stage where
  | entry
  | phase (phase : Phase)

/-- From one place to the next one; the string matcher is left at once where it has no room. -/
def searchStep (cfg : MatchCfg) : Stage → Mat Stage
  | .entry => fun m =>
    (reenterMatch cfg m).andThen fun _ m =>
    if m.enc.availIn = 0 ∨
        m.enc.availIn < cfg.sizeT.add m.search.inputPosition cfg.smatcher.smallLook then
      .ok (.phase .done) m
    else .ok (.phase (.restart m.looking)) (m.stringMatchInit cfg.env)
  | .phase phase => fun m => (matchStep cfg phase m).andThen fun phase m => .ok (.phase phase) m

/-- A window is about to be searched: what `ENC_INPUT` sets, and a queue that has been flushed. -/
structure WindowStart (m : Matcher) : Prop where
  position : m.search.inputPosition = 0
  unencoded : m.enc.unencodedOffset = 0
  used : m.enc.ioptUsed = []

/-- The searches of an encoder with an unlimited instruction buffer, through steps that meet
`cond`. What the application does about a missing block changes the source only; the next window
keeps the state of the match. -/
inductive Encoding (cfg : MatchCfg) (cond : Stage → Matcher → Prop) : Stage → Matcher → Prop
  | start {m} : WindowStart m → m.enc.availIn < usize.modulus → m.enc.ioptUnlimited = true →
      m.search.matchState = .target → Encoding cfg cond .entry m
  | step {stage stage' m m'} : Encoding cfg cond stage m → cond stage m →
      searchStep cfg stage m = .ok stage' m' → Encoding cfg cond stage' m'
  | block {stage e m m'} (source : Source) : Encoding cfg cond stage m → cond stage m →
      searchStep cfg stage m = .stop e m' →
      Encoding cfg cond .entry { m' with enc := { m'.enc with src := .live source } }
  | window {m m'} : Encoding cfg cond (.phase .done) m → WindowStart m' →
      m'.enc.availIn < usize.modulus → m'.enc.ioptUnlimited = true →
      m'.search.matchState = m.search.matchState → Encoding cfg cond .entry m'

def Matcher.greedyOrNot (m : Matcher) : ℕ :=
  if m.enc.flags.begreedy then m.enc.ioptLastMatched else m.enc.unencodedOffset

/-- The step calls `xd3_source_match_setup` for `srcpos` in the state `m'`. -/
inductive SetupAt (cfg : MatchCfg) : Stage → Matcher → ℕ → Matcher → Prop
  | entry {m} : m.enc.src ≠ .null → m.search.matchState = .target → 0 < m.enc.availIn →
      SetupAt cfg .entry m m.search.matchSrcpos m
  | top {look look' m m₁ m₂ next} : tryRun cfg look m = .ok (none, look') m₁ →
      look'.largeRemains cfg m₁ →
      (if look'.nextMovePoint ≤ m₁.search.inputPosition then srcwinMovePoint cfg.env m₁
        else .ok look'.nextMovePoint m₁) = .ok next m₂ →
      m₂.search.largeTable (checksumHash cfg.largeCfg look'.lcksum) ≠ 0 →
      SetupAt cfg (.phase (.top look)) m (sourceCksumOffset cfg.sizeT m₂.search.srcwinCksumPos
        (m₂.search.largeTable (checksumHash cfg.largeCfg look'.lcksum) - 1)) m₂

inductive ExtendAt (cfg : MatchCfg) : Stage → Matcher → Matcher → Prop
  | again {m} : m.enc.src ≠ .null →
      m.search.matchState = .backward ∨ m.search.matchState = .forward → m.enc.availIn ≠ 0 →
      ExtendAt cfg .entry m m
  | entry {m m' srcpos ready m''} : SetupAt cfg .entry m srcpos m' →
      sourceMatchSetup srcpos m' = .ok ready m'' →
      ExtendAt cfg .entry m { m'' with search := { m''.search with matchState := .forward } }
  | top {look m srcpos m' m''} : SetupAt cfg (.phase (.top look)) m srcpos m' →
      sourceMatchSetup srcpos m' = .ok true m'' → ExtendAt cfg (.phase (.top look)) m m''

inductive BackRounds (env : EncEnv) (blksize : ℕ) (streamoff : ℕ) (m : Matcher) :
    ℕ → Matcher → Prop
  | first : BackRounds env blksize streamoff m streamoff m
  | next {so so' tryblk tryoff tryoff' m₁ m₂ m₃} : BackRounds env blksize streamoff m so m₁ →
      m₁.search.matchBack < m₁.search.matchMaxback →
      tryBlock env tryblk m₁ = .ok false m₂ →
      backwardBytes m₂.curblk (min tryoff (m₂.search.matchMaxback - m₂.search.matchBack)) tryoff so
        m₂ = .ok (some (tryoff', so')) m₃ →
      BackRounds env blksize streamoff m so' m₃

end Xdelta
