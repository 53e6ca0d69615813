import Xdelta.Encoder.Checksum
import Xdelta.Encoder.Frames

/-!
# The string matcher

`xd3_string_match` goes through the window byte by byte, with two checksums and the length
of the present run that it moves on by one byte at a time, and starts them afresh wherever
it does not.
-/
namespace Xdelta
open Chunked

/-- What the matcher is configured with. The slots are the counts `xd3_encode_init` passes to
`xd3_size_hashtable`. -/
structure MatchCfg where
  getblk : Option GetblkFunc := none
  smatcher : Smatcher
  sprevmask : ℕ := 0
  stale : ℕ → ℕ := fun _ => 0
  sizeT : Width := usize
  smallSlots : ℕ := 0
  largeSlots : ℕ := 0

namespace MatchCfg

def smallCfg (cfg : MatchCfg) : HashCfg :=
  sizeHashtable cfg.sizeT cfg.smallSlots cfg.smatcher.smallLook

def largeCfg (cfg : MatchCfg) : HashCfg :=
  sizeHashtable cfg.sizeT cfg.largeSlots cfg.smatcher.largeLook

def env (cfg : MatchCfg) : EncEnv :=
  { getblk := cfg.getblk
    smatcher := cfg.smatcher
    sprevmask := cfg.sprevmask
    smallHash := fun bytes => checksumHash cfg.smallCfg ((scksum bytes 0).getD 0)
    largeHash := fun bytes =>
      checksumHash cfg.largeCfg (largeCksumLoop cfg.sizeT cfg.largeCfg.powers 0 0 bytes)
    stale := cfg.stale
    sizeT := cfg.sizeT }

/-- The check `xd3_config_stream` makes of a matcher's parameters; those built in pass it. -/
def Accepted (cfg : MatchCfg) : Prop :=
  minMatch ≤ cfg.smatcher.largeLook ∧ 1 ≤ cfg.smatcher.largeStep ∧
    minMatch ≤ cfg.smatcher.smallLook

instance (cfg : MatchCfg) : Decidable cfg.Accepted := by
  unfold Accepted
  infer_instance

end MatchCfg

structure RunState where
  runL : ℕ
  runC : UInt8
  deriving DecidableEq

def RunState.next (W : Width) (r : RunState) (c : UInt8) : RunState :=
  if c = r.runC then { r with runL := W.add r.runL 1 } else ⟨1, c⟩

/-- `xd3_comprun` of the `slook` bytes at `pos`. -/
def comprun (W : Width) (mem : List UInt8) (pos slook : ℕ) : Option RunState :=
  (bytesAt mem pos slook).map fun seg => seg.foldl (RunState.next W) ⟨0, 0⟩

def expandRun (mem : List UInt8) (pos : ℕ) (runC : UInt8) : ℕ → ℕ → Option ℕ
  | 0, len => some len
  | room + 1, len =>
    match mem[pos + len]? with
    | none => none
    | some c => if c = runC then expandRun mem pos runC room (len + 1) else some len

/-- The local variables of `xd3_string_match`; `doSmall` and `doLarge` are `DO_SMALL` and
`DO_LARGE`. -/
structure Looking where
  doSmall : Bool
  doLarge : Bool
  scksum : ℕ := 0
  lcksum : ℕ := 0
  run : RunState := ⟨0, 0⟩
  nextMovePoint : ℕ := 0

/-- The places the matcher comes by: `restartloop`, the top of the loop, `updateone` and
`loopnomore`. -/
inductive Phase where
  | restart (look : Looking)
  | top (look : Looking)
  | update (look : Looking)
  | done

/-- `HANDLELAZY`; `TRYLAZYLEN` is its condition. -/
def handleLazy (cfg : MatchCfg) (mlen : ℕ) (look : Looking) : Mat Phase := fun m =>
  let W := cfg.sizeT
  if 0 < cfg.smatcher.maxLazy ∧ mlen < cfg.smatcher.maxLazy ∧
      W.add m.search.inputPosition mlen ≤ W.sub m.enc.availIn 2 then
    .ok (.update look) { m with search := { m.search with minMatch := mlen } }
  else
    .ok (.restart look) { m with search := { m.search with
      inputPosition := W.add m.search.inputPosition mlen } }

def Looking.afresh (cfg : MatchCfg) (look : Looking) (mem : List UInt8) (pos : ℕ) :
    Option Looking :=
  match (if look.doSmall then Xdelta.scksum mem pos else some look.scksum),
      comprun cfg.sizeT mem pos cfg.smatcher.smallLook with
  | some c, some run => some { look with scksum := c, run := run }
  | _, _ => none

/-- Whether `large_look` bytes remain, as the code tests it. -/
def Looking.largeRemains (cfg : MatchCfg) (look : Looking) (m : Matcher) : Prop :=
  look.doLarge = true ∧
    cfg.sizeT.add m.search.inputPosition cfg.smatcher.largeLook ≤ m.enc.availIn

instance (cfg : MatchCfg) (look : Looking) (m : Matcher) : Decidable (look.largeRemains cfg m) := by
  unfold Looking.largeRemains
  infer_instance

/-- `min_match` where the loop starts over. -/
def Matcher.freshMinMatch (m : Matcher) (W : Width) : ℕ :=
  if m.search.inputPosition < m.enc.ioptLastMatched then
    max minMatch (W.sub (W.add 1 m.enc.ioptLastMatched) m.search.inputPosition)
  else minMatch

def restartLoop (cfg : MatchCfg) (look : Looking) : Mat Phase := fun m =>
  if m.enc.availIn < cfg.sizeT.add m.search.inputPosition cfg.smatcher.smallLook then .ok .done m
  else
    let m := { m with search := { m.search with minMatch := m.freshMinMatch cfg.sizeT } }
    match look.afresh cfg m.enc.window m.search.inputPosition with
    | none => .fault
    | some look =>
      if look.largeRemains cfg m then
        (srcwinMovePoint cfg.env m).andThen fun next m =>
        match largeCksum cfg.sizeT cfg.largeCfg m.enc.window m.search.inputPosition
            cfg.smatcher.largeLook with
        | none => .fault
        | some c => .ok (.top { look with nextMovePoint := next, lcksum := c }) m
      else .ok (.top look) m

def tryRun (cfg : MatchCfg) (look : Looking) : Mat (Option Phase × Looking) := fun m =>
  let pos := m.search.inputPosition
  if look.run.runL = cfg.smatcher.smallLook then
    match expandRun m.enc.window pos look.run.runC
        (cfg.sizeT.sub m.enc.availIn pos - look.run.runL) look.run.runL with
    | none => .fault
    | some len =>
      let look := { look with run := { look.run with runL := len } }
      if m.search.minMatch ≤ len ∧ minRun ≤ len then
        (onEnc (emitRun pos len look.run.runC) m).andThen fun _ m =>
        (handleLazy cfg len look m).andThen fun phase m => .ok (some phase, look) m
      else .ok (none, look) m
  else .ok (none, look) m

def tryEntry (cfg : MatchCfg) (look : Looking) (low : ℕ) : Mat (Option Phase) := fun m =>
  if low = 0 then .ok none m
  else
    (sourceMatchSetup (sourceCksumOffset cfg.sizeT m.search.srcwinCksumPos (low - 1)) m).andThen
      fun ready m =>
    if ready then
      (sourceExtendMatch cfg.env m).andThen fun _ m =>
      if 0 < m.search.matchFwd then
        (handleLazy cfg m.search.matchFwd look m).andThen fun phase m => .ok (some phase) m
      else .ok none m
    else .ok none m

def tryLarge (cfg : MatchCfg) (look : Looking) : Mat (Option Phase × Looking) := fun m =>
  if look.largeRemains cfg m then
    (if look.nextMovePoint ≤ m.search.inputPosition then srcwinMovePoint cfg.env m
      else .ok look.nextMovePoint m).andThen fun next m =>
    let look := { look with nextMovePoint := next }
    (tryEntry cfg look (m.search.largeTable (checksumHash cfg.largeCfg look.lcksum)) m).andThen
      fun found m => .ok (found, look) m
  else .ok (none, look) m

/-- A match in the window at the top of the loop; the position is entered in the table. -/
def trySmall (cfg : MatchCfg) (look : Looking) : Mat (Option Phase) := fun m =>
  if look.doSmall then
    let sinx := checksumHash cfg.smallCfg look.scksum
    let entry := (m.search.smallTable.getD fun _ => 0) sinx
    (if entry = 0 then .ok {} m else smatch cfg.env entry m).andThen fun r m =>
    let m := { m with search := m.search.scksumInsert cfg.env sinx m.search.inputPosition }
    if m.search.minMatch ≤ r.length then
      (onEnc (foundMatch m.search.inputPosition r.length r.offset false) m).andThen fun _ m =>
      (handleLazy cfg r.length look m).andThen fun phase m => .ok (some phase) m
    else .ok none m
  else .ok none m

def topLoop (cfg : MatchCfg) (look : Looking) : Mat Phase := fun m =>
  (tryRun cfg look m).andThen fun (found, look) m =>
  match found with
  | some phase => .ok phase m
  | none =>
    (tryLarge cfg look m).andThen fun (found, look) m =>
    match found with
    | some phase => .ok phase m
    | none =>
      (trySmall cfg look m).andThen fun found m =>
      match found with
      | some phase => .ok phase m
      | none =>
        .ok (.update look) (if minMatch < m.search.minMatch then
          { m with search := { m.search with minMatch := m.search.minMatch - 1 } } else m)

def Looking.next (cfg : MatchCfg) (look : Looking) (mem : List UInt8) (pos availIn : ℕ) :
    Option Looking :=
  match mem[pos + cfg.smatcher.smallLook]?,
      (if look.doSmall then smallCksumUpdate mem pos else some look.scksum),
      (if look.doLarge = true ∧ cfg.sizeT.add pos cfg.smatcher.largeLook < availIn then
        largeCksumUpdate cfg.sizeT cfg.largeCfg look.lcksum mem pos cfg.smatcher.largeLook
      else some look.lcksum) with
  | some c, some s, some l =>
    some { look with run := look.run.next cfg.sizeT c, scksum := s, lcksum := l }
  | _, _, _ => none

def updateOne (cfg : MatchCfg) (look : Looking) : Mat Phase := fun m =>
  let pos := m.search.inputPosition
  if cfg.sizeT.add pos cfg.smatcher.smallLook = m.enc.availIn then .ok .done m
  else
    match look.next cfg m.enc.window pos m.enc.availIn with
    | none => .fault
    | some look =>
      .ok (.top look) { m with search := { m.search with inputPosition := cfg.sizeT.add pos 1 } }

def matchStep (cfg : MatchCfg) : Phase → Mat Phase
  | .restart look => restartLoop cfg look
  | .top look => topLoop cfg look
  | .update look => updateOne cfg look
  | .done => fun m => .ok .done m

def Matcher.looking (m : Matcher) : Looking :=
  { doSmall := !m.enc.flags.nocompress, doLarge := decide (m.enc.src ≠ .null) }

/-- Where a call of `xd3_string_match` in `m₀` comes by, through steps that meet `cond`. -/
inductive Matching (cfg : MatchCfg) (cond : Phase → Matcher → Prop) (m₀ : Matcher) :
    Phase → Matcher → Prop
  | enter : cfg.sizeT.add m₀.search.inputPosition cfg.smatcher.smallLook ≤ m₀.enc.availIn →
      Matching cfg cond m₀ (.restart m₀.looking) (m₀.stringMatchInit cfg.env)
  | step {phase phase' : Phase} {m m' : Matcher} : Matching cfg cond m₀ phase m → cond phase m →
      matchStep cfg phase m = .ok phase' m' → Matching cfg cond m₀ phase' m'

end Xdelta
