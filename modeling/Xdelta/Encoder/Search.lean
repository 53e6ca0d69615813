import Xdelta.Encoder.Queue

/-!
# Finding matches

The string matcher looks for runs, for matches in the source and for matches earlier in
the window, and enters what it finds into the queue. A match in the source is extended
backwards and forwards block by block; the matcher returns whenever a block is missing
and is called again.
-/
namespace Xdelta
open Chunked

inductive MatchState where
  | target | backward | forward | searching
  deriving DecidableEq, Repr

structure Smatcher where
  largeLook : ℕ
  largeStep : ℕ
  smallLook : ℕ
  smallChain : ℕ := 1
  smallLchain : ℕ := 1
  maxLazy : ℕ := 0
  longEnough : ℕ := 0
  deriving DecidableEq

/-- What the encoder is configured with. `smallHash` and `largeHash` map the bytes looked at
to a bucket (`xd3_scksum` and `xd3_large_cksum` with `xd3_checksum_hash`), `stale` is the
content of `small_prev` when it is allocated. `sizeT` is the width of `usize_t` where it
decides what is stored of a source offset. -/
structure EncEnv where
  getblk : Option GetblkFunc := none
  smatcher : Smatcher
  sprevmask : ℕ := 0
  smallHash : List UInt8 → ℕ := fun _ => 0
  largeHash : List UInt8 → ℕ := fun _ => 0
  stale : ℕ → ℕ := fun _ => 0
  sizeT : Width := usize

/-- The fields of the matcher. `smallTable` and `smallPrev` are null before their first use.
`largeOffsets` records for which offset each entry of `largeTable` was made, `inserted` the
positions and buckets entered into `smallTable` in this window since it was last cleared,
the last one first; nothing reads them. -/
structure Search where
  inputPosition : ℕ := 0
  totalIn : ℕ := 0
  minMatch : ℕ := 0
  matchState : MatchState := .target
  matchSrcpos : ℕ := 0
  matchLastSrcpos : ℕ := 0
  matchBack : ℕ := 0
  matchMaxback : ℕ := 0
  matchFwd : ℕ := 0
  matchMaxfwd : ℕ := 0
  maxsrcaddr : ℕ := 0
  srcwinCksumPos : ℕ := 0
  smallReset : Bool := false
  smallTable : Option (ℕ → ℕ) := none
  smallPrev : Option (ℕ → ℕ) := none
  largeTable : ℕ → ℕ := fun _ => 0
  largeOffsets : ℕ → ℕ := fun _ => 0
  inserted : List (ℕ × ℕ) := []

/-- The stream as the matcher sees it. -/
structure Matcher where
  enc : Encoder := {}
  search : Search := {}

abbrev Mat (α : Type) := Routine Matcher Stop α

def onEnc {α : Type} (f : Enc α) : Mat α :=
  Routine.zoom (·.enc) (fun m e => { m with enc := e }) f

def onSource {α : Type} (f : Routine Source Stop α) : Mat α := fun m =>
  match m.enc.src with
  | .live source => (f source).mapState fun s => { m with enc := { m.enc with src := .live s } }
  | _ => .fault

def Encoder.window (e : Encoder) : List UInt8 := e.nextIn.take e.availIn

def commonPrefix : List UInt8 → List UInt8 → ℕ
  | a :: as, b :: bs => if a = b then commonPrefix as bs + 1 else 0
  | _, _ => 0

/-- `xd3_source_match_setup`: the limits of a match at `srcpos`; the result is whether
the match may be tried. -/
def sourceMatchSetup (srcpos : ℕ) : Mat Bool := fun m =>
  match m.enc.src with
  | .live src =>
    let s := { m.search with matchMaxback := 0, matchMaxfwd := 0, matchBack := 0, matchFwd := 0 }
    let bad (s : Search) : Outcome Matcher Stop Bool :=
      .ok false { m with search := { s with matchState := .searching, matchLastSrcpos := srcpos } }
    if srcpos ≠ 0 ∧ srcpos = s.matchLastSrcpos then bad s
    else if srcpos < s.srcwinCksumPos ∧ src.maxWinsize < s.srcwinCksumPos - srcpos then bad s
    else
      let greedyOrNot :=
        if m.enc.flags.begreedy then m.enc.ioptLastMatched else m.enc.unencodedOffset
      let maxback := usize.sub s.inputPosition greedyOrNot
      let maxfwd := usize.sub m.enc.availIn s.inputPosition
      let good (maxback maxfwd : ℕ) : Outcome Matcher Stop Bool :=
        .ok true { m with search := { s with
          matchMaxback := maxback
          matchMaxfwd := maxfwd
          matchState := .backward
          matchSrcpos := srcpos
          matchLastSrcpos := srcpos } }
      if m.enc.srcwinDecided = false then
        good (min maxback srcpos)
          (if src.eofKnown then min maxfwd (xoff.sub src.eof srcpos) else maxfwd)
      else
        let srcend := xoff.add src.srcbase src.srclen
        if srcpos < src.srcbase ∨ srcend < srcpos then
          bad { s with matchMaxback := maxback, matchMaxfwd := maxfwd }
        else good (min maxback (srcpos - src.srcbase)) (min maxfwd (srcend - srcpos))
  | _ => .fault

def byteAt (bytes : List UInt8) (i : ℕ) : Option UInt8 := bytes[i]?

/-- The inner loop backwards: `tryrem` bytes before `tryoff` in the block and before
`streamoff` in the input. The result is the two positions reached, or nothing at a difference. -/
def backwardBytes (block : List UInt8) : ℕ → ℕ → ℕ → Mat (Option (ℕ × ℕ))
  | 0, tryoff, streamoff => fun m => .ok (some (tryoff, streamoff)) m
  | tryrem + 1, tryoff, streamoff => fun m =>
    if tryoff = 0 ∨ streamoff = 0 then .fault
    else
      match byteAt block (tryoff - 1), byteAt m.enc.window (streamoff - 1) with
      | some a, some b =>
        if a = b then
          backwardBytes block tryrem (tryoff - 1) (streamoff - 1)
            { m with search := { m.search with matchBack := m.search.matchBack + 1 } }
        else .ok none m
      | _, _ => .fault

/-- How the backward loop ends: the match goes on forward, or is given up. -/
inductive Backward where
  | doneback
  | donefwd
  deriving DecidableEq

def tryBlock (env : EncEnv) (blkno : ℕ) : Mat Bool := fun m =>
  match onSource (getblk env.getblk blkno) m with
  | .ok _ m => .ok false m
  | .starved m => .starved m
  | .stop e m => if e.ret = .toofarback then .ok true m else .stop e m
  | .fault => .fault

def Matcher.curblk (m : Matcher) : List UInt8 :=
  match m.enc.src with
  | .live source => (source.curblk.getD []).take source.onblk
  | _ => []

def backwardLoop (env : EncEnv) (blksize : ℕ) : ℕ → ℕ → ℕ → ℕ → Mat Backward
  | 0, _, _, _ => fun _ => .fault
  | fuel + 1, tryblk, tryoff, streamoff => fun m =>
    if m.search.matchBack < m.search.matchMaxback then
      let tryblk := if tryoff = 0 then xoff.sub tryblk 1 else tryblk
      let tryoff := if tryoff = 0 then blksize else tryoff
      (tryBlock env tryblk m).andThen fun toofar m =>
      if toofar then .ok (if m.search.matchBack = 0 then .donefwd else .doneback) m
      else
        (backwardBytes m.curblk (min tryoff (m.search.matchMaxback - m.search.matchBack)) tryoff
          streamoff m).andThen fun reached m =>
        match reached with
        | none => .ok .doneback m
        | some (tryoff, streamoff) => backwardLoop env blksize fuel tryblk tryoff streamoff m
    else .ok .doneback m

def intAt (s : List UInt8) (i : ℕ) : List UInt8 := (s.drop (i * 4)).take 4

/-- The condition of the `int` loop, comparing up to `k` of them from the `i`th on: the index
it leaves, which is past the first difference. -/
def compareInts (s1 s2 : List UInt8) : ℕ → ℕ → ℕ × Bool
  | 0, i => (i, true)
  | k + 1, i => if intAt s1 i = intAt s2 i then compareInts s1 s2 k (i + 1) else (i + 1, false)

def intLoop (s1 s2 : List UInt8) (nint8 : ℕ) : ℕ → ℕ → ℕ
  | 0, i => i
  | fuel + 1, i =>
    if i ≤ nint8 then
      match compareInts s1 s2 8 i with
      | (i, true) => intLoop s1 s2 nint8 fuel i
      | (i, false) => i
    else i

/-- `xd3_forward_match`, where unaligned reads are allowed. -/
def forwardMatch (s1 s2 : List UInt8) (n : ℕ) : ℕ :=
  let nint := n / 4
  let i := if nint >>> 3 ≠ 0 then (intLoop s1 s2 (nint - 8) nint 0 - 1) * 4 else 0
  i + commonPrefix ((s1.take n).drop i) ((s2.take n).drop i)

def forwardLoop (env : EncEnv) (blksize : ℕ) : ℕ → ℕ → ℕ → ℕ → Mat Unit
  | 0, _, _, _ => fun _ => .fault
  | fuel + 1, tryblk, tryoff, streamoff => fun m =>
    if m.search.matchFwd < m.search.matchMaxfwd then
      let tryblk := if tryoff = blksize then xoff.add tryblk 1 else tryblk
      let tryoff := if tryoff = blksize then 0 else tryoff
      (tryBlock env tryblk m).andThen fun toofar m =>
      if toofar then .ok () m
      else if m.curblk.length < tryoff then .fault
      else
        let tryrem := min (m.search.matchMaxfwd - m.search.matchFwd) (m.curblk.length - tryoff)
        if tryrem = 0 then .ok () m
        else if m.enc.window.length < streamoff + tryrem then .fault
        else
          let matched :=
            forwardMatch (m.curblk.drop tryoff) (m.enc.window.drop streamoff) tryrem
          let m := { m with search := { m.search with matchFwd := m.search.matchFwd + matched } }
          if tryrem ≠ matched then .ok () m
          else forwardLoop env blksize fuel tryblk (tryoff + matched) (streamoff + matched) m
    else .ok () m

/-- The backward half of `xd3_source_extend_match`; `donefwd` skips the forward half. -/
def extendBackward (env : EncEnv) (src : Source) : Mat Backward := fun m =>
  if m.search.matchState = .backward then
    let matchoff := xoff.sub m.search.matchSrcpos m.search.matchBack
    let streamoff := usize.sub m.search.inputPosition m.search.matchBack
    match src.blksizeDiv matchoff with
    | (tryblk, tryoff) =>
      (backwardLoop env src.blksize (m.search.matchMaxback + 1) tryblk tryoff streamoff m).andThen
        fun ended m =>
        .ok ended (if ended = .doneback then
          { m with search := { m.search with matchState := .forward } } else m)
  else .ok .doneback m

def extendForward (env : EncEnv) (src : Source) : Mat Unit := fun m =>
  let matchoff := xoff.add m.search.matchSrcpos m.search.matchFwd
  let streamoff := usize.add m.search.inputPosition m.search.matchFwd
  match src.blksizeDiv matchoff with
  | (tryblk, tryoff) => forwardLoop env src.blksize (m.search.matchMaxfwd + 1) tryblk tryoff streamoff m

/-- The instructions that a match reaching back covers are erased, and the range of
source addresses in use is widened. -/
def Matcher.takeMatch (m : Matcher) : Matcher :=
  let s := m.search
  let targetPosition := usize.sub s.inputPosition s.matchBack
  let matchPosition := xoff.sub s.matchSrcpos s.matchBack
  let matchEnd := xoff.add s.matchSrcpos s.matchFwd
  let e := if 0 < s.matchBack then m.enc.ioptErase targetPosition else m.enc
  { enc := { e with
      matchMinaddr :=
        if e.matchMaxaddr = 0 ∨ matchPosition < e.matchMinaddr then matchPosition
        else e.matchMinaddr
      matchMaxaddr := max e.matchMaxaddr matchEnd }
    search := { s with matchBack := 0, maxsrcaddr := max s.maxsrcaddr matchEnd } }

def recordMatch : Mat Unit := fun m =>
  let m := { m with search := { m.search with matchState := .searching } }
  if m.search.matchFwd < m.search.minMatch then
    .ok () { m with search := { m.search with matchFwd := 0 } }
  else
    let targetPosition := usize.sub m.search.inputPosition m.search.matchBack
    let matchLength := usize.add m.search.matchBack m.search.matchFwd
    let matchPosition := xoff.sub m.search.matchSrcpos m.search.matchBack
    let matchEnd := xoff.add m.search.matchSrcpos m.search.matchFwd
    (onEnc (foundMatch targetPosition matchLength matchPosition true) m.takeMatch).andThen fun _ m =>
    .ok () (if usize.add targetPosition matchLength = m.enc.availIn then
      { m with search := { m.search with matchState := .target, matchSrcpos := matchEnd } } else m)

def sourceExtendMatch (env : EncEnv) : Mat Unit := fun m =>
  match m.enc.src with
  | .live src =>
    (extendBackward env src m).andThen fun ended m =>
    (if ended = .doneback then extendForward env src m else .ok () m).andThen fun _ => recordMatch
  | _ => .fault

def ptrdiff (n : ℕ) : ℤ := if n < 2 ^ 63 then n else n - 2 ^ 64

def Search.insertLarge (s : Search) (env : EncEnv) (bytes : List UInt8) (base blkpos : ℕ) :
    Search :=
  let hval := env.largeHash bytes
  { s with
    largeTable := Function.update s.largeTable hval
      (xoff.add base (blkpos + 1) % env.sizeT.modulus)
    largeOffsets := Function.update s.largeOffsets hval (base + blkpos) }

/-- Enter the checksums of a block, from `blkpos` downwards in steps, to `oldpos`; nothing
when a checksum needs bytes that are not in the block. -/
def indexBlock (env : EncEnv) (block : List UInt8) (base : ℕ) (oldpos : ℤ) :
    ℕ → ℤ → Search → Option Search
  | 0, _, _ => none
  | fuel + 1, blkpos, s =>
    if blkpos < 0 ∨ block.length < blkpos + env.smatcher.largeLook then none
    else
      let s := s.insertLarge env ((block.drop blkpos.toNat).take env.smatcher.largeLook) base
        blkpos.toNat
      let blkpos := blkpos - ptrdiff env.smatcher.largeStep
      if oldpos ≤ blkpos then indexBlock env block base oldpos fuel blkpos s else some s

/-- The block fetched is indexed, unless it is too short, and `srcwin_cksum_pos` goes to the
next one. -/
def indexFetched (env : EncEnv) (blkno blkrem : ℕ) : Mat Unit := fun m =>
  match m.enc.src with
  | .live src =>
    let blkpos := ptrdiff (src.bytesOnSrcblk blkno)
    let look := ptrdiff env.smatcher.largeLook
    let indexed :=
      if blkpos < look then some m.search
      else
        indexBlock env m.curblk (src.blksize * blkno % xoff.modulus) (ptrdiff blkrem)
          (m.curblk.length + 1) (blkpos - look) m.search
    match indexed with
    | none => .fault
    | some s =>
      let next := xoff.add blkno 1 * src.blksize % xoff.modulus
      .ok () { m with search := { s with srcwinCksumPos := next } }
  | _ => .fault

def indexRound (env : EncEnv) (src : Source) : Mat Unit := fun m =>
  match src.blksizeDiv m.search.srcwinCksumPos with
  | (blkno, blkrem) =>
    match onSource (getblk env.getblk blkno) m with
    | .ok _ m => indexFetched env blkno blkrem m
    | .starved m => .starved m
    | .stop e m => .stop (if e.ret = .toofarback then ⟨.internal, e.msg⟩ else e) m
    | .fault => .fault

def indexLoop (env : EncEnv) (target : ℕ) : ℕ → Mat Unit
  | 0 => fun _ => .fault
  | fuel + 1 => fun m =>
    match m.enc.src with
    | .live src =>
      if m.search.srcwinCksumPos < target ∧
          (src.eofKnown = false ∨ m.search.srcwinCksumPos < src.eof) then
        (indexRound env src m).andThen fun _ => indexLoop env target fuel
      else .ok () m
    | _ => .fault

def EncEnv.usizeMax (env : EncEnv) : ℕ := env.sizeT.modulus - 1

def Matcher.scanTarget (m : Matcher) (env : EncEnv) (src : Source) : ℕ :=
  let inputPos := xoff.add m.search.totalIn m.search.inputPosition
  if inputPos < src.maxWinsize / 2 then src.maxWinsize
  else
    let t := xoff.add (xoff.add inputPos (src.maxWinsize / 2)) (env.sizeT.add src.blksize src.blksize)
    t - (t &&& src.maskby)

def finishMove (env : EncEnv) (target : ℕ) : Mat ℕ := fun m =>
  match m.enc.src with
  | .live src =>
    if src.eofKnown = true ∧ src.eof ≤ m.search.srcwinCksumPos then
      .ok env.usizeMax { m with search := { m.search with srcwinCksumPos := src.eof } }
    else
      .ok (env.sizeT.sub (env.sizeT.add m.search.inputPosition src.blksize)
        (xoff.sub m.search.srcwinCksumPos target &&& src.maskby)) m
  | _ => .fault

def srcwinMovePoint (env : EncEnv) : Mat ℕ := fun m =>
  match m.enc.src with
  | .live src =>
    if src.eofKnown = true ∧ m.search.srcwinCksumPos = src.eof then .ok env.usizeMax m
    else
      -- a long match may have gone past the position
      let pos := max m.search.srcwinCksumPos m.search.maxsrcaddr
      let target := max (m.scanTarget env src) pos
      (indexLoop env target (target - pos + 1)
        { m with search := { m.search with srcwinCksumPos := pos } }).andThen fun _ =>
      finishMove env target
  | _ => .fault

/-- `xd3_source_cksum_offset`: the offset an entry of `large_table` stands for. Where `usize_t`
has 32 bits, it is the last one with these bits before `srcwin_cksum_pos`. -/
def sourceCksumOffset (sizeT : Width) (srcwinCksumPos low : ℕ) : ℕ :=
  match sizeT with
  | .w64 => low
  | .w32 =>
    let s0 := srcwinCksumPos >>> 32
    let sr := srcwinCksumPos % 2 ^ 32
    if s0 = 0 then low
    else if sr < low then ((s0 - 1) <<< 32) ||| low
    else (s0 <<< 32) ||| low

/-- What `xd3_smatch` finds: the length and the offset of the longest match; `visited` records
the positions compared, the last one first. -/
structure Smatched where
  length : ℕ := 0
  offset : ℕ := 0
  visited : List ℕ := []
  deriving DecidableEq

def Matcher.runAt (m : Matcher) (base : ℕ) : ℕ :=
  commonPrefix (m.enc.window.drop m.search.inputPosition) (m.enc.window.drop base)

def Smatched.compare (r : Smatched) (m : Matcher) (base : ℕ) : Smatched :=
  if r.length < m.runAt base then ⟨m.runAt base, base, base :: r.visited⟩
  else { r with visited := base :: r.visited }

/-- The chain of previous positions that `xd3_smatch` follows, `chain` of them at most;
nothing where `small_prev` is used and null. -/
def smatchLoop (env : EncEnv) (m : Matcher) : ℕ → ℕ → Smatched → Option Smatched
  | 0, _, r => some r
  | chain + 1, base, r =>
    let cmpLen := m.runAt base
    if r.length < cmpLen ∧ (m.search.inputPosition + cmpLen = m.enc.availIn ∨
        env.smatcher.longEnough ≤ cmpLen) then some (r.compare m base)
    else if chain = 0 then some (r.compare m base)
    else
      match m.search.smallPrev with
      | none => none
      | some prev =>
        let prevPos := prev (base &&& env.sprevmask)
        if prevPos = 0 ∨ base < prevPos - 1 then some (r.compare m base)
        else
          let base' := prevPos - 1
          let diff := usize.sub m.search.inputPosition base'
          if diff - (diff &&& env.sprevmask) ≠ 0 then some (r.compare m base)
          else smatchLoop env m chain base' (r.compare m base)

/-- `xd3_smatch` from the entry `base` of the table. A limit of 0 is decremented before it
is tested. -/
def smatch (env : EncEnv) (base : ℕ) : Mat Smatched := fun m =>
  let chain :=
    if m.search.minMatch = minMatch then env.smatcher.smallChain else env.smatcher.smallLchain
  match smatchLoop env m (if chain = 0 then usize.modulus else chain) (base - 1) {} with
  | none => .fault
  | some r =>
    -- a very short match that is very far back is not worth an address
    let far := usize.sub m.search.inputPosition r.offset
    if (r.length = 4 ∧ 2 ^ 14 ≤ far) ∨ (r.length = 5 ∧ 2 ^ 21 ≤ far) then
      .ok { r with length := 0 } m
    else .ok r m

def Search.scksumInsert (s : Search) (env : EncEnv) (inx pos : ℕ) : Search :=
  let table := s.smallTable.getD fun _ => 0
  { s with
    inserted := (pos, inx) :: s.inserted
    smallPrev := s.smallPrev.map fun prev => Function.update prev (pos &&& env.sprevmask) (table inx)
    smallTable := some (Function.update table inx (pos + 1)) }

def Matcher.stringMatchInit (m : Matcher) (env : EncEnv) : Matcher :=
  if m.enc.flags.nocompress then m
  else
    match m.search.smallTable with
    | some _ =>
      if m.search.smallReset then
        { m with search := { m.search with
          smallReset := false
          smallTable := some fun _ => 0
          inserted := [] } }
      else m
    | none =>
      { m with search := { m.search with
        smallTable := some fun _ => 0
        smallPrev :=
          if 1 < env.smatcher.smallLchain ∨ 1 < env.smatcher.smallChain then some env.stale
          else m.search.smallPrev } }

end Xdelta
