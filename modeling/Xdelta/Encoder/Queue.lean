import Xdelta.Encoder.State

/-!
# The instruction queue

The instructions found wait in `iopt_used`, sorted by their positions, and may overlap.
Flushing the queue chooses among overlapping ones and encodes the rest, filling the gaps
between them with ADDs. The instruction encoded last is held in `iout`, for it may share
an opcode with the next one.
-/
namespace Xdelta
open Chunked

/-- The guess `xd3_srcwin_setup` makes when more copies may follow. -/
def Source.guess (source : Source) (base length availIn : ℕ) : Source :=
  let source := { source with
    srcbase := base
    srclen := max length (usize.add availIn (availIn >>> 2)) }
  if source.eofKnown then
    let remaining := xoff.sub source.eof source.srcbase
    if remaining < source.srclen then { source with srclen := remaining } else source
  else source

def srcwinSetup : Enc Unit := fun e =>
  match e.src with
  | .live source =>
    let e := { e with srcwinDecided := true }
    if e.encState = .instr ∧ e.matchMaxaddr = 0 then .ok () { e with taroff := source.srclen }
    else
      let length := xoff.sub e.matchMaxaddr e.matchMinaddr
      let source :=
        if e.encState = .instr then { source with srcbase := e.matchMinaddr, srclen := length }
        else source.guess e.matchMinaddr length e.availIn
      .ok () { e with src := .live source, taroff := source.srclen }
  | _ => .fault

/-- The address of a copy, relative to the source window; `xtra` says that it is from the source. -/
def copyAddress (inst : Rinst) : Enc ℕ := fun e =>
  match e.src with
  | .null => .ok inst.addr e
  | .dead => .fault
  | .live _ =>
    (if e.srcwinDecided then .ok () e else srcwinSetup e).andThen fun _ e =>
    match e.src with
    | .live source =>
      if inst.xtra ≠ 0 then .ok (xoff.sub inst.addr source.srcbase) e
      else .ok (xoff.add e.taroff inst.addr) e
    | _ => .fault

/-- What `xd3_iopt_finish_encoding` writes for the instruction's operands; it returns the
instruction with the address mode in its type, and the address. -/
def encodeOperands (inst : Rinst) : Enc (Rinst × ℕ) := fun e =>
  match inst.type with
  | .cpy _ =>
    (copyAddress inst e).andThen fun addr e =>
    match encodeAddress e.acache addr (usize.add inst.pos e.taroff) with
    | (bytes, mode, acache) =>
      .ok ({ inst with type := .cpy mode }, addr) { e with addr := e.addr ++ bytes, acache := acache }
  | .run => .ok (inst, 0) { e with data := e.data ++ [UInt8.ofNat inst.xtra] }
  | .add =>
    if inst.pos + inst.size ≤ e.availIn then
      .ok (inst, 0) { e with data := e.data ++ (e.nextIn.drop inst.pos).take inst.size }
    else .fault
  | .noop => .ok (inst, 0) e

/-- `xd3_iopt_free_nonadd`; an ADD is not a slot of the queue. -/
def Encoder.freeNonadd (e : Encoder) (inst : Rinst) : Encoder :=
  if inst.type = .add then e else { e with ioptFree := e.ioptFree + 1 }

def Encoder.emitSingle (e : Encoder) (single : Rinst) (code : ℕ) : Encoder :=
  let size := if (codeTable (UInt8.ofNat code)).size1 = 0 then emitInteger single.size else []
  { e with inst := e.inst ++ UInt8.ofNat code :: size }

def Encoder.emitDouble (e : Encoder) (code : ℕ) : Encoder :=
  { e with inst := e.inst ++ [UInt8.ofNat code] }

def Encoder.pair (e : Encoder) (inst : Rinst) : Encoder :=
  match chooseInstruction e.iout { inst with code2 := 0 } with
  | (none, inst) => { e with iout := some inst }
  | (some iout, inst) =>
    if iout.code2 ≠ 0 then
      { ((e.emitDouble iout.code2).freeNonadd iout).freeNonadd inst with iout := none }
    else { (e.emitSingle iout iout.code1).freeNonadd iout with iout := some inst }

/-- `xd3_iopt_finish_encoding`. -/
def finishEncoding (inst : Rinst) : Enc Unit := fun e =>
  (encodeOperands inst e).andThen fun (inst', addr) e =>
  .ok () ({ e with
    unencodedOffset := usize.add e.unencodedOffset inst.size
    handed := e.handed ++ [Handed.mk inst addr] }.pair inst')

def ioptAdd (pos : ℕ) : Enc Unit := fun e =>
  if e.unencodedOffset < pos then
    finishEncoding { type := .add, pos := e.unencodedOffset, size := pos - e.unencodedOffset } e
  else .ok () e

def ioptAddEncoding (inst : Rinst) : Enc Unit := fun e =>
  (ioptAdd inst.pos e).andThen fun _ => finishEncoding inst

def ioptAddFinalize : Enc Unit := fun e =>
  (ioptAdd e.availIn e).andThen fun _ e =>
  match e.iout with
  | some iout => .ok () { (e.emitSingle iout iout.code1).freeNonadd iout with iout := none }
  | none => .ok () e

def maxMatchSplit : ℕ := 18

/-- The instruction without its first `n` bytes. -/
def Rinst.advance (r : Rinst) (n : ℕ) : Rinst :=
  { r with
    size := usize.sub r.size n
    pos := usize.add r.pos n
    addr := xoff.add r.addr n }

def shorten (r1 r2 : Rinst) : Rinst × Rinst :=
  let r1end := usize.add r1.pos r1.size
  let r2end := usize.add r2.pos r2.size
  let gap := usize.sub r2end r1.pos
  let newsize := min maxMatchSplit (usize.sub gap (gap / 2))
  if r1.size < newsize then (r1, r2.advance (usize.sub r1end r2.pos))
  else if r2.size < newsize then
    ({ r1 with size := usize.sub r1.size (usize.sub r1end r2.pos) }, r2.advance 0)
  else
    let adjust1 := usize.sub r1.size newsize
    let adjust1 :=
      if usize.sub r1end adjust1 < r2.pos then
        usize.sub adjust1 (usize.sub r2.pos (usize.sub r1end adjust1))
      else adjust1
    let r1 := { r1 with size := usize.sub r1.size adjust1 }
    (r1, r2.advance (usize.sub (usize.add r1.pos r1.size) r2.pos))

/-- One round of the overlap pass of `xd3_iopt_flush_instructions`, at `r1`: the instructions
that are settled and those that are left; nothing when the pass ends. -/
def overlapRound (force : Bool) (r1 r2 : Rinst) (rest : List Rinst) :
    Option (List Rinst × List Rinst) :=
  let r1end := usize.add r1.pos r1.size
  let r2end := usize.add r2.pos r2.size
  if r1end ≤ r2.pos then some ([r1], r2 :: rest)
  else if rest.head?.any fun r3 => decide (r3.pos ≤ r1end + 1) then some ([], r1 :: rest)
  else if rest.isEmpty && !force then none
  else if usize.sub r2end r1.pos < 2 * minMatch ∨ usize.sub r2end r1end ≤ 2 ∨
      usize.sub r2.pos r1.pos ≤ 2 then
    if r1.size < r2.size then some ([], r2 :: rest) else some ([r1], rest)
  else some ([(shorten r1 r2).1], (shorten r1 r2).2 :: rest)

def compactFrom (force : Bool) : ℕ → List Rinst → List Rinst
  | fuel + 1, r1 :: r2 :: rest =>
    match overlapRound force r1 r2 rest with
    | none => r1 :: r2 :: rest
    | some (settled, left) => settled ++ compactFrom force fuel left
  | _, rs => rs

def compact (force : Bool) (rs : List Rinst) : List Rinst := compactFrom force rs.length rs

/-- The queue is emptied from the front; unless it is forced, about half of it, and the
last two instructions stay, for they have not been compared with a third one. -/
def flushFront (force : Bool) : ℕ → ℕ → Enc Unit
  | 0, _ => fun e => .ok () e
  | fuel + 1, flushed => fun e =>
    match e.ioptUsed with
    | [] => .ok () e
    | renc :: rest =>
      (ioptAddEncoding renc { e with ioptUsed := rest }).andThen fun _ e =>
      if force then flushFront force fuel flushed e
      else if e.ioptSize / 2 < flushed + 1 ∨ e.ioptUsed.length ≤ 2 then .ok () e
      else flushFront force fuel (flushed + 1) e

def ioptFlushInstructions (force : Bool) : Enc Unit := fun e =>
  let used := compact force e.ioptUsed
  let e := { e with ioptUsed := used, ioptFree := e.ioptFree + (e.ioptUsed.length - used.length) }
  flushFront force used.length 0 e

/-- The slots of one allocation, `XD3_ALLOCSIZE / sizeof(xd3_rinst)`. -/
def ioptElts : ℕ := allocSize / 48

/-- `xd3_iopt_get_slot`, and the instruction stored in the slot. -/
def ioptGetSlot (inst : Rinst) : Enc Unit := fun e =>
  (if e.ioptFree = 0 then
    if e.ioptUnlimited then
      .ok () { e with ioptFree := ioptElts, ioptSize := e.ioptSize + ioptElts }
    else ioptFlushInstructions false e
  else .ok () e).andThen fun _ e =>
  if e.ioptFree = 0 then .fault
  else .ok () { e with ioptFree := e.ioptFree - 1, ioptUsed := e.ioptUsed ++ [inst] }

def emitRun (pos size : ℕ) (runC : UInt8) : Enc Unit :=
  ioptGetSlot { type := .run, xtra := runC.toNat, pos := pos, size := size }

def foundMatch (pos size addr : ℕ) (isSource : Bool) : Enc Unit :=
  ioptGetSlot { type := .cpy 0, xtra := isSource.toNat, pos := pos, size := size, addr := addr }

/-- `xd3_iopt_erase`: the instructions at the end of the queue that start at or after `pos`. -/
def Encoder.ioptErase (e : Encoder) (pos : ℕ) : Encoder :=
  let used := (e.ioptUsed.reverse.dropWhile fun r => decide (pos ≤ r.pos)).reverse
  { e with ioptUsed := used, ioptFree := e.ioptFree + (e.ioptUsed.length - used.length) }

def Encoder.ioptLastMatched (e : Encoder) : ℕ :=
  match e.ioptUsed.getLast? with
  | none => 0
  | some r => usize.add r.pos r.size

end Xdelta
