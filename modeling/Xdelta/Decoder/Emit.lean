import Xdelta.Decoder.State
import Xdelta.Lib.Delta

/-!
# Executing a window

Instructions are parsed in pairs and their halves output one after the other. A
source copy may return to the application for a block and is then resumed. Every
access outside a section, a block or the output buffer is a fault.
-/
namespace Xdelta
open Chunked Delta

abbrev Emit := Routine Window Stop Unit

/-- `xd3_read_size` into `inst->size`. -/
def readHalfSize (h : Half) : Emit := fun w =>
  match readInteger usize w.instSect.bytes w.instSect.buf w.instSect.bufMax with
  | .value v i =>
    .ok () ({ w with instSect := { w.instSect with buf := i } }.setHalf h
      { w.half h with size := v })
  | .error msg => .stop ⟨.invalidInput, some msg⟩ w
  | .fault => .fault

/-- `xd3_decode_address` into `inst->addr`. -/
def readHalfAddr (h : Half) (mode : ℕ) : Emit := fun w =>
  match decodeAddress usize w.acache w.decPosition mode w.addrSect.bytes w.addrSect.buf
      w.addrSect.bufMax with
  | .value a i c =>
    .ok () ({ w with addrSect := { w.addrSect with buf := i }, acache := c }.setHalf h
      { w.half h with addr := a })
  | .error msg => .stop ⟨.invalidInput, some msg⟩ w
  | .fault => .fault

def checkHalfAddr (h : Half) : Emit := fun w =>
  if w.decPosition ≤ (w.half h).addr then fail .invalidInput "address too large" w
  else if (w.half h).addr < w.decCpylen ∧
      w.decCpylen < usize.add (w.half h).addr (w.half h).size then
    fail .invalidInput "size too large" w
  else .ok () w

/-- The check against `dec_maxpos`, and the advance of `dec_position`. -/
def advanceHalf (h : Half) : Emit := fun w =>
  if w.decMaxpos < usize.add w.decPosition (w.half h).size then
    fail .invalidInput "size too large" w
  else .ok () { w with decPosition := usize.add w.decPosition (w.half h).size }

def decodeParseHalfinst (h : Half) : Emit := fun w =>
  (if (w.half h).size = 0 then readHalfSize h w else .ok () w).andThen fun _ w =>
  (match (w.half h).type with
    | .cpy mode => (readHalfAddr h mode w).andThen fun _ => checkHalfAddr h
    | _ => .ok () w).andThen fun _ =>
  advanceHalf h

def Window.loadInst (w : Window) (inst : Dinst) : Window :=
  { w with
    decCurrent1 := { w.decCurrent1 with type := inst.type1, size := inst.size1 }
    decCurrent2 := { w.decCurrent2 with type := inst.type2, size := inst.size2 } }

def decodeInstruction : Emit := fun w =>
  if w.instSect.buf = w.instSect.bufMax then fail .invalidInput "instruction underflow" w
  else
    match w.instSect.bytes[w.instSect.buf]? with
    | none => .fault
    | some code =>
      let inst := codeTable code
      let w := { w with instSect := { w.instSect with buf := w.instSect.buf + 1 } }.loadInst inst
      (if inst.type1 ≠ .noop then decodeParseHalfinst .first w else .ok () w).andThen fun _ w =>
      if inst.type2 ≠ .noop then decodeParseHalfinst .second w else .ok () w

/-- Write at `next_out + avail_out`: within `space_out`, to the buffer last allocated. -/
def writeOut (bytes : List UInt8) : Emit := fun w =>
  if bytes = [] ∨ (w.out.length + bytes.length ≤ w.spaceOut ∧ w.nextOut = w.decBuffer) then
    .ok () { w with out := w.out ++ bytes }
  else .fault

/-- `len` bytes at `pos` of a buffer, if they are all there. -/
def slice (mem : List UInt8) (pos len : ℕ) : Option (List UInt8) :=
  if len = 0 then some []
  else if pos + len ≤ mem.length then some ((mem.drop pos).take len) else none

def outputRun (h : Half) : Emit := fun w =>
  if w.dataSect.buf = w.dataSect.bufMax then fail .invalidInput "data underflow" w
  else
    match w.dataSect.bytes[w.dataSect.buf]? with
    | none => .fault
    | some b =>
      (writeOut (List.replicate (w.half h).size b) w).andThen fun _ w =>
      .ok () ({ w with dataSect := { w.dataSect with buf := w.dataSect.buf + 1 } }.setHalf h
        { w.half h with type := .noop })

def outputAdd (h : Half) : Emit := fun w =>
  let take := (w.half h).size
  if take = 0 then .ok () (w.setHalf h { w.half h with type := .noop })
  else if w.dataSect.buf = w.dataSect.bufMax ∨ w.dataSect.bufMax - w.dataSect.buf < take then
    fail .invalidInput "data underflow" w
  else
    match slice w.dataSect.bytes w.dataSect.buf take with
    | none => .fault
    | some bytes =>
      (writeOut bytes w).andThen fun _ w =>
      .ok () ({ w with dataSect := { w.dataSect with buf := w.dataSect.buf + take } }.setHalf h
        { w.half h with type := .noop })

/-- The part of a source copy after the block is there: `take` bytes at `blkoff`,
which must lie below `onblk`, and what then is left of the instruction. -/
def copyBlock (h : Half) (blkoff take : ℕ) (left : Hinst) : Emit := fun w =>
  match w.src with
  | none => .fault
  | some source =>
    match source.curblk with
    | none => .fault
    | some curblk =>
      match slice (curblk.take source.onblk) blkoff take with
      | none => .fault
      | some bytes => writeOut bytes (w.setHalf h left)

def outputSourceCopy (app : Option GetblkFunc) (h : Half) : Emit := fun w =>
  let inst := w.half h
  let take := inst.size
  match w.src with
  | none => .fault
  | some source =>
    let blksize := source.blksize
    let (block, blkoff) := source.blksizeAdd source.cpyoffBlocks source.cpyoffBlkoff inst.addr
    match getblk app block source with
    | .stop ⟨ret, msg⟩ source =>
      if ret = .toofarback then
        fail .internal "non-seekable source in decode" { w with src := some source }
      else .stop ⟨ret, msg⟩ { w with src := some source }
    | .ok _ source =>
      let w := { w with src := some source }
      if source.onblk ≠ blksize ∧ source.onblk < usize.add blkoff take then
        fail .invalidInput "source file too short" w
      else if usize.add blkoff take ≤ blksize then
        copyBlock h blkoff take { inst with type := .noop, size := 0 } w
      else
        let take := usize.sub blksize blkoff
        copyBlock h blkoff take
          { inst with size := usize.sub inst.size take, addr := usize.add inst.addr take } w
    | .starved source => .starved { w with src := some source }
    | .fault => .fault

def outputTargetCopy (h : Half) : Emit := fun w =>
  let inst := w.half h
  match copyOverlap w.out (inst.addr - w.decCpylen) inst.size with
  | none => .fault
  | some out => writeOut (out.drop w.out.length) (w.setHalf h { inst with type := .noop, size := 0 })

def decodeOutputHalfinst (app : Option GetblkFunc) (h : Half) : Emit := fun w =>
  let take := (w.half h).size
  if usize.overflow w.out.length take ∨ w.spaceOut < usize.add w.out.length take then
    fail .invalidInput "overflow while decoding" w
  else
    match (w.half h).type with
    | .noop => .fault
    | .run => outputRun h w
    | .add => outputAdd h w
    | .cpy _ =>
      if (w.half h).addr < w.decCpylen then
        if hasBits w.decWinInd vcdTarget then
          fail .unimplemented "VCD_TARGET not implemented"
            (w.setHalf h { w.half h with size := 0, type := .noop })
        else outputSourceCopy app h w
      else outputTargetCopy h w

/-- Output one half until it is done; each round but the last outputs part of a source copy. -/
def outputHalf (app : Option GetblkFunc) (h : Half) : ℕ → Emit
  | 0 => Routine.fault
  | fuel + 1 => fun w =>
    if (w.half h).type = .noop then .ok () w
    else (decodeOutputHalfinst app h w).andThen fun _ => outputHalf app h fuel

def emitRound (app : Option GetblkFunc) : Emit := fun w =>
  (if w.decCurrent1.type = .noop ∧ w.decCurrent2.type = .noop then decodeInstruction w
    else .ok () w).andThen fun _ w =>
  (outputHalf app .first (w.decCurrent1.size + 2) w).andThen fun _ w =>
  outputHalf app .second (w.decCurrent2.size + 2) w

def emitLoop (app : Option GetblkFunc) : ℕ → Emit
  | 0 => Routine.fault
  | fuel + 1 => fun w =>
    if w.instSect.buf ≠ w.instSect.bufMax ∨ w.decCurrent1.type ≠ .noop ∨
        w.decCurrent2.type ≠ .noop then
      (emitRound app w).andThen fun _ => emitLoop app fuel
    else .ok () w

def a32Base : ℕ := 65521

/-- `adler32`: the sums are kept reduced, which the batches of `A32_NMAX` make equivalent. -/
def adler32 (adler : ℕ) (buf : List UInt8) : ℕ :=
  let s := buf.foldl
    (fun (s : ℕ × ℕ) b => ((s.1 + b.toNat) % a32Base, (s.2 + (s.1 + b.toNat) % a32Base) % a32Base))
    (adler % 65536, adler / 65536 % 65536)
  s.2 * 65536 + s.1

/-- The checks of `xd3_decode_emit` after its loop. -/
def checkWindow : Emit := fun w =>
  if w.out.length ≠ w.decTgtlen then fail .invalidInput "wrong window length" w
  else if w.dataSect.buf ≠ w.dataSect.bufMax then fail .invalidInput "extra data section" w
  else if w.addrSect.buf ≠ w.addrSect.bufMax then fail .invalidInput "extra address section" w
  else if hasBits w.decWinInd vcdAdler32 ∧ !w.flags.adler32Nover ∧
      adler32 1 w.out ≠ w.decAdler32 then
    fail .invalidInput ("target window checksum mismatch: the supplied " ++
      "source likely does not match the one used to create " ++ "this patch") w
  else .ok () w

/-- `xd3_decode_emit` up to the call of `xd3_decode_finish_window`. -/
def decodeEmit (app : Option GetblkFunc) : Emit := fun w =>
  (emitLoop app (w.instSect.bufMax - w.instSect.buf + 2) w).andThen fun _ => checkWindow

/-- The entry of the `DEC_EMIT` state: the source must be there, and the copy
window's offset is split into blocks. -/
def locateCopyWindow : Emit := fun w =>
  if hasBits w.decWinInd vcdSource then
    match w.src with
    | none => fail .invalidInput "source input required" w
    | some source =>
      let (blocks, blkoff) := source.blksizeDiv w.decCpyoff
      .ok () { w with src := some { source with cpyoffBlocks := blocks, cpyoffBlkoff := blkoff } }
  else .ok () w

end Xdelta
