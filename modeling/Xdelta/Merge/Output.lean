import Xdelta.Encoder.Gaps
import Xdelta.Main.MergeChain
import Xdelta.Merge.Compose

/-!
# Writing a merged delta

`main_merge_output` hands the instructions of a whole delta to an encoder, in windows of the sizes
that the last delta had. No string is matched: a run or a copy is entered into the queue as it
is, the bytes of an ADD are put into the input, and the rest of the input is never looked at.
-/
namespace Xdelta
open Chunked Delta

/-- What `main_merge_output` finds: `checked` is whether `option_use_checksum` is set and the last
window of the delta had a checksum, `junk` is memory newly allocated, and `source` the fields of
`recode_source` that are never set. -/
structure MergeSettings where
  checked : Bool
  bdata : List UInt8
  junk : ℕ → UInt8
  source : Source

/-- The variables of `main_merge_output`: `recode_stream`, `main_bdata`, `output_pos`,
`window_pos`, and `window_srcmin` and `window_srcmax` where `window_srcset` is set. -/
structure MergeOutput where
  enc : Encoder
  bdata : List UInt8
  outputPos : ℕ := 0
  windowPos : ℕ := 0
  windowSrc : Option (ℕ × ℕ) := none

def onRecode {α : Type} (f : Enc α) : Routine MergeOutput Stop α := fun w =>
  (f w.enc).mapState fun e => { w with enc := e }

def store (buffer : List UInt8) (pos : ℕ) (bytes : List UInt8) : List UInt8 :=
  buffer.take pos ++ bytes ++ buffer.drop (pos + bytes.length)

def widenRange (range : Option (ℕ × ℕ)) (addr take : ℕ) : ℕ × ℕ :=
  match range with
  | some (srcmin, srcmax) => (min srcmin addr, max srcmax (xoff.add addr take))
  | none => (addr, xoff.add addr take)

def mergeOutputInst (adds : List UInt8) (windowStart : ℕ) (inst : Winst) (take : ℕ) :
    Routine MergeOutput Stop Unit := fun w =>
  match inst.type with
  | .run =>
    match adds[inst.addr]? with
    | none => .fault
    | some b => onRecode (emitRun w.windowPos take b) w
  | .add =>
    match slice adds inst.addr take with
    | none => .fault
    | some bytes =>
      if w.windowPos + take ≤ w.bdata.length then
        .ok () { w with bdata := store w.bdata w.windowPos bytes }
      else .fault
  | _ =>
    if inst.mode ≠ 0 then
      onRecode (foundMatch w.windowPos take inst.addr true)
        { w with windowSrc := some (widenRange w.windowSrc inst.addr take) }
    else if inst.addr < windowStart then .fault
    else onRecode (foundMatch w.windowPos take (xoff.sub inst.addr windowStart) false) w

def Winst.cut (inst : Winst) (take : ℕ) : Winst :=
  { inst with
    addr := if inst.type = .run then inst.addr else xoff.add inst.addr take
    size := inst.size - take }

/-- The loop that encodes a single target window; the instructions left over are returned. A cut
instruction has filled the window. -/
def mergeWindow (adds : List UInt8) (windowStart windowSize : ℕ) :
    List Winst → Routine MergeOutput Stop (List Winst)
  | [] => fun w => .ok [] w
  | inst :: insts => fun w =>
    if w.windowPos < windowSize then
      let take := min inst.size (windowSize - w.windowPos)
      (mergeOutputInst adds windowStart inst take w).andThen fun _ w =>
      let w := { w with windowPos := w.windowPos + take, outputPos := xoff.add w.outputPos take }
      if take = inst.size then mergeWindow adds windowStart windowSize insts w
      else .ok (inst.cut take :: insts) w
    else .ok (inst :: insts) w

/-- `recode_stream` at `XD3_WINSTART`; no input is buffered, since `XD3_FLUSH` is set. -/
def Encoder.winstart (e : Encoder) (checked : Bool) (info : Wininfo) : Encoder :=
  let e := { e with encState := .search, acache := e.acache.init, unencodedOffset := 0 }
  if checked then
    { e with flags := { e.flags with adler32Recode := true }, recodeAdler32 := info.adler32 }
  else e

def MergeSettings.room (s : MergeSettings) (bdata : List UInt8) (windowSize : ℕ) : List UInt8 :=
  if bdata.length < windowSize then (List.range windowSize).map s.junk else bdata

/-- `recode_stream` with the input and the source of the window, in `ENC_INSTR`. -/
def MergeOutput.ready (w : MergeOutput) (source : Source) : Encoder :=
  let e := { w.enc with
    nextIn := w.bdata.take w.windowPos, availIn := w.windowPos, encState := .instr }
  match w.windowSrc with
  | some (srcmin, srcmax) =>
    let srclen := xoff.sub srcmax srcmin
    { e with
      srcwinDecided := true
      src := .live { source with srclen := srclen, srcbase := srcmin }
      taroff := srclen }
  | none => { e with srcwinDecided := false, src := .null, taroff := 0 }

def mergeOutputWindow (s : MergeSettings) (adds : List UInt8) (info : Wininfo)
    (insts : List Winst) :
    Routine MergeOutput Stop (List Winst × List UInt8) := fun w =>
  if w.enc.encState ≠ .input then .fault
  else if w.outputPos ≠ info.offset then .stop ⟨.invalid, none⟩ w
  else
    (mergeWindow adds w.outputPos info.length insts { w with
      enc := w.enc.winstart s.checked info
      bdata := s.room w.bdata info.length
      windowPos := 0
      windowSrc := none }).andThen fun insts w =>
    if (w.ready s.source).taroff = 0 ∧ w.windowSrc.isSome then .fault
    else
      (onRecode encodeQueue { w with enc := w.ready s.source }).andThen fun out w =>
      .ok (insts, out) w

def mergeOutputLoop (s : MergeSettings) (adds : List UInt8) :
    List Wininfo → Bool → List Winst → Routine MergeOutput Stop (List UInt8)
  | [], atLeastOnce, insts => fun w =>
    if insts = [] ∧ atLeastOnce = true then .ok [] w else .fault
  | info :: infos, atLeastOnce, insts => fun w =>
    if insts = [] ∧ atLeastOnce = true then .ok [] w
    else
      (mergeOutputWindow s adds info insts w).andThen fun (insts, out) w =>
      (mergeOutputLoop s adds infos true insts w).andThen fun outs w => .ok (out ++ outs) w

/-- `recode_stream` as `main_init_recode_stream` leaves it, in `ENC_INPUT`: unlimited slots, and no
secondary compressor. -/
def recodeStream (appheader : Option (List UInt8)) : Encoder where
  flags := { flush := true }
  encState := .input
  encAppheader := appheader
  ioptUnlimited := true
  ioptFree := ioptElts
  ioptSize := ioptElts

/-- `main_merge_output`; what is written is returned. -/
def mainMergeOutput (s : MergeSettings) (header : Main.MergeHeader) (whole : WholeState) :
    Outcome MergeOutput Stop (List UInt8) :=
  match header with
  | .refuse => .stop ⟨.invalidInput, none⟩ ⟨recodeStream none, s.bdata, 0, 0, none⟩
  | .write apphead => mergeOutputLoop s whole.adds whole.wininfo false whole.inst
      ⟨recodeStream (some apphead), s.bdata, 0, 0, none⟩
  | .plain => mergeOutputLoop s whole.adds whole.wininfo false whole.inst
      ⟨recodeStream none, s.bdata, 0, 0, none⟩

end Xdelta
