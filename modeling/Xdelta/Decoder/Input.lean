import Xdelta.Decoder.Emit

/-!
# The decoder's state machine

The states of `xd3_decode_input` in the order they fall through. Each state reads
what it needs from the input and may starve; a call re-enters at the state recorded.
-/
namespace Xdelta
open Chunked

variable {σ : Type}

def decodeByte : Routine Input Stop ℕ := fun i =>
  match i.nextIn with
  | [] => .starved i
  | b :: rest => .ok b.toNat { i with nextIn := rest, totalIn := i.totalIn + 1 }

/-- `xd3_decode_size` and `xd3_decode_offset`, which are one function at this width. -/
def decodeSize : Routine Input Stop ℕ := fun i =>
  match decodeInteger usize i.nextIn i.dec64part with
  | .value v rest =>
    .ok v ⟨rest, i.totalIn + (i.nextIn.length - rest.length), 0⟩
  | .overflow part rest =>
    .stop ⟨.invalidInput, some "overflow in decode_integer"⟩
      ⟨rest, i.totalIn + (i.nextIn.length - rest.length), part⟩
  | .input part => .starved ⟨[], i.totalIn + i.nextIn.length, part⟩

/-- Consume `n` bytes of input: `DECODE_INPUT`. -/
def Input.consume (i : Input) (n : ℕ) : Input :=
  { i with nextIn := i.nextIn.drop n, totalIn := i.totalIn + n }

/-- `xd3_decode_bytes` into a buffer that is filled up to its length. -/
def decodeBytes (view : Core σ → List UInt8) (put : Core σ → List UInt8 → Core σ)
    (size : Core σ → ℕ) : Dec σ Unit := fun s =>
  let size := size s.core
  let take := min (size - (view s.core).length) s.inp.nextIn.length
  let buf := view s.core ++ s.inp.nextIn.take take
  let s := { s with inp := s.inp.consume take, core := put s.core buf }
  if buf.length < size then .starved s else .ok () s

/-- `BYTE_CASE`, `SIZE_CASE` and `OFFSET_CASE`. -/
def fieldCase (read : Routine Input Stop ℕ) (expr : Core σ → Bool)
    (put : Core σ → ℕ → Core σ) (nstate : DecState) : Dec σ Unit := fun s =>
  (if expr s.core then (onInput read s).andThen fun v => onCore (Routine.modify (put · v))
    else .ok () s).andThen fun _ =>
  onCore (Routine.modify fun c => { c with decState := nstate })

def decVchead : Dec σ Unit := do
  decodeBytes (·.decMagic) (fun c b => { c with decMagic := b }) (fun _ => 4)
  onCore fun c =>
    if c.decMagic.take 3 ≠ [0xd6, 0xc3, 0xc4] then fail .invalidInput "not a VCDIFF input" c
    else if c.decMagic.drop 3 ≠ [0] then
      fail .invalidInput "VCDIFF input version > 0 is not supported" c
    else .ok () { c with decState := .hdrind }

def decHdrind : Dec σ Unit := do
  let v ← onInput decodeByte
  onCore fun c =>
    let c := { c with decHdrInd := v }
    if hasBits v vcdInvalid then fail .invalidInput "unrecognized header indicator bits set" c
    else .ok () { c with decState := .secondid }

/-- The choice of `sec_type` by the identifier read. -/
def selectSecondary (env : Env σ) : Routine (Core σ) Stop Unit := fun c =>
  match SecId.ofByte c.decSecondid with
  | none => fail .invalidInput "unknown secondary compressor ID" c
  | some id =>
    match env.secondary id with
    | none => fail .internal id.unavailable c
    | some t => .ok () { c with secType := some t }

def decSecondid (env : Env σ) : Dec σ Unit := fun s =>
  if hasBits s.core.decHdrInd vcdSecondary then
    (fieldCase decodeByte (fun _ => true) (fun c v => { c with decSecondid := v }) .tablen s).andThen
      fun _ => onCore (selectSecondary env)
  else .ok () s

def hasCodetable (c : Core σ) : Bool := hasBits c.decHdrInd vcdCodetable

def decTablen : Dec σ Unit := do
  fieldCase decodeSize hasCodetable (fun c v => { c with decCodetblsz := v }) .near
  onCore fun c =>
    if hasCodetable c then
      if c.decCodetblsz ≤ 2 then fail .enomem "invalid code table size" c
      else .ok () { c with decCodetblsz := c.decCodetblsz - 2 }
    else .ok () c

def setAcache (c : Core σ) (a : AddrCache) : Core σ := { c with win := { c.win with acache := a } }

def decNear : Dec σ Unit :=
  fieldCase decodeByte hasCodetable
    (fun c v => setAcache c { c.win.acache with sNear := v }) .same

def decSame : Dec σ Unit :=
  fieldCase decodeByte hasCodetable
    (fun c v => setAcache c { c.win.acache with sSame := v }) .tabdat

/-- The default table is used; the cache arrays are allocated, not yet initialised. -/
def decTabdat : Dec σ Unit :=
  onCore fun c =>
    if hasCodetable c then fail .unimplemented "VCD_CODETABLE support was removed" c
    else
      .ok () { setAcache c { c.win.acache with sNear := 4, sSame := 3 } with decState := .applen }

def hasAppheader (c : Core σ) : Bool := hasBits c.decHdrInd vcdAppheader

def decApplen : Dec σ Unit :=
  fieldCase decodeSize hasAppheader (fun c v => { c with decAppheadsz := v }) .appdat

/-- `dec_hdrsize` is the number of bytes consumed so far. -/
def noteHdrsize : Dec σ Unit := fun s =>
  .ok () { s with core := { s.core with decHdrsize := s.inp.totalIn, decState := .winind } }

def decAppdat : Dec σ Unit := fun s =>
  (if hasAppheader s.core then
    if usize.overflow s.core.decAppheadsz 1 then
      fail .invalidInput "exceptional appheader size" s
    else
      decodeBytes (·.decAppheader) (fun c b => { c with decAppheader := b }) (·.decAppheadsz) s
  else .ok () s).andThen fun _ =>
  noteHdrsize

def decodeInitWindow (c : Core σ) : Core σ :=
  { c with
    decCksum := []
    win := { c.win with decCpylen := 0, decCpyoff := 0, acache := c.win.acache.init } }

def decWinind : Dec σ Unit := do
  let v ← onInput decodeByte
  onCore fun c =>
    let c := { c with win := { c.win with decWinInd := v }, currentWindow := c.decWindowCount }
    if xoff.overflow c.decWinstart c.win.decTgtlen then
      fail .invalidInput "decoder file offset overflow" c
    else
      let c := { c with decWinstart := xoff.add c.decWinstart c.win.decTgtlen }
      if hasBits v vcdInvalid then fail .invalidInput "unrecognized window indicator bits set" c
      else .ok () { decodeInitWindow c with decState := .cpylen }

def hasCopyWindow (c : Core σ) : Bool := srcortgt c.win.decWinInd

def decCpylen : Dec σ Unit := do
  fieldCase decodeSize hasCopyWindow
    (fun c v => { c with win := { c.win with decCpylen := v } }) .cpyoff
  onCore (onWindow (Routine.modify fun w => { w with decPosition := w.decCpylen }))

def decCpyoff : Dec σ Unit := do
  fieldCase decodeSize hasCopyWindow
    (fun c v => { c with win := { c.win with decCpyoff := v } }) .enclen
  onCore fun c =>
    if xoff.overflow c.win.decCpyoff c.win.decCpylen then
      fail .invalidInput "decoder copy window overflows a file offset" c
    else if hasBits c.win.decWinInd vcdTarget ∧
        c.decWinstart < xoff.add c.win.decCpyoff c.win.decCpylen then
      fail .invalidInput "VCD_TARGET window out of bounds" c
    else .ok () c

def decEnclen : Dec σ Unit :=
  fieldCase decodeSize (fun _ => true) (fun c v => { c with decEnclen := v }) .tgtlen

def decTgtlen : Dec σ Unit := do
  fieldCase decodeSize (fun _ => true)
    (fun c v => { c with win := { c.win with decTgtlen := v } }) .delind
  onCore (onWindow fun w =>
    if usize.overflow w.decCpylen w.decTgtlen then
      fail .invalidInput "decoder target window overflows a usize_t" w
    else if hardMaxWinsize < w.decTgtlen then fail .invalidInput "hard window size exceeded" w
    else .ok () { w with decMaxpos := usize.add w.decCpylen w.decTgtlen })

def decDelind : Dec σ Unit := do
  fieldCase decodeByte (fun _ => true) (fun c v => { c with decDelInd := v }) .datalen
  onCore fun c =>
    if hasBits c.decDelInd vcdInvalid then
      fail .invalidInput "unrecognized delta indicator bits set" c
    else if c.decDelInd ≠ 0 ∧ c.secType.isNone then
      fail .invalidInput "invalid delta indicator bits set" c
    else .ok () c

def decSectlen (k : Sect) (nstate : DecState) : Dec σ Unit :=
  fieldCase decodeSize (fun _ => true)
    (fun c v => { c with win := c.win.setSect k { c.win.sect k with size := v } }) nstate

def decDatalen : Dec σ Unit := decSectlen .data .instlen
def decInstlen : Dec σ Unit := decSectlen .inst .addrlen
def decAddrlen : Dec σ Unit := decSectlen .addr .cksum

def hasAdler32 (c : Core σ) : Bool := hasBits c.win.decWinInd vcdAdler32

/-- The checksum bytes shifted into `dec_adler32`. -/
def shiftCksum (adler : ℕ) (bytes : List UInt8) : ℕ :=
  bytes.foldl (fun a b => ((a <<< 8) % 2 ^ 32) ||| b.toNat) adler

/-- `enclen_check`, the length of the delta encoding as the header's fields give it. -/
def enclenCheck (c : Core σ) : ℕ :=
  let w := c.win
  (1 + (sizeofSize w.decTgtlen + sizeofSize w.dataSect.size + sizeofSize w.instSect.size +
    sizeofSize w.addrSect.size) + w.dataSect.size + w.instSect.size + w.addrSect.size +
    (if hasAdler32 c then 4 else 0)) % usize.modulus

def reportHeader : Routine (Core σ) Stop Unit := fun c =>
  let c := { c with decState := .data }
  if c.decEnclen ≠ enclenCheck c then
    fail .invalidInput "incorrect encoding length (redundent)" c
  else if c.currentWindow = 0 then .stop ⟨.gotheader, none⟩ c
  else .stop ⟨.winstart, none⟩ c

def readCksum : Dec σ Unit := fun s =>
  if hasAdler32 s.core then
    (decodeBytes (·.decCksum) (fun c b => { c with decCksum := b }) (fun _ => 4) s).andThen fun _ =>
    onCore (Routine.modify fun c =>
      { c with win := { c.win with decAdler32 := shiftCksum c.win.decAdler32 c.decCksum } })
  else .ok () s

def decCksum : Dec σ Unit := readCksum >>= fun _ => onCore reportHeader

def decodeFinishWindow : Routine (Core σ) Stop Unit := fun c =>
  .stop ⟨.output, none⟩
    { c with
      decWinbytes := 0
      decState := .finish
      win := { c.win with
        dataSect := { c.win.dataSect with pos := 0 }
        instSect := { c.win.instSect with pos := 0 }
        addrSect := { c.win.addrSect with pos := 0 } } }

/-- `xd3_decode_allocate` on the size of the buffer held. -/
def decodeAllocate (size : ℕ) : Option ℕ → ℕ
  | none => roundBlksize size allocSize
  | some alloc => if alloc < size then roundBlksize size allocSize else alloc

/-- Store `take` bytes of input at the end of a section. -/
def takeSection (k : Sect) (take : ℕ) (s : Reader σ) : Reader σ :=
  let sect := s.core.win.sect k
  let mem := if sect.pos = 0 then s.inp.nextIn.take take else sect.mem ++ s.inp.nextIn.take take
  { s with
    inp := s.inp.consume take
    core := { s.core with
      decWinbytes := usize.add s.core.decWinbytes take
      win := s.core.win.setSect k
        { sect with mem := mem, buf := if sect.pos = 0 then 0 else sect.buf, pos := sect.pos + take } } }

/-- The end of `xd3_decode_section`. -/
def closeSection (k : Sect) (nstate : DecState) : Dec σ Unit := fun s =>
  let sect := s.core.win.sect k
  if sect.pos < sect.size then .starved s
  else
    .ok () { s with core := { s.core with
      decState := nstate
      win := s.core.win.setSect k
        { sect with bufMax := if sect.size ≠ 0 then sect.buf + sect.size else sect.buf, pos := 0 } } }

/-- `xd3_decode_section`. A section taken as a whole stays in the input; one that
arrives in parts is copied to an allocated buffer. -/
def decodeSection (k : Sect) (nstate : DecState) (copy : Bool) :
    Routine (Stream σ) Stop Unit := fun s =>
  let sect := s.core.win.sect k
  let avail := s.inp.nextIn.length
  if sect.pos < sect.size then
    if avail = 0 then .starved s
    else if copy = false ∧ sect.pos = 0 then
      if avail < sect.size then .fault
      else onReader (closeSection k nstate) { s with toReader := takeSection k sect.size s.toReader }
    else
      let take := min (sect.size - sect.pos) avail
      let alloc :=
        if sect.pos = 0 then some (decodeAllocate sect.size (s.staging.get k)) else s.staging.get k
      match alloc with
      | none => .fault
      | some a =>
        if a < sect.pos + take then .fault
        else
          onReader (closeSection k nstate)
            { s with
              toReader := takeSection k take s.toReader
              staging := s.staging.set k alloc }
  else onReader (closeSection k nstate) s

def decodeSecondary (k : Sect) : Routine (Core σ) Stop Unit := fun c =>
  match c.secType with
  | none => .fault
  | some t =>
    let stream := (c.secStream k).getD t.init
    let sect := c.win.sect k
    match readInteger usize sect.bytes sect.buf sect.bufMax with
    | .fault => .fault
    | .error msg => .stop ⟨.invalidInput, some msg⟩ c
    | .value decSize buf =>
      if decSize = 0 then fail .invalidInput "secondary decoder invalid output size" c
      else
        match t.decode stream sect.bytes buf sect.bufMax decSize with
        | .error e => .stop e c
        | .ok (stream, buf, out) =>
          let c := { c with secStream := Function.update c.secStream k (some stream) }
          if decSize < out.length then .fault
          else if buf ≠ sect.bufMax then
            fail .internal "secondary decoder finished with unused input" c
          else if out.length ≠ decSize then fail .internal "secondary decoder short output" c
          else
            .ok () { c with
              win := c.win.setSect k
                { sect with mem := out, buf := 0, bufMax := decSize, size := decSize } }

/-- `VCD_DATACOMP`, `VCD_INSTCOMP` and `VCD_ADDRCOMP`. -/
def vcdComp : Sect → ℕ
  | .data => 1
  | .inst => 2
  | .addr => 4

def decodeSecondarySection (k : Sect) : Routine (Core σ) Stop Unit := fun c =>
  if hasBits c.decDelInd (vcdComp k) then decodeSecondary k c else .ok () c

def decodeSecondarySections : Routine (Core σ) Stop Unit := do
  decodeSecondarySection .data
  decodeSecondarySection .inst
  decodeSecondarySection .addr

/-- `xd3_decode_setup_buffers`; what follows the unconditional return of its first branch is dead. -/
def decodeSetupBuffers : Emit := fun w =>
  if hasBits w.decWinInd vcdTarget then fail .unimplemented "VCD_TARGET not implemented" w
  else if w.spaceOut < w.decTgtlen then
    .ok () { w with
      spaceOut := roundBlksize w.decTgtlen allocSize
      decBuffer := w.decBuffer + 1
      nextOut := w.decBuffer + 1 }
  else .ok () w

/-- The section states of `xd3_decode_sections`. -/
def readSections (copy : Bool) : Routine (Stream σ) Stop Unit := fun s =>
  match s.core.decState with
  | .data =>
    (decodeSection .data .inst copy s).andThen fun _ s =>
    (decodeSection .inst .addr copy s).andThen fun _ =>
    decodeSection .addr .emit copy
  | .inst => (decodeSection .inst .addr copy s).andThen fun _ => decodeSection .addr .emit copy
  | .addr => decodeSection .addr .emit copy s
  | _ => fail .invalidInput "internal error" s

/-- What `xd3_decode_sections` does once all bytes are there. -/
def afterSections : Routine (Core σ) Stop Unit := fun c =>
  (decodeSecondarySections c).andThen fun _ c =>
  if c.win.flags.skipEmit then decodeFinishWindow c else onWindow decodeSetupBuffers c

def decodeSections : Routine (Stream σ) Stop Unit := fun s =>
  let w := s.core.win
  if w.flags.justHdr then onReader (onCore decodeFinishWindow) s
  else if usize.overflow w.instSect.size w.addrSect.size then
    fail .internal "decoder section size overflow" s
  else if usize.overflow (usize.add w.instSect.size w.addrSect.size) w.dataSect.size then
    fail .internal "decoder section size overflow" s
  else
    let need := usize.add (usize.add w.instSect.size w.addrSect.size) w.dataSect.size
    let more := usize.sub need s.core.decWinbytes
    let take := min more s.inp.nextIn.length
    let copy := decide (take ≠ more)
    if w.flags.skipWindow then
      let s := { s with
        inp := s.inp.consume take
        core := { s.core with decWinbytes := usize.add s.core.decWinbytes take } }
      if copy then .starved s else onReader (onCore decodeFinishWindow) s
    else (readSections copy s).andThen fun _ => onReader (onCore afterSections)

/-- `total_out` is advanced when the code returned is `XD3_OUTPUT`. -/
def countOutput : Outcome (Core σ) Stop Unit → Outcome (Core σ) Stop Unit
  | .stop ⟨.output, msg⟩ c =>
    .stop ⟨.output, msg⟩
      { c with win := { c.win with totalOut := c.win.totalOut + c.win.out.length } }
  | o => o

def decEmit (env : Env σ) : Routine (Core σ) Stop Unit := fun c =>
  (onWindow locateCopyWindow c).andThen fun _ c =>
  countOutput ((onWindow (decodeEmit env.getblk) c).andThen fun _ => decodeFinishWindow)

/-- After a window that copies from the target, its buffer is kept and the older one reused. -/
def Window.rotate (w : Window) : Window :=
  if hasBits w.decWinInd vcdTarget then
    if w.decLastwin = 0 then { w with decLastwin := w.nextOut, decLastspace := w.spaceOut }
    else
      { w with
        decLastwin := w.nextOut, nextOut := w.decLastwin
        decLastspace := w.spaceOut, spaceOut := w.decLastspace }
  else w

def decFinish : Routine (Core σ) Stop Unit := fun c =>
  .stop ⟨.winfinish, none⟩
    { c with win := c.win.rotate, decWindowCount := c.decWindowCount + 1, decState := .winind }

def fromCksum : Dec σ Unit := decCksum
def fromAddrlen : Dec σ Unit := decAddrlen >>= fun _ => fromCksum
def fromInstlen : Dec σ Unit := decInstlen >>= fun _ => fromAddrlen
def fromDatalen : Dec σ Unit := decDatalen >>= fun _ => fromInstlen
def fromDelind : Dec σ Unit := decDelind >>= fun _ => fromDatalen
def fromTgtlen : Dec σ Unit := decTgtlen >>= fun _ => fromDelind
def fromEnclen : Dec σ Unit := decEnclen >>= fun _ => fromTgtlen
def fromCpyoff : Dec σ Unit := decCpyoff >>= fun _ => fromEnclen
def fromCpylen : Dec σ Unit := decCpylen >>= fun _ => fromCpyoff
def fromWinind : Dec σ Unit := decWinind >>= fun _ => fromCpylen
def fromAppdat : Dec σ Unit := decAppdat >>= fun _ => fromWinind
def fromApplen : Dec σ Unit := decApplen >>= fun _ => fromAppdat
def fromTabdat : Dec σ Unit := decTabdat >>= fun _ => fromApplen
def fromSame : Dec σ Unit := decSame >>= fun _ => fromTabdat
def fromNear : Dec σ Unit := decNear >>= fun _ => fromSame
def fromTablen : Dec σ Unit := decTablen >>= fun _ => fromNear
def fromSecondid (env : Env σ) : Dec σ Unit := decSecondid env >>= fun _ => fromTablen
def fromHdrind (env : Env σ) : Dec σ Unit := decHdrind >>= fun _ => fromSecondid env
def fromVchead (env : Env σ) : Dec σ Unit := decVchead >>= fun _ => fromHdrind env

def decodeHeader (env : Env σ) : Dec σ Unit := fun s =>
  match s.core.decState with
  | .vchead => fromVchead env s
  | .hdrind => fromHdrind env s
  | .secondid => fromSecondid env s
  | .tablen => fromTablen s
  | .near => fromNear s
  | .same => fromSame s
  | .tabdat => fromTabdat s
  | .applen => fromApplen s
  | .appdat => fromAppdat s
  | .winind => fromWinind s
  | .cpylen => fromCpylen s
  | .cpyoff => fromCpyoff s
  | .enclen => fromEnclen s
  | .tgtlen => fromTgtlen s
  | .delind => fromDelind s
  | .datalen => fromDatalen s
  | .instlen => fromInstlen s
  | .addrlen => fromAddrlen s
  | .cksum => fromCksum s
  | _ => fail .invalidInput "invalid state" s

def decodeInput (env : Env σ) : Routine (Stream σ) Stop Unit := fun s =>
  match s.core.decState with
  | .data | .inst | .addr =>
    (decodeSections s).andThen fun _ => onReader (onCore (decEmit env))
  | .emit => onReader (onCore (decEmit env)) s
  | .finish => onReader (onCore decFinish) s
  | _ => onReader (decodeHeader env) s

/-- `xd3_close_stream` of a stream that only decoded. -/
def closeStream (c : Core σ) : Option Stop :=
  match c.decState with
  | .vchead | .winind | .aborted => none
  | _ => some ⟨.invalidInput, some "eof in decode"⟩

end Xdelta
