import Xdelta.AddressCache
import Xdelta.CodeTable
import Xdelta.Source

/-!
# The decoder's state

The fields of the stream that decoding reads and writes, in four layers: the
input, the staging allocations of the three sections, the header fields, and the
window on which instructions are executed. A routine works on the layer it needs.
-/
namespace Xdelta
open Chunked

/-- `x & mask` as a condition. -/
def hasBits (x mask : ℕ) : Bool := (x &&& mask) != 0

def vcdSecondary : ℕ := 1
def vcdCodetable : ℕ := 2
def vcdAppheader : ℕ := 4
def vcdSource : ℕ := 1
def vcdTarget : ℕ := 2
def vcdAdler32 : ℕ := 4

/-- `VCD_INVHDR`, `VCD_INVWIN` and `VCD_INVDEL`. -/
def vcdInvalid : ℕ := 0xfffffff8

/-- `SRCORTGT`: the indicator announces exactly one kind of copy window. -/
def srcortgt (x : ℕ) : Bool := (x &&& 3) == vcdSource || (x &&& 3) == vcdTarget

/-- `XD3_HARDMAXWINSIZE`. -/
def hardMaxWinsize : ℕ := 2 ^ 26

/-- `xd3_hinst`. -/
structure Hinst where
  type : RType := .noop
  size : ℕ := 0
  addr : ℕ := 0
  deriving DecidableEq, Repr

/-- `xd3_desect`. The buffer `buf` points into is `mem`; `buf` and `bufMax` are offsets. -/
structure Desect where
  mem : List UInt8 := []
  buf : ℕ := 0
  bufMax : ℕ := 0
  size : ℕ := 0
  pos : ℕ := 0
  deriving DecidableEq, Repr

/-- The bytes that may be read: nothing lies past `buf_max`. -/
def Desect.bytes (d : Desect) : List UInt8 := d.mem.take d.bufMax

theorem Desect.length_bytes {d : Desect} (h : d.bufMax ≤ d.mem.length) :
    d.bytes.length = d.bufMax := by
  rw [bytes, List.length_take, Nat.min_eq_left h]

inductive Half where
  | first
  | second
  deriving DecidableEq, Repr

inductive Sect where
  | data
  | inst
  | addr
  deriving DecidableEq, Repr

/-- The bits of `flags` the decoder tests. -/
structure Flags where
  justHdr : Bool := false
  skipWindow : Bool := false
  skipEmit : Bool := false
  adler32Nover : Bool := false
  deriving DecidableEq, Repr

/-- The fields that instruction decoding and output work on. `out` is the content
of `next_out[0 .. avail_out)`; buffers are named by allocation numbers, 0 for null. -/
structure Window where
  flags : Flags := {}
  src : Option Source := none
  decWinInd : ℕ := 0
  decCpylen : ℕ := 0
  decCpyoff : ℕ := 0
  decTgtlen : ℕ := 0
  decAdler32 : ℕ := 0
  decPosition : ℕ := 0
  decMaxpos : ℕ := 0
  decCurrent1 : Hinst := {}
  decCurrent2 : Hinst := {}
  dataSect : Desect := {}
  instSect : Desect := {}
  addrSect : Desect := {}
  acache : AddrCache
  out : List UInt8 := []
  spaceOut : ℕ := 0
  nextOut : ℕ := 0
  decBuffer : ℕ := 0
  decLastwin : ℕ := 0
  decLastspace : ℕ := 0
  totalOut : ℕ := 0

namespace Window

def half (w : Window) : Half → Hinst
  | .first => w.decCurrent1
  | .second => w.decCurrent2

def setHalf (w : Window) (h : Half) (i : Hinst) : Window :=
  match h with
  | .first => { w with decCurrent1 := i }
  | .second => { w with decCurrent2 := i }

def sect (w : Window) : Sect → Desect
  | .data => w.dataSect
  | .inst => w.instSect
  | .addr => w.addrSect

def setSect (w : Window) (k : Sect) (d : Desect) : Window :=
  match k with
  | .data => { w with dataSect := d }
  | .inst => { w with instSect := d }
  | .addr => { w with addrSect := d }

@[simp] theorem sect_setSect (w : Window) (k : Sect) (d : Desect) : (w.setSect k d).sect k = d := by
  cases k <;> rfl

theorem sect_setSect_of_ne (w : Window) {j k : Sect} (h : j ≠ k) (d : Desect) :
    (w.setSect k d).sect j = w.sect j := by
  cases j <;> cases k <;> first | exact absurd rfl h | rfl

@[simp] theorem setSect_setSect (w : Window) (k : Sect) (d d' : Desect) :
    (w.setSect k d).setSect k d' = w.setSect k d' := by
  cases k <;> rfl

@[simp] theorem setSect_flags (w : Window) (k : Sect) (d : Desect) :
    (w.setSect k d).flags = w.flags := by
  cases k <;> rfl

end Window

/-- `xd3_sec_type` seen from the decoder: a fresh stream, and `decode` from the
section's bytes, its cursor and end, to at most `size` bytes of output. -/
structure SecType (σ : Type) where
  init : σ
  decode : σ → List UInt8 → ℕ → ℕ → ℕ → Except Stop (σ × ℕ × List UInt8)

inductive SecId where
  | djw
  | lzma
  | fgk
  deriving DecidableEq, Repr

namespace SecId

def ofByte : ℕ → Option SecId
  | 1 => some djw
  | 2 => some lzma
  | 16 => some fgk
  | _ => none

def unavailable : SecId → String
  | djw => "unavailable secondary compressor: DJW Static Huffman"
  | lzma => "unavailable secondary compressor: LZMA"
  | fgk => "unavailable secondary compressor: FGK Adaptive Huffman"

end SecId

/-- What the decoder calls: the application's `getblk`, and the compressors built in. -/
structure Env (σ : Type) where
  getblk : Option GetblkFunc := none
  secondary : SecId → Option (SecType σ) := fun _ => none

/-- `xd3_decode_state`. -/
inductive DecState where
  | vchead | hdrind | secondid | tablen | near | same | tabdat | applen | appdat
  | winind | cpylen | cpyoff | enclen | tgtlen | delind | datalen | instlen | addrlen | cksum
  | data | inst | addr | emit | finish | aborted
  deriving DecidableEq, Repr

/-- The input supplied and not yet consumed, with the partial integer carried between calls. -/
structure Input where
  nextIn : List UInt8 := []
  totalIn : ℕ := 0
  dec64part : ℕ := 0

/-- The allocated sizes of the sections' `copied1` buffers, `none` for null. -/
structure Staging where
  data : Option ℕ := none
  inst : Option ℕ := none
  addr : Option ℕ := none

namespace Staging

def get (g : Staging) : Sect → Option ℕ
  | .data => g.data
  | .inst => g.inst
  | .addr => g.addr

def set (g : Staging) (k : Sect) (a : Option ℕ) : Staging :=
  match k with
  | .data => { g with data := a }
  | .inst => { g with inst := a }
  | .addr => { g with addr := a }

@[simp] theorem get_set (g : Staging) (k : Sect) (a : Option ℕ) : (g.set k a).get k = a := by
  cases k <;> rfl

theorem get_set_of_ne (g : Staging) {j k : Sect} (h : j ≠ k) (a : Option ℕ) :
    (g.set k a).get j = g.get j := by
  cases j <;> cases k <;> first | exact absurd rfl h | rfl

end Staging

/-- The header fields and the window. A partly filled buffer is as long as its position field. -/
structure Core (σ : Type) where
  decState : DecState := .vchead
  decMagic : List UInt8 := []
  decHdrInd : ℕ := 0
  decSecondid : ℕ := 0
  decCodetblsz : ℕ := 0
  decAppheadsz : ℕ := 0
  decAppheader : List UInt8 := []
  decHdrsize : ℕ := 0
  currentWindow : ℕ := 0
  decWindowCount : ℕ := 0
  decWinstart : ℕ := 0
  decEnclen : ℕ := 0
  decDelInd : ℕ := 0
  decCksum : List UInt8 := []
  decWinbytes : ℕ := 0
  secType : Option (SecType σ) := none
  secStream : Sect → Option σ := fun _ => none
  win : Window

structure Reader (σ : Type) where
  inp : Input := {}
  core : Core σ

/-- The part of `xd3_stream` the decoder uses. -/
structure Stream (σ : Type) extends Reader σ where
  staging : Staging := {}

def initStream {σ : Type} (flags : Flags) (src : Option Source) : Stream σ where
  core := { win := { flags := flags, src := src, acache := ⟨0, 0, 0, fun _ => 0, fun _ => 0⟩ } }

abbrev Dec (σ α : Type) := Routine (Reader σ) Stop α

def onWindow {σ α : Type} (f : Routine Window Stop α) : Routine (Core σ) Stop α :=
  Routine.zoom (·.win) (fun c w => { c with win := w }) f

def onCore {σ α : Type} (f : Routine (Core σ) Stop α) : Dec σ α :=
  Routine.zoom (·.core) (fun s c => { s with core := c }) f

def onInput {σ α : Type} (f : Routine Input Stop α) : Dec σ α :=
  Routine.zoom (·.inp) (fun s i => { s with inp := i }) f

def onReader {σ α : Type} (f : Dec σ α) : Routine (Stream σ) Stop α :=
  Routine.zoom (·.toReader) (fun s r => { s with toReader := r }) f

def Input.more (i : Input) (b : List UInt8) : Input := { i with nextIn := i.nextIn ++ b }

def Reader.more {σ : Type} (s : Reader σ) (b : List UInt8) : Reader σ :=
  { s with inp := s.inp.more b }

/-- The stream with `b` appended to the input still to be consumed. -/
def Stream.more {σ : Type} (s : Stream σ) (b : List UInt8) : Stream σ :=
  { s with toReader := s.toReader.more b }

section More
variable {σ : Type}

@[simp] theorem Input.more_nextIn (i : Input) (b : List UInt8) :
    (i.more b).nextIn = i.nextIn ++ b := rfl
@[simp] theorem Reader.more_core (s : Reader σ) (b : List UInt8) : (s.more b).core = s.core := rfl
@[simp] theorem Reader.more_inp (s : Reader σ) (b : List UInt8) :
    (s.more b).inp = s.inp.more b := rfl
@[simp] theorem Stream.more_toReader (s : Stream σ) (b : List UInt8) :
    (s.more b).toReader = s.toReader.more b := rfl
@[simp] theorem Stream.more_staging (s : Stream σ) (b : List UInt8) :
    (s.more b).staging = s.staging := rfl

theorem Stream.more_nil (s : Stream σ) : s.more [] = s := by
  simp [Stream.more, Reader.more, Input.more]

end More

end Xdelta
