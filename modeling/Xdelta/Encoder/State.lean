import Xdelta.Decoder.State

/-!
# The encoder's state

The fields of the stream that encoding a window reads and writes, once its
instructions have been found: the window itself, the source window, the queue of
instructions and the four output sections.
-/
namespace Xdelta
open Chunked

inductive EncState where
  | init | input | search | instr | flush | postout | postwin | aborted
  deriving DecidableEq, Repr

/-- The bits of `flags` the encoder tests. -/
structure EncFlags where
  adler32 : Bool := false
  adler32Recode : Bool := false
  flush : Bool := false
  nocompress : Bool := false
  begreedy : Bool := false
  secNodata : Bool := false
  secNoinst : Bool := false
  secNoaddr : Bool := false
  deriving DecidableEq, Repr

def EncFlags.secNo (f : EncFlags) : Sect → Bool
  | .data => f.secNodata
  | .inst => f.secNoinst
  | .addr => f.secNoaddr

/-- `stream->src`: null, a source, or the address of one whose lifetime has ended. -/
inductive SourceRef where
  | null
  | live (source : Source)
  | dead
  deriving DecidableEq

/-- An instruction handed to `xd3_iopt_finish_encoding`, with the address it was encoded with. -/
structure Handed where
  inst : Rinst
  addr : ℕ := 0
  deriving DecidableEq

/-- `xd3_sec_type` seen from the encoder: `encode` is what `xd3_encode_secondary` makes of
a section, nothing where it leaves the section as it is. -/
structure EncSecType where
  id : SecId
  encode : Sect → List UInt8 → Option (List UInt8)

/-- The part of `xd3_stream` the encoder uses. `nextIn` is the content of
`next_in[0 .. avail_in)`; an output chain is the list of its bytes; `iopt_free` is its
length. `handed` records what this window has encoded, and is read by nothing. -/
structure Encoder where
  flags : EncFlags := {}
  encState : EncState := .init
  src : SourceRef := .null
  secType : Option EncSecType := none
  encAppheader : Option (List UInt8) := none
  currentWindow : ℕ := 0
  nextIn : List UInt8 := []
  availIn : ℕ := 0
  recodeAdler32 : ℕ := 0
  srcwinDecided : Bool := false
  matchMinaddr : ℕ := 0
  matchMaxaddr : ℕ := 0
  taroff : ℕ := 0
  unencodedOffset : ℕ := 0
  acache : AddrCache := .rfc3284
  ioptUsed : List Rinst := []
  iout : Option Rinst := none
  ioptFree : ℕ := 0
  ioptSize : ℕ := 0
  ioptUnlimited : Bool := false
  handed : List Handed := []
  hdr : List UInt8 := []
  data : List UInt8 := []
  inst : List UInt8 := []
  addr : List UInt8 := []

namespace Encoder

def sect (e : Encoder) : Sect → List UInt8
  | .data => e.data
  | .inst => e.inst
  | .addr => e.addr

def setSect (e : Encoder) (k : Sect) (bytes : List UInt8) : Encoder :=
  match k with
  | .data => { e with data := bytes }
  | .inst => { e with inst := bytes }
  | .addr => { e with addr := bytes }

end Encoder

abbrev Enc (α : Type) := Routine Encoder Stop α

/-- `xd3_encoder_used_source`; a source whose lifetime has ended must not be read. -/
def encoderUsedSource : Enc Bool := fun e =>
  match e.src with
  | .null => .ok false e
  | .live source => .ok (decide (0 < source.srclen)) e
  | .dead => .fault

def encodeReset : Enc Unit := fun e =>
  let e := { e with availIn := 0, hdr := [], data := [], inst := [], addr := [], handed := [] }
  match e.src with
  | .null => .ok () e
  | .live source =>
    .ok () { e with
      src := .live { source with srcbase := 0, srclen := 0 }
      srcwinDecided := false
      matchMinaddr := 0
      matchMaxaddr := 0
      taroff := 0 }
  | .dead => .fault

end Xdelta
