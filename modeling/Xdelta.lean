import Xdelta.Lib.Chunked
import Xdelta.Lib.Stutter
import Xdelta.Lib.Fifo
import Xdelta.Integer
import Xdelta.IntegerCodec
import Xdelta.CodeTable
import Xdelta.AddressCache
import Xdelta.AddressModes
import Xdelta.Source
import Xdelta.SourceEnd
import Xdelta.BlockCache
import Xdelta.ForwardCache
import Xdelta.Decoder.State
import Xdelta.Decoder.Emit
import Xdelta.Decoder.Input
import Xdelta.Decoder.Header
import Xdelta.Decoder.HeaderChain
import Xdelta.Decoder.Sections
import Xdelta.Decoder.Prompt
import Xdelta.Decoder.Chunks
import Xdelta.Decoder.Calls
import Xdelta.Decoder.Emission
import Xdelta.Decoder.Safety
import Xdelta.Decoder.Script
import Xdelta.Decoder.Meaning
import Xdelta.Decoder.Execution
import Xdelta.Decoder.Setup
import Xdelta.Merge.Whole
import Xdelta.Merge.Append
import Xdelta.Merge.Agreement
import Xdelta.Merge.Inputs
import Xdelta.Merge.Compose
import Xdelta.Encoder.Header
import Xdelta.Decoder.Load
import Xdelta.Encoder.Delta
import Xdelta.Decoder.Progress
import Xdelta.Encoder.Truncation
import Xdelta.Encoder.Acceptance
import Xdelta.Encoder.Queue
import Xdelta.Encoder.Overlap
import Xdelta.Encoder.Search
import Xdelta.Encoder.Extend
import Xdelta.Encoder.Indexing
import Xdelta.Encoder.Buffering
import Xdelta.Encoder.Chains
import Xdelta.Edsio.Dispatch
import Xdelta.Edsio.Primitives
import Xdelta.Main.Appheader
import Xdelta.Second.Bits
import Xdelta.Lib.Table
import Xdelta.Djw.Codes
import Xdelta.Djw.Decoder
import Xdelta.Djw.Canonical
import Xdelta.Djw.Huff
import Xdelta.Djw.Safety
import Xdelta.Lib.Heap
import Xdelta.Lib.JoinLeast
import Xdelta.Djw.Prefix
import Xdelta.Djw.PrefixHeap
import Xdelta.Djw.PrefixRounds
import Xdelta.Main.MergeChain
import Xdelta.Encoder.SourceWindow
import Xdelta.Decoder.Interpret
import Xdelta.Decoder.Blind
import Xdelta.Decoder.Reference
import Xdelta.Decoder.Refinement
import Xdelta.Decoder.SetFlags
import Xdelta.Decoder.Addressing
import Xdelta.Lib.CString
import Xdelta.Lib.Rolling
import Xdelta.Encoder.Checksum
import Xdelta.Encoder.Frames
import Xdelta.Encoder.StringMatch
import Xdelta.Encoder.MatchState
import Xdelta.Encoder.EncodeSearch
import Xdelta.Encoder.BackwardLimit
import Xdelta.Encoder.ForwardMatch
import Xdelta.SourceSetup
import Xdelta.Lib.MoveToFront
import Xdelta.Djw.Mtf
import Xdelta.Djw.Lengths
import Xdelta.Lib.Fletcher
import Xdelta.Generator.Generate
import Xdelta.Generator.Checksum
import Xdelta.Generator.Pages
import Xdelta.Generator.Table
import Xdelta.Generator.Match
import Xdelta.Generator.Copies
import Xdelta.Decoder.Served
import Xdelta.Encoder.Coding
import Xdelta.Encoder.Encoding
import Xdelta.Encoder.Session
import Xdelta.Encoder.Roundtrip
import Xdelta.Encoder.Gaps
import Xdelta.Merge.Output
import Xdelta.Merge.Rewrite
import Xdelta.Merge.Chain
import Xdelta.Merge.Reading
import Xdelta.Merge.Links
import Xdelta.Merge.Sessions
