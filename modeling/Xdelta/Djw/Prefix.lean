import Xdelta.Lib.Heap
import Mathlib.Algebra.Group.Nat.Defs
import Mathlib.Data.Prod.Lex
import Mathlib.Data.Nat.Notation

/-!
# Huffman code lengths

The tree is built over a heap of its roots, lightest first. Where a code comes out
longer than is allowed, all weights are made more alike and the tree is built
again.
-/
namespace Xdelta.Djw

/-- `djw_heapen`. -/
structure Heapen where
  depth : ℕ
  freq : ℕ
  parent : ℕ
  deriving DecidableEq

def ent (ents : List Heapen) (i : ℕ) : Heapen := ents.getD i ⟨0, 0, 0⟩

def slot (heap : List ℕ) (p : ℕ) : ℕ := heap.getD p 0

def heapLess (a b : Heapen) : Bool := a.freq < b.freq || (a.freq == b.freq && a.depth < b.depth)

def heapInsertLoop (ents : List Heapen) (e : ℕ) : ℕ → ℕ → List ℕ → Option (List ℕ)
  | 0, _, _ => none
  | fuel + 1, p, heap =>
    if heapLess (ent ents e) (ent ents (slot heap (p / 2))) then
      heapInsertLoop ents e fuel (p / 2) (heap.set p (slot heap (p / 2)))
    else some (heap.set p e)

/-- `heap_insert`; the place halves, so that this is enough rounds. -/
def heapInsert (heap : List ℕ) (ents : List Heapen) (p e : ℕ) : Option (List ℕ) :=
  heapInsertLoop ents e p p heap

def lesserChild (ents : List Heapen) (heapLast p : ℕ) (heap : List ℕ) : ℕ :=
  if p * 2 < heapLast ∧ heapLess (ent ents (slot heap (p * 2 + 1))) (ent ents (slot heap (p * 2)))
  then p * 2 + 1 else p * 2

def heapExtractLoop (ents : List Heapen) (heapLast : ℕ) : ℕ → ℕ → List ℕ → Option (List ℕ)
  | 0, _, _ => none
  | fuel + 1, p, heap =>
    if heapLast < p * 2 then some heap
    else
      let pc := lesserChild ents heapLast p heap
      if heapLess (ent ents (slot heap pc)) (ent ents (slot heap p)) then
        heapExtractLoop ents heapLast fuel pc
          ((heap.set pc (slot heap p)).set p (slot heap pc))
      else some heap

/-- `heap_extract`: the index of the smallest entry, and the heap without it. -/
def heapExtract (heap : List ℕ) (ents : List Heapen) (heapLast : ℕ) : Option (ℕ × List ℕ) :=
  (heapExtractLoop ents heapLast (heapLast + 1) 1
    (heap.set 1 (slot heap (heapLast + 1)))).map fun heap' => (slot heap 1, heap')

/-- The variables of `djw_build_prefix` while it builds a tree. -/
structure Build where
  ents : List Heapen
  heap : List ℕ
  heapLast : ℕ
  entsSize : ℕ

def initialHeap : ℕ → Build → Option Build
  | 0, s => some s
  | n + 1, s =>
    let ents := s.ents.set s.entsSize { ent s.ents s.entsSize with depth := 0, parent := 0 }
    if (ent ents s.entsSize).freq ≠ 0 then
      (heapInsert s.heap ents (s.heapLast + 1) s.entsSize).bind fun heap =>
        initialHeap n ⟨ents, heap, s.heapLast + 1, s.entsSize + 1⟩
    else initialHeap n ⟨ents, s.heap, s.heapLast, s.entsSize + 1⟩

/-- The two lightest trees become one; a weight is a `uint32_t`. -/
def Build.join (s : Build) : Option Build :=
  (heapExtract s.heap s.ents (s.heapLast - 1)).bind fun r1 =>
    (heapExtract r1.2 s.ents (s.heapLast - 2)).bind fun r2 =>
      let h1 := ent s.ents r1.1
      let h2 := ent s.ents r2.1
      let ents := s.ents.set s.entsSize
        { depth := 1 + max h1.depth h2.depth, freq := (h1.freq + h2.freq) % 2 ^ 32, parent := 0 }
      let ents := ents.set r1.1 { ent ents r1.1 with parent := s.entsSize }
      let ents := ents.set r2.1 { ent ents r2.1 with parent := s.entsSize }
      (heapInsert r2.2 ents (s.heapLast - 2 + 1) s.entsSize).map fun heap =>
        ⟨ents, heap, s.heapLast - 2 + 1, s.entsSize + 1⟩

def buildTree : ℕ → Build → Option Build
  | 0, _ => none
  | fuel + 1, s => if 1 < s.heapLast then s.join.bind (buildTree fuel) else some s

def codeLength (ents : List Heapen) : ℕ → ℕ → Option ℕ
  | 0, _ => none
  | fuel + 1, p =>
    if (ent ents p).parent ≠ 0 then (codeLength ents fuel (ent ents p).parent).map (· + 1)
    else some 0

/-- The code lengths of a tree, whether one is too long, and what the message then takes up. -/
structure Lengths where
  clen : List ℕ
  overflow : Bool
  totalBits : ℕ
  deriving DecidableEq

/-- The loop over the symbols, from entry `i` on; a length is a `uint8_t`. -/
def codeLengths (ents : List Heapen) (entsSize maxlen : ℕ) : List ℕ → ℕ → Option Lengths
  | [], _ => some ⟨[], false, 0⟩
  | f :: freq, i =>
    (if (ent ents i).freq ≠ 0 then codeLength ents entsSize i else some 0).bind fun b =>
      (codeLengths ents entsSize maxlen freq (i + 1)).map fun r =>
        ⟨b % 256 :: r.clen, decide (maxlen < b) || r.overflow, b * f + r.totalBits⟩

def startBuild (asize : ℕ) (ents : List Heapen) (heap : List ℕ) : Option Build :=
  initialHeap asize
    ⟨ents.set 0 { ent ents 0 with depth := 0, freq := 0 }, heap.set 0 0, 0, 1⟩

/-- The tree of the weights in `ents`, and the lengths in it. -/
def treeLengths (freq : List ℕ) (maxlen : ℕ) (ents : List Heapen) (heap : List ℕ) :
    Option Lengths :=
  (startBuild freq.length ents heap).bind fun s =>
    (buildTree (s.heapLast + 1) s).bind fun t => codeLengths t.ents t.entsSize maxlen freq 1

def rescale (asize : ℕ) (ents : List Heapen) : List Heapen :=
  ents.mapIdx fun i e =>
    if 1 ≤ i ∧ i < asize + 1 then { e with freq := e.freq / 2 + 1 } else e

/-- The code from the label `again` on, a round for each time it is reached. -/
def buildPrefixLoop (freq : List ℕ) (maxlen : ℕ) :
    ℕ → List Heapen → List ℕ → Option Lengths
  | 0, _, _ => none
  | fuel + 1, ents, heap =>
    (startBuild freq.length ents heap).bind fun s =>
      if s.heapLast = 1 then
        let sym := if freq.getD 0 0 ≠ 0 then freq.length - 1 else 0
        buildPrefixLoop freq maxlen fuel
          (s.ents.set (sym + 1) { ent s.ents (sym + 1) with freq := 1 }) s.heap
      else
        (buildTree (s.heapLast + 1) s).bind fun t =>
          (codeLengths t.ents t.entsSize maxlen freq 1).bind fun r =>
            if r.overflow then
              buildPrefixLoop freq maxlen fuel (rescale freq.length t.ents) t.heap
            else some r

def symbolEnts (freq : List ℕ) : List Heapen :=
  ⟨0, 0, 0⟩ :: freq.map (fun f => ⟨0, f, 0⟩) ++ List.replicate (511 - freq.length) ⟨0, 0, 0⟩

def buildPrefix (freq : List ℕ) (maxlen fuel : ℕ) : Option Lengths :=
  buildPrefixLoop freq maxlen fuel (symbolEnts freq) (List.replicate 257 0)

def overflows (freq : List ℕ) (maxlen : ℕ) : Bool :=
  (treeLengths freq maxlen (symbolEnts freq) (List.replicate 257 0)).any (·.overflow)

end Xdelta.Djw
