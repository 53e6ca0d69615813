import Xdelta.IntegerCodec
import Xdelta.Lib.Attempt

/-!
# Reading from a byte array

The first xdelta reads its serialised objects with a few primitives: fixed-width
numbers, numbers in groups of seven bits, byte strings with their length before
them. Positions and lengths are 32-bit, and their sums wrap.
-/
namespace Xdelta.Edsio
open Attempt

/-- `ByteArraySource`. -/
structure ByteArraySource where
  inData : List UInt8
  readPos : ℕ := 0

inductive Value where
  | num (n : ℕ)
  | bytes (buf : List UInt8)
  deriving DecidableEq

/-- The reading primitives; `bytesKnown` reads into a buffer of the caller's. -/
inductive ReadOp where
  | uint8 | bool | uint16 | uint32
  | bytesKnown (len : UInt32)
  | uint | bytes | string

/-- `byte_array_source_read`; a copy from past the end of the array faults. -/
def byteArraySourceRead (len : ℕ) (s : ByteArraySource) : Attempt (List UInt8 × ByteArraySource) :=
  if s.inData.length < (len + s.readPos) % 2 ^ 32 then .fail
  else require (s.readPos + len ≤ s.inData.length) <|
    .done ((s.inData.drop s.readPos).take len,
      { s with readPos := (s.readPos + len) % 2 ^ 32 })

def ntoh (buf : List UInt8) : ℕ := buf.foldl (fun n b => n * 256 + b.toNat) 0

/-- The loop of `source_next_uint`, with `room` places left in `arr`, whose content is given last
group first; a store past its end faults. -/
def nextUintLoop : ℕ → List ℕ → ByteArraySource → Attempt (List ℕ × ByteArraySource)
  | 0, _, s => (byteArraySourceRead 1 s).andThen fun _ => .fault
  | room + 1, arr, s => (byteArraySourceRead 1 s).andThen fun r =>
    let c := (r.1.headD 0).toNat
    let arr := (c &&& 0x7f) :: arr
    if c &&& 0x80 = 0 then .done (arr, r.2) else nextUintLoop room arr r.2

def sourceNextUint (s : ByteArraySource) : Attempt (ℕ × ByteArraySource) :=
  (nextUintLoop 16 [] s).andThen fun r =>
    .done (r.1.foldl (fun ptr group => (ptr <<< 7) % 2 ^ 32 ||| group) 0, r.2)

/-- `serializeio_source_alloc`: the size of the buffer, null for a size of 0. -/
def sourceAlloc (len : ℕ) : Option ℕ := if len = 0 then none else some len

/-- The bytes of a byte string of `len`. -/
def sourceBytes (len : ℕ) (s : ByteArraySource) : Attempt (List UInt8 × ByteArraySource) :=
  match sourceAlloc len with
  | none => .fail
  | some _ => byteArraySourceRead len s

/-- The bytes of a string of `len`, in a buffer with room for the terminator, whose place faults
outside the allocation. -/
def sourceString (len : ℕ) (s : ByteArraySource) : Attempt (List UInt8 × ByteArraySource) :=
  match sourceAlloc ((len + 1) % 2 ^ 32) with
  | none => .fail
  | some size => require (len < size) <|
    (byteArraySourceRead len s).andThen fun b => .done (b.1 ++ [0], b.2)

def sourceNextBytes (s : ByteArraySource) : Attempt (List UInt8 × ByteArraySource) :=
  (sourceNextUint s).andThen fun r => sourceBytes r.1 r.2

def sourceNextString (s : ByteArraySource) : Attempt (List UInt8 × ByteArraySource) :=
  (sourceNextUint s).andThen fun r => sourceString r.1 r.2

/-- A number of `width` bytes. -/
def sourceNextFixed (width : ℕ) (s : ByteArraySource) : Attempt (Value × ByteArraySource) :=
  (byteArraySourceRead width s).andThen fun r => .done (.num (ntoh r.1), r.2)

def readOp (op : ReadOp) (s : ByteArraySource) : Attempt (Value × ByteArraySource) :=
  match op with
  | .uint8 => sourceNextFixed 1 s
  | .bool => (byteArraySourceRead 1 s).andThen fun r =>
    .done (.num (if r.1.headD 0 = 0 then 0 else 1), r.2)
  | .uint16 => sourceNextFixed 2 s
  | .uint32 => sourceNextFixed 4 s
  | .bytesKnown len => (byteArraySourceRead len.toNat s).andThen fun r => .done (.bytes r.1, r.2)
  | .uint => (sourceNextUint s).andThen fun r => .done (.num r.1, r.2)
  | .bytes => (sourceNextBytes s).andThen fun r => .done (.bytes r.1, r.2)
  | .string => (sourceNextString s).andThen fun r => .done (.bytes r.1, r.2)

/-- The loop of `sink_next_uint`, which fills `sink_buf[16]`. -/
def sinkDigits : ℕ → ℕ → List UInt8
  | 0, _ => []
  | room + 1, num =>
    let left := num &&& 0x7f
    if num >>> 7 = 0 then [UInt8.ofNat left]
    else UInt8.ofNat (left ||| 0x80) :: sinkDigits room (num >>> 7)

def sinkNextUint (num : ℕ) : List UInt8 := sinkDigits 16 num

def uintValue : List UInt8 → ℕ
  | [] => 0
  | next :: rest => next.toNat % 128 + 128 * uintValue rest

def ByteArraySource.rest (s : ByteArraySource) : List UInt8 := s.inData.drop s.readPos

def ByteArraySource.body (s : ByteArraySource) : List UInt8 :=
  s.rest.drop (groupRun s.rest).length

/-- The value is what the bytes at the read position say, and lies inside the array. -/
def ReadsValue (op : ReadOp) (s : ByteArraySource) (v : Value) : Prop :=
  let len := uintValue (groupRun s.rest)
  match op with
  | .uint8 => 1 ≤ s.rest.length ∧ v = .num (ntoh (s.rest.take 1))
  | .bool => 1 ≤ s.rest.length ∧ v = .num (if s.rest.headD 0 = 0 then 0 else 1)
  | .uint16 => 2 ≤ s.rest.length ∧ v = .num (ntoh (s.rest.take 2))
  | .uint32 => 4 ≤ s.rest.length ∧ v = .num (ntoh (s.rest.take 4))
  | .bytesKnown n => n.toNat ≤ s.rest.length ∧ v = .bytes (s.rest.take n.toNat)
  | .uint => len < 2 ^ 32 ∧ v = .num len
  | .bytes => len < 2 ^ 32 ∧ len ≤ s.body.length ∧ v = .bytes (s.body.take len)
  | .string => len < 2 ^ 32 ∧ len ≤ s.body.length ∧ v = .bytes (s.body.take len ++ [0])

/-- Every read fails or returns its value, without an access outside a buffer. -/
def ReadsRun : List ReadOp → ByteArraySource → Prop
  | [], _ => True
  | op :: ops, s =>
    match readOp op s with
    | .done r => ReadsValue op s r.1 ∧ ReadsRun ops r.2
    | .fail => True
    | .fault => False

def UintRoundTrips : Prop :=
  ∀ n < 2 ^ 32, ∀ rest : List UInt8, (sinkNextUint n ++ rest).length < 2 ^ 32 →
    sourceNextUint ⟨sinkNextUint n ++ rest, 0⟩ =
      .done (n, ⟨sinkNextUint n ++ rest, (sinkNextUint n).length⟩)

/-- The primitives on a byte array. -/
def PrimitivesRight (inData : List UInt8) (ops : List ReadOp) : Prop :=
  UintRoundTrips ∧ ReadsRun ops ⟨inData, 0⟩

/-- The group sequence fits `arr`; one that is not terminated does not end at position 2^32 - 1. -/
def UintEnds (s : ByteArraySource) : Prop :=
  (groupRun s.rest).length ≤ 16 ∧ (¬ Terminated s.rest → s.inData.length + 1 < 2 ^ 32)

def SpanFits (pos len : ℕ) : Prop := pos + len < 2 ^ 32

instance (pos len : ℕ) : Decidable (SpanFits pos len) := inferInstanceAs (Decidable (_ < _))

def ByteArraySource.bodyPos (s : ByteArraySource) : ℕ := s.readPos + (groupRun s.rest).length

/-- The end of a byte string does not wrap, and a length that does not fit 32 bits is longer than
the input when it is cut to them, or 0. -/
def BytesFit (s : ByteArraySource) : Prop :=
  let value := uintValue (groupRun s.rest)
  let len := value % 2 ^ 32
  SpanFits s.bodyPos len ∧ (value < 2 ^ 32 ∨ len = 0 ∨ s.body.length < len)

def StringFits (s : ByteArraySource) : Prop :=
  let value := uintValue (groupRun s.rest)
  let len := value % 2 ^ 32
  len = 2 ^ 32 - 1 ∨ (SpanFits s.bodyPos len ∧ (value < 2 ^ 32 ∨ s.body.length < len))

def ReadFits (op : ReadOp) (s : ByteArraySource) : Prop :=
  match op with
  | .uint8 => SpanFits s.readPos 1
  | .bool => SpanFits s.readPos 1
  | .uint16 => SpanFits s.readPos 2
  | .uint32 => SpanFits s.readPos 4
  | .bytesKnown n => SpanFits s.readPos n.toNat
  | .uint => UintEnds s ∧ (Terminated s.rest → uintValue (groupRun s.rest) < 2 ^ 32)
  | .bytes => UintEnds s ∧ (Terminated s.rest → BytesFit s)
  | .string => UintEnds s ∧ (Terminated s.rest → StringFits s)

instance (s : ByteArraySource) : Decidable (UintEnds s) :=
  inferInstanceAs (Decidable (_ ∧ (_ → _)))

instance (s : ByteArraySource) : Decidable (BytesFit s) :=
  inferInstanceAs (Decidable (SpanFits _ _ ∧ (_ ∨ _ ∨ _)))

instance (s : ByteArraySource) : Decidable (StringFits s) :=
  inferInstanceAs (Decidable (_ ∨ (SpanFits _ _ ∧ (_ ∨ _))))

instance : (op : ReadOp) → (s : ByteArraySource) → Decidable (ReadFits op s)
  | .uint8, _ | .bool, _ | .uint16, _ | .uint32, _ | .bytesKnown _, _ =>
    inferInstanceAs (Decidable (SpanFits _ _))
  | .uint, _ => inferInstanceAs (Decidable (UintEnds _ ∧ (_ → _)))
  | .bytes, _ => inferInstanceAs (Decidable (UintEnds _ ∧ (_ → BytesFit _)))
  | .string, _ => inferInstanceAs (Decidable (UintEnds _ ∧ (_ → StringFits _)))

/-- Every read of the run meets its condition. -/
def ReadsFit : List ReadOp → ByteArraySource → Prop
  | [], _ => True
  | op :: ops, s =>
    ReadFits op s ∧
      match readOp op s with
      | .done r => ReadsFit ops r.2
      | .fail => True
      | .fault => True

/-- The read position lies in an array whose length is a `guint`. -/
structure ByteArraySource.Within (s : ByteArraySource) : Prop where
  pos : s.readPos ≤ s.inData.length
  len : s.inData.length < 2 ^ 32

section Reads

variable {s : ByteArraySource} {n : ℕ}

theorem ByteArraySource.Within.rest_length (h : s.Within) :
    s.readPos + s.rest.length = s.inData.length := by
  have hpos := h.pos
  rw [ByteArraySource.rest, List.length_drop]
  omega

/-- A read inside the array is done, one past its end fails unless the sum wraps. -/
theorem byteArraySourceRead_eq (h : s.Within) (hn : n < 2 ^ 32) :
    byteArraySourceRead n s =
      if n ≤ s.rest.length then .done (s.rest.take n, { s with readPos := s.readPos + n })
      else if SpanFits s.readPos n then .fail else .fault := by
  have hpos := h.pos
  have hlen := h.len
  have hrest := h.rest_length
  unfold byteArraySourceRead
  by_cases hin : n ≤ s.rest.length
  · rw [if_pos hin, Nat.mod_eq_of_lt (by omega), if_neg (by omega), require, if_pos (by omega),
      Nat.mod_eq_of_lt (by omega)]
    rfl
  · rw [if_neg hin]
    by_cases hspan : SpanFits s.readPos n
    · have hsum : s.readPos + n < 2 ^ 32 := hspan
      rw [if_pos hspan, Nat.mod_eq_of_lt (by omega), if_pos (by omega)]
    · have hsum : ¬ s.readPos + n < 2 ^ 32 := hspan
      rw [if_neg hspan, if_neg (by omega), require, if_neg (by omega)]

/-- After a read inside the array the rest is what follows. -/
theorem rest_advance : ({ s with readPos := s.readPos + n } : ByteArraySource).rest =
    s.rest.drop n := by
  simp [ByteArraySource.rest, List.drop_drop]

theorem within_advance (h : s.Within) (hn : n ≤ s.rest.length) :
    ({ s with readPos := s.readPos + n } : ByteArraySource).Within := by
  have hrest := h.rest_length
  exact ⟨by change s.readPos + n ≤ s.inData.length; omega, h.len⟩

theorem byte_and_7f (c : UInt8) : c.toNat &&& 0x7f = c.toNat % 128 := by
  rw [show (0x7f : ℕ) = 2 ^ 7 - 1 by rfl, Nat.and_two_pow_sub_one_eq_mod]

/-- At the end of the array another byte is refused, unless the end is the last position. -/
theorem readOne_end (h : s.Within) (hnil : s.rest = []) {β : Type}
    (f : List UInt8 × ByteArraySource → Attempt β) :
    (byteArraySourceRead 1 s).andThen f =
      if s.inData.length + 1 < 2 ^ 32 then .fail else .fault := by
  have hrest := h.rest_length
  rw [hnil, List.length_nil] at hrest
  have hspan : SpanFits s.readPos 1 ↔ s.inData.length + 1 < 2 ^ 32 := by
    unfold SpanFits
    omega
  rw [byteArraySourceRead_eq h (by omega), hnil, if_neg (by simp)]
  by_cases hend : s.inData.length + 1 < 2 ^ 32
  · rw [if_pos hend, if_pos (hspan.2 hend)]
    rfl
  · rw [if_neg hend, if_neg (fun hs => hend (hspan.1 hs))]
    rfl

/-- The groups are stored as long as there is room for them. -/
theorem nextUintLoop_eq (room : ℕ) (arr : List ℕ) (h : s.Within) :
    nextUintLoop room arr s =
      if (groupRun s.rest).length ≤ room then
        if Terminated s.rest then
          .done (((groupRun s.rest).map (·.toNat % 128)).reverse ++ arr,
            { s with readPos := s.readPos + (groupRun s.rest).length })
        else if s.inData.length + 1 < 2 ^ 32 then .fail else .fault
      else .fault := by
  have hlen := h.len
  induction room generalizing s arr with
  | zero =>
    rw [nextUintLoop]
    cases hcases : s.rest with
    | nil =>
      rw [readOne_end h hcases, if_pos (show (groupRun []).length ≤ 0 from Nat.zero_le _),
        if_neg (show ¬ Terminated [] from id)]
    | cons c rest =>
      have hrun : ¬ (groupRun (c :: rest)).length ≤ 0 := by
        rw [groupRun]
        split_ifs <;> simp
      rw [byteArraySourceRead_eq h (by omega), hcases, if_neg hrun, List.length_cons,
        if_pos (by omega)]
      rfl
  | succ room ih =>
    rw [nextUintLoop]
    cases hcases : s.rest with
    | nil =>
      rw [readOne_end h hcases, if_pos (show (groupRun []).length ≤ room + 1 from Nat.zero_le _),
        if_neg (show ¬ Terminated [] from id)]
    | cons c rest =>
      have hnext : ({ s with readPos := s.readPos + 1 } : ByteArraySource).rest = rest := by
        rw [rest_advance, hcases]
        rfl
      have hwithin := within_advance (n := 1) h (by rw [hcases, List.length_cons]; omega)
      have htop : c.toNat &&& 0x80 = 0 ↔ ¬ continues c = true := by
        rw [continues_iff]
        have := and_128_ne_zero_iff c.toNat_lt
        tauto
      rw [byteArraySourceRead_eq h (by omega), hcases, List.length_cons, if_pos (by omega)]
      simp only [andThen_done, List.take_succ_cons, List.headD_cons, byte_and_7f, htop]
      by_cases hc : continues c = true
      · have hrun : groupRun (c :: rest) = c :: groupRun rest := if_pos hc
        have hterm : Terminated (c :: rest) ↔ Terminated rest := by
          rw [Terminated, if_pos hc]
        rw [if_neg (not_not.2 hc), ih _ hwithin hlen, hnext, hrun]
        simp only [hterm, List.length_cons, Nat.add_le_add_iff_right, List.map_cons,
          List.reverse_cons, List.append_assoc, List.singleton_append, Nat.add_assoc,
          Nat.add_comm 1]
      · have hrun : groupRun (c :: rest) = [c] := if_neg hc
        have hterm : Terminated (c :: rest) := by
          rw [Terminated, if_neg hc]
          trivial
        rw [if_pos hc, hrun, if_pos (by simp), if_pos hterm]
        rfl

theorem foldl_groups (run : List UInt8) :
    ((run.map (·.toNat % 128)).reverse).foldl (fun ptr group => (ptr <<< 7) % 2 ^ 32 ||| group) 0 =
      uintValue run % 2 ^ 32 := by
  induction run with
  | nil => rfl
  | cons c run ih =>
    have hshift : ((uintValue run % 2 ^ 32) <<< 7) % 2 ^ 32 =
        (uintValue run * 128 % 2 ^ 32 / 128) <<< 7 := by
      rw [Nat.shiftLeft_eq, Nat.shiftLeft_eq]
      omega
    rw [List.map_cons, List.reverse_cons, List.foldl_append, ih, List.foldl_cons, List.foldl_nil,
      hshift, ← Nat.shiftLeft_add_eq_or_of_lt (Nat.mod_lt _ (by decide)), Nat.shiftLeft_eq,
      uintValue]
    omega

def ByteArraySource.afterRun (s : ByteArraySource) : ByteArraySource :=
  { s with readPos := s.bodyPos }

theorem groupRun_length_le (bytes : List UInt8) : (groupRun bytes).length ≤ bytes.length := by
  have h := congrArg List.length (groupRun_append_drop bytes)
  rw [List.length_append] at h
  omega

theorem within_afterRun (h : s.Within) : s.afterRun.Within :=
  within_advance h (groupRun_length_le _)

theorem rest_afterRun (s : ByteArraySource) : s.afterRun.rest = s.body := rest_advance

/-- The number read, where the sequence fits the array and ends. -/
theorem sourceNextUint_eq (h : s.Within) :
    sourceNextUint s =
      if (groupRun s.rest).length ≤ 16 then
        if Terminated s.rest then .done (uintValue (groupRun s.rest) % 2 ^ 32, s.afterRun)
        else if s.inData.length + 1 < 2 ^ 32 then .fail else .fault
      else .fault := by
  rw [sourceNextUint, nextUintLoop_eq 16 [] h]
  split_ifs
  · rw [andThen_done, List.append_nil, foldl_groups]
    rfl
  · rfl
  · rfl
  · rfl

end Reads

section Step

variable {s : ByteArraySource}

/-- The outcome of a read is right: a failure, or a value with a state to go on from. -/
def StepRight (op : ReadOp) (s : ByteArraySource) : Prop :=
  (readOp op s).Always fun r => ReadsValue op s r.1

/-- A read of a fixed length is right exactly when its end does not wrap. -/
theorem spanRead_iff (h : s.Within) {n : ℕ} (hn : n < 2 ^ 32)
    (f : List UInt8 × ByteArraySource → Value × ByteArraySource) {P : Value → Prop}
    (hP : n ≤ s.rest.length → P (f (s.rest.take n, { s with readPos := s.readPos + n })).1) :
    (((byteArraySourceRead n s).andThen fun r => .done (f r)).Always fun r => P r.1) ↔
      SpanFits s.readPos n := by
  have hrest := h.rest_length
  have hlen := h.len
  rw [byteArraySourceRead_eq h hn]
  by_cases hin : n ≤ s.rest.length
  · rw [if_pos hin]
    have hspan : SpanFits s.readPos n := by
      unfold SpanFits
      omega
    exact iff_of_true (hP hin) hspan
  · rw [if_neg hin]
    by_cases hspan : SpanFits s.readPos n
    · rw [if_pos hspan]
      exact iff_of_true trivial hspan
    · rw [if_neg hspan]
      exact iff_of_false id hspan

/-- A read that begins with a number is right when the number ends, and what follows it is. -/
theorem uintRead_iff (h : s.Within) {α : Type} (f : ℕ × ByteArraySource → Attempt α)
    {P : α → Prop} :
    ((sourceNextUint s).andThen f).Always P ↔
      UintEnds s ∧ (Terminated s.rest →
        (f (uintValue (groupRun s.rest) % 2 ^ 32, s.afterRun)).Always P) := by
  rw [sourceNextUint_eq h]
  unfold UintEnds
  by_cases hrun : (groupRun s.rest).length ≤ 16
  · rw [if_pos hrun]
    by_cases hterm : Terminated s.rest
    · rw [if_pos hterm, andThen_done]
      simp [hrun, hterm]
    · rw [if_neg hterm]
      by_cases hend : s.inData.length + 1 < 2 ^ 32
      · rw [if_pos hend]
        exact iff_of_true trivial ⟨⟨hrun, fun _ => hend⟩, fun hyes => absurd hyes hterm⟩
      · rw [if_neg hend]
        exact iff_of_false id fun hfits => hend (hfits.1.2 hterm)
  · rw [if_neg hrun]
    exact iff_of_false id fun hfits => hrun hfits.1.1

theorem bytesBody_iff (h : s.Within) :
    ((sourceBytes (uintValue (groupRun s.rest) % 2 ^ 32) s.afterRun).andThen
      fun r => .done (Value.bytes r.1, r.2)).Always (fun r => ReadsValue .bytes s r.1) ↔
      BytesFit s := by
  have hafter := within_afterRun h
  have hrest := hafter.rest_length
  have hlen := h.len
  rw [rest_afterRun] at hrest
  change s.bodyPos + s.body.length = s.inData.length at hrest
  have hlt : uintValue (groupRun s.rest) % 2 ^ 32 < 2 ^ 32 := Nat.mod_lt _ (by decide)
  unfold BytesFit
  generalize hvalue : uintValue (groupRun s.rest) = value at hlt ⊢
  dsimp only
  unfold sourceBytes sourceAlloc
  by_cases h0 : value % 2 ^ 32 = 0
  · rw [if_pos h0]
    refine iff_of_true trivial ⟨?_, Or.inr (Or.inl h0)⟩
    unfold SpanFits
    omega
  · rw [if_neg h0]
    dsimp only
    rw [byteArraySourceRead_eq hafter hlt, rest_afterRun]
    by_cases hin : value % 2 ^ 32 ≤ s.body.length
    · have hspan : SpanFits s.bodyPos (value % 2 ^ 32) := by
        unfold SpanFits
        omega
      rw [if_pos hin, andThen_done, always_done]
      unfold ReadsValue
      dsimp only
      rw [hvalue]
      constructor
      · rintro ⟨hfit, -, -⟩
        exact ⟨hspan, Or.inl hfit⟩
      · rintro ⟨-, hfit | hzero | hlong⟩
        · rw [Nat.mod_eq_of_lt hfit] at hin ⊢
          exact ⟨hfit, hin, rfl⟩
        · exact absurd hzero h0
        · omega
    · rw [if_neg hin]
      change _ ↔ SpanFits s.bodyPos _ ∧ _
      by_cases hspan : SpanFits s.bodyPos (value % 2 ^ 32)
      · rw [if_pos (show SpanFits s.afterRun.readPos _ from hspan)]
        exact iff_of_true trivial ⟨hspan, Or.inr (Or.inr (by omega))⟩
      · rw [if_neg (show ¬ SpanFits s.afterRun.readPos _ from hspan)]
        exact iff_of_false id fun hfits => hspan hfits.1

theorem stringBody_iff (h : s.Within) :
    ((sourceString (uintValue (groupRun s.rest) % 2 ^ 32) s.afterRun).andThen
      fun r => .done (Value.bytes r.1, r.2)).Always (fun r => ReadsValue .string s r.1) ↔
      StringFits s := by
  have hafter := within_afterRun h
  have hrest := hafter.rest_length
  have hlen := h.len
  rw [rest_afterRun] at hrest
  change s.bodyPos + s.body.length = s.inData.length at hrest
  have hlt : uintValue (groupRun s.rest) % 2 ^ 32 < 2 ^ 32 := Nat.mod_lt _ (by decide)
  unfold StringFits
  generalize hvalue : uintValue (groupRun s.rest) = value at hlt ⊢
  dsimp only
  unfold sourceString sourceAlloc
  by_cases hmax : value % 2 ^ 32 = 2 ^ 32 - 1
  · have hwrap : (value % 2 ^ 32 + 1) % 2 ^ 32 = 0 := by omega
    rw [if_pos hwrap]
    exact iff_of_true trivial (Or.inl hmax)
  · have hsize : (value % 2 ^ 32 + 1) % 2 ^ 32 = value % 2 ^ 32 + 1 := Nat.mod_eq_of_lt (by omega)
    rw [hsize, if_neg (by omega)]
    dsimp only
    rw [require, if_pos (by omega), byteArraySourceRead_eq hafter hlt, rest_afterRun]
    by_cases hin : value % 2 ^ 32 ≤ s.body.length
    · have hspan : SpanFits s.bodyPos (value % 2 ^ 32) := by
        unfold SpanFits
        omega
      rw [if_pos hin, andThen_done, andThen_done, always_done]
      unfold ReadsValue
      dsimp only
      rw [hvalue]
      constructor
      · rintro ⟨hfit, -, -⟩
        exact Or.inr ⟨hspan, Or.inl hfit⟩
      · rintro (hmax' | ⟨-, hfit | hlong⟩)
        · exact absurd hmax' hmax
        · rw [Nat.mod_eq_of_lt hfit] at hin ⊢
          exact ⟨hfit, hin, rfl⟩
        · omega
    · rw [if_neg hin]
      by_cases hspan : SpanFits s.bodyPos (value % 2 ^ 32)
      · rw [if_pos (show SpanFits s.afterRun.readPos _ from hspan)]
        exact iff_of_true trivial (Or.inr ⟨hspan, Or.inr (by omega)⟩)
      · rw [if_neg (show ¬ SpanFits s.afterRun.readPos _ from hspan)]
        exact iff_of_false id fun hfits => hfits.elim hmax fun hspan' => hspan hspan'.1

theorem stepRight_iff (h : s.Within) (op : ReadOp) : StepRight op s ↔ ReadFits op s := by
  unfold StepRight
  cases op with
  | uint8 => exact spanRead_iff h (by decide) _ fun hin => ⟨hin, rfl⟩
  | bool =>
    refine spanRead_iff h (by decide) (fun r => (.num (if r.1.headD 0 = 0 then 0 else 1), r.2))
      fun hin => ⟨hin, ?_⟩
    cases hcases : s.rest with
    | nil => rfl
    | cons c rest => rfl
  | uint16 => exact spanRead_iff h (by decide) _ fun hin => ⟨hin, rfl⟩
  | uint32 => exact spanRead_iff h (by decide) _ fun hin => ⟨hin, rfl⟩
  | bytesKnown len =>
    exact spanRead_iff h len.toNat_lt (fun r => (.bytes r.1, r.2)) fun hin => ⟨hin, rfl⟩
  | uint =>
    refine (uintRead_iff h _).trans (and_congr_right fun _ => imp_congr_right fun _ => ?_)
    rw [always_done]
    constructor
    · rintro ⟨hfit, -⟩
      exact hfit
    · intro hfit
      exact ⟨hfit, by rw [Nat.mod_eq_of_lt hfit]⟩
  | bytes =>
    change ((sourceNextBytes s).andThen _).Always _ ↔ _
    rw [sourceNextBytes, andThen_assoc]
    exact (uintRead_iff h _).trans
      (and_congr_right fun _ => imp_congr_right fun _ => bytesBody_iff h)
  | string =>
    change ((sourceNextString s).andThen _).Always _ ↔ _
    rw [sourceNextString, andThen_assoc]
    exact (uintRead_iff h _).trans
      (and_congr_right fun _ => imp_congr_right fun _ => stringBody_iff h)

end Step

section Run

variable {s : ByteArraySource}

theorem within_read (h : s.Within) {n : ℕ} (hn : n < 2 ^ 32) {r : List UInt8 × ByteArraySource}
    (hr : byteArraySourceRead n s = .done r) : r.2.Within := by
  rw [byteArraySourceRead_eq h hn] at hr
  split_ifs at hr with hin
  cases hr
  exact within_advance h hin

theorem within_uint (h : s.Within) {r : ℕ × ByteArraySource} (hr : sourceNextUint s = .done r) :
    r.2.Within ∧ r.1 < 2 ^ 32 := by
  rw [sourceNextUint_eq h] at hr
  split_ifs at hr
  cases hr
  exact ⟨within_afterRun h, Nat.mod_lt _ (by decide)⟩

theorem within_readOp (h : s.Within) {op : ReadOp} {r : Value × ByteArraySource}
    (hr : readOp op s = .done r) : r.2.Within := by
  cases op with
  | uint8 | uint16 | uint32 =>
    obtain ⟨b, hb, hdone⟩ := andThen_eq_done hr
    cases hdone
    exact within_read h (by decide) hb
  | bool =>
    obtain ⟨b, hb, hdone⟩ := andThen_eq_done hr
    cases hdone
    exact within_read h (by decide) hb
  | bytesKnown len =>
    obtain ⟨b, hb, hdone⟩ := andThen_eq_done hr
    cases hdone
    exact within_read h len.toNat_lt hb
  | uint =>
    obtain ⟨b, hb, hdone⟩ := andThen_eq_done hr
    cases hdone
    exact (within_uint h hb).1
  | bytes =>
    obtain ⟨b, hb, hdone⟩ := andThen_eq_done hr
    cases hdone
    obtain ⟨a, ha, hbody⟩ := andThen_eq_done hb
    obtain ⟨hwithin, hlt⟩ := within_uint h ha
    unfold sourceBytes sourceAlloc at hbody
    split_ifs at hbody
    exact within_read hwithin hlt hbody
  | string =>
    obtain ⟨b, hb, hdone⟩ := andThen_eq_done hr
    cases hdone
    obtain ⟨a, ha, hbody⟩ := andThen_eq_done hb
    obtain ⟨hwithin, hlt⟩ := within_uint h ha
    unfold sourceString sourceAlloc require at hbody
    split_ifs at hbody
    dsimp only at hbody
    split_ifs at hbody
    obtain ⟨c, hc, hlast⟩ := andThen_eq_done hbody
    cases hlast
    exact within_read hwithin hlt hc

theorem readsRun_cons {op : ReadOp} {ops : List ReadOp} :
    ReadsRun (op :: ops) s ↔ StepRight op s ∧ ∀ r, readOp op s = .done r → ReadsRun ops r.2 := by
  rw [ReadsRun, StepRight]
  cases readOp op s with
  | done r => simp
  | fail => simp
  | fault => simp [Always]

theorem readsFit_cons {op : ReadOp} {ops : List ReadOp} :
    ReadsFit (op :: ops) s ↔ ReadFits op s ∧ ∀ r, readOp op s = .done r → ReadsFit ops r.2 := by
  rw [ReadsFit]
  cases readOp op s with
  | done r => simp
  | fail => simp
  | fault => simp

theorem readsRun_iff (h : s.Within) (ops : List ReadOp) : ReadsRun ops s ↔ ReadsFit ops s := by
  induction ops generalizing s with
  | nil => exact Iff.rfl
  | cons op ops ih =>
    rw [readsRun_cons, readsFit_cons, stepRight_iff h op]
    refine and_congr_right fun _ => forall_congr' fun r => imp_congr_right fun hr => ?_
    exact ih (within_readOp h hr)

end Run

theorem toNat_lastDigit (n : ℕ) : (UInt8.ofNat (n % 128)).toNat = n % 128 := by
  rw [UInt8.toNat_ofNat']
  omega

theorem lastDigit_spec {n : ℕ} (rest : List UInt8) (hdiv : n / 128 = 0) :
    groupRun (UInt8.ofNat (n % 128) :: rest) = [UInt8.ofNat (n % 128)] ∧
      Terminated (UInt8.ofNat (n % 128) :: rest) ∧ uintValue [UInt8.ofNat (n % 128)] = n := by
  have hstop : ¬ continues (UInt8.ofNat (n % 128)) = true := by
    rw [continues_iff, toNat_lastDigit]
    omega
  refine ⟨if_neg hstop, ?_, ?_⟩
  · rw [Terminated, if_neg hstop]
    trivial
  · rw [uintValue, uintValue, toNat_lastDigit]
    omega

theorem sinkDigits_succ (room n : ℕ) : sinkDigits (room + 1) n =
    if n / 128 = 0 then [UInt8.ofNat (n % 128)]
    else UInt8.ofNat (n % 128 + 128) :: sinkDigits room (n / 128) := by
  have hor : n % 128 ||| 0x80 = n % 128 + 128 := by
    rw [Nat.or_comm, Nat.add_comm]
    exact (Nat.shiftLeft_add_eq_or_of_lt (i := 7) (Nat.mod_lt n (by decide)) 1).symm
  rw [sinkDigits, Nat.shiftRight_eq_div_pow, show (0x7f : ℕ) = 2 ^ 7 - 1 by rfl,
    Nat.and_two_pow_sub_one_eq_mod, show (2 : ℕ) ^ 7 = 128 by rfl, hor]

/-- The digits of a number are a terminated sequence of its value. -/
theorem sinkDigits_spec (room n : ℕ) (rest : List UInt8) (h : n < 128 ^ (room + 1)) :
    groupRun (sinkDigits (room + 1) n ++ rest) = sinkDigits (room + 1) n ∧
      Terminated (sinkDigits (room + 1) n ++ rest) ∧
      uintValue (sinkDigits (room + 1) n) = n ∧ (sinkDigits (room + 1) n).length ≤ room + 1 := by
  induction room generalizing n with
  | zero =>
    have hdiv : n / 128 = 0 := by omega
    obtain ⟨hrun, hterm, hvalue⟩ := lastDigit_spec rest hdiv
    rw [sinkDigits_succ, if_pos hdiv]
    exact ⟨hrun, hterm, hvalue, le_rfl⟩
  | succ room ih =>
    rw [sinkDigits_succ]
    by_cases hdiv : n / 128 = 0
    · obtain ⟨hrun, hterm, hvalue⟩ := lastDigit_spec rest hdiv
      rw [if_pos hdiv]
      exact ⟨hrun, hterm, hvalue, by simp⟩
    · have hlt : n / 128 < 128 ^ (room + 1) := by
        rw [Nat.div_lt_iff_lt_mul (by decide)]
        rwa [pow_succ] at h
      have hbyte : (UInt8.ofNat (n % 128 + 128)).toNat = n % 128 + 128 := by
        rw [UInt8.toNat_ofNat']
        omega
      have hgo : continues (UInt8.ofNat (n % 128 + 128)) = true := by
        rw [continues_iff, hbyte]
        omega
      obtain ⟨hrun, hterm, hvalue, hlen⟩ := ih (n / 128) hlt
      rw [if_neg hdiv, List.cons_append, groupRun, if_pos hgo, Terminated, if_pos hgo,
        uintValue, hbyte, hvalue, hrun, List.length_cons]
      exact ⟨rfl, hterm, by omega, by omega⟩

theorem uintRoundTrips : UintRoundTrips := by
  intro n hn rest hlen
  obtain ⟨hrun, hterm, hvalue, hroom⟩ :=
    sinkDigits_spec 15 n rest (hn.trans_le (by decide))
  have hwithin : (⟨sinkNextUint n ++ rest, 0⟩ : ByteArraySource).Within :=
    ⟨Nat.zero_le _, hlen⟩
  have hrest : (⟨sinkNextUint n ++ rest, 0⟩ : ByteArraySource).rest = sinkDigits 16 n ++ rest := rfl
  rw [sourceNextUint_eq hwithin, hrest, hrun, if_pos hroom, if_pos hterm, hvalue,
    Nat.mod_eq_of_lt hn, ByteArraySource.afterRun, ByteArraySource.bodyPos, hrest, hrun]
  simp [sinkNextUint]

/-- The primitives are right exactly when every number fits its array and 32 bits, and no end of a
read wraps. -/
theorem primitivesRight_iff (inData : List UInt8) (ops : List ReadOp)
    (hlen : inData.length < 2 ^ 32) : PrimitivesRight inData ops ↔ ReadsFit ops ⟨inData, 0⟩ := by
  have hwithin : (⟨inData, 0⟩ : ByteArraySource).Within := ⟨Nat.zero_le _, hlen⟩
  unfold PrimitivesRight
  rw [readsRun_iff hwithin]
  exact and_iff_right uintRoundTrips

/-- A string and a byte after it. -/
theorem primitivesRight_string :
    ([2, 104, 105, 7] : List UInt8).length < 2 ^ 32 ∧
      PrimitivesRight [2, 104, 105, 7] [.string, .uint8] :=
  ⟨by decide, (primitivesRight_iff [2, 104, 105, 7] [.string, .uint8] (by decide)).2
    ⟨by decide, by decide, trivial⟩⟩

/-- Seventeen groups overrun `arr`, a number of 35 bits is cut to 32, and the end of a string of
2^32 - 2 bytes wraps. -/
theorem primitivesRight_fails :
    ¬ PrimitivesRight (List.replicate 17 128) [.uint] ∧
      ¬ PrimitivesRight [255, 255, 255, 255, 127] [.uint] ∧
      ¬ PrimitivesRight [254, 255, 255, 255, 15] [.string] := by
  have hfails : ∀ (inData : List UInt8) (op : ReadOp), inData.length < 2 ^ 32 →
      ¬ ReadFits op ⟨inData, 0⟩ → ¬ PrimitivesRight inData [op] := by
    intro inData op hlen hnot hright
    have hwithin : (⟨inData, 0⟩ : ByteArraySource).Within := ⟨Nat.zero_le _, hlen⟩
    exact hnot ((stepRight_iff hwithin op).1 (readsRun_cons.1 hright.2).1)
  exact ⟨hfails _ _ (by decide) (by decide), hfails _ _ (by decide) (by decide),
    hfails _ _ (by decide) (by decide)⟩

end Xdelta.Edsio
