import Xdelta.Lib.Attempt
import Mathlib.Data.Nat.Bitwise

/-!
# Bits of the secondary compressors

Bits are packed into bytes from the lowest bit up, the bits of one value from its
highest down. The encoder's bit state is the byte it fills, the decoder's the
byte it empties.
-/
namespace Xdelta.Second

/-- `bit_state`. -/
structure BitState where
  curByte : ℕ
  curMask : ℕ
  deriving DecidableEq, Repr

def BitState.encodeInit : BitState := ⟨0, 1⟩

def BitState.decodeInit : BitState := ⟨0, 0x100⟩

/-- The bytes an encoder has emitted, with its bit state. -/
structure BitWriter where
  emitted : List UInt8
  bits : BitState
  deriving DecidableEq, Repr

def encodeBit (w : BitWriter) (bit : ℕ) : BitWriter :=
  let curByte := if bit ≠ 0 then w.bits.curByte ||| w.bits.curMask else w.bits.curByte
  if w.bits.curMask = 0x80 then ⟨w.emitted ++ [UInt8.ofNat curByte], ⟨0, 1⟩⟩
  else ⟨w.emitted, ⟨curByte, w.bits.curMask <<< 1⟩⟩

def flushBits (w : BitWriter) : List UInt8 :=
  if w.bits.curMask = 1 then w.emitted else w.emitted ++ [UInt8.ofNat w.bits.curByte]

/-- The loop of `xd3_encode_bits`, with `1 <<< nbits` the mask before the shift. -/
def encodeBits : ℕ → ℕ → BitWriter → BitWriter
  | 0, _, w => w
  | nbits + 1, value, w => encodeBits nbits value (encodeBit w (value &&& 1 <<< nbits))

/-- The input a decoder has left, with its bit state. -/
structure BitReader where
  bits : BitState
  input : List UInt8
  deriving DecidableEq, Repr

/-- The byte at `next_byte`, where the last one is used up. -/
def BitReader.load (r : BitReader) : Attempt BitReader :=
  if r.bits.curMask = 0x100 then
    match r.input with
    | [] => .fail
    | c :: input => .done ⟨⟨c.toNat, 1⟩, input⟩
  else .done r

def BitReader.bit (r : BitReader) : Bool := r.bits.curByte &&& r.bits.curMask ≠ 0

def BitReader.shift (r : BitReader) : BitReader :=
  { r with bits := { r.bits with curMask := r.bits.curMask <<< 1 } }

/-- The loop of `xd3_decode_bits`; the byte is loaded before a bit of it is read. -/
def decodeBitsLoop : ℕ → ℕ → BitReader → Attempt (ℕ × BitReader)
  | 0, value, r => .done (value, r)
  | nbits + 1, value, r =>
    r.load.andThen fun r =>
      decodeBitsLoop nbits (if r.bit then value ||| 1 <<< nbits else value) r.shift

def decodeBits (nbits : ℕ) (r : BitReader) : Attempt (ℕ × BitReader) := decodeBitsLoop nbits 0 r

theorem load_always (r : BitReader) : r.load.Always fun _ => True := by
  unfold BitReader.load
  split_ifs
  · cases r.input <;> trivial
  · trivial

theorem decodeBitsLoop_lt {N n value : ℕ} (hn : n ≤ N) (hvalue : value < 2 ^ N) (r : BitReader) :
    (decodeBitsLoop n value r).Always fun p => p.1 < 2 ^ N := by
  induction n generalizing value r with
  | zero => exact hvalue
  | succ n ih =>
    rw [decodeBitsLoop]
    refine (load_always r).andThen fun r' _ => ?_
    apply ih (by omega)
    split_ifs
    · apply Nat.or_lt_two_pow hvalue
      rw [Nat.shiftLeft_eq, Nat.one_mul]
      exact Nat.pow_lt_pow_right (by decide) (by omega)
    · exact hvalue

theorem decodeBits_lt (n : ℕ) (r : BitReader) :
    (decodeBits n r).Always fun p => p.1 < 2 ^ n :=
  decodeBitsLoop_lt le_rfl (Nat.two_pow_pos n) r

/-- Nothing is set at or above the mask, which is a bit of a byte. -/
def BitWriter.Ready (w : BitWriter) : Prop :=
  ∃ k < 8, w.bits.curMask = 2 ^ k ∧ w.bits.curByte < 2 ^ k

def BitWriter.Extends (w : BitWriter) (out : List UInt8) : Prop :=
  if w.bits.curMask = 1 then ∃ rest, out = w.emitted ++ rest
  else ∃ (c : UInt8) (rest : List UInt8), out = w.emitted ++ c :: rest ∧
    c.toNat % w.bits.curMask = w.bits.curByte

/-- The reader is at the place in the output where the writer is. -/
def InStep (out : List UInt8) (w : BitWriter) (r : BitReader) : Prop :=
  if w.bits.curMask = 1 then r.bits.curMask = 0x100 ∧ out = w.emitted ++ r.input
  else r.bits.curMask = w.bits.curMask ∧
    ∃ c : UInt8, r.bits.curByte = c.toNat ∧ out = w.emitted ++ c :: r.input

def filled (w : BitWriter) (bit : ℕ) : ℕ :=
  if bit ≠ 0 then w.bits.curByte + w.bits.curMask else w.bits.curByte

theorem or_two_pow {a k : ℕ} (h : a < 2 ^ k) : a ||| 2 ^ k = a + 2 ^ k := by
  have hor := Nat.two_pow_add_eq_or_of_lt h 1
  rw [Nat.mul_one] at hor
  rw [Nat.or_comm, ← hor, Nat.add_comm]

theorem and_two_pow_ne_zero (a k : ℕ) : a &&& 2 ^ k ≠ 0 ↔ a.testBit k = true := by
  rw [Nat.and_two_pow]
  cases a.testBit k <;> simp

theorem encodeBit_eq {w : BitWriter} (h : w.Ready) (bit : ℕ) :
    encodeBit w bit = if w.bits.curMask = 0x80 then
      ⟨w.emitted ++ [UInt8.ofNat (filled w bit)], ⟨0, 1⟩⟩
    else ⟨w.emitted, ⟨filled w bit, 2 * w.bits.curMask⟩⟩ := by
  obtain ⟨k, -, hmask, hbyte⟩ := h
  have hfilled : (if bit ≠ 0 then w.bits.curByte ||| w.bits.curMask else w.bits.curByte) =
      filled w bit := by
    rw [filled, hmask, or_two_pow hbyte]
  rw [encodeBit, hfilled, Nat.shiftLeft_eq, pow_one, Nat.mul_comm]

theorem filled_lt {w : BitWriter} (h : w.Ready) (bit : ℕ) :
    filled w bit < 2 * w.bits.curMask := by
  obtain ⟨k, -, hmask, hbyte⟩ := h
  unfold filled
  split_ifs <;> omega

theorem BitWriter.Ready.encodeBit {w : BitWriter} (h : w.Ready) (bit : ℕ) :
    (encodeBit w bit).Ready := by
  have hlt := filled_lt h bit
  rw [encodeBit_eq h]
  obtain ⟨k, hk, hmask, -⟩ := h
  split_ifs with hlast
  · exact ⟨0, by decide, rfl, Nat.one_pos⟩
  · have hk7 : k ≠ 7 := fun heq => hlast (by rw [hmask, heq]; rfl)
    exact ⟨k + 1, by omega, by rw [hmask, pow_succ, Nat.mul_comm], by
      rwa [hmask, ← pow_succ'] at hlt⟩

theorem BitWriter.Ready.extends_encodeBit {w : BitWriter} (h : w.Ready) {bit : ℕ}
    {out : List UInt8} (hout : (Second.encodeBit w bit).Extends out) :
    ∃ (c : UInt8) (rest : List UInt8), out = w.emitted ++ c :: rest ∧
      c.toNat % (2 * w.bits.curMask) = filled w bit := by
  have hlt := filled_lt h bit
  rw [encodeBit_eq h] at hout
  by_cases hlast : w.bits.curMask = 0x80
  · rw [if_pos hlast, Extends, if_pos rfl] at hout
    obtain ⟨rest, rfl⟩ := hout
    refine ⟨UInt8.ofNat (filled w bit), rest, List.append_assoc .., ?_⟩
    rw [hlast] at hlt ⊢
    rw [UInt8.toNat_ofNat']
    omega
  · have hmask : 2 * w.bits.curMask ≠ 1 := by omega
    rw [if_neg hlast, Extends, if_neg hmask] at hout
    exact hout

theorem BitWriter.Extends.of_encodeBit {w : BitWriter} (h : w.Ready) {bit : ℕ}
    {out : List UInt8} (hout : (encodeBit w bit).Extends out) : w.Extends out := by
  obtain ⟨c, rest, heq, hc⟩ := h.extends_encodeBit hout
  obtain ⟨k, -, hmask, hbyte⟩ := h
  unfold BitWriter.Extends
  split_ifs
  · exact ⟨c :: rest, heq⟩
  · refine ⟨c, rest, heq, ?_⟩
    have hmod : c.toNat % (2 * w.bits.curMask) % w.bits.curMask = c.toNat % w.bits.curMask :=
      Nat.mod_mod_of_dvd _ (Nat.dvd_mul_left ..)
    rw [← hmod, hc, filled]
    split_ifs
    · rw [Nat.add_mod_right, Nat.mod_eq_of_lt (by omega)]
    · exact Nat.mod_eq_of_lt (by omega)

/-- What is flushed, with anything after it, goes on from what was written. -/
theorem BitWriter.Ready.extends_flushBits {w : BitWriter} (h : w.Ready) (rest : List UInt8) :
    w.Extends (flushBits w ++ rest) := by
  obtain ⟨k, hk, hmask, hbyte⟩ := h
  unfold Extends flushBits
  split_ifs
  · exact ⟨rest, rfl⟩
  · refine ⟨UInt8.ofNat w.bits.curByte, rest, List.append_assoc .., ?_⟩
    have hpow : 2 ^ k ≤ 2 ^ 7 := Nat.pow_le_pow_right (by decide) (by omega)
    rw [UInt8.toNat_ofNat', Nat.mod_eq_of_lt (by omega), Nat.mod_eq_of_lt (by omega)]

theorem InStep.load {out : List UInt8} {w : BitWriter} {r : BitReader} (hstep : InStep out w r)
    (hready : w.Ready) {c : UInt8} {rest : List UInt8} (hout : out = w.emitted ++ c :: rest) :
    r.load = .done ⟨⟨c.toNat, w.bits.curMask⟩, rest⟩ := by
  obtain ⟨k, hk, hmask, -⟩ := hready
  unfold InStep at hstep
  unfold BitReader.load
  by_cases hfresh : w.bits.curMask = 1
  · rw [if_pos hfresh] at hstep
    obtain ⟨hr, heq⟩ := hstep
    have hinput : r.input = c :: rest := List.append_cancel_left (heq.symm.trans hout)
    rw [if_pos hr, hinput, hfresh]
  · rw [if_neg hfresh] at hstep
    obtain ⟨hr, c', hc', heq⟩ := hstep
    have hinput := List.append_cancel_left (heq.symm.trans hout)
    obtain ⟨rfl, rfl⟩ := List.cons.inj hinput
    have hlt : 2 ^ k < 2 ^ 8 := Nat.pow_lt_pow_right (by decide) hk
    rw [if_neg (by omega), ← hc', ← hr]

/-- The bit read is the bit written, and the reader stays in step. -/
theorem InStep.encodeBit {out : List UInt8} {w : BitWriter} {r : BitReader} {bit : ℕ}
    (hstep : InStep out w r) (hready : w.Ready) (hout : (encodeBit w bit).Extends out) :
    ∃ r', r.load = .done r' ∧ r'.bit = decide (bit ≠ 0) ∧
      InStep out (encodeBit w bit) r'.shift := by
  obtain ⟨c, rest, heq, hc⟩ := hready.extends_encodeBit hout
  have hlt := filled_lt hready bit
  refine ⟨_, hstep.load hready heq, ?_, ?_⟩
  · obtain ⟨k, hk, hmask, hbyte⟩ := hready
    rw [BitReader.bit]
    simp only [hmask, and_two_pow_ne_zero]
    have hmod : c.toNat.testBit k = (c.toNat % 2 ^ (k + 1)).testBit k := by
      rw [Nat.testBit_mod_two_pow]
      simp
    rw [hmask, ← pow_succ'] at hc
    rw [hmod, hc, filled, hmask]
    by_cases hbit : bit ≠ 0
    · rw [if_pos hbit, Nat.add_comm, Nat.testBit_two_pow_add_eq, Nat.testBit_lt_two_pow hbyte]
      simp [hbit]
    · rw [if_neg hbit, Nat.testBit_lt_two_pow hbyte]
      simp [hbit]
  · rw [encodeBit_eq hready]
    by_cases hlast : w.bits.curMask = 0x80
    · rw [if_pos hlast, InStep, if_pos rfl]
      refine ⟨by simp [BitReader.shift, hlast], ?_⟩
      rw [hlast] at hc
      have hbyte : UInt8.ofNat (filled w bit) = c := by
        rw [← hc, Nat.mod_eq_of_lt c.toNat_lt, UInt8.ofNat_toNat]
      rw [hbyte, heq]
      simp [BitReader.shift]
    · have hmask : 2 * w.bits.curMask ≠ 1 := by omega
      rw [if_neg hlast, InStep, if_neg hmask]
      refine ⟨?_, c, rfl, heq⟩
      simp [BitReader.shift, Nat.shiftLeft_eq, Nat.mul_comm]

end Xdelta.Second
