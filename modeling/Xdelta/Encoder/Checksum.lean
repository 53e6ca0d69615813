import Mathlib.Data.ZMod.Basic
import Xdelta.Integer
import Xdelta.Lib.Rolling

/-!
# Checksums

The two checksums of the string matcher and the hash of their values. The large one is a
rolling sum whose weights `xd3_size_hashtable` computes in advance.
-/
namespace Xdelta
open Rolling

def Width.hashMultiplier : Width → ℕ
  | .w32 => 1597334677
  | .w64 => 1181783497276652981

/-- `xd3_hash_cfg`. -/
structure HashCfg where
  size : ℕ
  shift : ℕ
  mask : ℕ
  look : ℕ
  powers : ℕ → ℕ
  multiplier : ℕ

def sizeHashtableBits (W : Width) (slots : ℕ) : ℕ :=
  match (List.range' 3 (W.bits - 3)).find? fun i => decide (slots < 2 ^ i) with
  | some i => i - 1
  | none => W.bits - 1

/-- A conversion to `int`. -/
def cint (n : ℕ) : ℤ :=
  if n % 2 ^ 32 < 2 ^ 31 then (n % 2 ^ 32 : ℕ) else (n % 2 ^ 32 : ℕ) - 2 ^ 32

/-- The loop that fills `powers` below the index given, downwards. -/
def fillPowers (W : Width) : ℕ → (ℕ → ℕ) → ℕ → ℕ
  | 0, p => p
  | i + 1, p => fillPowers W i (Function.update p i (p (i + 1) * W.hashMultiplier % W.modulus))

def sizeHashtable (W : Width) (slots look : ℕ) : HashCfg :=
  let bits := sizeHashtableBits W slots
  -- the loop starts at `(int)look - 2`
  let powers := fillPowers W (cint look - 1).toNat (Function.update (fun _ => 0) (look - 1) 1)
  { size := 2 ^ bits
    shift := W.bits - bits
    mask := 2 ^ bits - 1
    look := look
    powers := powers
    multiplier := powers 0 * W.hashMultiplier % W.modulus }

def checksumHash (cfg : HashCfg) (cksum : ℕ) : ℕ := (cksum >>> cfg.shift) ^^^ (cksum &&& cfg.mask)

/-- Four bytes read as a `uint32_t` at `i`; nothing past the end. -/
def read32 (mem : List UInt8) (i : ℕ) : Option ℕ :=
  match mem[i]?, mem[i + 1]?, mem[i + 2]?, mem[i + 3]? with
  | some a, some b, some c, some d =>
    some (a.toNat + b.toNat * 2 ^ 8 + c.toNat * 2 ^ 16 + d.toNat * 2 ^ 24)
  | _, _, _, _ => none

/-- `xd3_scksum` of the bytes at `pos`. -/
def scksum (mem : List UInt8) (pos : ℕ) : Option ℕ :=
  (read32 mem pos).map fun state => state * Width.w32.hashMultiplier % Width.w32.modulus

/-- `xd3_small_cksum_update`, from the bytes at `pos` to those at the next position. -/
def smallCksumUpdate (mem : List UInt8) (pos : ℕ) : Option ℕ :=
  (read32 mem (pos + 1)).map fun state => state * Width.w32.hashMultiplier % Width.w32.modulus

/-- The `n` bytes at `pos`; nothing when they are not all there. -/
def bytesAt (mem : List UInt8) (pos n : ℕ) : Option (List UInt8) :=
  if pos + n ≤ mem.length then some ((mem.drop pos).take n) else none

/-- The loop of `xd3_large_cksum`, at the `i`th byte. -/
def largeCksumLoop (W : Width) (powers : ℕ → ℕ) : ℕ → ℕ → List UInt8 → ℕ
  | _, h, [] => h
  | i, h, b :: bs => largeCksumLoop W powers (i + 1) (W.add h (b.toNat * powers i % W.modulus)) bs

/-- `xd3_large32_cksum` and `xd3_large64_cksum` of the bytes at `pos`. -/
def largeCksum (W : Width) (cfg : HashCfg) (mem : List UInt8) (pos look : ℕ) : Option ℕ :=
  (bytesAt mem pos look).map fun bytes => largeCksumLoop W cfg.powers 0 0 bytes

/-- `xd3_large32_cksum_update` and `xd3_large64_cksum_update`. -/
def largeCksumUpdate (W : Width) (cfg : HashCfg) (cksum : ℕ) (mem : List UInt8) (pos look : ℕ) :
    Option ℕ :=
  match mem[pos]?, mem[pos + look]? with
  | some out, some next =>
    some (W.add (W.sub (W.hashMultiplier * cksum % W.modulus)
      (cfg.multiplier * out.toNat % W.modulus)) next.toNat)
  | _, _ => none

theorem sizeHashtableBits_lt (W : Width) (slots : ℕ) : sizeHashtableBits W slots < W.bits := by
  unfold sizeHashtableBits
  cases hfind : (List.range' 3 (W.bits - 3)).find? fun i => decide (slots < 2 ^ i) with
  | none => cases W <;> decide
  | some i =>
    have hmem : i ∈ List.range' 3 (W.bits - 3) := List.mem_of_find?_eq_some hfind
    rw [List.mem_range'_1] at hmem
    change i - 1 < W.bits
    omega

theorem checksumHash_lt (W : Width) (slots look : ℕ) {cksum : ℕ} (h : cksum < W.modulus) :
    checksumHash (sizeHashtable W slots look) cksum < (sizeHashtable W slots look).size := by
  have hbits := sizeHashtableBits_lt W slots
  apply Nat.xor_lt_two_pow
  · change cksum >>> (W.bits - sizeHashtableBits W slots) < 2 ^ sizeHashtableBits W slots
    rw [Nat.shiftRight_eq_div_pow]
    apply Nat.div_lt_of_lt_mul
    rw [← pow_add, Nat.sub_add_cancel hbits.le]
    exact h
  · change cksum &&& (2 ^ sizeHashtableBits W slots - 1) < 2 ^ sizeHashtableBits W slots
    rw [Nat.and_two_pow_sub_one_eq_mod]
    exact Nat.mod_lt _ (Nat.two_pow_pos _)

theorem scksum_isSome {mem : List UInt8} {pos : ℕ} (h : pos + 4 ≤ mem.length) :
    (scksum mem pos).isSome := by
  simp [scksum, read32, List.getElem?_eq_getElem (show pos < mem.length by omega),
    List.getElem?_eq_getElem (show pos + 1 < mem.length by omega),
    List.getElem?_eq_getElem (show pos + 2 < mem.length by omega),
    List.getElem?_eq_getElem (show pos + 3 < mem.length by omega)]

theorem scksum_lt {mem : List UInt8} {pos c : ℕ} (h : scksum mem pos = some c) :
    c < Width.w32.modulus := by
  obtain ⟨state, -, rfl⟩ := Option.map_eq_some_iff.mp h
  exact Nat.mod_lt _ Width.w32.modulus_pos

theorem smallCksumUpdate_eq (mem : List UInt8) (pos : ℕ) :
    smallCksumUpdate mem pos = scksum mem (pos + 1) := rfl

section Large

variable (W : Width)

theorem Width.cast_add (a b : ℕ) : ((W.add a b : ℕ) : ZMod W.modulus) = a + b := by
  simp [Width.add]

theorem Width.cast_sub {a b : ℕ} (h : b ≤ W.modulus) :
    ((W.sub a b : ℕ) : ZMod W.modulus) = a - b := by
  rw [Width.sub, ZMod.natCast_mod, Nat.cast_sub (by omega)]
  simp

theorem fillPowers_ge {k j : ℕ} (p : ℕ → ℕ) (h : k ≤ j) : fillPowers W k p j = p j := by
  induction k generalizing p with
  | zero => rfl
  | succ i ih =>
    rw [fillPowers, ih _ (by omega)]
    exact Function.update_of_ne (by omega) _ _

theorem fillPowers_lt {k j : ℕ} (p : ℕ → ℕ) (h : j < k) :
    ((fillPowers W k p j : ℕ) : ZMod W.modulus) =
      p k * (W.hashMultiplier : ZMod W.modulus) ^ (k - j) := by
  induction k generalizing p with
  | zero => omega
  | succ i ih =>
    rw [fillPowers]
    rcases Nat.lt_succ_iff_lt_or_eq.mp h with hlt | rfl
    · rw [ih _ hlt, Function.update_self, ZMod.natCast_mod, Nat.cast_mul, Nat.succ_sub hlt.le,
        pow_succ]
      ring
    · rw [fillPowers_ge W _ le_rfl, Function.update_self, ZMod.natCast_mod, Nat.cast_mul]
      simp

theorem cint_eq {n : ℕ} (h : n < 2 ^ 31) : cint n = n := by
  rw [cint, Nat.mod_eq_of_lt (h.trans (by decide)), if_pos h]

/-- The weights are the powers of the multiplier, the highest first. -/
theorem sizeHashtable_powers {slots look j : ℕ} (hlook : look < 2 ^ 31) (hj : j < look) :
    (((sizeHashtable W slots look).powers j : ℕ) : ZMod W.modulus) =
      (W.hashMultiplier : ZMod W.modulus) ^ (look - 1 - j) := by
  have hcount : (cint look - 1).toNat = look - 1 := by
    rw [cint_eq hlook]
    omega
  change ((fillPowers W (cint look - 1).toNat _ j : ℕ) : ZMod W.modulus) = _
  rw [hcount]
  rcases Nat.lt_or_ge j (look - 1) with hlt | hge
  · rw [fillPowers_lt W _ hlt, Function.update_self, Nat.cast_one, one_mul]
  · rw [fillPowers_ge W _ hge, show j = look - 1 by omega, Function.update_self]
    simp

theorem largeCksumLoop_cast (powers : ℕ → ℕ) (i h : ℕ) (bytes : List UInt8) :
    ((largeCksumLoop W powers i h bytes : ℕ) : ZMod W.modulus) =
      h + weighted (fun j => (powers j : ZMod W.modulus)) i
        (bytes.map fun b => (b.toNat : ZMod W.modulus)) := by
  induction bytes generalizing i h with
  | nil => simp [largeCksumLoop, weighted]
  | cons b bs ih =>
    rw [largeCksumLoop, ih, Width.cast_add, ZMod.natCast_mod, Nat.cast_mul, List.map_cons, weighted,
      add_assoc]

theorem largeCksumLoop_lt {powers : ℕ → ℕ} {i h : ℕ} {bytes : List UInt8} (hh : h < W.modulus) :
    largeCksumLoop W powers i h bytes < W.modulus := by
  induction bytes generalizing i h with
  | nil => exact hh
  | cons b bs ih => exact ih (W.add_lt _ _)

theorem largeCksum_lt {cfg : HashCfg} {mem : List UInt8} {pos look c : ℕ}
    (h : largeCksum W cfg mem pos look = some c) : c < W.modulus := by
  obtain ⟨bytes, -, rfl⟩ := Option.map_eq_some_iff.mp h
  exact largeCksumLoop_lt W W.modulus_pos

theorem largeCksum_isSome {cfg : HashCfg} {mem : List UInt8} {pos look : ℕ}
    (h : pos + look ≤ mem.length) : (largeCksum W cfg mem pos look).isSome := by
  simp [largeCksum, bytesAt, h]

/-- The checksum is the value of the bytes in base `xd3_hash_multiplier`. -/
theorem largeCksumLoop_horner {slots look : ℕ} {bytes : List UInt8} (hlook : look < 2 ^ 31)
    (hlen : bytes.length = look) :
    ((largeCksumLoop W (sizeHashtable W slots look).powers 0 0 bytes : ℕ) : ZMod W.modulus) =
      horner (W.hashMultiplier : ZMod W.modulus)
        (bytes.map fun b => (b.toNat : ZMod W.modulus)) := by
  rw [largeCksumLoop_cast, Nat.cast_zero, zero_add]
  apply weighted_eq_horner
  intro j hj
  rw [List.length_map, hlen] at hj
  rw [zero_add, sizeHashtable_powers W hlook hj, List.length_map, hlen]

theorem Width.eq_of_cast {a b : ℕ} (ha : a < W.modulus) (hb : b < W.modulus)
    (h : (a : ZMod W.modulus) = b) : a = b := by
  have hmod := (ZMod.natCast_eq_natCast_iff' a b W.modulus).mp h
  rwa [Nat.mod_eq_of_lt ha, Nat.mod_eq_of_lt hb] at hmod

/-- Rolling the checksum on by one byte gives the checksum at the next position. -/
theorem largeCksumUpdate_eq {slots look pos c : ℕ} {mem : List UInt8} (hpos : 0 < look)
    (hlook : look < 2 ^ 31) (hlen : pos + look < mem.length)
    (hc : largeCksum W (sizeHashtable W slots look) mem pos look = some c) :
    largeCksumUpdate W (sizeHashtable W slots look) c mem pos look =
      largeCksum W (sizeHashtable W slots look) mem (pos + 1) look := by
  obtain ⟨d, rfl⟩ : ∃ d, look = d + 1 := ⟨look - 1, by omega⟩
  let mid := (mem.drop (pos + 1)).take d
  have hmid : mid.length = d := by simp [mid]; omega
  have hout : mem[pos]? = some mem[pos] := List.getElem?_eq_getElem (by omega)
  have hnext : mem[pos + (d + 1)]? = some mem[pos + (d + 1)] := List.getElem?_eq_getElem hlen
  have hold : bytesAt mem pos (d + 1) = some (mem[pos] :: mid) := by
    rw [bytesAt, if_pos hlen.le, List.drop_eq_getElem_cons (by omega), List.take_succ_cons]
  have hnew : bytesAt mem (pos + 1) (d + 1) = some (mid ++ [mem[pos + (d + 1)]]) := by
    rw [bytesAt, if_pos (by omega), List.take_add_one, List.getElem?_drop,
      show pos + 1 + d = pos + (d + 1) by omega, hnext]
    rfl
  rw [largeCksum, hold] at hc
  obtain rfl : largeCksumLoop W _ 0 0 (mem[pos] :: mid) = c := Option.some_inj.mp hc
  rw [largeCksumUpdate, hout, hnext, largeCksum, hnew]
  refine congrArg some (W.eq_of_cast (W.add_lt _ _) (largeCksumLoop_lt W W.modulus_pos) ?_)
  have hmul : (((sizeHashtable W slots (d + 1)).multiplier : ℕ) : ZMod W.modulus) =
      (W.hashMultiplier : ZMod W.modulus) ^ (d + 1) := by
    change (((sizeHashtable W slots (d + 1)).powers 0 * W.hashMultiplier % W.modulus : ℕ) :
      ZMod W.modulus) = _
    rw [ZMod.natCast_mod, Nat.cast_mul, sizeHashtable_powers W hlook (by omega)]
    simp [pow_succ]
  rw [Width.cast_add, Width.cast_sub W (Nat.mod_lt _ W.modulus_pos).le, ZMod.natCast_mod,
    ZMod.natCast_mod, Nat.cast_mul, Nat.cast_mul, hmul,
    largeCksumLoop_horner W hlook (by simp [hmid]), largeCksumLoop_horner W hlook (by simp [hmid]),
    List.map_append, List.map_cons, List.map_cons, List.map_nil, horner_roll, List.length_map, hmid]

end Large

end Xdelta
