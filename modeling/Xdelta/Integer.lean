import Mathlib.Tactic.Common
import Mathlib.Data.Nat.Bitwise

/-!
# Variable-length integers

An unsigned integer is written as big-endian groups of seven bits, the top bit
set on every byte but the last. Three loops handle it: the emitter, the
incremental decoder, which keeps the value read so far between calls, and the
reader over a complete buffer. All are given for both integer widths.
-/
namespace Xdelta

/-- The two unsigned integer types the codecs are instantiated at. -/
inductive Width where
  | w32
  | w64
  deriving DecidableEq, Repr

namespace Width

def bits : Width → ℕ
  | w32 => 32
  | w64 => 64

def modulus (W : Width) : ℕ := 2 ^ W.bits

/-- `UINT32_OFLOW_MASK` and `UINT64_OFLOW_MASK`: the seven bits a shift would lose. -/
def oflowMask : Width → ℕ
  | w32 => 0xfe000000
  | w64 => 0xfe00000000000000

def add (W : Width) (a b : ℕ) : ℕ := (a + b) % W.modulus

def sub (W : Width) (a b : ℕ) : ℕ := (a + W.modulus - b) % W.modulus

/-- `USIZE_T_OVERFLOW` and `XOFF_T_OVERFLOW`. -/
def overflow (W : Width) (a b : ℕ) : Bool := decide (W.modulus - 1 - a < b)

theorem modulus_pos (W : Width) : 0 < W.modulus := by cases W <;> decide

theorem overflow_iff (W : Width) {a b : ℕ} (ha : a < W.modulus) :
    W.overflow a b = true ↔ W.modulus ≤ a + b := by
  simp only [overflow, decide_eq_true_eq]
  omega

theorem add_eq (W : Width) {a b : ℕ} (h : a + b < W.modulus) : W.add a b = a + b :=
  Nat.mod_eq_of_lt h

theorem sub_eq (W : Width) {a b : ℕ} (ha : a < W.modulus) (h : b ≤ a) : W.sub a b = a - b := by
  unfold sub
  rw [show a + W.modulus - b = (a - b) + W.modulus by omega, Nat.add_mod_right]
  exact Nat.mod_eq_of_lt (by omega)

/-- A sum that wraps comes back in range when enough is taken off. -/
theorem sub_add_eq (W : Width) {a b c : ℕ} (hb : b < W.modulus) (hc : c ≤ b)
    (h : a + (b - c) < W.modulus) : W.sub (W.add a b) c = a + (b - c) := by
  unfold sub add
  by_cases hlt : a + b < W.modulus
  · rw [Nat.mod_eq_of_lt hlt, show a + b + W.modulus - c = a + (b - c) + W.modulus by omega,
      Nat.add_mod_right, Nat.mod_eq_of_lt h]
  · have hmod : (a + b) % W.modulus = a + b - W.modulus := by
      rw [Nat.mod_eq_sub_mod (Nat.le_of_not_lt hlt)]
      exact Nat.mod_eq_of_lt (by omega)
    rw [hmod, show a + b - W.modulus + W.modulus - c = a + (b - c) by omega,
      Nat.mod_eq_of_lt h]

theorem add_lt (W : Width) (a b : ℕ) : W.add a b < W.modulus := Nat.mod_lt _ W.modulus_pos

end Width

/-- `usize_t` in the default build. -/
abbrev usize : Width := .w64

/-- `xoff_t` in the default build. -/
abbrev xoff : Width := .w64

/-- `(val << 7) | (next & 127)` in the given width. -/
def shiftIn (W : Width) (val : ℕ) (next : UInt8) : ℕ :=
  ((val <<< 7) % W.modulus) ||| (next.toNat &&& 127)

/-- `val & OFLOW`. -/
def oflow (W : Width) (val : ℕ) : Bool := (val &&& W.oflowMask) != 0

/-- `next & 128`. -/
def continues (next : UInt8) : Bool := (next.toNat &&& 128) != 0

theorem and_128_ne_zero_iff {n : ℕ} (hn : n < 256) : n &&& 128 ≠ 0 ↔ 128 ≤ n := by
  have hbit : n &&& 128 = 128 * (n.testBit 7).toNat := by
    rw [show (128 : ℕ) = 2 ^ 7 by rfl, Nat.and_two_pow, mul_comm]
  have htop : n.testBit 7 = decide (128 ≤ n) := by
    rw [Nat.testBit_eq_decide_div_mod_eq]
    congr 1
    apply propext
    omega
  rw [hbit, htop]
  by_cases h : 128 ≤ n <;> simp [h]

@[simp] theorem continues_iff (next : UInt8) : continues next = true ↔ 128 ≤ next.toNat := by
  rw [continues, bne_iff_ne]
  exact and_128_ne_zero_iff next.toNat_lt

/-- The bits of a mask of `m` ones, `k` places up. -/
theorem and_mask (val m k : ℕ) :
    val &&& ((2 ^ m - 1) * 2 ^ k) = (val / 2 ^ k % 2 ^ m) * 2 ^ k := by
  apply Nat.eq_of_testBit_eq
  intro i
  rw [Nat.testBit_and, Nat.testBit_mul_two_pow, Nat.testBit_mul_two_pow, Nat.testBit_mod_two_pow,
    Nat.testBit_div_two_pow, Nat.testBit_two_pow_sub_one]
  by_cases hi : k ≤ i
  · rw [show i - k + k = i by omega]
    cases val.testBit i <;> simp [hi]
  · simp [hi]

theorem oflow_iff (W : Width) {val : ℕ} (hv : val < W.modulus) :
    oflow W val = true ↔ W.modulus ≤ val * 128 := by
  have key : ∀ k, val < 2 ^ (k + 7) →
      (val &&& (127 * 2 ^ k) ≠ 0 ↔ 2 ^ (k + 7) ≤ val * 128) := by
    intro k hk
    have hand : val &&& (127 * 2 ^ k) = (val / 2 ^ k % 128) * 2 ^ k := and_mask val 7 k
    have hlt : val / 2 ^ k < 128 := by
      rw [Nat.div_lt_iff_lt_mul (Nat.two_pow_pos k)]
      rw [pow_add] at hk
      omega
    rw [hand, Nat.mod_eq_of_lt hlt]
    have hpos : 0 < 2 ^ k := Nat.two_pow_pos k
    constructor
    · intro h
      have hd : 1 ≤ val / 2 ^ k := by
        rcases Nat.eq_zero_or_pos (val / 2 ^ k) with h0 | h0
        · simp [h0] at h
        · exact h0
      have hle := (Nat.le_div_iff_mul_le hpos).mp hd
      rw [pow_add]
      omega
    · intro h
      have hle : 1 * 2 ^ k ≤ val := by rw [pow_add] at h; omega
      have hd := (Nat.le_div_iff_mul_le hpos).mpr hle
      have : val / 2 ^ k * 2 ^ k ≠ 0 := Nat.mul_ne_zero (by omega) (by omega)
      exact this
  rw [oflow, bne_iff_ne]
  cases W with
  | w32 => exact key 25 hv
  | w64 => exact key 57 hv

theorem shiftIn_eq (W : Width) {val : ℕ} (next : UInt8) (h : val * 128 < W.modulus) :
    shiftIn W val next = val * 128 + next.toNat % 128 := by
  rw [shiftIn, Nat.shiftLeft_eq, show (2 : ℕ) ^ 7 = 128 by rfl, Nat.mod_eq_of_lt h,
    show (127 : ℕ) = 2 ^ 7 - 1 by rfl, Nat.and_two_pow_sub_one_eq_mod,
    show val * 128 = val <<< 7 by rw [Nat.shiftLeft_eq]]
  exact (Nat.shiftLeft_add_eq_or_of_lt (Nat.mod_lt _ (by decide)) val).symm

theorem shiftIn_lt (W : Width) {val : ℕ} (next : UInt8) (h : val * 128 < W.modulus) :
    shiftIn W val next < W.modulus := by
  rw [shiftIn_eq W next h]
  cases W <;> simp only [Width.modulus, Width.bits] at * <;> omega

/-- The loop of `EMIT_INTEGER_TYPE`, which fills `buf[10]` from its end with all top bits on. -/
def emitDigits : ℕ → ℕ → List UInt8 → List UInt8
  | 0, _, acc => acc
  | bufi + 1, num, acc =>
    let acc := UInt8.ofNat ((num &&& 127) ||| 128) :: acc
    if num >>> 7 = 0 then acc else emitDigits bufi (num >>> 7) acc

/-- `EMIT_INTEGER_TYPE`: the last byte's top bit is turned off at the end. -/
def emitInteger (num : ℕ) : List UInt8 :=
  let buf := emitDigits 10 num []
  buf.set (buf.length - 1) (UInt8.ofNat ((buf.getLastD 0).toNat &&& 127))

/-- The seven-bit groups of a number, most significant first, every top bit on. -/
def groups (n : ℕ) : List UInt8 :=
  if n = 0 then [] else groups (n / 128) ++ [UInt8.ofNat (n % 128 + 128)]
termination_by n

theorem groups_zero : groups 0 = [] := by rw [groups]; rfl

theorem groups_pos {n : ℕ} (h : n ≠ 0) :
    groups n = groups (n / 128) ++ [UInt8.ofNat (n % 128 + 128)] := by
  rw [groups, if_neg h]

private theorem group_byte (n : ℕ) : (n &&& 127) ||| 128 = n % 128 + 128 := by
  have hor : 128 ||| n % 128 = 128 + n % 128 :=
    (Nat.shiftLeft_add_eq_or_of_lt (i := 7) (Nat.mod_lt n (by decide)) 1).symm
  rw [show (127 : ℕ) = 2 ^ 7 - 1 by rfl, Nat.and_two_pow_sub_one_eq_mod, Nat.or_comm,
    show (2 : ℕ) ^ 7 = 128 by rfl, hor, Nat.add_comm]

theorem emitDigits_eq (k n : ℕ) (acc : List UInt8) (h : n < 128 ^ (k + 1)) :
    emitDigits (k + 1) n acc = groups (n / 128) ++ UInt8.ofNat (n % 128 + 128) :: acc := by
  induction k generalizing n acc with
  | zero =>
    have hn : n / 128 = 0 := by omega
    simp [emitDigits, group_byte, Nat.shiftRight_eq_div_pow, hn, groups_zero]
  | succ k ih =>
    rw [emitDigits, Nat.shiftRight_eq_div_pow, show (2 : ℕ) ^ 7 = 128 by rfl, group_byte]
    by_cases hn : n / 128 = 0
    · simp [hn, groups_zero]
    · have hlt : n / 128 < 128 ^ (k + 1) := by
        rw [Nat.div_lt_iff_lt_mul (by decide)]
        rwa [pow_succ] at h
      simp only [if_neg hn]
      rw [ih _ _ hlt]
      conv_rhs => rw [groups_pos hn]
      simp

/-- The bytes of an integer: the groups above the lowest, then the lowest with its top bit off. -/
theorem emitInteger_eq {n : ℕ} (h : n < 2 ^ 64) :
    emitInteger n = groups (n / 128) ++ [UInt8.ofNat (n % 128)] := by
  have hlt : n < 128 ^ (9 + 1) := lt_of_lt_of_le h (by decide)
  rw [emitInteger, emitDigits_eq 9 n [] hlt]
  have hb : n % 128 + 128 < 256 := by omega
  have hand : (n % 128 + 128) &&& 127 = n % 128 := by
    rw [show (127 : ℕ) = 2 ^ 7 - 1 by rfl, Nat.and_two_pow_sub_one_eq_mod]
    omega
  simp [Nat.mod_eq_of_lt hb, hand]

theorem emitInteger_ne_nil {n : ℕ} (h : n < 2 ^ 64) : emitInteger n ≠ [] := by
  rw [emitInteger_eq h]
  simp

/-- `xd3_sizeof_uint32_t` and `xd3_sizeof_uint64_t`. -/
def sizeofInteger (W : Width) (num : ℕ) : ℕ :=
  match W with
  | .w32 =>
    if num < 2 ^ 7 then 1 else if num < 2 ^ 14 then 2 else if num < 2 ^ 21 then 3
    else if num < 2 ^ 28 then 4 else 5
  | .w64 =>
    if num < 2 ^ 7 then 1 else if num < 2 ^ 14 then 2 else if num < 2 ^ 21 then 3
    else if num < 2 ^ 28 then 4 else if num < 2 ^ 35 then 5 else if num < 2 ^ 42 then 6
    else if num < 2 ^ 49 then 7 else if num < 2 ^ 56 then 8 else if num < 2 ^ 63 then 9 else 10

abbrev sizeofSize (num : ℕ) : ℕ := sizeofInteger usize num

theorem groups_length_le_iff (n k : ℕ) : (groups n).length ≤ k ↔ n < 128 ^ k := by
  induction k generalizing n with
  | zero =>
    by_cases hn : n = 0
    · simp [hn, groups_zero]
    · simp [groups_pos hn, hn]
  | succ k ih =>
    by_cases hn : n = 0
    · simp only [hn, groups_zero, List.length_nil, Nat.zero_le, Nat.pow_pos (show 0 < 128 by decide)]
    · rw [groups_pos hn, List.length_append, List.length_singleton, Nat.add_le_add_iff_right, ih,
        Nat.div_lt_iff_lt_mul (by decide), pow_succ]

/-- The emitted bytes are as many as the value needs groups of seven bits. -/
theorem emitInteger_length_iff {n k : ℕ} (h : n < 2 ^ 64) (hk : 0 < k) :
    (emitInteger n).length ≤ k ↔ n < 128 ^ k := by
  obtain ⟨k, rfl⟩ := Nat.exists_eq_add_of_le' hk
  rw [emitInteger_eq h, List.length_append, List.length_singleton, Nat.add_le_add_iff_right,
    groups_length_le_iff, Nat.div_lt_iff_lt_mul (by decide), pow_succ]

theorem emitInteger_length_pos {n : ℕ} (h : n < 2 ^ 64) : 0 < (emitInteger n).length :=
  List.length_pos_iff.2 (emitInteger_ne_nil h)

theorem emitInteger_length_mono {m n : ℕ} (hn : n < 2 ^ 64) (hmn : m ≤ n) :
    (emitInteger m).length ≤ (emitInteger n).length := by
  have hpos := emitInteger_length_pos hn
  rw [emitInteger_length_iff (hmn.trans_lt hn) hpos]
  exact hmn.trans_lt ((emitInteger_length_iff hn hpos).1 le_rfl)

theorem emitDigits_length_le (k n : ℕ) (acc : List UInt8) :
    (emitDigits k n acc).length ≤ k + acc.length := by
  induction k generalizing n acc with
  | zero => exact Nat.le_add_left _ _
  | succ k ih =>
    have hlen := ih (n >>> 7) (UInt8.ofNat ((n &&& 127) ||| 128) :: acc)
    rw [List.length_cons] at hlen
    unfold emitDigits
    dsimp only
    split
    · rw [List.length_cons]
      omega
    · omega

/-- The buffer has room for ten bytes, whatever the value. -/
theorem emitInteger_length_le (n : ℕ) : (emitInteger n).length ≤ 10 := by
  unfold emitInteger
  rw [List.length_set]
  exact emitDigits_length_le 10 n []

theorem size_le_iff {n c k : ℕ} (hk : 0 < k) (hlow : c = 1 ∨ 128 ^ (c - 1) ≤ n)
    (hhigh : n < 128 ^ c) : c ≤ k ↔ n < 128 ^ k := by
  constructor
  · intro hle
    exact hhigh.trans_le (Nat.pow_le_pow_right (by decide) hle)
  · intro hlt
    rcases hlow with rfl | hlow
    · exact hk
    · have hpow := (Nat.pow_lt_pow_iff_right (by decide)).1 (hlow.trans_lt hlt)
      omega

/-- `xd3_sizeof_uint32_t` and `xd3_sizeof_uint64_t` compute the least number of groups. -/
theorem sizeofInteger_le_iff (W : Width) {n k : ℕ} (h : n < W.modulus) (hk : 0 < k) :
    sizeofInteger W n ≤ k ↔ n < 128 ^ k := by
  cases W with
  | w32 =>
    have hn : n < 2 ^ 32 := h
    simp only [sizeofInteger]
    split_ifs
    all_goals exact size_le_iff hk (by omega) (by omega)
  | w64 =>
    have hn : n < 2 ^ 64 := h
    simp only [sizeofInteger]
    split_ifs
    all_goals exact size_le_iff hk (by omega) (by omega)

theorem sizeofInteger_pos (W : Width) (n : ℕ) : 0 < sizeofInteger W n := by
  cases W <;> simp only [sizeofInteger] <;> split_ifs <;> omega

theorem emitInteger_length (W : Width) {n : ℕ} (h : n < W.modulus) :
    (emitInteger n).length = sizeofInteger W n := by
  have h64 : n < 2 ^ 64 := lt_of_lt_of_le h (by cases W <;> decide)
  have hpos := emitInteger_length_pos h64
  apply le_antisymm
  · have hsize := sizeofInteger_pos W n
    rw [emitInteger_length_iff h64 hsize]
    exact (sizeofInteger_le_iff W h hsize).1 le_rfl
  · rw [sizeofInteger_le_iff W h hpos]
    exact (emitInteger_length_iff h64 hpos).1 le_rfl

/-- How `DECODE_INTEGER_TYPE` leaves the input: a value, the overflow error, or
all input consumed with the part read so far kept for the next call. -/
inductive DecodedInteger where
  | value (val : ℕ) (rest : List UInt8)
  | overflow (part : ℕ) (rest : List UInt8)
  | input (part : ℕ)

/-- `DECODE_INTEGER_TYPE(PART, OFLOW)`. -/
def decodeInteger (W : Width) : List UInt8 → ℕ → DecodedInteger
  | [], part => .input part
  | next :: rest, part =>
    if oflow W part then .overflow part rest
    else if continues next then decodeInteger W rest (shiftIn W part next)
    else .value (shiftIn W part next) rest

/-- How `READ_INTEGER_TYPE` ends; `fault` is a read outside the buffer. -/
inductive ReadInteger where
  | value (val inp : ℕ)
  | error (msg : String)
  | fault
  deriving DecidableEq

/-- The loop of `READ_INTEGER_TYPE`, with the bytes of the buffer from `inp` on. -/
def readIntegerLoop (W : Width) (maxp : ℕ) : List UInt8 → ℕ → ℕ → ReadInteger
  | [], inp, val =>
    if inp = maxp then .error "end-of-input in read_integer"
    else if oflow W val then .error "overflow in read_intger"
    else .fault
  | next :: rest, inp, val =>
    if inp = maxp then .error "end-of-input in read_integer"
    else if oflow W val then .error "overflow in read_intger"
    else if continues next then readIntegerLoop W maxp rest (inp + 1) (shiftIn W val next)
    else .value (shiftIn W val next) (inp + 1)

/-- `READ_INTEGER_TYPE` at position `inp` of the buffer `mem`, up to `maxp`. -/
def readInteger (W : Width) (mem : List UInt8) (inp maxp : ℕ) : ReadInteger :=
  readIntegerLoop W maxp (mem.drop inp) inp 0

private theorem ofNat_group (n : ℕ) : (UInt8.ofNat (n % 128 + 128)).toNat = n % 128 + 128 := by
  rw [UInt8.toNat_ofNat']
  omega

private theorem ofNat_last (n : ℕ) : (UInt8.ofNat (n % 128)).toNat = n % 128 := by
  rw [UInt8.toNat_ofNat']
  omega

private theorem div_lt_modulus {W : Width} {n : ℕ} (h : n < W.modulus) :
    n / 128 * 128 < W.modulus := lt_of_le_of_lt (Nat.div_mul_le_self n 128) h

private theorem not_oflow_div {W : Width} {n : ℕ} (h : n < W.modulus) :
    oflow W (n / 128) = false := by
  rw [← Bool.not_eq_true, oflow_iff W (lt_of_le_of_lt (Nat.div_le_self _ _) h)]
  have := div_lt_modulus h
  omega

/-- After the groups of `n` the incremental decoder holds `n`. -/
theorem decodeInteger_groups (W : Width) (n : ℕ) (rest : List UInt8) (h : n < W.modulus) :
    decodeInteger W (groups n ++ rest) 0 = decodeInteger W rest n := by
  induction n using Nat.strongRecOn generalizing rest with
  | _ n ih =>
    by_cases hn : n = 0
    · simp [hn, groups_zero]
    · rw [groups_pos hn, List.append_assoc,
        ih (n / 128) (by omega) _ (lt_of_le_of_lt (Nat.div_le_self _ _) h)]
      simp only [List.singleton_append, decodeInteger, not_oflow_div h]
      rw [if_neg (by decide), if_pos (by rw [continues_iff, ofNat_group]; omega),
        shiftIn_eq W _ (div_lt_modulus h), ofNat_group,
        show n / 128 * 128 + (n % 128 + 128) % 128 = n by omega]

/-- The incremental decoder reads back what the emitter wrote. -/
theorem decodeInteger_emitInteger (W : Width) (n : ℕ) (rest : List UInt8) (h : n < W.modulus) :
    decodeInteger W (emitInteger n ++ rest) 0 = .value n rest := by
  have h64 : n < 2 ^ 64 := lt_of_lt_of_le h (by cases W <;> decide)
  rw [emitInteger_eq h64, List.append_assoc,
    decodeInteger_groups W _ _ (lt_of_le_of_lt (Nat.div_le_self _ _) h)]
  simp only [List.singleton_append, decodeInteger, not_oflow_div h]
  rw [if_neg (by decide), if_neg (by rw [continues_iff, ofNat_last]; omega),
    shiftIn_eq W _ (div_lt_modulus h), ofNat_last,
    show n / 128 * 128 + n % 128 % 128 = n by omega]

/-- The decoder on `a ++ b` is the decoder on `a`, continued on `b`. -/
theorem decodeInteger_append (W : Width) (a b : List UInt8) (part : ℕ) :
    decodeInteger W (a ++ b) part =
      match decodeInteger W a part with
      | .value v rest => .value v (rest ++ b)
      | .overflow p rest => .overflow p (rest ++ b)
      | .input p => decodeInteger W b p := by
  induction a generalizing part with
  | nil => simp [decodeInteger]
  | cons x a ih =>
    simp only [List.cons_append, decodeInteger]
    split
    · rfl
    · split
      · exact ih _
      · rfl

private theorem readIntegerLoop_groups (W : Width) (n maxp inp : ℕ) (rest : List UInt8)
    (h : n < W.modulus) (hm : inp + (groups n).length ≤ maxp) :
    readIntegerLoop W maxp (groups n ++ rest) inp 0 =
      readIntegerLoop W maxp rest (inp + (groups n).length) n := by
  induction n using Nat.strongRecOn generalizing rest with
  | _ n ih =>
    by_cases hn : n = 0
    · simp [hn, groups_zero]
    · rw [groups_pos hn, List.length_append, List.length_singleton] at hm
      rw [groups_pos hn, List.append_assoc,
        ih (n / 128) (by omega) _ (lt_of_le_of_lt (Nat.div_le_self _ _) h) (by omega)]
      rw [List.singleton_append, readIntegerLoop, not_oflow_div h, if_neg (by omega),
        if_neg (by decide), if_pos (by rw [continues_iff, ofNat_group]; omega),
        shiftIn_eq W _ (div_lt_modulus h), ofNat_group,
        show n / 128 * 128 + (n % 128 + 128) % 128 = n by omega,
        List.length_append, List.length_singleton, ← Nat.add_assoc]

theorem readInteger_emitInteger (W : Width) (n : ℕ) (pre rest : List UInt8) {maxp : ℕ}
    (h : n < W.modulus) (hm : pre.length + (emitInteger n).length ≤ maxp) :
    readInteger W (pre ++ (emitInteger n ++ rest)) pre.length maxp =
      .value n (pre.length + (emitInteger n).length) := by
  have h64 : n < 2 ^ 64 := lt_of_lt_of_le h (by cases W <;> decide)
  rw [emitInteger_eq h64, List.length_append, List.length_singleton] at hm
  rw [readInteger, List.drop_left, emitInteger_eq h64, List.append_assoc,
    readIntegerLoop_groups W _ _ _ _ (lt_of_le_of_lt (Nat.div_le_self _ _) h) (by omega),
    List.singleton_append, readIntegerLoop, not_oflow_div h, if_neg (by omega),
    if_neg (by decide), if_neg (by rw [continues_iff, ofNat_last]; omega), shiftIn_eq W _ (div_lt_modulus h),
    ofNat_last, show n / 128 * 128 + n % 128 % 128 = n by omega,
    List.length_append, List.length_singleton, Nat.add_assoc]

/-- A value the reader returns fits the width, and the cursor stays within the buffer. -/
theorem readIntegerLoop_bounds (W : Width) (maxp : ℕ) (bytes : List UInt8) (inp val : ℕ)
    (hv : val < W.modulus) (hb : maxp ≤ inp + bytes.length) (hi : inp ≤ maxp) :
    readIntegerLoop W maxp bytes inp val ≠ .fault ∧
      ∀ v i, readIntegerLoop W maxp bytes inp val = .value v i →
        v < W.modulus ∧ inp < i ∧ i ≤ maxp := by
  induction bytes generalizing inp val with
  | nil =>
    simp only [List.length_nil, Nat.add_zero] at hb
    rw [readIntegerLoop, if_pos (le_antisymm hi hb)]
    simp
  | cons next rest ih =>
    rw [readIntegerLoop]
    by_cases h1 : inp = maxp
    · simp [h1]
    by_cases h2 : oflow W val = true
    · simp [h1, h2]
    · have hno : val * 128 < W.modulus := by
        rw [oflow_iff W hv] at h2
        omega
      rw [if_neg h1, if_neg h2]
      split
      · simp only [List.length_cons] at hb
        obtain ⟨hf, hval⟩ := ih (inp + 1) _ (shiftIn_lt W next hno) (by omega) (by omega)
        exact ⟨hf, fun v i h => by have := hval v i h; omega⟩
      · refine ⟨by simp, fun v i h => ?_⟩
        cases h
        exact ⟨shiftIn_lt W next hno, by omega, by omega⟩

theorem readInteger_bounds (W : Width) (mem : List UInt8) (inp maxp : ℕ)
    (hb : maxp ≤ mem.length) (hi : inp ≤ maxp) :
    readInteger W mem inp maxp ≠ .fault ∧
      ∀ v i, readInteger W mem inp maxp = .value v i → v < W.modulus ∧ inp < i ∧ i ≤ maxp :=
  readIntegerLoop_bounds W maxp _ inp 0 W.modulus_pos (by rw [List.length_drop]; omega) hi

theorem decodeInteger_length (W : Width) (bytes : List UInt8) (part : ℕ) :
    match decodeInteger W bytes part with
    | .value _ rest => rest.length < bytes.length
    | .overflow _ rest => rest.length < bytes.length
    | .input _ => True := by
  induction bytes generalizing part with
  | nil => trivial
  | cons next rest ih =>
    rw [decodeInteger]
    by_cases h : oflow W part = true
    · simp [h]
    · rw [if_neg h]
      by_cases hc : continues next = true
      · rw [if_pos hc]
        have hrec := ih (shiftIn W part next)
        generalize decodeInteger W rest (shiftIn W part next) = d at hrec ⊢
        cases d with
        | value v r => exact Nat.lt_succ_of_lt hrec
        | overflow p r => exact Nat.lt_succ_of_lt hrec
        | input p => trivial
      · rw [if_neg hc]
        simp

theorem decodeInteger_bounds (W : Width) (bytes : List UInt8) (part : ℕ) (hp : part < W.modulus) :
    match decodeInteger W bytes part with
    | .value v _ => v < W.modulus
    | .overflow p _ => p < W.modulus
    | .input p => p < W.modulus := by
  induction bytes generalizing part with
  | nil => exact hp
  | cons next rest ih =>
    by_cases h : oflow W part = true
    · rw [decodeInteger, if_pos h]
      exact hp
    · have hno : part * 128 < W.modulus := by
        rw [oflow_iff W hp] at h
        omega
      rw [decodeInteger, if_neg h]
      by_cases hc : continues next = true
      · rw [if_pos hc]
        have hrec := ih _ (shiftIn_lt W next hno)
        generalize decodeInteger W rest (shiftIn W part next) = d at hrec ⊢
        cases d with
        | value v r => exact hrec
        | overflow p r => exact hrec
        | input p => exact hrec
      · rw [if_neg hc]
        exact shiftIn_lt W next hno

/-- What the decoder leaves is the end of what it was given. -/
theorem decodeInteger_suffix (W : Width) {bytes rest : List UInt8} {part v : ℕ}
    (h : decodeInteger W bytes part = .value v rest) : rest <:+ bytes := by
  induction bytes generalizing part with
  | nil => cases h
  | cons next bytes ih =>
    rw [decodeInteger] at h
    split at h
    · cases h
    · split at h
      · exact (ih h).trans (List.suffix_cons _ _)
      · cases h
        exact List.suffix_cons _ _

private theorem readIntegerLoop_eq (W : Width) (bytes : List UInt8) (inp val : ℕ) :
    readIntegerLoop W (inp + bytes.length) bytes inp val =
      match decodeInteger W bytes val with
      | .value v rest => .value v (inp + bytes.length - rest.length)
      | .overflow _ _ => .error "overflow in read_intger"
      | .input _ => .error "end-of-input in read_integer" := by
  induction bytes generalizing inp val with
  | nil => exact if_pos rfl
  | cons next bytes ih =>
    have hlen : inp + (next :: bytes).length = inp + 1 + bytes.length := by
      rw [List.length_cons]
      omega
    have hne : ¬inp = inp + 1 + bytes.length := by omega
    rw [hlen, readIntegerLoop, decodeInteger, if_neg hne]
    by_cases ho : oflow W val = true
    · rw [if_pos ho, if_pos ho]
    · rw [if_neg ho, if_neg ho]
      by_cases hc : continues next = true
      · rw [if_pos hc, if_pos hc]
        exact ih _ _
      · rw [if_neg hc, if_neg hc]
        exact congrArg _ (Nat.add_sub_cancel_right _ _).symm

theorem readInteger_eq (W : Width) (mem : List UInt8) {inp : ℕ} (h : inp ≤ mem.length) :
    readInteger W mem inp mem.length =
      match decodeInteger W (mem.drop inp) 0 with
      | .value v rest => .value v (mem.length - rest.length)
      | .overflow _ _ => .error "overflow in read_intger"
      | .input _ => .error "end-of-input in read_integer" := by
  have hlen : inp + (mem.drop inp).length = mem.length := by
    rw [List.length_drop]
    omega
  have := readIntegerLoop_eq W (mem.drop inp) inp 0
  rwa [hlen] at this

end Xdelta
