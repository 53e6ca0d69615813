import Xdelta.Lib.Fletcher
import Mathlib.Data.BitVec

/-!
# The checksums of the first xdelta

Two 16-bit sums over a window whose size is a power of two: the sum of the bytes, each
replaced by a random number, and the sum of the sums so far.
-/
namespace Xdelta.Generator

/-- `QUERY_SIZE`: 4 where it is hard coded, and otherwise what `xdp_set_query_size_pow` has set
for a power of two that is an `int`; 0 stands for not having been set. -/
structure QuerySize where
  log : ℕ
  log_pos : 0 < log
  log_lt : log < 31

def QuerySize.pow (q : QuerySize) : ℕ := 2 ^ q.log

def QuerySize.mask (q : QuerySize) : ℕ := q.pow - 1

def QuerySize.default : QuerySize := ⟨4, by decide, by decide⟩

theorem QuerySize.pow_pos (q : QuerySize) : 0 < q.pow := Nat.two_pow_pos _

def singleHash : List ℕ := [
  0xbcd1, 0xbb65, 0x42c2, 0xdffe, 0x9666, 0x431b, 0x8504, 0xeb46, 0x6379, 0xd460, 0xcf14, 0x53cf,
  0xdb51, 0xdb08, 0x12c8, 0xf602, 0xe766, 0x2394, 0x250d, 0xdcbb, 0xa678, 0x02af, 0xa5c6, 0x7ea6,
  0xb645, 0xcb4d, 0xc44b, 0xe5dc, 0x9fe6, 0x5b5c, 0x35f5, 0x701a, 0x220f, 0x6c38, 0x1a56, 0x4ca3,
  0xffc6, 0xb152, 0x8d61, 0x7a58, 0x9025, 0x8b3d, 0xbf0f, 0x95a3, 0xe5f4, 0xc127, 0x3bed, 0x320b,
  0xb7f3, 0x6054, 0x333c, 0xd383, 0x8154, 0x5242, 0x4e0d, 0x0a94, 0x7028, 0x8689, 0x3a22, 0x0980,
  0x1847, 0xb0f1, 0x9b5c, 0x4176, 0xb858, 0xd542, 0x1f6c, 0x2497, 0x6a5a, 0x9fa9, 0x8c5a, 0x7743,
  0xa8a9, 0x9a02, 0x4918, 0x438c, 0xc388, 0x9e2b, 0x4cad, 0x01b6, 0xab19, 0xf777, 0x365f, 0x1eb2,
  0x091e, 0x7bf8, 0x7a8e, 0x5227, 0xeab1, 0x2074, 0x4523, 0xe781, 0x01a3, 0x163d, 0x3b2e, 0x287d,
  0x5e7f, 0xa063, 0xb134, 0x8fae, 0x5e8e, 0xb7b7, 0x4548, 0x1f5a, 0xfa56, 0x7a24, 0x900f, 0x42dc,
  0xcc69, 0x02a0, 0x0b22, 0xdb31, 0x71fe, 0x0c7d, 0x1732, 0x1159, 0xcb09, 0xe1d2, 0x1351, 0x52e9,
  0xf536, 0x5a4f, 0xc316, 0x6bf9, 0x8994, 0xb774, 0x5f3e, 0xf6d6, 0x3a61, 0xf82c, 0xcc22, 0x9d06,
  0x299c, 0x09e5, 0x1eec, 0x514f, 0x8d53, 0xa650, 0x5c6e, 0xc577, 0x7958, 0x71ac, 0x8916, 0x9b4f,
  0x2c09, 0x5211, 0xf6d8, 0xcaaa, 0xf7ef, 0x287f, 0x7a94, 0xab49, 0xfa2c, 0x7222, 0xe457, 0xd71a,
  0x00c3, 0x1a76, 0xe98c, 0xc037, 0x8208, 0x5c2d, 0xdfda, 0xe5f5, 0x0b45, 0x15ce, 0x8a7e, 0xfcad,
  0xaa2d, 0x4b5c, 0xd42e, 0xb251, 0x907e, 0x9a47, 0xc9a6, 0xd93f, 0x085e, 0x35ce, 0xa153, 0x7e7b,
  0x9f0b, 0x25aa, 0x5d9f, 0xc04d, 0x8a0e, 0x2875, 0x4a1c, 0x295f, 0x1393, 0xf760, 0x9178, 0x0f5b,
  0xfa7d, 0x83b4, 0x2082, 0x721d, 0x6462, 0x0368, 0x67e2, 0x8624, 0x194d, 0x22f6, 0x78fb, 0x6791,
  0xb238, 0xb332, 0x7276, 0xf272, 0x47ec, 0x4504, 0xa961, 0x9fc8, 0x3fdc, 0xb413, 0x007a, 0x0806,
  0x7458, 0x95c6, 0xccaa, 0x18d6, 0xe2ae, 0x1b06, 0xf3f6, 0x5050, 0xc8e8, 0xf4ac, 0xc04c, 0xf41c,
  0x992f, 0xae44, 0x5f1b, 0x1113, 0x1738, 0xd9a8, 0x19ea, 0x2d33, 0x9698, 0x2fe9, 0x323f, 0xcde2,
  0x6d71, 0xe37d, 0xb697, 0x2c4f, 0x4373, 0x9102, 0x075d, 0x8e25, 0x1672, 0xec28, 0x6acb, 0x86cc,
  0x186e, 0x9414, 0xd674, 0xd1a5]

def chew (x : UInt8) : BitVec 16 := BitVec.ofNat 16 (singleHash.getD x.toNat 0)

/-- `XdeltaChecksum`. -/
structure XdeltaChecksum where
  high : BitVec 16
  low : BitVec 16
  deriving DecidableEq

/-- The loop of `init_query_checksum`, with `i` bytes to go and the next one at `k`. -/
def initLoop (buf : ℕ → UInt8) : ℕ → ℕ → XdeltaChecksum → XdeltaChecksum
  | 0, _, cksum => cksum
  | i + 1, k, cksum =>
    let low := cksum.low + chew (buf k)
    initLoop buf i (k + 1) ⟨cksum.high + low, low⟩

def initQueryChecksum (q : QuerySize) (buf : ℕ → UInt8) : XdeltaChecksum :=
  initLoop buf q.pow 0 ⟨0, 0⟩

/-- The update of `compute_copies`, which shifts an `int`. -/
def updateChecksum (q : QuerySize) (cksum : XdeltaChecksum) (oldC newC : BitVec 16) :
    XdeltaChecksum :=
  let low := cksum.low - oldC + newC
  ⟨cksum.high - BitVec.ofNat 16 (oldC.toNat <<< q.log) + low, low⟩

def cHash (c : XdeltaChecksum) : ℕ :=
  let high := c.high.toNat
  let low := c.low.toNat
  let it := ((high >>> 2) + (low <<< 3) + (high <<< 16)) % 2 ^ 32
  it ^^^ high ^^^ low

theorem initLoop_eq (buf : ℕ → UInt8) (i k : ℕ) :
    let sums := Fletcher.sums fun k => chew (buf k)
    initLoop buf i k ⟨(sums k).2, (sums k).1⟩ = ⟨(sums (k + i)).2, (sums (k + i)).1⟩ := by
  dsimp only
  induction i generalizing k with
  | zero => rfl
  | succ i ih =>
    rw [show k + (i + 1) = k + 1 + i by omega]
    exact ih (k + 1)

theorem initQueryChecksum_eq (q : QuerySize) (buf : ℕ → UInt8) :
    initQueryChecksum q buf = ⟨(Fletcher.sums (fun k => chew (buf k)) q.pow).2,
      (Fletcher.sums (fun k => chew (buf k)) q.pow).1⟩ := by
  have h := initLoop_eq buf q.pow 0
  rwa [Nat.zero_add] at h

theorem initQueryChecksum_congr (q : QuerySize) {x y : ℕ → UInt8} (h : ∀ k < q.pow, x k = y k) :
    initQueryChecksum q x = initQueryChecksum q y := by
  have hsums := Fletcher.sums_congr (n := q.pow) fun k hk => congrArg chew (h k hk)
  rw [initQueryChecksum_eq, initQueryChecksum_eq, hsums]

theorem ofNat_shift (q : QuerySize) (c : BitVec 16) :
    BitVec.ofNat 16 (c.toNat <<< q.log) = q.pow • c := by
  apply BitVec.eq_of_toNat_eq
  rw [nsmul_eq_mul, BitVec.toNat_mul, BitVec.natCast_eq_ofNat, BitVec.toNat_ofNat,
    BitVec.toNat_ofNat, Nat.mod_mul_mod, Nat.shiftLeft_eq, Nat.mul_comm]
  rfl

/-- The update gives the checksum of the window one byte on. -/
theorem updateChecksum_eq (q : QuerySize) (buf : ℕ → UInt8) :
    updateChecksum q (initQueryChecksum q buf) (chew (buf 0)) (chew (buf q.pow)) =
      initQueryChecksum q fun k => buf (k + 1) := by
  have hlow := Fletcher.low_slide (fun k => chew (buf k)) q.pow
  have hhigh := Fletcher.high_slide (fun k => chew (buf k)) q.pow
  rw [initQueryChecksum_eq, initQueryChecksum_eq, updateChecksum, ofNat_shift]
  dsimp only
  rw [hhigh, hlow]

end Xdelta.Generator
