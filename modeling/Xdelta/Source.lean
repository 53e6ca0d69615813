import Xdelta.Integer
import Xdelta.Lib.Chunked

/-!
# The source file and its blocks

Return codes, the rounding helpers, and the block interface: the library asks
the application for power-of-two sized blocks of the source and keeps one block
at a time.
-/
namespace Xdelta
open Chunked

/-- The return codes other than 0 and `XD3_INPUT`; `app` is a code of the application's own. -/
inductive Ret where
  | output | getsrcblk | gotheader | winstart | winfinish | toofarback
  | internal | invalid | invalidInput | nosecond | unimplemented | enomem
  | app (code : ℤ)
  deriving DecidableEq, Repr

/-- A return to the application, with the message the returning path stores in `msg`, if any. -/
structure Stop where
  ret : Ret
  msg : Option String
  deriving DecidableEq, Repr

def fail {σ α : Type} (ret : Ret) (msg : String) : Routine σ Stop α := Routine.stop ⟨ret, some msg⟩

@[simp] theorem fail_apply {σ α : Type} (ret : Ret) (msg : String) (s : σ) :
    (fail ret msg : Routine σ Stop α) s = .stop ⟨ret, some msg⟩ s := rfl

/-- `xd3_check_pow2`: the logarithm of a power of two, searched over the width of `xoff_t`. -/
def checkPow2 (value : ℕ) : Option ℕ := (List.range xoff.bits).find? (fun i => 2 ^ i == value)

theorem checkPow2_eq_some {value k : ℕ} (h : checkPow2 value = some k) : value = 2 ^ k ∧ k < 64 := by
  have hp := List.find?_some h
  have hm := List.mem_of_find?_eq_some h
  rw [List.mem_range] at hm
  exact ⟨(beq_iff_eq.mp hp).symm, hm⟩

theorem checkPow2_two_pow {k : ℕ} (h : k < 64) : checkPow2 (2 ^ k) = some k := by
  rw [checkPow2, List.find?_range_eq_some]
  refine ⟨beq_self_eq_true _, List.mem_range.mpr h, fun j hj => ?_⟩
  simp only [Bool.not_eq_true', beq_eq_false_iff_ne]
  exact (Nat.pow_lt_pow_right (by decide) hj).ne

/-- `XD3_ALLOCSIZE`. -/
def allocSize : ℕ := 2 ^ 14

def roundBlksize (sz blksz : ℕ) : ℕ :=
  if blksz = 0 then sz
  else
    let mod := sz &&& (blksz - 1)
    if mod = 0 then sz
    else if usize.overflow sz (blksz - mod) then sz
    else usize.add sz (blksz - mod)

theorem le_roundBlksize (sz blksz : ℕ) : sz ≤ roundBlksize sz blksz := by
  have hand : sz &&& (blksz - 1) ≤ blksz - 1 := Nat.and_le_right
  unfold roundBlksize
  dsimp only
  split_ifs with h1 h2 h3
  · exact le_refl _
  · exact le_refl _
  · exact le_refl _
  · simp only [Width.overflow, decide_eq_true_eq, Nat.not_lt] at h3
    have hpos := usize.modulus_pos
    rw [usize.add_eq (by omega)]
    omega

theorem roundBlksize_le {sz : ℕ} (h : sz < usize.modulus) (blksz : ℕ) :
    roundBlksize sz blksz ≤ sz + blksz := by
  unfold roundBlksize
  dsimp only
  split_ifs with h1 h2 h3
  · omega
  · omega
  · omega
  · rw [usize.overflow_iff h] at h3
    rw [usize.add_eq (by omega)]
    omega

/-- `xd3_source`. A null `curblk` is `none`. -/
structure Source where
  blksize : ℕ
  maxWinsize : ℕ := 0
  curblkno : ℕ := 0
  onblk : ℕ := 0
  curblk : Option (List UInt8) := none
  srclen : ℕ := 0
  srcbase : ℕ := 0
  shiftby : ℕ := 0
  maskby : ℕ := 0
  cpyoffBlocks : ℕ := 0
  cpyoffBlkoff : ℕ := 0
  getblkno : ℕ := 0
  maxBlkno : ℕ := 0
  onlastblk : ℕ := 0
  eofKnown : Bool := false
  deriving DecidableEq

namespace Source

def blksizeDiv (source : Source) (offset : ℕ) : ℕ × ℕ :=
  (offset >>> source.shiftby, offset &&& source.maskby)

def blksizeAdd (source : Source) (blkno blkoff add : ℕ) : ℕ × ℕ :=
  let blkoff := usize.add blkoff add
  let blkdiff := blkoff >>> source.shiftby
  if blkdiff ≠ 0 then (xoff.add blkno blkdiff, blkoff &&& source.maskby) else (blkno, blkoff)

/-- What `xd3_set_source` establishes for a power-of-two block size. -/
structure Shaped (source : Source) : Prop where
  shiftby_lt : source.shiftby < 64
  blksize_eq : source.blksize = 2 ^ source.shiftby
  maskby_eq : source.maskby = 2 ^ source.shiftby - 1

theorem Shaped.blksizeDiv_eq {source : Source} (h : source.Shaped) (offset : ℕ) :
    source.blksizeDiv offset = (offset / source.blksize, offset % source.blksize) := by
  rw [blksizeDiv, h.maskby_eq, h.blksize_eq, Nat.shiftRight_eq_div_pow,
    Nat.and_two_pow_sub_one_eq_mod]

theorem Shaped.blksizeAdd_eq {source : Source} (h : source.Shaped) {blkno blkoff add : ℕ}
    (hoff : blkoff + add < usize.modulus)
    (hno : blkno + (blkoff + add) / source.blksize < xoff.modulus) :
    source.blksizeAdd blkno blkoff add =
      (blkno + (blkoff + add) / source.blksize, (blkoff + add) % source.blksize) := by
  rw [blksizeAdd, usize.add_eq hoff, h.maskby_eq, Nat.shiftRight_eq_div_pow,
    Nat.and_two_pow_sub_one_eq_mod, ← h.blksize_eq]
  by_cases hd : (blkoff + add) / source.blksize = 0
  · have hpos : 0 < source.blksize := h.blksize_eq ▸ Nat.two_pow_pos _
    rw [if_neg (not_not_intro hd), hd, Nat.add_zero,
      Nat.mod_eq_of_lt ((Nat.div_eq_zero_iff_lt hpos).mp hd)]
  · rw [if_pos hd, xoff.add_eq hno]

/-- The offset into a block is below the block size, even when the address sum has wrapped. -/
theorem Shaped.blksizeAdd_lt {source : Source} (h : source.Shaped) (blkno blkoff add : ℕ) :
    (source.blksizeAdd blkno blkoff add).2 < source.blksize := by
  have hpos : 0 < source.blksize := h.blksize_eq ▸ Nat.two_pow_pos _
  rw [blksizeAdd, h.maskby_eq, Nat.shiftRight_eq_div_pow, Nat.and_two_pow_sub_one_eq_mod,
    ← h.blksize_eq]
  by_cases hd : usize.add blkoff add / source.blksize = 0
  · rw [if_neg (not_not_intro hd)]
    exact (Nat.div_eq_zero_iff_lt hpos).mp hd
  · rw [if_pos hd]
    exact Nat.mod_lt _ hpos

/-- Block `blkno` of a file. -/
def block (file : List UInt8) (blksize blkno : ℕ) : List UInt8 :=
  (file.drop (blkno * blksize)).take blksize

theorem length_block (file : List UInt8) (blksize blkno : ℕ) :
    (block file blksize blkno).length = min blksize (file.length - blkno * blksize) := by
  rw [block, List.length_take, List.length_drop]

/-- The application's faithful answer to a request for block `blkno` of `file`. -/
def serve (file : List UInt8) (source : Source) (blkno : ℕ) : Source :=
  { source with
    curblkno := blkno
    curblk := some (block file source.blksize blkno)
    onblk := (block file source.blksize blkno).length }

def Holds (file : List UInt8) (source : Source) : Prop :=
  ∀ b, source.curblk = some b →
    b = block file source.blksize source.curblkno ∧ source.onblk = b.length

theorem block_length_le (file : List UInt8) (blksize blkno : ℕ) :
    (block file blksize blkno).length ≤ blksize := List.length_take_le _ _

theorem serve_holds (file : List UInt8) (source : Source) (blkno : ℕ) :
    (source.serve file blkno).Holds file := by
  intro b hb
  cases hb
  exact ⟨rfl, rfl⟩

theorem Shaped.serve {source : Source} (h : source.Shaped) (file : List UInt8) (blkno : ℕ) :
    (source.serve file blkno).Shaped := ⟨h.shiftby_lt, h.blksize_eq, h.maskby_eq⟩

/-- The end of the source as far as it is known, `xd3_source_eof`. -/
def eof (source : Source) : ℕ :=
  xoff.add ((source.maxBlkno <<< source.shiftby) % xoff.modulus) source.onlastblk

def bytesOnSrcblk (source : Source) (blkno : ℕ) : ℕ :=
  if blkno = source.maxBlkno then source.onlastblk else source.blksize

end Source

/-- `stream->getblk`: the application's function, which returns its code, 0 being `none`. -/
abbrev GetblkFunc := Source → ℕ → Source × Option Ret

/-- The application's function that reads the block asked for from `file`. -/
def serveFile (file : List UInt8) : GetblkFunc := fun source blkno => (source.serve file blkno, none)

/-- The bookkeeping of `xd3_getblk` once the block is there. -/
def noteBlock (blkno : ℕ) (source : Source) : Source :=
  let source :=
    if source.maxBlkno < blkno then
      { source with
        maxBlkno := blkno
        eofKnown := if source.onblk = source.blksize then source.eofKnown else true }
    else source
  if blkno = source.maxBlkno then { source with onlastblk := source.onblk } else source

def getblk (app : Option GetblkFunc) (blkno : ℕ) : Routine Source Stop Unit := fun source =>
  if source.curblk = none ∨ blkno ≠ source.curblkno then
    let source := { source with getblkno := blkno }
    match app with
    | none => .stop ⟨.getsrcblk, some "getblk source input"⟩ source
    | some f =>
      match f source blkno with
      | (source, some ret) => .stop ⟨ret, none⟩ source
      | (source, none) => .ok () (noteBlock blkno source)
  else .ok () (noteBlock blkno source)

end Xdelta
