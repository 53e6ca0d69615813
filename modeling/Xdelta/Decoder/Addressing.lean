import Xdelta.Decoder.Safety
import Mathlib.Logic.Relation

/-!
# Block addresses of source copies

A copy address below `dec_cpylen` is split into a block number and an offset by
adding it, in `usize_t`, to the split of `dec_cpyoff`. The offset arithmetic is
given for both widths of `usize_t`; `xoff_t` has 64 bits in both.
-/
namespace Xdelta
open Chunked

namespace Source

/-- `xd3_blksize_add` with `usize_t` of width `W`. -/
def blksizeAddAt (W : Width) (source : Source) (blkno blkoff add : ℕ) : ℕ × ℕ :=
  let blkoff := W.add blkoff add
  let blkdiff := blkoff >>> source.shiftby
  if blkdiff ≠ 0 then (xoff.add blkno blkdiff, blkoff &&& source.maskby) else (blkno, blkoff)

theorem blksizeAddAt_usize (source : Source) : source.blksizeAddAt usize = source.blksizeAdd := rfl

/-- The block and offset that `xd3_decode_output_halfinst` computes for `addr`. -/
def locate (W : Width) (source : Source) (cpyoff addr : ℕ) : ℕ × ℕ :=
  source.blksizeAddAt W (source.blksizeDiv cpyoff).1 (source.blksizeDiv cpyoff).2 addr

end Source

/-- What the header checks leave of a copy window, in the words of
`XOFF_T_OVERFLOW` and `USIZE_T_OVERFLOW`. -/
structure CopyWindow (W : Width) where
  cpyoff : ℕ
  cpylen : ℕ
  tgtlen : ℕ
  cpyoff_lt : cpyoff < xoff.modulus
  cpylen_lt : cpylen < W.modulus
  file : xoff.overflow cpyoff cpylen = false
  target : W.overflow cpylen tgtlen = false
  hard : tgtlen ≤ hardMaxWinsize

def Window.Headed.copyWindow {w : Window} (h : w.Headed) (hoff : w.decCpyoff < xoff.modulus) :
    CopyWindow usize where
  cpyoff := w.decCpyoff
  cpylen := w.decCpylen
  tgtlen := w.decTgtlen
  cpyoff_lt := hoff
  cpylen_lt := lt_of_le_of_lt (Nat.le_add_right _ _) h.below
  file := by
    rw [← Bool.not_eq_true, xoff.overflow_iff hoff, Nat.not_le]
    exact h.offset
  target := by
    rw [← Bool.not_eq_true, usize.overflow_iff (lt_of_le_of_lt (Nat.le_add_right _ _) h.below),
      Nat.not_le]
    exact h.below
  hard := h.tgtlen

/-- A block size that `xd3_set_source` accepts: a power of two up to `USIZE_T_MAXBLKSZ`. -/
structure Source.ShapedAt (W : Width) (source : Source) : Prop extends source.Shaped where
  shiftby_lt_bits : source.shiftby < W.bits

/-- What is left of a copy, `(addr, size)`, after one pass through the source branch;
`none` when the block at hand finishes it. -/
def copyNext (W : Width) (source : Source) (cpyoff : ℕ) (c : ℕ × ℕ) : Option (ℕ × ℕ) :=
  let blkoff := (source.locate W cpyoff c.1).2
  if W.add blkoff c.2 ≤ source.blksize then none
  else some (W.add c.1 (W.sub source.blksize blkoff), W.sub c.2 (W.sub source.blksize blkoff))

/-- The passes a copy can come to. -/
def CopyReaches (W : Width) (source : Source) (cpyoff : ℕ) : ℕ × ℕ → ℕ × ℕ → Prop :=
  Relation.ReflTransGen fun c d => copyNext W source cpyoff c = some d

/-- The address is split into the block and the offset that hold it. -/
def LocatedRight (W : Width) (source : Source) (cpyoff addr : ℕ) : Prop :=
  (source.locate W cpyoff addr).1 * source.blksize + (source.locate W cpyoff addr).2 =
      cpyoff + addr ∧
    (source.locate W cpyoff addr).2 < source.blksize

section Addressing

variable {W : Width} {source : Source} {cpyoff addr : ℕ}

theorem Source.ShapedAt.blksize_pos (h : source.ShapedAt W) : 0 < source.blksize :=
  h.blksize_eq ▸ Nat.two_pow_pos _

theorem Source.ShapedAt.blksize_dvd (h : source.ShapedAt W) : source.blksize ∣ W.modulus := by
  rw [h.blksize_eq]
  exact Nat.pow_dvd_pow 2 (Nat.le_of_lt h.shiftby_lt_bits)

theorem Source.ShapedAt.two_blksize_le (h : source.ShapedAt W) :
    2 * source.blksize ≤ W.modulus := by
  rw [h.blksize_eq, Nat.mul_comm, ← Nat.pow_succ]
  exact Nat.pow_le_pow_right (by decide) h.shiftby_lt_bits

/-- The offset sum wraps, is split by the block size, and carries into the block number. -/
theorem Source.ShapedAt.locate_eq (h : source.ShapedAt W)
    (hfile : cpyoff + addr < xoff.modulus) :
    source.locate W cpyoff addr =
      (cpyoff / source.blksize + W.add (cpyoff % source.blksize) addr / source.blksize,
        (cpyoff + addr) % source.blksize) := by
  have hoff : W.add (cpyoff % source.blksize) addr % source.blksize =
      (cpyoff + addr) % source.blksize := by
    rw [Width.add, Nat.mod_mod_of_dvd _ h.blksize_dvd, Nat.mod_add_mod]
  have hle : W.add (cpyoff % source.blksize) addr ≤ cpyoff % source.blksize + addr :=
    Nat.mod_le _ _
  have hno : cpyoff / source.blksize + W.add (cpyoff % source.blksize) addr / source.blksize <
      xoff.modulus := by
    have hdiv : W.add (cpyoff % source.blksize) addr / source.blksize ≤
        cpyoff % source.blksize + addr := (Nat.div_le_self _ _).trans hle
    have hq : cpyoff / source.blksize + cpyoff % source.blksize ≤ cpyoff := by
      have hsplit := Nat.div_add_mod cpyoff source.blksize
      have hmul : cpyoff / source.blksize ≤ source.blksize * (cpyoff / source.blksize) :=
        Nat.le_mul_of_pos_left _ h.blksize_pos
      omega
    omega
  rw [locate, h.blksizeDiv_eq, blksizeAddAt, h.maskby_eq, Nat.shiftRight_eq_div_pow,
    Nat.and_two_pow_sub_one_eq_mod, ← h.blksize_eq]
  dsimp only
  by_cases hd : W.add (cpyoff % source.blksize) addr / source.blksize = 0
  · rw [if_neg (not_not_intro hd), hd, Nat.add_zero, ← hoff,
      Nat.mod_eq_of_lt ((Nat.div_eq_zero_iff_lt h.blksize_pos).mp hd)]
  · rw [if_pos hd, xoff.add_eq hno, hoff]

/-- An address is split right as long as the offset sum does not wrap. -/
theorem locatedRight_iff (h : source.ShapedAt W) (hfile : cpyoff + addr < xoff.modulus) :
    LocatedRight W source cpyoff addr ↔ cpyoff % source.blksize + addr < W.modulus := by
  have hlt : (cpyoff + addr) % source.blksize < source.blksize := Nat.mod_lt _ h.blksize_pos
  have hsplit := Nat.div_add_mod cpyoff source.blksize
  have hsum := Nat.div_add_mod (W.add (cpyoff % source.blksize) addr) source.blksize
  have hoff : W.add (cpyoff % source.blksize) addr % source.blksize =
      (cpyoff + addr) % source.blksize := by
    rw [Width.add, Nat.mod_mod_of_dvd _ h.blksize_dvd, Nat.mod_add_mod]
  rw [LocatedRight, h.locate_eq hfile, and_iff_left hlt, Nat.add_mul, Nat.mul_comm _ source.blksize,
    Nat.mul_comm _ source.blksize]
  constructor
  · intro heq
    have hadd : W.add (cpyoff % source.blksize) addr = cpyoff % source.blksize + addr := by omega
    exact hadd ▸ W.add_lt _ _
  · intro hwrap
    rw [W.add_eq hwrap] at hsum hoff ⊢
    omega

/-- One pass either finishes the copy within the block, or takes the rest of the block. -/
theorem copyNext_eq (h : source.ShapedAt W) (hfile : cpyoff + addr < xoff.modulus) {size : ℕ}
    (hsum : addr + size < W.modulus) (hsize : source.blksize + size < W.modulus) :
    copyNext W source cpyoff (addr, size) =
      if (cpyoff + addr) % source.blksize + size ≤ source.blksize then none
      else some (addr + (source.blksize - (cpyoff + addr) % source.blksize),
        size - (source.blksize - (cpyoff + addr) % source.blksize)) := by
  have hlt : (cpyoff + addr) % source.blksize < source.blksize := Nat.mod_lt _ h.blksize_pos
  rw [copyNext, h.locate_eq hfile]
  dsimp only
  rw [W.add_eq (by omega)]
  split
  · rfl
  · rw [W.sub_eq (by omega) hlt.le, W.sub_eq (by omega) (by omega), W.add_eq (by omega)]

/-- What every pass of a copy keeps: the end of the copy, and bytes left to take. -/
structure CopyWithin (addr size : ℕ) (c : ℕ × ℕ) : Prop where
  sum : c.1 + c.2 = addr + size
  rest : c = (addr, size) ∨ 0 < c.2
  le : c.2 ≤ size

theorem CopyWithin.next (h : source.ShapedAt W) {size : ℕ} {c d : ℕ × ℕ}
    (hc : CopyWithin addr size c) (hfile : cpyoff + (addr + size) < xoff.modulus)
    (hsum : addr + size < W.modulus) (hsize : source.blksize + size < W.modulus)
    (hd : copyNext W source cpyoff c = some d) : CopyWithin addr size d ∧ d.2 < c.2 := by
  obtain ⟨a, n⟩ := c
  obtain ⟨hs, -, hle⟩ := hc
  dsimp only at hs hle
  have hlt : (cpyoff + a) % source.blksize < source.blksize := Nat.mod_lt _ h.blksize_pos
  rw [copyNext_eq h (by omega) (by omega) (by omega)] at hd
  split at hd
  · cases hd
  · cases hd
    dsimp only
    exact ⟨⟨by dsimp only; omega, .inr (by dsimp only; omega), by dsimp only; omega⟩, by omega⟩

theorem CopyReaches.within (h : source.ShapedAt W) {size : ℕ} {c : ℕ × ℕ}
    (hfile : cpyoff + (addr + size) < xoff.modulus) (hsum : addr + size < W.modulus)
    (hsize : source.blksize + size < W.modulus)
    (hc : CopyReaches W source cpyoff (addr, size) c) : CopyWithin addr size c := by
  induction hc with
  | refl => exact ⟨rfl, .inl rfl, le_refl _⟩
  | tail _ hd ih => exact (ih.next h hfile hsum hsize hd).1

/-- If the last byte of the copy lies where the offset sum wraps, some pass starts there. -/
theorem exists_wrapped (h : source.ShapedAt W) {size : ℕ}
    (hfile : cpyoff + (addr + size) < xoff.modulus) (hsum : addr + size < W.modulus)
    (hsize : source.blksize + size < W.modulus) :
    ∀ n c, c.2 = n → CopyWithin addr size c →
      W.modulus ≤ cpyoff % source.blksize + addr + (size - 1) →
      ∃ d, CopyReaches W source cpyoff c d ∧ W.modulus ≤ cpyoff % source.blksize + d.1 := by
  intro n
  induction n using Nat.strong_induction_on with
  | _ n ih =>
    intro c hn hc hwrap
    by_cases hstart : W.modulus ≤ cpyoff % source.blksize + c.1
    · exact ⟨c, .refl, hstart⟩
    · have hin := hc.sum
      have hle := hc.le
      have hnext := @copyNext_eq _ _ cpyoff c.1 h (by omega) c.2 (by omega) (by omega)
      -- the offset sum wraps at a block boundary, which this block ends at or below
      have hdvd : source.blksize ∣ W.modulus := h.blksize_dvd
      have hmod : (cpyoff + c.1) % source.blksize =
          (cpyoff % source.blksize + c.1) % source.blksize := (Nat.mod_add_mod _ _ _).symm
      have hend : cpyoff % source.blksize + c.1 +
          (source.blksize - (cpyoff + c.1) % source.blksize) ≤ W.modulus := by
        obtain ⟨q, hq⟩ := hdvd
        rw [hmod]
        generalize cpyoff % source.blksize + c.1 = x at hstart ⊢
        have hx := Nat.div_add_mod x source.blksize
        have hdiv : x / source.blksize < q := by
          rw [Nat.div_lt_iff_lt_mul h.blksize_pos, Nat.mul_comm, ← hq]
          exact Nat.lt_of_not_le hstart
        have hmul : source.blksize * (x / source.blksize + 1) ≤ source.blksize * q :=
          Nat.mul_le_mul_left _ hdiv
        rw [Nat.mul_add, Nat.mul_one] at hmul
        omega
      have hlt : (cpyoff + c.1) % source.blksize < source.blksize := Nat.mod_lt _ h.blksize_pos
      rcases Option.eq_none_or_eq_some (copyNext W source cpyoff c) with hnone | ⟨d, hd⟩
      · rw [show c = (c.1, c.2) from rfl, hnext] at hnone
        split at hnone
        · rcases hc.rest with hrefl | hpos <;> omega
        · cases hnone
      · obtain ⟨hd', hless⟩ := hc.next h hfile hsum hsize hd
        obtain ⟨e, he, hwe⟩ := ih d.2 (hn ▸ hless) d rfl hd' hwrap
        exact ⟨e, .head hd he, hwe⟩

theorem CopyWindow.file_lt (v : CopyWindow W) : v.cpyoff + v.cpylen < xoff.modulus := by
  rw [← Nat.not_le, ← xoff.overflow_iff v.cpyoff_lt, v.file]
  exact Bool.false_ne_true

theorem CopyWindow.target_lt (v : CopyWindow W) : v.cpylen + v.tgtlen < W.modulus := by
  rw [← Nat.not_le, ← W.overflow_iff v.cpylen_lt, v.target]
  exact Bool.false_ne_true

/-- A copy that passes the parser's check and fits the target lies in the copy window. -/
theorem CopyWindow.inside (v : CopyWindow W) {size : ℕ} (haddr : addr < v.cpylen)
    (hcheck : W.add addr size ≤ v.cpylen) (hroom : size ≤ v.tgtlen) :
    addr + size ≤ v.cpylen := by
  have hbelow := v.target_lt
  rwa [W.add_eq (by omega)] at hcheck

theorem Source.ShapedAt.room (h : source.ShapedAt W) (v : CopyWindow W) {size : ℕ}
    (hroom : size ≤ v.tgtlen) : source.blksize + size < W.modulus := by
  have htwo := h.two_blksize_le
  have hhard : 2 * hardMaxWinsize < W.modulus := by cases W <;> decide
  have htgt := v.hard
  omega

theorem CopyReaches.locatedRight_iff (h : source.ShapedAt W) (v : CopyWindow W) {size : ℕ}
    {c : ℕ × ℕ} (hin : addr + size ≤ v.cpylen) (hroom : size ≤ v.tgtlen)
    (hc : CopyReaches W source v.cpyoff (addr, size) c) :
    LocatedRight W source v.cpyoff c.1 ↔ v.cpyoff % source.blksize + c.1 < W.modulus := by
  have hfile := v.file_lt
  have hwidth := v.cpylen_lt
  have hsum := (hc.within h (by omega) (by omega) (h.room v hroom)).sum
  exact Xdelta.locatedRight_iff h (by omega)

theorem CopyReaches.located (h : source.ShapedAt W) (v : CopyWindow W) {size : ℕ} {c : ℕ × ℕ}
    (hin : addr + size ≤ v.cpylen) (hroom : size ≤ v.tgtlen)
    (hc : CopyReaches W source v.cpyoff (addr, size) c)
    (hlast : v.cpyoff % source.blksize + addr + (size - 1) < W.modulus) :
    LocatedRight W source v.cpyoff c.1 := by
  rw [hc.locatedRight_iff h v hin hroom]
  have hfile := v.file_lt
  have hwidth := v.cpylen_lt
  have hwithin := hc.within h (by omega) (by omega) (h.room v hroom)
  have hsum := hwithin.sum
  rcases hwithin.rest with rfl | hpos
  · exact lt_of_le_of_lt (Nat.le_add_right _ _) hlast
  · omega

def wrappingWindow : CopyWindow .w32 where
  cpyoff := 3
  cpylen := 2 ^ 32 - 2
  tgtlen := 1
  cpyoff_lt := by decide
  cpylen_lt := by decide
  file := by decide
  target := by decide
  hard := by decide

def fourByteBlocks : Source := { blksize := 4, shiftby := 2, maskby := 3 }

theorem fourByteBlocks_shapedAt (W : Width) : fourByteBlocks.ShapedAt W where
  shiftby_lt := by decide
  blksize_eq := rfl
  maskby_eq := rfl
  shiftby_lt_bits := by cases W <;> decide

/-- A copy is read from the right blocks, pass by pass, exactly when the offset
sum of its last byte does not wrap. -/
theorem copy_located_iff (h : source.ShapedAt W) (v : CopyWindow W) {size : ℕ}
    (haddr : addr < v.cpylen) (hcheck : W.add addr size ≤ v.cpylen) (hroom : size ≤ v.tgtlen) :
    (∀ c, CopyReaches W source v.cpyoff (addr, size) c → LocatedRight W source v.cpyoff c.1) ↔
      v.cpyoff % source.blksize + addr + (size - 1) < W.modulus := by
  have hin := v.inside haddr hcheck hroom
  have hfile := v.file_lt
  have hwidth := v.cpylen_lt
  constructor
  · intro hall
    by_contra hwrap
    obtain ⟨d, hd, hwd⟩ := exists_wrapped h (by omega) (by omega) (h.room v hroom) size (addr, size)
      rfl ⟨rfl, .inl rfl, le_refl _⟩ (Nat.le_of_not_lt hwrap)
    have hlt := (hd.locatedRight_iff h v hin hroom).mp (hall d hd)
    exact absurd hlt (Nat.not_lt.mpr hwd)
  · exact fun hlast c hc => hc.located h v hin hroom hlast

theorem copy_located_iff_five :
    (5 < wrappingWindow.cpylen ∧ Width.w32.add 5 1 ≤ wrappingWindow.cpylen) ∧
      ((∀ c, CopyReaches .w32 fourByteBlocks wrappingWindow.cpyoff (5, 1) c →
          LocatedRight .w32 fourByteBlocks wrappingWindow.cpyoff c.1) ↔
        wrappingWindow.cpyoff % fourByteBlocks.blksize + 5 + (1 - 1) < Width.w32.modulus) :=
  ⟨⟨by decide, by decide⟩,
    copy_located_iff (fourByteBlocks_shapedAt _) wrappingWindow (by decide) (by decide) (by decide)⟩

/-- With a 64-bit `usize_t` the offset sum never wraps. -/
theorem copy_located_usize (h : source.ShapedAt usize) (v : CopyWindow usize) {size : ℕ}
    (haddr : addr < v.cpylen) (hcheck : usize.add addr size ≤ v.cpylen) (hroom : size ≤ v.tgtlen)
    (c : ℕ × ℕ) (hc : CopyReaches usize source v.cpyoff (addr, size) c) :
    LocatedRight usize source v.cpyoff c.1 := by
  have hin := v.inside haddr hcheck hroom
  have hmod := Nat.mod_le v.cpyoff source.blksize
  exact hc.located h v hin hroom (lt_of_le_of_lt (by omega : _ ≤ v.cpyoff + v.cpylen) v.file_lt)

/-- The block number of a copy the decoder accepts can come out wrong. -/
theorem copy_not_located : ¬ ∀ (W : Width) (source : Source) (v : CopyWindow W) (addr size : ℕ),
    source.ShapedAt W → addr < v.cpylen → W.add addr size ≤ v.cpylen → size ≤ v.tgtlen →
    ∀ c, CopyReaches W source v.cpyoff (addr, size) c → LocatedRight W source v.cpyoff c.1 := by
  intro hall
  have hloc := hall .w32 fourByteBlocks wrappingWindow (2 ^ 32 - 3) 1 (fourByteBlocks_shapedAt _)
    (by decide) (by decide) (by decide) _ .refl
  have hwrong : ¬ (fourByteBlocks.locate .w32 3 (2 ^ 32 - 3)).1 * 4 +
      (fourByteBlocks.locate .w32 3 (2 ^ 32 - 3)).2 = 3 + (2 ^ 32 - 3) := by decide
  exact hwrong hloc.1

end Addressing

/-- A pass through the source branch leaves of the copy what `copyNext` says. -/
theorem outputSourceCopy_next {app : Option GetblkFunc} {h : Half} {w w' : Window}
    {source : Source} (hsrc : w.src = some source)
    (hloc : (source.cpyoffBlocks, source.cpyoffBlkoff) = source.blksizeDiv w.decCpyoff)
    (hok : outputSourceCopy app h w = .ok () w') :
    w'.half h =
      match copyNext usize source w.decCpyoff ((w.half h).addr, (w.half h).size) with
      | none => { w.half h with type := .noop, size := 0 }
      | some (addr, size) => { w.half h with addr := addr, size := size } := by
  have hblocks : source.cpyoffBlocks = (source.blksizeDiv w.decCpyoff).1 := congrArg Prod.fst hloc
  have hblkoff : source.cpyoffBlkoff = (source.blksizeDiv w.decCpyoff).2 := congrArg Prod.snd hloc
  have hcopy : ∀ (v : Window) (blkoff take : ℕ) (left : Hinst),
      copyBlock h blkoff take left v = .ok () w' → w'.half h = left := by
    intro v blkoff take left hv
    unfold copyBlock at hv
    split at hv
    · cases hv
    · split at hv
      · cases hv
      · split at hv
        · cases hv
        · unfold writeOut at hv
          split at hv
          · cases hv
            cases h <;> rfl
          · cases hv
  unfold outputSourceCopy at hok
  rw [hsrc] at hok
  dsimp only at hok
  rw [hblocks, hblkoff] at hok
  unfold copyNext Source.locate
  rw [Source.blksizeAddAt_usize]
  generalize source.blksizeAdd (source.blksizeDiv w.decCpyoff).1
    (source.blksizeDiv w.decCpyoff).2 (w.half h).addr = blk at hok ⊢
  dsimp only
  split at hok
  · split at hok <;> cases hok
  · split at hok
    · cases hok
    · split at hok
      · rename_i hfits
        rw [if_pos hfits]
        exact hcopy _ _ _ _ hok
      · rename_i hfits
        rw [if_neg hfits]
        exact hcopy _ _ _ _ hok
  · cases hok
  · cases hok

end Xdelta
