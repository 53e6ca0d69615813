import Xdelta.ForwardCache
import Mathlib.Order.Bounds.Basic

/-!
# The least source window

With `XD3_SRCWIN_STATS` the encoder computes, from the source copies in the
order it encodes them, the least source window with which a decoder can read
the source strictly forward.
-/
namespace Xdelta
open Fifo

/-- `XD3_MINSRCWINSZ`. -/
def minSrcWinsz : ℕ := allocSize

/-- `XD3_MAXSRCWINSZ` with `usize_t` of width `W`. -/
def maxSrcWinszAt : Width → ℕ
  | .w32 => 2 ^ 31
  | .w64 => maxSrcWinsz

structure SrcwinStats where
  sourceCopyHighwater : ℕ := 0
  sourceWindowMin : ℕ := 0
  deriving DecidableEq

/-- `retained`: the bytes of whole blocks from the one of `addr` to the high water mark. -/
def retained (highwater addr window : ℕ) : ℕ :=
  let blockSize := window / maxLruSize
  let blockMask := xoff.sub blockSize 1
  let notMask := xoff.modulus - 1 - blockMask
  xoff.add (xoff.sub (highwater &&& notMask) (addr &&& notMask))
    (if highwater &&& blockMask ≠ 0 then blockSize else 0)

/-- The loop of `xd3_source_window_update`; `none` where its assertion fails. -/
def widenWindow (W : Width) (highwater addr : ℕ) : ℕ → ℕ → Option ℕ
  | 0, _ => none
  | fuel + 1, window =>
    if retained highwater addr window ≤ window then some window
    else if window ≤ maxSrcWinszAt W / 2 then
      widenWindow W highwater addr fuel (window * 2 % xoff.modulus)
    else none

/-- `xd3_source_window_update`. An `xoff_t` is doubled at most 64 times before it is zero. -/
def sourceWindowUpdate (W : Width) (stats : SrcwinStats) (addr size : ℕ) : Option SrcwinStats :=
  let window := if stats.sourceWindowMin = 0 then minSrcWinsz else stats.sourceWindowMin
  let copyEnd := xoff.add addr size
  let widened :=
    if addr < stats.sourceCopyHighwater then
      widenWindow W stats.sourceCopyHighwater addr 64 window
    else some window
  widened.map fun window => ⟨max stats.sourceCopyHighwater copyEnd, window⟩

/-- A copy from the source; the matcher finds none shorter than `MIN_MATCH`. -/
structure SourceCopy where
  addr : ℕ
  size : ℕ
  size_pos : 0 < size

def sourceWindowUpdates (W : Width) (stats : SrcwinStats) (copies : List SourceCopy) :
    Option SrcwinStats :=
  copies.foldlM (fun stats c => sourceWindowUpdate W stats c.addr c.size) stats

def SourceCopy.blocks (blksize : ℕ) (c : SourceCopy) : List ℕ :=
  List.range' (c.addr / blksize) ((c.addr + c.size - 1) / blksize - c.addr / blksize + 1)

def SourceCopy.serve (blksize : ℕ) (r : Cache) (c : SourceCopy) : Option Cache :=
  r.serve maxLruSize (c.addr / blksize)
    ((c.addr + c.size - 1) / blksize - c.addr / blksize + 1)

/-- A FIFO cache of `MAX_LRU_SIZE` slots that make up `window` serves the copies in order. -/
def Serves (window : ℕ) (copies : List SourceCopy) : Prop :=
  (copies.foldlM (SourceCopy.serve (window / maxLruSize)) ({} : Cache)).isSome = true

/-- No copy starts more than `MAX_LRU_SIZE` blocks before the end of what has been read. -/
def Fits (blksize : ℕ) : ℕ → List SourceCopy → Prop
  | _, [] => True
  | highwater, c :: cs =>
    highwater ≤ (c.addr / blksize + maxLruSize) * blksize ∧
      Fits blksize (max highwater (c.addr + c.size)) cs

section Serving

variable {blksize : ℕ}

theorem SourceCopy.serve_upto (c : SourceCopy) (p : ℕ) :
    c.serve blksize (Cache.upto maxLruSize p) =
      if p ≤ c.addr / blksize + maxLruSize then
        some (Cache.upto maxLruSize (max p ((c.addr + c.size - 1) / blksize + 1)))
      else none := by
  have hpos := c.size_pos
  have hle : c.addr / blksize ≤ (c.addr + c.size - 1) / blksize :=
    Nat.div_le_div_right (by omega)
  rw [SourceCopy.serve, Cache.serve_upto (by decide), Nat.add_sub_cancel' hle]

/-- The copies are served exactly when they fit, `p` being the number of blocks read. -/
theorem foldlM_serve (hb : 0 < blksize) (copies : List SourceCopy) {p highwater : ℕ}
    (hp : ∀ n, p ≤ n ↔ highwater ≤ n * blksize) :
    (copies.foldlM (SourceCopy.serve blksize) (Cache.upto maxLruSize p)).isSome = true ↔
      Fits blksize highwater copies := by
  induction copies generalizing p highwater with
  | nil => exact iff_of_true rfl trivial
  | cons c cs ih =>
    rw [List.foldlM_cons, c.serve_upto, Fits, ← hp]
    by_cases hfit : p ≤ c.addr / blksize + maxLruSize
    · rw [if_pos hfit, and_iff_right hfit]
      refine ih fun n => ?_
      have hpos := c.size_pos
      rw [max_le_iff, max_le_iff, hp, Nat.succ_le_iff, Nat.div_lt_iff_lt_mul hb]
      omega
    · rw [if_neg hfit]
      exact iff_of_false (by simp) fun h => hfit h.1

theorem serves_iff {window : ℕ} (hb : 0 < window / maxLruSize) (copies : List SourceCopy) :
    Serves window copies ↔ Fits (window / maxLruSize) 0 copies :=
  foldlM_serve hb copies (p := 0) fun _ => iff_of_true (Nat.zero_le _) (Nat.zero_le _)

/-- A window that suffices for one copy suffices when doubled. -/
theorem le_double {highwater addr : ℕ}
    (h : highwater ≤ (addr / blksize + maxLruSize) * blksize) :
    highwater ≤ (addr / (2 * blksize) + maxLruSize) * (2 * blksize) := by
  have hhalf : addr / blksize ≤ 2 * (addr / (2 * blksize)) + 1 := by
    rw [Nat.mul_comm 2 blksize, ← Nat.div_div_eq_div_mul]
    omega
  have hmul : addr / blksize * blksize ≤ (2 * (addr / (2 * blksize)) + 1) * blksize :=
    Nat.mul_le_mul_right _ hhalf
  have hexp : (addr / (2 * blksize) + maxLruSize) * (2 * blksize) =
      2 * (addr / (2 * blksize)) * blksize + 64 * blksize := by
    rw [Nat.add_mul, maxLruSize, ← Nat.mul_assoc, Nat.mul_comm _ 2]
    omega
  rw [Nat.add_mul, maxLruSize] at h
  rw [Nat.add_mul, Nat.one_mul] at hmul
  omega

theorem Fits.double {copies : List SourceCopy} {highwater : ℕ}
    (h : Fits blksize highwater copies) : Fits (2 * blksize) highwater copies := by
  induction copies generalizing highwater with
  | nil => trivial
  | cons c cs ih => exact ⟨le_double h.1, ih h.2⟩

end Serving

def windowOf (k : ℕ) : ℕ := minSrcWinsz * 2 ^ k

def blockOf (k : ℕ) : ℕ := 2 ^ (9 + k)

theorem windowOf_div (k : ℕ) : windowOf k / maxLruSize = blockOf k := by
  rw [windowOf, blockOf, pow_add, show minSrcWinsz = 2 ^ 9 * maxLruSize from rfl, Nat.mul_right_comm,
    Nat.mul_div_cancel _ (by decide)]

theorem windowOf_eq (k : ℕ) : windowOf k = maxLruSize * blockOf k := by
  rw [windowOf, blockOf, pow_add, show minSrcWinsz = maxLruSize * 2 ^ 9 from rfl, Nat.mul_assoc]

theorem blockOf_succ (k : ℕ) : blockOf (k + 1) = 2 * blockOf k := by
  rw [blockOf, blockOf, ← Nat.add_assoc, pow_succ, Nat.mul_comm]

theorem windowOf_succ (k : ℕ) : windowOf (k + 1) = windowOf k * 2 := by
  rw [windowOf, windowOf, pow_succ, Nat.mul_assoc]

theorem blockOf_pos (k : ℕ) : 0 < blockOf k := Nat.two_pow_pos _

def maxExp : Width → ℕ
  | .w32 => 17
  | .w64 => 47

theorem maxSrcWinszAt_eq (W : Width) : maxSrcWinszAt W = windowOf (maxExp W) := by
  cases W <;> decide

theorem windowOf_le {j k : ℕ} : windowOf j ≤ windowOf k ↔ j ≤ k := by
  rw [windowOf, windowOf, Nat.mul_le_mul_left_iff (by decide), Nat.pow_le_pow_iff_right (by decide)]

theorem windowOf_le_max {W : Width} {k : ℕ} (hk : k ≤ maxExp W) : windowOf k ≤ 2 ^ 61 := by
  refine (windowOf_le.mpr hk).trans ?_
  cases W <;> decide

/-- The blocks from that of `addr` to the high water mark fill the window at most. -/
theorem retained_le_iff {k highwater addr : ℕ} (hk : windowOf k ≤ 2 ^ 61)
    (hhigh : highwater ≤ 2 ^ 61) (haddr : addr < highwater) :
    retained highwater addr (windowOf k) ≤ windowOf k ↔
      highwater ≤ (addr / blockOf k + maxLruSize) * blockOf k := by
  have hb := blockOf_pos k
  have hwin := windowOf_eq k
  have hk64 : 9 + k ≤ 64 := by
    by_contra hlt
    have hbig : 2 ^ 64 ≤ blockOf k := Nat.pow_le_pow_right (by decide) (by omega)
    rw [maxLruSize] at hwin
    omega
  have hnot : ∀ x, x < 2 ^ 64 →
      x &&& (xoff.modulus - 1 - (blockOf k - 1)) = x / blockOf k * blockOf k := by
    intro x hx
    have hmask : xoff.modulus - 1 - (blockOf k - 1) = (2 ^ (64 - (9 + k)) - 1) * blockOf k := by
      rw [Nat.sub_mul, Nat.one_mul, blockOf, ← pow_add, Nat.sub_add_cancel hk64]
      have hpos : 0 < 2 ^ (9 + k) := Nat.two_pow_pos _
      change 2 ^ 64 - 1 - _ = _
      omega
    rw [hmask, blockOf, and_mask, Nat.mod_eq_of_lt]
    rw [Nat.div_lt_iff_lt_mul (Nat.two_pow_pos _), ← pow_add, Nat.sub_add_cancel hk64]
    exact hx
  have hmod : xoff.modulus = 2 ^ 64 := rfl
  have hblock : blockOf k ≤ 2 ^ 61 := by
    rw [maxLruSize] at hwin
    omega
  have hand : highwater &&& (blockOf k - 1) = highwater % blockOf k :=
    Nat.and_two_pow_sub_one_eq_mod _ _
  have hhsplit := Nat.div_add_mod highwater (blockOf k)
  have hasplit := Nat.div_add_mod addr (blockOf k)
  have hhlt := Nat.mod_lt highwater hb
  have hfloor : addr / blockOf k * blockOf k ≤ highwater / blockOf k * blockOf k :=
    Nat.mul_le_mul_right _ (Nat.div_le_div_right haddr.le)
  rw [Nat.mul_comm] at hhsplit hasplit
  rw [retained, windowOf_div, xoff.sub_eq (by omega) hb, hnot _ (by omega), hnot _ (by omega), hand,
    xoff.sub_eq (by omega) hfloor, hwin, Nat.add_mul]
  have hnext : highwater / blockOf k * blockOf k < addr / blockOf k * blockOf k +
      maxLruSize * blockOf k → highwater / blockOf k * blockOf k + blockOf k ≤
        addr / blockOf k * blockOf k + maxLruSize * blockOf k := by
    intro h
    rw [← Nat.add_mul] at h ⊢
    rw [← Nat.succ_mul]
    exact Nat.mul_le_mul_right _ (Nat.lt_of_mul_lt_mul_right h)
  generalize highwater / blockOf k * blockOf k = hq at *
  generalize addr / blockOf k * blockOf k = aq at *
  by_cases hrem : highwater % blockOf k = 0
  · rw [if_neg (not_not_intro hrem), xoff.add_eq (by omega)]
    omega
  · rw [if_pos hrem, xoff.add_eq (by omega)]
    omega

/-- The high water mark fits the greatest window, from any address. -/
theorem le_of_maxExp {W : Width} {highwater addr : ℕ} (h : highwater ≤ maxSrcWinszAt W) :
    highwater ≤ (addr / blockOf (maxExp W) + maxLruSize) * blockOf (maxExp W) := by
  rw [maxSrcWinszAt_eq, windowOf_eq] at h
  rw [Nat.add_mul]
  omega

/-- The loop ends at the least window from `k` on that the copy at `addr` fits. -/
theorem widenWindow_least {W : Width} {highwater addr : ℕ} (hhigh : highwater ≤ maxSrcWinszAt W)
    (haddr : addr < highwater) {fuel k : ℕ} (hk : k ≤ maxExp W) (hfuel : maxExp W - k < fuel) :
    ∃ k', k ≤ k' ∧ k' ≤ maxExp W ∧
      widenWindow W highwater addr fuel (windowOf k) = some (windowOf k') ∧
      highwater ≤ (addr / blockOf k' + maxLruSize) * blockOf k' ∧
      ∀ j, k ≤ j → highwater ≤ (addr / blockOf j + maxLruSize) * blockOf j → k' ≤ j := by
  have hmax : maxSrcWinszAt W ≤ 2 ^ 61 := by cases W <;> decide
  induction fuel generalizing k with
  | zero => exact absurd hfuel (Nat.not_lt_zero _)
  | succ fuel ih =>
    have hiff := retained_le_iff (windowOf_le_max hk) (hhigh.trans hmax) haddr
    rw [widenWindow]
    by_cases hfit : highwater ≤ (addr / blockOf k + maxLruSize) * blockOf k
    · exact ⟨k, le_refl _, hk, if_pos (hiff.mpr hfit), hfit, fun j hj _ => hj⟩
    · have hlt : k < maxExp W := lt_of_le_of_ne hk fun h => hfit (h ▸ le_of_maxExp hhigh)
      have hnext : windowOf k * 2 ≤ maxSrcWinszAt W := by
        rw [← windowOf_succ, maxSrcWinszAt_eq]
        exact windowOf_le.mpr hlt
      rw [if_neg fun h => hfit (hiff.mp h), if_pos (by omega), Nat.mod_eq_of_lt
        (lt_of_le_of_lt (hnext.trans hmax) (by decide)), ← windowOf_succ]
      obtain ⟨k', hkk, hk', hw, hf, hleast⟩ := ih (Nat.succ_le_of_lt hlt) (by omega)
      refine ⟨k', by omega, hk', hw, hf, fun j hj hfj => ?_⟩
      rcases Nat.eq_or_lt_of_le hj with rfl | hlt
      · exact absurd hfj hfit
      · exact hleast j hlt hfj

/-- One call: the window grows to the least that the copy fits. -/
theorem sourceWindowUpdate_least {W : Width} {stats : SrcwinStats} {k : ℕ} (c : SourceCopy)
    (hwin : (if stats.sourceWindowMin = 0 then minSrcWinsz else stats.sourceWindowMin) = windowOf k)
    (hk : k ≤ maxExp W) (hhigh : stats.sourceCopyHighwater ≤ maxSrcWinszAt W)
    (hend : c.addr + c.size ≤ maxSrcWinszAt W) :
    ∃ k', k ≤ k' ∧ k' ≤ maxExp W ∧
      sourceWindowUpdate W stats c.addr c.size =
        some ⟨max stats.sourceCopyHighwater (c.addr + c.size), windowOf k'⟩ ∧
      stats.sourceCopyHighwater ≤ (c.addr / blockOf k' + maxLruSize) * blockOf k' ∧
      ∀ j, k ≤ j → stats.sourceCopyHighwater ≤ (c.addr / blockOf j + maxLruSize) * blockOf j →
        k' ≤ j := by
  have hmax : maxSrcWinszAt W < xoff.modulus := by cases W <;> decide
  rw [sourceWindowUpdate, hwin, xoff.add_eq (lt_of_le_of_lt hend hmax)]
  by_cases hback : c.addr < stats.sourceCopyHighwater
  · have hexp : maxExp W < 64 := by cases W <;> decide
    obtain ⟨k', hkk, hk', hw, hf, hleast⟩ :=
      widenWindow_least hhigh hback hk (by omega : maxExp W - k < 64)
    rw [if_pos hback, hw]
    exact ⟨k', hkk, hk', rfl, hf, hleast⟩
  · rw [if_neg hback]
    refine ⟨k, le_refl _, hk, rfl, ?_, fun j hj _ => hj⟩
    have hb := blockOf_pos k
    have hlt : c.addr < (c.addr / blockOf k + 1) * blockOf k :=
      (Nat.div_lt_iff_lt_mul hb).mp (Nat.lt_succ_self _)
    have hle : (c.addr / blockOf k + 1) * blockOf k ≤
        (c.addr / blockOf k + maxLruSize) * blockOf k :=
      Nat.mul_le_mul_right _ (Nat.add_le_add_left (by decide) _)
    omega

theorem Fits.mono {j k highwater : ℕ} (hjk : j ≤ k) {copies : List SourceCopy}
    (h : Fits (blockOf j) highwater copies) : Fits (blockOf k) highwater copies := by
  induction hjk with
  | refl => exact h
  | step _ ih =>
    rw [Nat.succ_eq_add_one, blockOf_succ]
    exact ih.double

/-- All calls: the window grows to the least that all copies fit. -/
theorem sourceWindowUpdates_least {W : Width} (copies : List SourceCopy)
    (hend : ∀ c ∈ copies, c.addr + c.size ≤ maxSrcWinszAt W) {stats : SrcwinStats} {k : ℕ}
    (hwin : (if stats.sourceWindowMin = 0 then minSrcWinsz else stats.sourceWindowMin) = windowOf k)
    (hk : k ≤ maxExp W) (hhigh : stats.sourceCopyHighwater ≤ maxSrcWinszAt W) :
    ∃ stats' k', k ≤ k' ∧ sourceWindowUpdates W stats copies = some stats' ∧
      (copies ≠ [] → stats'.sourceWindowMin = windowOf k') ∧
      Fits (blockOf k') stats.sourceCopyHighwater copies ∧
      ∀ j, k ≤ j → Fits (blockOf j) stats.sourceCopyHighwater copies → k' ≤ j := by
  induction copies generalizing stats k with
  | nil => exact ⟨stats, k, le_refl _, rfl, fun h => absurd rfl h, trivial, fun j hj _ => hj⟩
  | cons c cs ih =>
    obtain ⟨hc, hcs⟩ := List.forall_mem_cons.mp hend
    obtain ⟨i, hki, hi, hu, hf, hleast⟩ := sourceWindowUpdate_least c hwin hk hhigh hc
    have hnonzero : windowOf i ≠ 0 := by
      rw [windowOf_eq]
      exact (Nat.mul_pos (by decide) (blockOf_pos i)).ne'
    obtain ⟨stats', k', hik, hus, hw, hfs, hleasts⟩ :=
      @ih hcs ⟨max stats.sourceCopyHighwater (c.addr + c.size), windowOf i⟩ i (if_neg hnonzero) hi
        (max_le hhigh hc)
    refine ⟨stats', k', hki.trans hik, ?_, fun _ => ?_, ⟨?_, hfs⟩, fun j hj hfj => ?_⟩
    · rw [sourceWindowUpdates, List.foldlM_cons, hu]
      exact hus
    · cases cs with
      | nil =>
        cases hus
        exact congrArg windowOf (le_antisymm hik (hleasts i (le_refl _) trivial))
      | cons d ds => exact hw (List.cons_ne_nil _ _)
    · have hone : Fits (blockOf i) stats.sourceCopyHighwater [c] := ⟨hf, trivial⟩
      exact (hone.mono hik).1
    · exact hleasts j (hleast j hj hfj.1) hfj.2

/-- After the last copy, `source_window_min` is the least window of its form with which
a FIFO cache serves all of them. -/
theorem sourceWindowMin_isLeast (W : Width) {copies : List SourceCopy} (hne : copies ≠ [])
    (hend : ∀ c ∈ copies, c.addr + c.size ≤ maxSrcWinszAt W) :
    ∃ stats, sourceWindowUpdates W {} copies = some stats ∧
      IsLeast {window | (∃ k, window = minSrcWinsz * 2 ^ k) ∧ Serves window copies}
        stats.sourceWindowMin := by
  obtain ⟨stats, k, -, hu, hw, hf, hleast⟩ :=
    @sourceWindowUpdates_least W copies hend {} 0 rfl (Nat.zero_le _) (Nat.zero_le _)
  have hserves : ∀ j, Serves (windowOf j) copies ↔ Fits (blockOf j) 0 copies := by
    intro j
    rw [serves_iff (by rw [windowOf_div]; exact blockOf_pos j), windowOf_div]
  refine ⟨stats, hu, ?_⟩
  rw [hw hne]
  constructor
  · exact ⟨⟨k, rfl⟩, (hserves k).mpr hf⟩
  · rintro window ⟨⟨j, rfl⟩, hs⟩
    exact windowOf_le.mpr (hleast j (Nat.zero_le _) ((hserves j).mp hs))

/-- The copies are served from the first block or from a full cache alike. -/
theorem fits_max {blksize highwater : ℕ} (copies : List SourceCopy) :
    Fits blksize (max highwater (maxLruSize * blksize)) copies ↔ Fits blksize highwater copies := by
  induction copies generalizing highwater with
  | nil => exact Iff.rfl
  | cons c cs ih =>
    have hfull : maxLruSize * blksize ≤ (c.addr / blksize + maxLruSize) * blksize :=
      Nat.mul_le_mul_right _ (Nat.le_add_left _ _)
    rw [Fits, Fits, max_le_iff, max_right_comm, ih]
    exact and_congr_left' (and_iff_left hfull)

theorem foldlM_blocks (blksize : ℕ) (copies : List SourceCopy) (r : Cache) :
    copies.foldlM (SourceCopy.serve blksize) r =
      (copies.flatMap (SourceCopy.blocks blksize)).foldlM (Cache.request maxLruSize) r := by
  induction copies generalizing r with
  | nil => rfl
  | cons c cs ih =>
    rw [List.foldlM_cons, List.flatMap_cons, List.foldlM_append]
    exact congrArg (SourceCopy.serve blksize r c >>= ·) (funext ih)

/-- A cache of `MAX_LRU_SIZE` slots is the one the program keeps of a file that cannot seek and
whose size is not known: it serves the copies when `main_getblk_func` returns all their blocks. -/
theorem serves_iff_getblkAll {file : List UInt8} (hN : file.length < xoff.modulus) {a : SourceArgs}
    (hmin : allocSize ≤ a.srcwinsz) (hstat : a.stat = none) {window : ℕ}
    (hw : a.window = some window) (hfull : window ≤ file.length) {c : BlkCache}
    (hset : mainSetSource file a = .ok () c) {copies : List SourceCopy}
    (hin : ∀ b ∈ copies.flatMap (SourceCopy.blocks (window / maxLruSize)),
      (b + 1) * (window / maxLruSize) ≤ file.length) :
    Serves window copies ↔
      ∃ c', getblkAll file (copies.flatMap (SourceCopy.blocks (window / maxLruSize))) c =
        .ok () c' := by
  obtain ⟨b, k, hwb, hbk, -, hb, -⟩ := SourceArgs.window_spec hmin hw
  obtain ⟨hforward, hsize, hblk⟩ := mainSetSource_forward hmin hstat hw hfull hset
  have hdiv : window / maxLruSize = b := by
    rw [hwb, Nat.mul_div_cancel_left _ (by decide)]
  have hfilled : maxLruSize * c.source.blksize ≤ file.length := by
    rw [hblk, hdiv, ← hwb]
    exact hfull
  have hread : ∀ n, maxLruSize ≤ n ↔
      max 0 (maxLruSize * (window / maxLruSize)) ≤ n * (window / maxLruSize) := by
    intro n
    rw [Nat.zero_max, Nat.mul_le_mul_right_iff (by omega)]
  rw [getblkAll_forward hN _ hforward (by rw [hblk, hdiv]; exact hb) hfilled
    (by rw [hblk]; exact hin), hsize, ← foldlM_blocks,
    foldlM_serve (by omega) copies hread, fits_max, serves_iff (by omega)]

/-- One byte at 32768 and then one at 1 take a window of 65536. -/
theorem sourceWindowMin_isLeast_two :
    ∃ stats, sourceWindowUpdates .w64 {} [⟨32768, 1, Nat.one_pos⟩, ⟨1, 1, Nat.one_pos⟩] = some stats ∧
      IsLeast {window | (∃ k, window = minSrcWinsz * 2 ^ k) ∧
        Serves window [⟨32768, 1, Nat.one_pos⟩, ⟨1, 1, Nat.one_pos⟩]} stats.sourceWindowMin :=
  sourceWindowMin_isLeast .w64 (List.cons_ne_nil _ _) (by
    intro c hc
    rcases List.mem_cons.mp hc with rfl | hc
    · decide
    · rw [List.mem_singleton.mp hc]
      decide)

example : sourceWindowUpdates .w64 {} [⟨32768, 1, Nat.one_pos⟩, ⟨1, 1, Nat.one_pos⟩] =
    some ⟨32769, 65536⟩ := by decide

end Xdelta
