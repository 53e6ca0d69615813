import Xdelta.SourceEnd

/-!
# The block cache of the program

The program answers requests for source blocks from a small cache, in LRU order or, for a
sequential scan, by the block number. A file that cannot seek is read forward; the blocks
skipped on the way fill slots as well.
-/
namespace Xdelta
open Chunked

/-- `XD3_INVALID_OFFSET`. -/
def invalidOffset : ℕ := xoff.modulus - 1

def maxLruSize : ℕ := 32

/-- `main_blklru`; `blk` is what has been read into the buffer. -/
structure Blklru where
  blk : List UInt8 := []
  blkno : ℕ := 0
  size : ℕ := 0

/-- The cache, the source, and its file. `filePos` is the position the file is really at;
`sourcePosition` is where the program takes it to be. -/
structure BlkCache where
  lruSize : ℕ
  lru : ℕ → Blklru
  lruList : List ℕ
  doSrcFifo : Bool
  lruHits : ℕ := 0
  lruMisses : ℕ := 0
  lruFilled : ℕ := 0
  source : Source
  sourcePosition : ℕ := 0
  seekFailed : Bool := false
  filePos : ℕ := 0

abbrev Cached (α : Type) := Routine BlkCache Stop α

/-- The source holds the block of a slot; `curblk` shows the bytes of the slot. -/
def Source.hold (source : Source) (slot : Blklru) (blkno : ℕ) : Source :=
  { source with
    curblkno := blkno
    onblk := slot.size
    curblk := some (slot.blk.take slot.size) }

/-- Slot `idx` is given to another block. -/
def BlkCache.eject (c : BlkCache) (idx : ℕ) : BlkCache :=
  { c with
    lruFilled := c.lruFilled + 1
    lru := Function.update c.lru idx { c.lru idx with blkno := invalidOffset } }

theorem BlkCache.eject_lru (c : BlkCache) (idx : ℕ) :
    (c.eject idx).lru = Function.update c.lru idx { c.lru idx with blkno := invalidOffset } := rfl

/-- `main_getblk_lru`: the slot, and whether it is new. -/
def mainGetblkLru (blkno : ℕ) : Cached (ℕ × Bool) := fun c =>
  if c.doSrcFifo then
    let idx := blkno % c.lruSize
    if (c.lru idx).blkno = blkno then .ok (idx, false) c
    else if (c.lru idx).blkno ≠ invalidOffset ∧ blkno < (c.lru idx).blkno then
      .stop ⟨.toofarback, none⟩ c
    else .ok (idx, true) (c.eject idx)
  else
    match (List.range c.lruSize).find? fun i => (c.lru i).blkno == blkno with
    | some idx => .ok (idx, false) { c with lruList := c.lruList.erase idx ++ [idx] }
    | none =>
      match c.lruList with
      | [] => .fault
      | idx :: rest => .ok (idx, true) ({ c with lruList := rest ++ [idx] }.eject idx)

/-- `main_read_primary_input` of a block into slot `idx`, which gets the number `blkno`. The
size stays as it is. The result is the number of bytes read. -/
def readInput (file : List UInt8) (idx blkno : ℕ) : Cached ℕ := fun c =>
  let data := (file.drop c.filePos).take c.source.blksize
  let slot := c.lru idx
  .ok data.length { c with
    filePos := c.filePos + data.length
    lru := Function.update c.lru idx
      { slot with blk := data ++ slot.blk.drop data.length, blkno := blkno } }

/-- The size of slot `idx` is set. -/
def BlkCache.setSize (c : BlkCache) (idx size : ℕ) : BlkCache :=
  { c with lru := Function.update c.lru idx { c.lru idx with size := size } }

/-- One block of a file that cannot seek is read past. The slot has its number before the
block is read. -/
def skipBlock (file : List UInt8) : Cached Unit := fun c =>
  match c.source.blksizeDiv c.sourcePosition with
  | (skipBlkno, _) =>
    (mainGetblkLru skipBlkno c).andThen fun (idx, _) c =>
    (readInput file idx skipBlkno c).andThen fun nread c =>
    if nread ≠ c.source.blksize then
      .stop ⟨.invalidInput, some "non-seekable input is short"⟩ c
    else .ok () { c.setSize idx nread with sourcePosition := c.sourcePosition + nread }

/-- The loop that reads up to `pos`. -/
def skipLoop (file : List UInt8) (pos : ℕ) : ℕ → Cached Unit
  | 0 => fun _ => .fault
  | fuel + 1 => fun c =>
    if c.sourcePosition < pos then (skipBlock file c).andThen fun _ => skipLoop file pos fuel
    else .ok () c

/-- `main_read_seek_source`, where `seekOk` is whether `main_file_seek` succeeds. -/
def mainReadSeekSource (file : List UInt8) (seekOk : Bool) (blkno : ℕ) : Cached Unit := fun c =>
  let pos := blkno * c.source.blksize % xoff.modulus
  if c.seekFailed = false ∧ seekOk = true then
    .ok () { c with sourcePosition := pos, filePos := pos }
  else if pos < c.sourcePosition then
    .stop ⟨.toofarback, some "non-seekable source: copy is too far back (try raising -B)"⟩
      { c with seekFailed := true }
  else skipLoop file pos (pos - c.sourcePosition + 1) { c with seekFailed := true }

/-- `main_getblk_func`, `allow_fake_source` off. -/
def mainGetblkFunc (file : List UInt8) (seekOk : Bool) (blkno : ℕ) : Cached Unit := fun c =>
  let pos := blkno * c.source.blksize % xoff.modulus
  (mainGetblkLru blkno c).andThen fun (idx, isNew) c =>
  if isNew = false then
    .ok () { c with lruHits := c.lruHits + 1, source := c.source.hold (c.lru idx) blkno }
  else
    let c := { c with lruMisses := c.lruMisses + 1 }
    (if pos ≠ c.sourcePosition then mainReadSeekSource file seekOk blkno c
      else .ok () c).andThen fun _ c =>
    (readInput file idx blkno c).andThen fun nread c =>
    let c := c.setSize idx nread
    .ok () { c with
      sourcePosition := pos + nread
      source := c.source.hold (c.lru idx) blkno }

/-- What `main_set_source` is called with: `option_srcwinsz`, the size of a regular file,
whether the first read finds it to be compressed (its size is then unknown), and `do_src_fifo`. -/
structure SourceArgs where
  srcwinsz : ℕ
  stat : Option ℕ := none
  external : Bool := false
  doSrcFifo : Bool := false

/-- The buffer is split among `MAX_LRU_SIZE` blocks. -/
def BlkCache.split (c : BlkCache) (window : ℕ) : BlkCache :=
  let blksize := window / maxLruSize
  { c with
    lruSize := maxLruSize
    lru := fun i => { blk := ((c.lru 0).blk.drop (blksize * i)).take blksize
                      blkno := i
                      size := blksize }
    lruList := c.lruList ++ List.range' 1 (maxLruSize - 1)
    source := { c.source with
      blksize := blksize
      onblk := blksize
      curblk := c.source.curblk.map (·.take blksize)
      onlastblk := blksize
      maxBlkno := maxLruSize - 1 } }

def BlkCache.single (window : ℕ) (doSrcFifo : Bool) : BlkCache :=
  { lruSize := 1
    lru := fun i => { blkno := if i = 0 then invalidOffset else 0 }
    lruList := [0]
    doSrcFifo := doSrcFifo
    source := { blksize := window, curblkno := invalidOffset, maxWinsize := window } }

/-- `option_srcwinsz` is clamped to the size of the file, and rounded. -/
def SourceArgs.window (a : SourceArgs) : Option ℕ :=
  pow2Roundup (match a.stat with
    | some size => if size < a.srcwinsz then max allocSize size else a.srcwinsz
    | none => a.srcwinsz)

def SourceArgs.sizeKnown (a : SourceArgs) (onblk window : ℕ) : Option ℕ :=
  match a.external, a.stat with
  | false, some size => some size
  | _, _ => if onblk < window then some onblk else none

def mainSetSource (file : List UInt8) (a : SourceArgs) : Outcome BlkCache Stop Unit :=
  match a.window with
  | none => .fault
  | some window =>
    (mainGetblkFunc file true 0 (BlkCache.single window a.doSrcFifo)).andThen fun _ c =>
    match a.sizeKnown c.source.onblk window with
    | some size =>
      let c := if window < size then c.split window else c
      (setSourceAndSize size c.source).mapState fun s => { c with source := s }
    | none =>
      let c := { c.split window with doSrcFifo := true }
      (setSource c.source).mapState fun s => { c with source := s }

/-- The slots in use hold blocks of the file, each its own; for a sequential scan, each in the
slot of its number. -/
structure SlotsRight (file : List UInt8) (blksize n : ℕ) (fifo : Bool) (lru : ℕ → Blklru) :
    Prop where
  holds : ∀ i < n, (lru i).blkno ≠ invalidOffset →
    (lru i).blk.take (lru i).size = Source.block file blksize (lru i).blkno ∧
      (lru i).size = blockLength file blksize (lru i).blkno
  distinct : ∀ i < n, ∀ j < n, (lru i).blkno ≠ invalidOffset → (lru i).blkno = (lru j).blkno →
    i = j
  slot : fifo = true → ∀ i < n, (lru i).blkno ≠ invalidOffset → (lru i).blkno % n = i

/-- What every request keeps. -/
structure CacheRight (file : List UInt8) (c : BlkCache) : Prop where
  slots : SlotsRight file c.source.blksize c.lruSize c.doSrcFifo c.lru
  list : c.lruList.Perm (List.range c.lruSize)
  size_pos : 0 < c.lruSize
  blksize : 2 ≤ c.source.blksize
  position : c.filePos = c.sourcePosition
  aligned : c.sourcePosition % c.source.blksize = 0 ∨ file.length ≤ c.sourcePosition

section Slots

variable {file : List UInt8} {blksize n idx : ℕ} {fifo : Bool} {lru : ℕ → Blklru} {slot : Blklru}

theorem SlotsRight.eject (h : SlotsRight file blksize n fifo lru)
    (hslot : slot.blkno = invalidOffset) :
    SlotsRight file blksize n fifo (Function.update lru idx slot) := by
  have hne : ∀ i, (Function.update lru idx slot i).blkno ≠ invalidOffset →
      Function.update lru idx slot i = lru i := by
    intro i hi
    by_cases heq : i = idx
    · rw [heq, Function.update_self] at hi
      exact absurd hslot hi
    · exact Function.update_of_ne heq _ _
  refine ⟨fun i hi hv => ?_, fun i hi j hj hv heq => ?_, fun hf i hi hv => ?_⟩
  · have hsame := hne i hv
    rw [hsame] at hv ⊢
    exact h.holds i hi hv
  · have hsame := hne i hv
    have hsame' := hne j (heq ▸ hv)
    rw [hsame] at hv heq
    rw [hsame'] at heq
    exact h.distinct i hi j hj hv heq
  · have hsame := hne i hv
    rw [hsame] at hv ⊢
    exact h.slot hf i hi hv

/-- A slot may be given a block that no other slot holds. -/
theorem SlotsRight.fill (h : SlotsRight file blksize n fifo lru)
    (hother : ∀ i < n, i ≠ idx → (lru i).blkno ≠ slot.blkno)
    (hfifo : fifo = true → idx = slot.blkno % n)
    (hblk : slot.blk.take slot.size = Source.block file blksize slot.blkno)
    (hsize : slot.size = blockLength file blksize slot.blkno) :
    SlotsRight file blksize n fifo (Function.update lru idx slot) := by
  refine ⟨fun i hi hv => ?_, fun i hi j hj hv heq => ?_, fun hf i hi hv => ?_⟩
  · by_cases heq : i = idx
    · rw [heq, Function.update_self]
      exact ⟨hblk, hsize⟩
    · rw [Function.update_of_ne heq] at hv ⊢
      exact h.holds i hi hv
  · by_cases hii : i = idx
    · by_cases hjj : j = idx
      · rw [hii, hjj]
      · rw [hii, Function.update_self, Function.update_of_ne hjj] at heq
        exact absurd heq.symm (hother j hj hjj)
    · by_cases hjj : j = idx
      · rw [hjj, Function.update_self, Function.update_of_ne hii] at heq
        exact absurd heq (hother i hi hii)
      · rw [Function.update_of_ne hii] at hv heq
        rw [Function.update_of_ne hjj] at heq
        exact h.distinct i hi j hj hv heq
  · by_cases hii : i = idx
    · rw [hii, Function.update_self]
      exact (hfifo hf).symm
    · rw [Function.update_of_ne hii] at hv ⊢
      exact h.slot hf i hi hv

end Slots

structure SameButSlots (c c' : BlkCache) : Prop where
  lruSize : c'.lruSize = c.lruSize
  doSrcFifo : c'.doSrcFifo = c.doSrcFifo
  source : c'.source = c.source
  sourcePosition : c'.sourcePosition = c.sourcePosition
  filePos : c'.filePos = c.filePos
  seekFailed : c'.seekFailed = c.seekFailed

def BlkCache.Free (c : BlkCache) (blkno : ℕ) : Prop := ∀ i < c.lruSize, (c.lru i).blkno ≠ blkno

/-- The slot found for block `blkno`: no other slot holds the block, and the slot itself does
unless it is new. -/
structure FoundSlot (file : List UInt8) (blkno : ℕ) (c : BlkCache) (idx : ℕ) (isNew : Bool)
    (c' : BlkCache) : Prop where
  right : CacheRight file c'
  same : SameButSlots c c'
  idx_lt : idx < c'.lruSize
  fifo : c'.doSrcFifo = true → idx = blkno % c'.lruSize
  other : ∀ i < c'.lruSize, i ≠ idx → (c'.lru i).blkno ≠ blkno
  hit : isNew = false → (c'.lru idx).blkno = blkno
  fresh : isNew = true → (c'.lru idx).blkno = invalidOffset ∧ c.Free blkno
  numbers : ∀ i, (c'.lru i).blkno = (c.lru i).blkno ∨ (c'.lru i).blkno = invalidOffset

section Finding

variable {file : List UInt8} {c : BlkCache} {blkno idx : ℕ}

theorem CacheRight.eject (h : CacheRight file c) (idx : ℕ) : CacheRight file (c.eject idx) :=
  ⟨h.slots.eject rfl, h.list, h.size_pos, h.blksize, h.position, h.aligned⟩

theorem CacheRight.reorder (h : CacheRight file c) {order : List ℕ}
    (horder : order.Perm c.lruList) : CacheRight file { c with lruList := order } :=
  ⟨h.slots, horder.trans h.list, h.size_pos, h.blksize, h.position, h.aligned⟩

theorem CacheRight.foundNew (h : CacheRight file c)
    (hidx : idx < c.lruSize) (hfifo : c.doSrcFifo = true → idx = blkno % c.lruSize)
    (hfree : c.Free blkno) :
    FoundSlot file blkno c idx true (c.eject idx) := by
  refine ⟨h.eject idx, ⟨rfl, rfl, rfl, rfl, rfl, rfl⟩, hidx, hfifo, fun i hi hne => ?_, nofun,
    fun _ => ?_, fun i => ?_⟩
  · rw [BlkCache.eject_lru, Function.update_of_ne hne]
    exact hfree i hi
  · rw [BlkCache.eject_lru, Function.update_self]
    exact ⟨rfl, hfree⟩
  · rw [BlkCache.eject_lru]
    by_cases heq : i = idx
    · rw [heq, Function.update_self]
      exact .inr rfl
    · rw [Function.update_of_ne heq]
      exact .inl rfl

theorem CacheRight.foundOld (h : CacheRight file c) (hno : blkno ≠ invalidOffset)
    (hidx : idx < c.lruSize) (hhit : (c.lru idx).blkno = blkno) {order : List ℕ}
    (horder : order.Perm c.lruList) :
    FoundSlot file blkno c idx false { c with lruList := order } := by
  refine ⟨h.reorder horder, ⟨rfl, rfl, rfl, rfl, rfl, rfl⟩, hidx, fun hf => ?_,
    fun i hi hne heq => ?_, fun _ => hhit, nofun, fun i => .inl rfl⟩
  · rw [← hhit]
    exact (h.slots.slot hf idx hidx (hhit ▸ hno)).symm
  · exact hne (h.slots.distinct i hi idx hidx (heq ▸ hno) (heq.trans hhit.symm))

/-- `main_getblk_lru` finds a slot, or refuses and changes nothing. -/
theorem mainGetblkLru_ends (h : CacheRight file c) (hno : blkno ≠ invalidOffset) :
    (mainGetblkLru blkno c).Ends (fun r c' => FoundSlot file blkno c r.1 r.2 c')
      (fun _ => False) (fun _ c' => c' = c) := by
  unfold mainGetblkLru
  by_cases hfifo : c.doSrcFifo = true
  · rw [if_pos hfifo]
    dsimp only
    have hidx : blkno % c.lruSize < c.lruSize := Nat.mod_lt _ h.size_pos
    by_cases hhit : (c.lru (blkno % c.lruSize)).blkno = blkno
    · rw [if_pos hhit]
      exact h.foundOld hno hidx hhit (List.Perm.refl _)
    · rw [if_neg hhit]
      by_cases hback : (c.lru (blkno % c.lruSize)).blkno ≠ invalidOffset ∧
          blkno < (c.lru (blkno % c.lruSize)).blkno
      · rw [if_pos hback]
        rfl
      · rw [if_neg hback]
        refine h.foundNew hidx (fun _ => rfl) fun i hi heq => ?_
        have hslot := h.slots.slot hfifo i hi (heq ▸ hno)
        rw [heq] at hslot
        exact hhit (hslot ▸ heq)
  · rw [if_neg hfifo]
    cases hfind : (List.range c.lruSize).find? fun i => (c.lru i).blkno == blkno with
    | some idx =>
      have hidx := List.mem_range.mp (List.mem_of_find?_eq_some hfind)
      have hmem : idx ∈ c.lruList := h.list.mem_iff.mpr (List.mem_range.mpr hidx)
      have hback : (c.lruList.erase idx ++ [idx]).Perm c.lruList :=
        (List.perm_append_singleton _ _).trans (List.perm_cons_erase hmem).symm
      have hhit := List.find?_some hfind
      exact h.foundOld hno hidx (beq_iff_eq.mp hhit) hback
    | none =>
      have hfree : c.Free blkno := fun i hi heq =>
        List.find?_eq_none.mp hfind i (List.mem_range.mpr hi) (beq_iff_eq.mpr heq)
      cases hlist : c.lruList with
      | nil =>
        have hlen := h.list.length_eq
        rw [hlist, List.length_range] at hlen
        exact absurd hlen.symm h.size_pos.ne'
      | cons idx rest =>
        have hback : (rest ++ [idx]).Perm c.lruList := by
          rw [hlist]
          exact List.perm_append_singleton _ _
        have hidx : idx < c.lruSize :=
          List.mem_range.mp (h.list.mem_iff.mp (hlist ▸ List.mem_cons_self))
        have hfound := (h.reorder hback).foundNew hidx
          (fun hf => absurd hf hfifo) hfree
        exact ⟨hfound.right, ⟨rfl, rfl, rfl, rfl, rfl, rfl⟩, hfound.idx_lt, hfound.fifo,
          hfound.other, hfound.hit, hfound.fresh, hfound.numbers⟩

end Finding

section Reading

variable {file : List UInt8} {c c' : BlkCache} {blkno idx : ℕ}

theorem Source.block_eq_drop (file : List UInt8) (blksize blkno : ℕ) :
    (file.drop (blkno * blksize)).take blksize = Source.block file blksize blkno := rfl

/-- The slot after a block has been read into it and its size set. -/
theorem readInput_fill {pos : ℕ} (h : CacheRight file c) (hpos : pos = blkno * c.source.blksize)
    (hat : c.filePos = pos) (hother : ∀ i < c.lruSize, i ≠ idx → (c.lru i).blkno ≠ blkno)
    (hfifo : c.doSrcFifo = true → idx = blkno % c.lruSize) :
    ∃ c₁, readInput file idx blkno c = .ok (blockLength file c.source.blksize blkno) c₁ ∧
      SlotsRight file c.source.blksize c.lruSize c.doSrcFifo
        (c₁.setSize idx (blockLength file c.source.blksize blkno)).lru ∧
      (c₁.setSize idx (blockLength file c.source.blksize blkno)).lru idx =
        { blk := Source.block file c.source.blksize blkno ++
            (c.lru idx).blk.drop (blockLength file c.source.blksize blkno)
          blkno := blkno
          size := blockLength file c.source.blksize blkno } ∧
      (∀ i, i ≠ idx → c₁.lru i = c.lru i) ∧
      c₁ = { c with
        filePos := pos + blockLength file c.source.blksize blkno
        lru := c₁.lru } := by
  have hdata : (file.drop c.filePos).take c.source.blksize =
      Source.block file c.source.blksize blkno := by
    rw [hat, hpos, Source.block_eq_drop]
  unfold readInput
  dsimp only
  rw [hdata]
  refine ⟨_, rfl, ?_, ?_, fun i hi => Function.update_of_ne hi _ _, ?_⟩
  · rw [BlkCache.setSize]
    dsimp only
    rw [Function.update_idem, Function.update_self]
    refine h.slots.fill hother hfifo ?_ rfl
    exact List.take_left
  · rw [BlkCache.setSize]
    dsimp only
    rw [Function.update_self, Function.update_self]
  · rw [hat]

structure SkipsTo (c c' : BlkCache) : Prop where
  lruSize : c'.lruSize = c.lruSize
  doSrcFifo : c'.doSrcFifo = c.doSrcFifo
  source : c'.source = c.source

theorem SkipsTo.trans {c₁ c₂ c₃ : BlkCache} (h : SkipsTo c₁ c₂) (h' : SkipsTo c₂ c₃) :
    SkipsTo c₁ c₃ :=
  ⟨h'.lruSize.trans h.lruSize, h'.doSrcFifo.trans h.doSrcFifo, h'.source.trans h.source⟩

/-- A block number below the end of the address space is valid. -/
theorem blkno_valid {blksize : ℕ} (hb : 2 ≤ blksize) (h : blkno * blksize < xoff.modulus) :
    blkno ≠ invalidOffset := by
  have h64 : xoff.modulus = 2 ^ 64 := rfl
  have hle : blkno * 2 ≤ blkno * blksize := Nat.mul_le_mul_left _ hb
  unfold invalidOffset
  omega

/-- A full block is skipped: it fills a slot, and the position goes past it. -/
theorem skipBlock_ends (h : CacheRight file c) (hshape : c.source.Shaped)
    (hmul : c.sourcePosition % c.source.blksize = 0)
    (hfull : c.sourcePosition + c.source.blksize ≤ file.length)
    (hN : file.length < xoff.modulus)
    (hfree : c.Free blkno) (hvalid : blkno ≠ invalidOffset)
    (hahead : c.sourcePosition < blkno * c.source.blksize) :
    (skipBlock file c).Ends
      (fun _ c' => CacheRight file c' ∧ SkipsTo c c' ∧ c'.Free blkno ∧
        c'.sourcePosition = c.sourcePosition + c.source.blksize)
      (fun _ => False) (fun _ c' => CacheRight file c' ∧ SkipsTo c c') := by
  have hb := h.blksize
  have hpos : c.sourcePosition / c.source.blksize * c.source.blksize = c.sourcePosition :=
    Nat.div_mul_cancel (Nat.dvd_of_mod_eq_zero hmul)
  rw [skipBlock, hshape.blksizeDiv_eq]
  dsimp only
  generalize c.sourcePosition / c.source.blksize = k at hpos
  have hk : k ≠ invalidOffset := blkno_valid hb (by omega)
  have hkne : k ≠ blkno := fun heq => by rw [heq] at hpos; omega
  have hlen : blockLength file c.source.blksize k = c.source.blksize := by
    rw [blockLength_eq]
    omega
  refine ((mainGetblkLru_ends h hk).mono (fun _ _ hq => hq) (fun _ hf => hf)
    fun _ c' hs => by rw [hs]; exact ⟨h, rfl, rfl, rfl⟩).andThen fun r c₁ hfound => ?_
  obtain ⟨idx, isNew⟩ := r
  have hsrc := hfound.same.source
  have hat : c₁.filePos = k * c.source.blksize := by
    rw [hfound.right.position, hfound.same.sourcePosition, hpos]
  obtain ⟨c₂, hread, hslots, hslot, hrest, heq⟩ := readInput_fill hfound.right
    (by rw [hsrc]) hat hfound.other hfound.fifo
  rw [hsrc, hlen] at hread heq hslots hslot
  have hsrc₂ : c₂.source = c.source := by rw [heq, ← hsrc]
  dsimp only
  rw [hread, Outcome.andThen_ok, if_neg (by rw [hsrc₂]; exact not_not_intro rfl)]
  have hsize : c₂.lruSize = c₁.lruSize := by rw [heq]
  refine ⟨⟨?_, ?_, ?_, ?_, ?_, ?_⟩, ⟨?_, ?_, hsrc₂⟩, fun i hi => ?_, ?_⟩
  · change SlotsRight file c₂.source.blksize c₂.lruSize c₂.doSrcFifo (c₂.setSize idx _).lru
    rw [hsrc₂, hsize, show c₂.doSrcFifo = c₁.doSrcFifo by rw [heq]]
    exact hslots
  · change c₂.lruList.Perm (List.range c₂.lruSize)
    rw [hsize, show c₂.lruList = c₁.lruList by rw [heq]]
    exact hfound.right.list
  · exact hsize ▸ hfound.right.size_pos
  · change 2 ≤ c₂.source.blksize
    rw [hsrc₂]
    exact hb
  · change c₂.filePos = c₂.sourcePosition + c.source.blksize
    rw [heq]
    dsimp only
    rw [hfound.same.sourcePosition, hpos]
  · left
    change (c₂.sourcePosition + c.source.blksize) % c₂.source.blksize = 0
    rw [hsrc₂, show c₂.sourcePosition = c.sourcePosition by
      rw [heq]; exact hfound.same.sourcePosition, Nat.add_mod_right]
    exact hmul
  · exact hsize.trans hfound.same.lruSize
  · change c₂.doSrcFifo = c.doSrcFifo
    rw [heq]
    exact hfound.same.doSrcFifo
  · change ((c₂.setSize idx _).lru i).blkno ≠ blkno
    by_cases hii : i = idx
    · rw [hii, hslot]
      exact hkne
    · rw [BlkCache.setSize]
      dsimp only
      rw [Function.update_of_ne hii, hrest i hii]
      have hin : i < c.lruSize := by
        rw [← hfound.same.lruSize, ← hsize]
        exact hi
      rcases hfound.numbers i with hn | hn
      · rw [hn]
        exact hfree i hin
      · rw [hn]
        exact hvalid.symm
  · change c₂.sourcePosition + _ = _
    rw [heq]
    exact congrArg (· + _) hfound.same.sourcePosition

/-- The skip loop comes to a position within the file, or is refused a slot. -/
theorem skipLoop_ends (hN : file.length < xoff.modulus) (hvalid : blkno ≠ invalidOffset)
    (fuel : ℕ) (h : CacheRight file c) (hshape : c.source.Shaped) (hfree : c.Free blkno)
    (hle : c.sourcePosition ≤ blkno * c.source.blksize)
    (hin : blkno * c.source.blksize ≤ file.length)
    (hfuel : blkno * c.source.blksize - c.sourcePosition < fuel) :
    (skipLoop file (blkno * c.source.blksize) fuel c).Ends
      (fun _ c' => CacheRight file c' ∧ SkipsTo c c' ∧ c'.Free blkno ∧
        c'.sourcePosition = blkno * c.source.blksize)
      (fun _ => False) (fun _ c' => CacheRight file c' ∧ SkipsTo c c') := by
  induction fuel generalizing c with
  | zero => exact absurd hfuel (Nat.not_lt_zero _)
  | succ fuel ih =>
    have hb := h.blksize
    rw [skipLoop]
    dsimp only
    by_cases hmore : c.sourcePosition < blkno * c.source.blksize
    · have hmul : c.sourcePosition % c.source.blksize = 0 := by
        rcases h.aligned with hmul | hend
        · exact hmul
        · omega
      -- the block at the position ends before the one asked for starts
      have hnext : c.sourcePosition + c.source.blksize ≤ blkno * c.source.blksize := by
        have hpos := Nat.div_mul_cancel (Nat.dvd_of_mod_eq_zero hmul)
        have hk : c.sourcePosition / c.source.blksize < blkno :=
          (Nat.div_lt_iff_lt_mul (by omega)).mpr hmore
        have hstep : (c.sourcePosition / c.source.blksize + 1) * c.source.blksize ≤
            blkno * c.source.blksize := Nat.mul_le_mul_right _ hk
        rw [Nat.add_mul, Nat.one_mul, hpos] at hstep
        exact hstep
      rw [if_pos hmore]
      refine (skipBlock_ends h hshape hmul (hnext.trans hin) hN hfree hvalid hmore).andThen
        fun _ c₁ ⟨hright, hskip, hfree₁, hpos⟩ => ?_
      have hrest := @ih c₁ hright (hskip.source ▸ hshape) hfree₁ (by rw [hskip.source]; omega)
        (by rw [hskip.source]; exact hin) (by rw [hskip.source]; omega)
      rw [hskip.source] at hrest
      exact hrest.mono (fun _ _ hq => ⟨hq.1, hskip.trans hq.2.1, hq.2.2⟩) (fun _ hf => hf)
        fun _ _ hs => ⟨hs.1, hskip.trans hs.2⟩
    · rw [if_neg hmore]
      exact ⟨h, ⟨rfl, rfl, rfl⟩, hfree, by omega⟩

/-- `main_read_seek_source` comes to the block's position, unless it lies back or past the
end of a file that cannot seek. -/
theorem mainReadSeekSource_ends (hN : file.length < xoff.modulus) {seekOk : Bool}
    (h : CacheRight file c) (hshape : c.source.Shaped) (hfree : c.Free blkno)
    (hlt : blkno * c.source.blksize < xoff.modulus)
    (hcond : c.seekFailed = false ∧ seekOk = true ∨
      blkno * c.source.blksize ≤ c.sourcePosition ∨ blkno * c.source.blksize ≤ file.length) :
    (mainReadSeekSource file seekOk blkno c).Ends
      (fun _ c' => CacheRight file c' ∧ SkipsTo c c' ∧ c'.Free blkno ∧
        c'.sourcePosition = blkno * c.source.blksize)
      (fun _ => False) (fun _ c' => CacheRight file c' ∧ SkipsTo c c') := by
  have hvalid := blkno_valid h.blksize hlt
  have hfailed : CacheRight file { c with seekFailed := true } :=
    ⟨h.slots, h.list, h.size_pos, h.blksize, h.position, h.aligned⟩
  rw [mainReadSeekSource, Nat.mod_eq_of_lt hlt]
  by_cases hseek : c.seekFailed = false ∧ seekOk = true
  · rw [if_pos hseek]
    exact ⟨⟨h.slots, h.list, h.size_pos, h.blksize, rfl, .inl (Nat.mul_mod_left _ _)⟩,
      ⟨rfl, rfl, rfl⟩, hfree, rfl⟩
  · rw [if_neg hseek]
    by_cases hback : blkno * c.source.blksize < c.sourcePosition
    · rw [if_pos hback]
      exact ⟨hfailed, rfl, rfl, rfl⟩
    · rw [if_neg hback]
      rcases hcond with hcond | hcond | hcond
      · exact absurd hcond hseek
      · -- already there
        have heq : c.sourcePosition = blkno * c.source.blksize := by omega
        rw [skipLoop]
        dsimp only
        rw [if_neg (by omega)]
        exact ⟨hfailed, ⟨rfl, rfl, rfl⟩, hfree, heq⟩
      · exact (skipLoop_ends hN hvalid _ hfailed hshape hfree (Nat.le_of_not_lt hback) hcond
          (Nat.lt_succ_self _)).mono (fun _ _ hq => ⟨hq.1, ⟨hq.2.1.lruSize, hq.2.1.doSrcFifo,
            hq.2.1.source⟩, hq.2.2⟩) (fun _ hf => hf) fun _ _ hs => ⟨hs.1, hs.2.lruSize,
              hs.2.doSrcFifo, hs.2.source⟩

/-- The requests that are served without reading past the end of a file that cannot seek. -/
def Fetchable (file : List UInt8) (seekOk : Bool) (blkno : ℕ) (c : BlkCache) : Prop :=
  blkno * c.source.blksize < xoff.modulus ∧
    (¬ c.Free blkno ∨ c.seekFailed = false ∧ seekOk = true ∨
      blkno * c.source.blksize ≤ c.sourcePosition ∨ blkno * c.source.blksize ≤ file.length)

/-- The source holds block `blkno` of the file. -/
structure HoldsBlock (file : List UInt8) (blkno : ℕ) (source : Source) : Prop where
  curblkno : source.curblkno = blkno
  curblk : source.curblk = some (Source.block file source.blksize blkno)
  onblk : source.onblk = blockLength file source.blksize blkno

/-- The fields `main_getblk_func` leaves alone. -/
def Source.setup (source : Source) : ℕ × ℕ × ℕ × ℕ :=
  (source.blksize, source.shiftby, source.maskby, source.maxWinsize)

/-- The position of a block is reached by a seek, by skipping, or is the present one. -/
theorem reachBlock_ends (hN : file.length < xoff.modulus) {seekOk : Bool}
    (h : CacheRight file c) (hfree : c.Free blkno) {posn : ℕ}
    (hposn : posn = blkno * c.source.blksize) (hlt : posn < xoff.modulus)
    (hshape : posn ≠ c.sourcePosition → c.source.Shaped)
    (hseek : c.seekFailed = false ∧ seekOk = true ∨ posn ≤ c.sourcePosition ∨
      posn ≤ file.length) :
    (if posn ≠ c.sourcePosition then mainReadSeekSource file seekOk blkno c else .ok () c).Ends
      (fun _ c' => CacheRight file c' ∧ SkipsTo c c' ∧ c'.Free blkno ∧ c'.sourcePosition = posn)
      (fun _ => False) (fun _ c' => CacheRight file c' ∧ c'.source.setup = c.source.setup) := by
  subst hposn
  by_cases hat : blkno * c.source.blksize ≠ c.sourcePosition
  · rw [if_pos hat]
    exact (mainReadSeekSource_ends hN h (hshape hat) hfree hlt hseek).mono
      (fun _ _ hq => hq) (fun _ hf => hf)
      fun _ _ hs => ⟨hs.1, congrArg Source.setup hs.2.source⟩
  · rw [if_neg hat]
    exact ⟨h, ⟨rfl, rfl, rfl⟩, hfree, (not_not.mp hat).symm⟩

/-- `main_getblk_func` serves the block, or fails and leaves the cache right. -/
theorem mainGetblkFunc_ends (hN : file.length < xoff.modulus) {seekOk : Bool}
    (h : CacheRight file c)
    (hshape : blkno * c.source.blksize ≠ c.sourcePosition → c.source.Shaped)
    (hcond : Fetchable file seekOk blkno c) :
    (mainGetblkFunc file seekOk blkno c).Ends
      (fun _ c' => CacheRight file c' ∧ HoldsBlock file blkno c'.source ∧
        c'.source.setup = c.source.setup)
      (fun _ => False) (fun _ c' => CacheRight file c' ∧ c'.source.setup = c.source.setup) := by
  obtain ⟨hlt, hcases⟩ := hcond
  have hvalid := blkno_valid h.blksize hlt
  rw [mainGetblkFunc]
  dsimp only
  rw [Nat.mod_eq_of_lt hlt]
  refine ((mainGetblkLru_ends h hvalid).mono (fun _ _ hq => hq) (fun _ hf => hf)
    fun _ c' hs => by rw [hs]; exact ⟨h, rfl⟩).andThen fun r c₁ hfound => ?_
  obtain ⟨idx, isNew⟩ := r
  have hsrc := hfound.same.source
  dsimp only
  by_cases hnew : isNew = false
  · rw [if_pos hnew]
    have hhit := hfound.hit hnew
    obtain ⟨hblk, hsize⟩ := hfound.right.slots.holds idx hfound.idx_lt (hhit ▸ hvalid)
    rw [hhit] at hblk hsize
    exact ⟨⟨hfound.right.slots, hfound.right.list, hfound.right.size_pos, hfound.right.blksize,
      hfound.right.position, hfound.right.aligned⟩, ⟨rfl, congrArg some hblk, hsize⟩,
      show c₁.source.setup = c.source.setup from congrArg Source.setup hsrc⟩
  · rw [if_neg hnew]
    obtain ⟨hempty, hfreec⟩ := hfound.fresh (Bool.eq_true_of_not_eq_false hnew)
    have hfree : c₁.Free blkno := by
      intro i hi heq
      by_cases hii : i = idx
      · rw [hii, hempty] at heq
        exact hvalid heq.symm
      · exact hfound.other i hi hii heq
    have hright : CacheRight file { c₁ with lruMisses := c₁.lruMisses + 1 } :=
      ⟨hfound.right.slots, hfound.right.list, hfound.right.size_pos, hfound.right.blksize,
        hfound.right.position, hfound.right.aligned⟩
    have hseek : c₁.seekFailed = false ∧ seekOk = true ∨
        blkno * c.source.blksize ≤ c₁.sourcePosition ∨
        blkno * c.source.blksize ≤ file.length := by
      rw [hfound.same.seekFailed, hfound.same.sourcePosition]
      rcases hcases with hc | hc
      · exact absurd hfreec hc
      · exact hc
    have hposn : blkno * c.source.blksize = blkno * c₁.source.blksize := by rw [hsrc]
    have hreach := reachBlock_ends hN hright hfree hposn hlt
      (fun hat => (show c₁.source = c.source from hsrc) ▸ hshape (hfound.same.sourcePosition ▸ hat))
      hseek
    refine (hreach.mono (fun _ _ hq => hq) (fun _ hf => hf)
      fun _ _ hs => ⟨hs.1, hs.2.trans (congrArg Source.setup hsrc)⟩).andThen
        fun _ c₂ ⟨hright₂, hskip, hfree₂, hpos⟩ => ?_
    have hsrc₂ : c₂.source = c.source := hskip.source.trans hsrc
    obtain ⟨c₃, hread, hslots, hslot, -, heq⟩ := @readInput_fill file c₂ blkno idx
      (blkno * c.source.blksize) hright₂ (by rw [hsrc₂]) (hright₂.position.trans hpos)
      (fun i hi _ => hfree₂ i hi)
      fun hf => by rw [hskip.lruSize]; exact hfound.fifo (hskip.doSrcFifo ▸ hf)
    rw [hsrc₂] at hread hslots hslot heq
    rw [hread, Outcome.andThen_ok]
    have hsrc₃ : c₃.source = c.source := by rw [heq, ← hsrc₂]
    have hblocklen : blockLength file c.source.blksize blkno =
        min c.source.blksize (file.length - blkno * c.source.blksize) := blockLength_eq _ _ _
    refine ⟨⟨?_, ?_, ?_, ?_, ?_, ?_⟩, ⟨rfl, ?_, ?_⟩, ?_⟩
    · change SlotsRight file c₃.source.blksize c₃.lruSize c₃.doSrcFifo (c₃.setSize idx _).lru
      rw [hsrc₃, show c₃.lruSize = c₂.lruSize by rw [heq],
        show c₃.doSrcFifo = c₂.doSrcFifo by rw [heq]]
      exact hslots
    · change c₃.lruList.Perm (List.range c₃.lruSize)
      rw [heq]
      exact hright₂.list
    · change 0 < c₃.lruSize
      rw [heq]
      exact hright₂.size_pos
    · change 2 ≤ c₃.source.blksize
      rw [hsrc₃]
      exact h.blksize
    · change c₃.filePos = _
      rw [heq]
    · change (blkno * c.source.blksize + _) % c₃.source.blksize = 0 ∨ _
      rw [hsrc₃]
      -- a block that is not full is where the file ends
      by_cases hfull : blockLength file c.source.blksize blkno = c.source.blksize
      · rw [hfull, Nat.add_mod_right]
        exact .inl (Nat.mul_mod_left _ _)
      · right
        change file.length ≤ blkno * c.source.blksize + _
        omega
    · change some (((c₃.setSize idx _).lru idx).blk.take ((c₃.setSize idx _).lru idx).size) =
        some (Source.block file c₃.source.blksize blkno)
      rw [hslot, hsrc₃]
      exact congrArg some List.take_left
    · change ((c₃.setSize idx _).lru idx).size = blockLength file c₃.source.blksize blkno
      rw [hslot, hsrc₃]
    · change c₃.source.setup = _
      rw [hsrc₃]

end Reading

section Setting

variable {file : List UInt8} {c : BlkCache}

theorem pow2Roundup_spec {x y : ℕ} (h : pow2Roundup x = some y) : x ≤ y ∧ ∃ k < 64, y = 2 ^ k := by
  have hle := List.find?_some h
  obtain ⟨k, hk, rfl⟩ := List.mem_map.mp (List.mem_of_find?_eq_some h)
  exact ⟨of_decide_eq_true hle, k, List.mem_range.mp hk, rfl⟩

theorem setSource_blksize {s s' : Source} {k : ℕ} (hk : k < 64) (hb : s.blksize = 2 ^ k)
    (h : setSource s = .ok () s') : s'.blksize = s.blksize := by
  have hpow : checkPow2 s.blksize = some k := hb ▸ checkPow2_two_pow hk
  rw [setSource, setBlksize] at h
  dsimp only at h
  rw [hpow, Outcome.andThen_ok] at h
  rw [setMaxWinsize_ok h]

theorem setSourceAndSize_spec {s s' : Source} {size k : ℕ} (hk : k < 64) (hb : s.blksize = 2 ^ k)
    (h : setSourceAndSize size s = .ok () s') : s'.Shaped ∧ s'.blksize = s.blksize := by
  unfold setSourceAndSize at h
  cases hs : setSource s with
  | ok u t =>
    rw [hs, Outcome.andThen_ok] at h
    cases h
    have hshape := (setSource_ok hs).1
    have hsize := setSource_blksize hk hb hs
    exact ⟨⟨hshape.1, hshape.2, hshape.3⟩, hsize⟩
  | starved t => rw [hs] at h; cases h
  | stop e t => rw [hs] at h; cases h
  | fault => rw [hs] at h; cases h

theorem CacheRight.withSource (h : CacheRight file c) {s : Source}
    (hs : s.blksize = c.source.blksize) : CacheRight file { c with source := s } := by
  refine ⟨?_, h.list, h.size_pos, ?_, h.position, ?_⟩
  · rw [hs]
    exact h.slots
  · rw [hs]
    exact h.blksize
  · rw [hs]
    exact h.aligned

structure FirstRead (file : List UInt8) (window : ℕ) (fifo : Bool) (c : BlkCache) : Prop where
  lruSize : c.lruSize = 1
  lruList : c.lruList = [0]
  doSrcFifo : c.doSrcFifo = fifo
  blk : (c.lru 0).blk = file.take window
  filePos : c.filePos = (file.take window).length
  sourcePosition : c.sourcePosition = (file.take window).length
  blksize : c.source.blksize = window
  onblk : c.source.onblk = (file.take window).length
  maxWinsize : c.source.maxWinsize = window
  seekFailed : c.seekFailed = false

theorem CacheRight.single {window : ℕ} (hw : 2 ≤ window) (fifo : Bool) :
    CacheRight file (BlkCache.single window fifo) := by
  have hzero : ∀ i < 1, ((BlkCache.single window fifo).lru i).blkno = invalidOffset := fun i hi =>
    if_pos (Nat.lt_one_iff.mp hi)
  exact ⟨⟨fun i hi hv => absurd (hzero i hi) hv, fun i hi _ _ hv => absurd (hzero i hi) hv,
    fun _ i hi hv => absurd (hzero i hi) hv⟩, List.Perm.refl _, Nat.one_pos, hw, rfl,
    .inl (Nat.zero_mod _)⟩

theorem mainGetblkFunc_first (window : ℕ) (fifo : Bool) :
    ∃ c, mainGetblkFunc file true 0 (BlkCache.single window fifo) = .ok () c ∧
      FirstRead file window fifo c := by
  have hslot : mainGetblkLru 0 (BlkCache.single window fifo) =
      .ok (0, true) ((BlkCache.single window fifo).eject 0) := by
    cases fifo <;> rfl
  rw [mainGetblkFunc, hslot, Outcome.andThen_ok]
  dsimp only
  rw [Nat.zero_mul, Nat.zero_mod, if_neg Bool.noConfusion,
    if_neg (show ¬ (0 ≠ ((BlkCache.single window fifo).eject 0).sourcePosition) from
      not_not_intro rfl), Outcome.andThen_ok, readInput, Outcome.andThen_ok]
  refine ⟨_, rfl, ⟨rfl, rfl, rfl, ?_, ?_, ?_, rfl, ?_, rfl, rfl⟩⟩
  all_goals simp [BlkCache.setSize, BlkCache.single, BlkCache.eject, Source.hold]

/-- The buffer split among the slots holds the first blocks of the file. -/
theorem FirstRead.split {window : ℕ} {fifo : Bool} (h : FirstRead file window fifo c)
    {b : ℕ} (hw : window = maxLruSize * b) (hb : 2 ≤ b) (hN : window ≤ file.length) :
    CacheRight file (c.split window) ∧ CacheRight file { c.split window with doSrcFifo := true } ∧
      (c.split window).source.blksize = b := by
  have h32 : maxLruSize = 32 := rfl
  have hdiv : window / maxLruSize = b := by
    rw [hw, Nat.mul_div_cancel_left _ (by decide)]
  have hlen : (file.take window).length = window := List.length_take_of_le hN
  have hslots : ∀ fifo', SlotsRight file b maxLruSize fifo' (c.split window).lru := by
    intro fifo'
    have hlru : ∀ i, (c.split window).lru i =
        { blk := ((c.lru 0).blk.drop (b * i)).take b, blkno := i, size := b } := by
      intro i
      rw [BlkCache.split, hdiv]
    refine ⟨fun i hi _ => ?_, fun i _ j _ _ heq => ?_, fun _ i hi _ => ?_⟩
    · have hin : b * i + b ≤ window := by
        have hmul : b * (i + 1) ≤ b * maxLruSize := Nat.mul_le_mul_left _ hi
        rw [hw, Nat.mul_comm maxLruSize]
        exact hmul
      rw [hlru, h.blk]
      dsimp only
      refine ⟨?_, ?_⟩
      · rw [List.take_take, Nat.min_self, List.drop_take, List.take_take, Source.block,
          Nat.mul_comm i, Nat.min_eq_left (by omega)]
      · rw [blockLength_eq, Nat.mul_comm i]
        omega
    · rw [hlru, hlru] at heq
      exact heq
    · rw [hlru]
      exact Nat.mod_eq_of_lt hi
  have hlist : (c.split window).lruList.Perm (List.range maxLruSize) := by
    rw [BlkCache.split, h.lruList]
    exact List.Perm.refl _
  have hsize : (c.split window).source.blksize = b := hdiv
  have hpos : (c.split window).sourcePosition % b = 0 := by
    rw [BlkCache.split]
    dsimp only
    rw [h.sourcePosition, hlen, hw]
    exact Nat.mul_mod_left _ _
  have hfile : (c.split window).filePos = (c.split window).sourcePosition := by
    rw [BlkCache.split]
    dsimp only
    rw [h.filePos, h.sourcePosition]
  have hright : ∀ fifo', CacheRight file { c.split window with doSrcFifo := fifo' } := by
    intro fifo'
    refine ⟨?_, hlist, show 0 < maxLruSize by decide, ?_, hfile, .inl ?_⟩
    · change SlotsRight file (c.split window).source.blksize maxLruSize fifo' _
      rw [hsize]
      exact hslots fifo'
    · change 2 ≤ (c.split window).source.blksize
      rw [hsize]
      exact hb
    · change (c.split window).sourcePosition % (c.split window).source.blksize = 0
      rw [hsize]
      exact hpos
  exact ⟨hright _, hright true, hsize⟩

/-- The arguments say the truth of the file, and ask for a window of the least size at least. -/
structure SourceArgs.Honest (a : SourceArgs) (file : List UInt8) : Prop where
  srcwinsz : allocSize ≤ a.srcwinsz
  stat : a.external = false → ∀ size, a.stat = some size → size = file.length

theorem SourceArgs.window_spec {a : SourceArgs} {window : ℕ} (hmin : allocSize ≤ a.srcwinsz)
    (h : a.window = some window) : ∃ b k, window = maxLruSize * b ∧ b = 2 ^ k ∧ k + 5 < 64 ∧
      2 ≤ b ∧ window = 2 ^ (k + 5) := by
  obtain ⟨hle, e, he, rfl⟩ := pow2Roundup_spec h
  have hwin : allocSize ≤ 2 ^ e := by
    refine le_trans ?_ hle
    cases a.stat with
    | none => exact hmin
    | some size =>
      dsimp only
      split_ifs
      · exact Nat.le_max_left _ _
      · exact hmin
  have h14 : 14 ≤ e := (Nat.pow_le_pow_iff_right (by decide)).mp hwin
  obtain ⟨k, rfl⟩ : ∃ k, e = k + 5 := ⟨e - 5, by omega⟩
  have hpow : 2 ^ (k + 5) = maxLruSize * 2 ^ k := by
    rw [pow_add, Nat.mul_comm]
    rfl
  have htwo : 2 ^ 1 ≤ 2 ^ k := Nat.pow_le_pow_right (by decide) (by omega)
  exact ⟨2 ^ k, k, hpow, rfl, he, htwo, rfl⟩

/-- `main_set_source` builds a cache that is right. -/
theorem mainSetSource_right {a : SourceArgs} (hN : file.length < xoff.modulus)
    (ha : a.Honest file) (h : mainSetSource file a = .ok () c) :
    CacheRight file c ∧ c.source.Shaped := by
  rw [mainSetSource] at h
  cases hw : a.window with
  | none => rw [hw] at h; cases h
  | some window =>
    obtain ⟨b, k, hwb, hbk, hk, hb, hpow⟩ := SourceArgs.window_spec ha.srcwinsz hw
    have hw2 : 2 ≤ window := by
      rw [hwb]
      exact hb.trans (Nat.le_mul_of_pos_left _ (by decide))
    obtain ⟨c₁, hfirst, hread⟩ := @mainGetblkFunc_first file window a.doSrcFifo
    have hright : CacheRight file c₁ := by
      have hends := @mainGetblkFunc_ends file (BlkCache.single window a.doSrcFifo) 0 hN true
        (CacheRight.single hw2 _) (fun hne => absurd (Nat.zero_mul _) hne)
        ⟨by rw [Nat.zero_mul]; exact xoff.modulus_pos,
          .inr (.inr (.inl (by rw [Nat.zero_mul]; exact Nat.zero_le _)))⟩
      rw [hfirst] at hends
      exact hends.1
    rw [hw] at h
    dsimp only at h
    rw [hfirst, Outcome.andThen_ok] at h
    -- the source that is set has the block size of the cache
    have hkeep : ∀ {c₂ : BlkCache} {o : Outcome Source Stop Unit} {e : ℕ}, CacheRight file c₂ →
        c₂.source.blksize = 2 ^ e → e < 64 →
        (o = setSource c₂.source ∨ ∃ size, o = setSourceAndSize size c₂.source) →
        (o.mapState fun s => { c₂ with source := s }) = .ok () c →
        CacheRight file c ∧ c.source.Shaped := by
      intro c₂ o e hc₂ hsize he ho hres
      cases o with
      | ok u s =>
        cases hres
        rcases ho with ho | ⟨size, ho⟩
        · exact ⟨hc₂.withSource (setSource_blksize he hsize ho.symm), (setSource_ok ho.symm).1⟩
        · obtain ⟨hshape, hsame⟩ := setSourceAndSize_spec he hsize ho.symm
          exact ⟨hc₂.withSource hsame, hshape⟩
      | starved s => cases hres
      | stop e s => cases hres
      | fault => cases hres
    have honblk : c₁.source.onblk = min window file.length := by
      rw [hread.onblk, List.length_take]
    cases hknown : a.sizeKnown c₁.source.onblk window with
    | some size =>
      rw [hknown] at h
      dsimp only at h
      by_cases hlarge : window < size
      · rw [if_pos hlarge] at h
        have hfull : window ≤ file.length := by
          unfold SourceArgs.sizeKnown at hknown
          split at hknown
          · rename_i hext hstat
            cases hknown
            rw [← ha.stat hext _ hstat]
            exact hlarge.le
          · split_ifs at hknown with hshort
            cases hknown
            omega
        obtain ⟨hsplit, -, hsize⟩ := hread.split hwb hb hfull
        exact hkeep hsplit (hsize.trans hbk) (by omega) (.inr ⟨size, rfl⟩) h
      · rw [if_neg hlarge] at h
        exact hkeep hright (hread.blksize.trans hpow) hk (.inr ⟨size, rfl⟩) h
    | none =>
      rw [hknown] at h
      dsimp only at h
      have hfull : window ≤ file.length := by
        unfold SourceArgs.sizeKnown at hknown
        split at hknown
        · cases hknown
        · split_ifs at hknown with hshort
          omega
      obtain ⟨-, hsplit, hsize⟩ := hread.split hwb hb hfull
      exact hkeep hsplit (hsize.trans hbk) (by omega) (.inl rfl) h

end Setting

/-- The states of the cache under requests that all meet `cond`. Between requests the library
changes fields of the source, but not its block size. -/
inductive CacheRuns (file : List UInt8) (cond : Bool → ℕ → BlkCache → Prop) : BlkCache → Prop
  | start {a c} : a.Honest file → mainSetSource file a = .ok () c → CacheRuns file cond c
  | served {c c' seekOk blkno} : CacheRuns file cond c → cond seekOk blkno c →
      mainGetblkFunc file seekOk blkno c = .ok () c' → CacheRuns file cond c'
  | failed {c c' seekOk blkno e} : CacheRuns file cond c → cond seekOk blkno c →
      mainGetblkFunc file seekOk blkno c = .stop e c' → CacheRuns file cond c'
  | elsewhere {c : BlkCache} {s : Source} : CacheRuns file cond c → s.setup = c.source.setup →
      CacheRuns file cond { c with source := s }

section Runs

variable {file : List UInt8} {c : BlkCache}

theorem Source.Shaped.of_setup {s s' : Source} (h : s.Shaped) (hs : s'.setup = s.setup) :
    s'.Shaped := by
  obtain ⟨hb, hsh, hm, -⟩ : s'.blksize = s.blksize ∧ s'.shiftby = s.shiftby ∧
      s'.maskby = s.maskby ∧ s'.maxWinsize = s.maxWinsize := by
    simpa [Source.setup] using hs
  exact ⟨hsh ▸ h.shiftby_lt, by rw [hb, hsh, h.blksize_eq], by rw [hm, hsh, h.maskby_eq]⟩

theorem CacheRuns.right (hN : file.length < xoff.modulus) (h : CacheRuns file (Fetchable file) c) :
    CacheRight file c ∧ c.source.Shaped := by
  induction h with
  | start ha hset => exact mainSetSource_right hN ha hset
  | served _ hc hok ih =>
    have hends := mainGetblkFunc_ends hN ih.1 (fun _ => ih.2) hc
    rw [hok] at hends
    exact ⟨hends.1, ih.2.of_setup hends.2.2⟩
  | failed _ hc hstop ih =>
    have hends := mainGetblkFunc_ends hN ih.1 (fun _ => ih.2) hc
    rw [hstop] at hends
    exact ⟨hends.1, ih.2.of_setup hends.2⟩
  | elsewhere _ hs ih => exact ⟨ih.1.withSource (congrArg Prod.fst hs), ih.2.of_setup hs⟩

/-- What holds at a request: the cache is right before it and after it, and a request that
succeeds leaves the block in the source. -/
def ServedRight (file : List UInt8) (seekOk : Bool) (blkno : ℕ) (c : BlkCache) : Prop :=
  CacheRight file c ∧ (mainGetblkFunc file seekOk blkno c).Ends
    (fun _ c' => CacheRight file c' ∧ HoldsBlock file blkno c'.source) (fun _ => False)
    (fun _ c' => CacheRight file c')

/-- In every run without a read past the end of a file that cannot seek, the cache serves the
blocks of the file. -/
theorem servedRight_of_fetchable (hN : file.length < xoff.modulus) {seekOk : Bool} {blkno : ℕ}
    (h : CacheRuns file (Fetchable file) c) (hc : Fetchable file seekOk blkno c) :
    ServedRight file seekOk blkno c := by
  obtain ⟨hright, hshape⟩ := h.right hN
  exact ⟨hright, (mainGetblkFunc_ends hN hright (fun _ => hshape) hc).mono
    (fun _ _ hq => ⟨hq.1, hq.2.1⟩) (fun _ hf => hf) fun _ _ hs => hs.1⟩

end Runs

/-- A file of unknown size is longer than the 32 blocks of 512 bytes there is room for. A request
for block 5 finds it; one for block 33 skips block 32, which takes the slot of block 0, and takes
the slot of block 1. -/
theorem servedRight_of_fetchable_skip : ∃ c c₁,
    mainSetSource (List.replicate 17000 7) { srcwinsz := allocSize } = .ok () c ∧
      mainGetblkFunc (List.replicate 17000 7) false 5 c = .ok () c₁ ∧
      ServedRight (List.replicate 17000 7) false 33 c₁ ∧
      (mainGetblkFunc (List.replicate 17000 7) false 33 c₁).returns (fun c' => decide
        (c₁.lruHits = 1 ∧ (c'.lru 0).blkno = 32 ∧ (c'.lru 1).blkno = 33 ∧
          c'.source.onblk = 104)) = true := by
  have htest : (mainSetSource (List.replicate 17000 7) { srcwinsz := allocSize }).returns
      (fun c => decide (c.source.blksize = 512) &&
        (mainGetblkFunc (List.replicate 17000 7) false 5 c).returns (fun c₁ =>
          decide (c₁.source.blksize = 512) &&
            (mainGetblkFunc (List.replicate 17000 7) false 33 c₁).returns (fun c' => decide
              (c₁.lruHits = 1 ∧ (c'.lru 0).blkno = 32 ∧ (c'.lru 1).blkno = 33 ∧
                c'.source.onblk = 104)))) = true := by
    decide +kernel
  obtain ⟨_, c, hset, hc⟩ := Outcome.returns_iff.mp htest
  obtain ⟨hblk, hc⟩ := Bool.and_eq_true _ _ |>.mp hc
  obtain ⟨_, c₁, hserved, hc₁⟩ := Outcome.returns_iff.mp hc
  obtain ⟨hblk₁, hresult⟩ := Bool.and_eq_true _ _ |>.mp hc₁
  have hlen : (List.replicate 17000 (7 : UInt8)).length = 17000 := List.length_replicate
  have hfetch : ∀ b ≤ 33, ∀ c : BlkCache, c.source.blksize = 512 →
      Fetchable (List.replicate 17000 7) false b c := by
    intro b hb c hblk
    rw [Fetchable, hblk, hlen]
    exact ⟨lt_of_le_of_lt (Nat.mul_le_mul_right 512 hb) (by decide), .inr (.inr (.inr (by omega)))⟩
  have hhonest : SourceArgs.Honest { srcwinsz := allocSize } (List.replicate 17000 7) :=
    ⟨le_refl _, fun _ size hsize => nomatch hsize⟩
  refine ⟨c, c₁, hset, hserved, servedRight_of_fetchable (by rw [hlen]; decide)
    (.served (.start hhonest hset) (hfetch 5 (by decide) c (of_decide_eq_true hblk)) hserved)
    (hfetch 33 le_rfl c₁ (of_decide_eq_true hblk₁)), hresult⟩

/-- The slots after the buffer has been split, at the end of a file of 16484 bytes. -/
structure AtEnd (file : List UInt8) (c : BlkCache) : Prop where
  length : file.length = 16484
  lruSize : c.lruSize = 32
  doSrcFifo : c.doSrcFifo = true
  blkno : ∀ i, (c.lru i).blkno = i
  size : ∀ i, (c.lru i).size = 512
  blksize : c.source.blksize = 512
  shaped : c.source.Shaped
  sourcePosition : c.sourcePosition = 16384
  filePos : c.filePos = 16384
  seekFailed : c.seekFailed = false

/-- A request for a block past the end skips the last block, finds it short, and leaves its
number on a slot with another block's size. -/
theorem AtEnd.short {file : List UInt8} {c : BlkCache} (h : AtEnd file c) :
    ∃ e c', mainGetblkFunc file false 34 c = .stop e c' ∧ c'.lruSize = 32 ∧
      c'.source.blksize = 512 ∧ (c'.lru 0).blkno = 32 ∧ (c'.lru 0).size = 512 := by
  have hfirst : mainGetblkLru 34 c = .ok (2, true) (c.eject 2) := by
    rw [mainGetblkLru, if_pos h.doSrcFifo, h.lruSize]
    dsimp only
    rw [h.blkno, if_neg (by decide), if_neg (by decide)]
  have hdiv : c.source.blksizeDiv 16384 = (32, 0) := by
    rw [h.shaped.blksizeDiv_eq, h.blksize]
  have hnext : ∀ c₁ : BlkCache, c₁.lru = (c.eject 2).lru → c₁.lruSize = c.lruSize →
      c₁.doSrcFifo = c.doSrcFifo → mainGetblkLru 32 c₁ = .ok (0, true) (c₁.eject 0) := by
    intro c₁ hlru hsize hfifo
    have hzero : (c₁.lru 0).blkno = 0 := by
      rw [hlru, BlkCache.eject_lru, Function.update_of_ne (by decide), h.blkno]
    rw [mainGetblkLru, if_pos (hfifo.trans h.doSrcFifo), hsize, h.lruSize]
    dsimp only
    rw [hzero, if_neg (by decide), if_neg (by decide)]
  have hslot : ∀ c₁ : BlkCache, c₁.lru = (c.eject 2).lru → ((c₁.eject 0).lru 0).size = 512 := by
    intro c₁ hlru
    rw [BlkCache.eject_lru, Function.update_self, hlru, BlkCache.eject_lru,
      Function.update_of_ne (by decide)]
    exact h.size 0
  have hdata : ((file.drop 16384).take 512).length ≠ 512 := by
    rw [List.length_take, List.length_drop, h.length]
    decide
  have hskip : ∀ c₁ : BlkCache, c₁.lru = (c.eject 2).lru → c₁.lruSize = c.lruSize →
      c₁.doSrcFifo = c.doSrcFifo → c₁.source = c.source → c₁.sourcePosition = 16384 →
      c₁.filePos = 16384 → ∃ e c', skipBlock file c₁ = .stop e c' ∧ c'.lruSize = 32 ∧
        c'.source.blksize = 512 ∧ (c'.lru 0).blkno = 32 ∧ (c'.lru 0).size = 512 := by
    intro c₁ hlru hsize hfifo hsrc hpos hfile
    rw [skipBlock, hpos, hsrc, hdiv]
    dsimp only
    rw [hnext c₁ hlru hsize hfifo, Outcome.andThen_ok, readInput, Outcome.andThen_ok]
    have hdata' : ((file.drop (c₁.eject 0).filePos).take (c₁.eject 0).source.blksize).length ≠
        (c₁.eject 0).source.blksize := by
      change ((file.drop c₁.filePos).take c₁.source.blksize).length ≠ c₁.source.blksize
      rw [hfile, hsrc, h.blksize]
      exact hdata
    rw [if_pos hdata']
    refine ⟨_, _, rfl, hsize.trans h.lruSize, ?_, ?_, ?_⟩
    · exact (congrArg Source.blksize hsrc).trans h.blksize
    · dsimp only
      rw [Function.update_self]
    · dsimp only
      rw [Function.update_self]
      exact hslot c₁ hlru
  obtain ⟨e, c', hstop, hfacts⟩ := hskip { c.eject 2 with
    lruMisses := (c.eject 2).lruMisses + 1, seekFailed := true } rfl rfl rfl rfl
    h.sourcePosition h.filePos
  have hpos : 34 * 512 % xoff.modulus ≠ (c.eject 2).sourcePosition := by
    rw [show (c.eject 2).sourcePosition = 16384 from h.sourcePosition]
    decide
  refine ⟨e, c', ?_, hfacts⟩
  rw [mainGetblkFunc, hfirst, Outcome.andThen_ok]
  dsimp only
  rw [h.blksize, if_neg Bool.noConfusion, if_pos hpos, mainReadSeekSource,
    if_neg fun hseek => Bool.noConfusion hseek.2]
  have hlt : (c.eject 2).sourcePosition < 34 * 512 % xoff.modulus := by
    rw [show (c.eject 2).sourcePosition = 16384 from h.sourcePosition]
    decide
  rw [show (c.eject 2).source.blksize = 512 from h.blksize, if_neg (Nat.lt_asymm hlt), skipLoop]
  dsimp only
  rw [if_pos hlt, hstop]
  rfl

def endedFile : List UInt8 := List.replicate 16484 0

theorem endedFile_waiting : ∃ c, mainSetSource endedFile { srcwinsz := allocSize } = .ok () c ∧
    AtEnd endedFile c := by
  have hlen : (endedFile.take 16384).length = 16384 := by
    rw [endedFile, List.take_replicate, List.length_replicate]
    rfl
  obtain ⟨c, hfirst, hread⟩ := @mainGetblkFunc_first endedFile 16384 false
  have hwin : SourceArgs.window { srcwinsz := allocSize } = some 16384 := rfl
  have hknown : SourceArgs.sizeKnown { srcwinsz := allocSize } c.source.onblk 16384 = none := by
    rw [hread.onblk, hlen]
    rfl
  have hset : ∀ s : Source, s.blksize = 512 → s.maxWinsize = 16384 → setSource s =
      .ok () { s with
        srclen := 0, srcbase := 0, shiftby := 9, maskby := 511, maxWinsize := 16384 } := by
    intro s hb hm
    have hpow : checkPow2 512 = some 9 := rfl
    have hpow' : checkPow2 16384 = some 14 := rfl
    rw [setSource, setBlksize]
    dsimp only
    rw [hb, hpow, Outcome.andThen_ok, setMaxWinsize]
    dsimp only
    rw [hm, hpow']
    rfl
  have hmax : (c.split 16384).source.maxWinsize = 16384 := hread.maxWinsize
  rw [mainSetSource, hwin]
  dsimp only
  rw [hfirst, Outcome.andThen_ok, hknown]
  dsimp only
  rw [hset _ rfl hmax]
  exact ⟨_, rfl, List.length_replicate, rfl, rfl, fun _ => rfl, fun _ => rfl, rfl,
    ⟨show 9 < 64 by decide, rfl, rfl⟩, hread.sourcePosition.trans hlen, hread.filePos.trans hlen,
    hread.seekFailed⟩

/-- After a short read the slot of the block that was skipped is wrong. -/
theorem servedRight_fails :
    ¬ ∀ (file : List UInt8) (seekOk : Bool) (blkno : ℕ) (c : BlkCache),
      file.length < xoff.modulus →
      CacheRuns file (fun _ k c => k * c.source.blksize < xoff.modulus) c →
      blkno * c.source.blksize < xoff.modulus → ServedRight file seekOk blkno c := by
  intro hall
  obtain ⟨c, hset, hwait⟩ := endedFile_waiting
  have hreq : CacheRuns endedFile (fun _ k c => k * c.source.blksize < xoff.modulus) c :=
    .start ⟨le_refl _, fun _ _ h => by cases h⟩ hset
  have hlt : endedFile.length < xoff.modulus := by
    rw [hwait.length]
    decide
  have hends := (hall endedFile false 34 c hlt hreq (by rw [hwait.blksize]; decide)).2
  obtain ⟨e, c', hstop, hsize, hb, hno, hslot⟩ := hwait.short
  rw [hstop] at hends
  have hholds := (hends.slots.holds 0 (by rw [hsize]; decide) (by rw [hno]; decide)).2
  rw [hslot, hno, hb, blockLength_eq, hwait.length] at hholds
  exact absurd hholds (by decide)

end Xdelta
