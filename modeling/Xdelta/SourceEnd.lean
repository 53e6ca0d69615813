import Xdelta.Source

/-!
# The end of the source

How the library learns the length of a source from the blocks it asks for: the
greatest block number seen, the number of bytes on that block, and a flag set at
the first short block above it.
-/
namespace Xdelta
open Chunked

/-- `XD3_MAXSRCWINSZ`. -/
def maxSrcWinsz : ℕ := 2 ^ 61

/-- `xd3_pow2_roundup` and `xd3_xoff_roundup`: the least power of two not below `x`. Above
2^63 the doubling comes to zero and the loop does not end. -/
def pow2Roundup (x : ℕ) : Option ℕ :=
  ((List.range xoff.bits).map (2 ^ ·)).find? (fun i => decide (x ≤ i))

def setBlksize : Routine Source Stop ℕ := fun src =>
  match checkPow2 src.blksize with
  | some shiftby => .ok shiftby src
  | none =>
    match pow2Roundup src.blksize with
    | none => .fault
    | some blksize =>
      match checkPow2 blksize with
      | none => .fault
      | some shiftby => .ok shiftby { src with blksize := blksize }

def setMaxWinsize : Routine Source Stop Unit := fun src =>
  let rounded :=
    match checkPow2 src.maxWinsize with
    | some _ => some src.maxWinsize
    | none => pow2Roundup src.maxWinsize
  match rounded with
  | none => .fault
  | some maxWinsize =>
    let src := { src with maxWinsize := max maxWinsize allocSize }
    if maxSrcWinsz < src.maxWinsize then
      fail .invalid "source max_winsize exceeds the maximum" src
    else .ok () src

def setSource : Routine Source Stop Unit := fun src =>
  (setBlksize { src with srclen := 0, srcbase := 0 }).andThen fun shiftby src =>
  setMaxWinsize { src with shiftby := shiftby, maskby := 2 ^ shiftby - 1 }

def setSourceAndSize (sourceSize : ℕ) : Routine Source Stop Unit := fun src =>
  (setSource src).andThen fun _ src =>
  .ok () { src with
    eofKnown := true
    maxBlkno := (src.blksizeDiv sourceSize).1
    onlastblk := (src.blksizeDiv sourceSize).2 }

def Source.frontier (source : Source) : ℕ × ℕ × Bool :=
  (source.maxBlkno, source.onlastblk, source.eofKnown)

def Source.heldBlock (source : Source) : Option (List UInt8) × ℕ × ℕ :=
  (source.curblk, source.curblkno, source.onblk)

theorem setBlksize_ok {s s' : Source} {shiftby : ℕ} (h : setBlksize s = .ok shiftby s') :
    s'.blksize = 2 ^ shiftby ∧ shiftby < 64 ∧ s' = { s with blksize := s'.blksize } := by
  unfold setBlksize at h
  split at h
  · rename_i hpow
    cases h
    exact ⟨(checkPow2_eq_some hpow).1, (checkPow2_eq_some hpow).2, rfl⟩
  · split at h
    · cases h
    · split at h
      · cases h
      · rename_i hpow
        cases h
        exact ⟨(checkPow2_eq_some hpow).1, (checkPow2_eq_some hpow).2, rfl⟩

theorem setMaxWinsize_ok {s s' : Source} (h : setMaxWinsize s = .ok () s') :
    s' = { s with maxWinsize := s'.maxWinsize } := by
  unfold setMaxWinsize at h
  dsimp only at h
  split at h
  · cases h
  · split at h
    · cases h
    · cases h
      rfl

/-- A source that has been set has a power-of-two block size, and keeps its block and
its bookkeeping. -/
theorem setSource_ok {s s' : Source} (h : setSource s = .ok () s') :
    s'.Shaped ∧ s'.frontier = s.frontier ∧ s'.heldBlock = s.heldBlock := by
  unfold setSource at h
  cases hb : setBlksize { s with srclen := 0, srcbase := 0 } with
  | ok shiftby b =>
    rw [hb, Outcome.andThen_ok] at h
    obtain ⟨hpow, hlt, hsame⟩ := setBlksize_ok hb
    rw [setMaxWinsize_ok h]
    refine ⟨⟨hlt, hpow, rfl⟩, ?_, ?_⟩
    · rw [hsame]
      rfl
    · rw [hsame]
      rfl
  | starved b => rw [hb] at h; cases h
  | stop e b => rw [hb] at h; cases h
  | fault => rw [hb] at h; cases h

/-- The number of bytes block `k` really has. -/
abbrev blockLength (file : List UInt8) (blksize k : ℕ) : ℕ := (Source.block file blksize k).length

def Source.HeldTrue (file : List UInt8) (source : Source) : Prop :=
  source.curblk ≠ none → source.onblk = blockLength file source.blksize source.curblkno

/-- The application may change the block held, and only to one of the file's. -/
structure DeliversBlock (file : List UInt8) (s s' : Source) : Prop where
  same : s' = { s with curblk := s'.curblk, curblkno := s'.curblkno, onblk := s'.onblk }
  held : s'.HeldTrue file

/-- A block function that delivers blocks of the file, and the one asked for when it succeeds. -/
def Truthful (file : List UInt8) (app : Option GetblkFunc) : Prop :=
  ∀ f, app = some f → ∀ s k, s.HeldTrue file → DeliversBlock file s (f s k).1 ∧
    ((f s k).2 = none → (f s k).1.curblk ≠ none ∧ (f s k).1.curblkno = k)

inductive SizeGiven where
  | unknown
  | given
  deriving DecidableEq

/-- A source just set, with a true block in place or none. -/
inductive Started (file : List UInt8) : SizeGiven → Source → Prop
  | unknown {s₀ s} : setSource s₀ = .ok () s → s₀.frontier = (0, 0, false) → s.HeldTrue file →
      Started file .unknown s
  | given {s₀ s} : setSourceAndSize file.length s₀ = .ok () s → s.HeldTrue file →
      Started file .given s

/-- The blocks fetched through `xd3_getblk`, the latest first, and the source then. Between
requests, and after one that returned a code, the application may deliver a block. With the
size unknown, a block is asked for only after the block before it. -/
inductive Requested (file : List UInt8) (app : Option GetblkFunc) (size : SizeGiven)
    (s₀ : Source) : List ℕ → Source → Prop
  | start : Requested file app size s₀ [] s₀
  | fetched {ks s k s'} : Requested file app size s₀ ks s →
      (size = .given ∨ k = 0 ∨ k - 1 ∈ ks) → k * s.blksize < xoff.modulus →
      getblk app k s = .ok () s' → Requested file app size s₀ (k :: ks) s'
  | stopped {ks s k e s'} : Requested file app size s₀ ks s →
      getblk app k s = .stop e s' → Requested file app size s₀ ks s'
  | delivered {ks s s'} : Requested file app size s₀ ks s → DeliversBlock file s s' →
      Requested file app size s₀ ks s'

/-- The end is right once it is known, and so is the size of every block fetched. -/
def EndRight (file : List UInt8) (ks : List ℕ) (s : Source) : Prop :=
  (s.eofKnown = true → s.eof = file.length) ∧
    ∀ k ∈ ks, s.bytesOnSrcblk k = blockLength file s.blksize k

section Frontier

variable {file : List UInt8} {app : Option GetblkFunc} {size : SizeGiven} {s s' s₀ : Source}
  {k : ℕ} {ks : List ℕ}

theorem blockLength_eq (file : List UInt8) (blksize k : ℕ) :
    blockLength file blksize k = min blksize (file.length - k * blksize) := by
  rw [blockLength, Source.length_block]

/-- What a request leaves: a true block, and the bookkeeping done for it. -/
theorem getblk_truthful (ha : Truthful file app) (hs : s.HeldTrue file) :
    (getblk app k s).Goes
      (fun _ s' => ∃ t : Source, s' = noteBlock k t ∧ t.frontier = s.frontier ∧
        t.blksize = s.blksize ∧ t.shiftby = s.shiftby ∧ t.maskby = s.maskby ∧
        t.onblk = blockLength file s.blksize k ∧ t.curblk ≠ none ∧ t.curblkno = k)
      (fun _ => False)
      (fun _ t => t.frontier = s.frontier ∧ t.blksize = s.blksize ∧ t.shiftby = s.shiftby ∧
        t.maskby = s.maskby ∧ t.HeldTrue file) := by
  unfold getblk
  dsimp only
  by_cases hneed : s.curblk = none ∨ k ≠ s.curblkno
  · rw [if_pos hneed]
    cases app with
    | none => exact ⟨rfl, rfl, rfl, rfl, hs⟩
    | some f =>
      obtain ⟨⟨hsame, hheld⟩, hok⟩ := ha f rfl { s with getblkno := k } k hs
      dsimp only
      generalize f { s with getblkno := k } k = r at hsame hheld hok
      obtain ⟨t, ret⟩ := r
      dsimp only at hsame hheld hok
      have hb : t.blksize = s.blksize := by rw [hsame]
      cases ret with
      | some ret =>
        exact ⟨by rw [hsame]; rfl, hb, by rw [hsame], by rw [hsame], hheld⟩
      | none =>
        obtain ⟨hcur, hno⟩ := hok rfl
        refine ⟨t, rfl, ?_, hb, ?_, ?_, ?_, hcur, hno⟩
        · rw [hsame]; rfl
        · rw [hsame]
        · rw [hsame]
        · rw [hheld hcur, hno, hb]
  · obtain ⟨hcur, hno⟩ := not_or.mp hneed
    rw [if_neg hneed]
    rw [not_not] at hno
    exact ⟨s, rfl, rfl, rfl, rfl, rfl, by rw [hs hcur, hno], hcur, hno.symm⟩

theorem noteBlock_of_lt {t : Source} (h : t.maxBlkno < k) :
    noteBlock k t = { t with
      maxBlkno := k
      onlastblk := t.onblk
      eofKnown := if t.onblk = t.blksize then t.eofKnown else true } := by
  rw [noteBlock, if_pos h]
  exact if_pos rfl

theorem noteBlock_self (t : Source) : noteBlock t.maxBlkno t = { t with onlastblk := t.onblk } := by
  rw [noteBlock, if_neg (lt_irrefl _)]
  exact if_pos rfl

theorem noteBlock_of_gt {t : Source} (h : k < t.maxBlkno) : noteBlock k t = t := by
  rw [noteBlock, if_neg h.not_gt]
  exact if_neg h.ne

def SizeGiven.top (size : SizeGiven) (file : List UInt8) (blksize : ℕ) : ℕ :=
  match size with
  | .unknown => 0
  | .given => file.length / blksize

structure FrontierOf (file : List UInt8) (size : SizeGiven) (ks : List ℕ) (s : Source) : Prop where
  shaped : s.Shaped
  held : s.HeldTrue file
  le : ∀ k ∈ ks, k ≤ s.maxBlkno
  fits : s.maxBlkno * s.blksize < xoff.modulus
  top : s.maxBlkno ∈ ks ∨ s.maxBlkno = size.top file s.blksize
  above : size.top file s.blksize ≤ s.maxBlkno
  bytes : (size = .unknown ∧ ks = [] ∧ s.onlastblk = 0) ∨
    s.onlastblk = blockLength file s.blksize s.maxBlkno
  known : s.eofKnown = true ↔ size = .given ∨
    0 < s.maxBlkno ∧ blockLength file s.blksize s.maxBlkno < s.blksize

theorem Source.Shaped.blksize_pos (h : s.Shaped) : 0 < s.blksize :=
  h.blksize_eq ▸ Nat.two_pow_pos _

/-- The frontier depends on the bookkeeping fields and the held block only. -/
theorem FrontierOf.congr {t : Source} (h : FrontierOf file size ks s) (hheld : t.HeldTrue file)
    (hf : t.frontier = s.frontier) (hb : t.blksize = s.blksize) (hs : t.shiftby = s.shiftby)
    (hm : t.maskby = s.maskby) : FrontierOf file size ks t := by
  obtain ⟨hmax, hlast, hknown⟩ : t.maxBlkno = s.maxBlkno ∧ t.onlastblk = s.onlastblk ∧
      t.eofKnown = s.eofKnown :=
    ⟨congrArg Prod.fst hf, congrArg (·.2.1) hf, congrArg (·.2.2) hf⟩
  constructor
  · exact ⟨hs ▸ h.shaped.shiftby_lt, by rw [hb, hs, h.shaped.blksize_eq],
      by rw [hm, hs, h.shaped.maskby_eq]⟩
  · exact hheld
  · rw [hmax]; exact h.le
  · rw [hmax, hb]; exact h.fits
  · rw [hmax, hb]; exact h.top
  · rw [hmax, hb]; exact h.above
  · rw [hlast, hmax, hb]; exact h.bytes
  · rw [hknown, hmax, hb]; exact h.known

theorem blockLength_succ_eq_zero {blksize : ℕ} (h : blockLength file blksize k < blksize) :
    blockLength file blksize (k + 1) = 0 := by
  rw [blockLength_eq] at h ⊢
  rw [Nat.add_mul]
  omega

/-- The step: what fetching one more block does to the frontier. -/
theorem FrontierOf.note (h : FrontierOf file size ks s)
    (horder : size = .given ∨ k = 0 ∨ k - 1 ∈ ks) (hfits : k * s.blksize < xoff.modulus)
    (hon : s.onblk = blockLength file s.blksize k) :
    FrontierOf file size (k :: ks) (noteBlock k s) := by
  have hbytes : s.maxBlkno < k ∨ s.onlastblk = blockLength file s.blksize s.maxBlkno ∨
      k = s.maxBlkno := by
    rcases h.bytes with ⟨rfl, rfl, -⟩ | hb
    · rcases h.top with hmem | htop
      · exact absurd hmem List.not_mem_nil
      · rw [htop]
        exact (Nat.eq_zero_or_pos k).elim (fun h0 => .inr (.inr h0)) .inl
    · exact .inr (.inl hb)
  rcases lt_trichotomy s.maxBlkno k with hlt | rfl | hgt
  · -- the frontier moves, by one block unless the size was given
    have hmove : size = .given ∨ k = s.maxBlkno + 1 := by
      rcases horder with hs | rfl | hprev
      · exact .inl hs
      · omega
      · have := h.le _ hprev
        omega
    rw [noteBlock_of_lt hlt]
    refine ⟨⟨h.shaped.1, h.shaped.2, h.shaped.3⟩, h.held, ?_, hfits, .inl List.mem_cons_self,
      h.above.trans hlt.le, .inr hon, ?_⟩
    · exact List.forall_mem_cons.mpr ⟨le_refl _, fun j hj => (h.le j hj).trans hlt.le⟩
    · dsimp only
      rw [hon]
      have hle := Source.block_length_le file s.blksize k
      by_cases hfull : blockLength file s.blksize k = s.blksize
      · rw [if_pos hfull, h.known, hfull]
        rcases hmove with hs | rfl
        · exact iff_of_true (.inl hs) (.inl hs)
        · refine or_congr_right (iff_of_false (fun hshort => ?_) fun hl => lt_irrefl _ hl.2)
          have hzero := blockLength_succ_eq_zero hshort.2
          have hpos := h.shaped.blksize_pos
          omega
      · rw [if_neg hfull]
        exact iff_of_true rfl (.inr ⟨by omega, lt_of_le_of_ne hle hfull⟩)
  · rw [noteBlock_self]
    exact ⟨⟨h.shaped.1, h.shaped.2, h.shaped.3⟩, h.held,
      List.forall_mem_cons.mpr ⟨le_refl _, h.le⟩, h.fits,
      .inl List.mem_cons_self, h.above, .inr hon, h.known⟩
  · rw [noteBlock_of_gt hgt]
    refine ⟨h.shaped, h.held, List.forall_mem_cons.mpr ⟨hgt.le, h.le⟩, h.fits,
      h.top.imp_left (List.mem_cons_of_mem _), h.above, .inr ?_, h.known⟩
    rcases hbytes with hlt | hb | heq
    · omega
    · exact hb
    · omega

theorem Started.frontier (hN : file.length < xoff.modulus) (h : Started file size s) :
    FrontierOf file size [] s := by
  cases h with
  | @unknown s₀ _ hset hzero hheld =>
    obtain ⟨hshape, hf, -⟩ := setSource_ok hset
    obtain ⟨hmax, hlast, hknown⟩ : s.maxBlkno = 0 ∧ s.onlastblk = 0 ∧ s.eofKnown = false := by
      rw [hzero] at hf
      exact ⟨congrArg Prod.fst hf, congrArg (·.2.1) hf, congrArg (·.2.2) hf⟩
    refine ⟨hshape, hheld, fun _ h => absurd h List.not_mem_nil, ?_, .inr hmax, ?_,
      .inl ⟨rfl, rfl, hlast⟩, ?_⟩
    · rw [hmax, Nat.zero_mul]
      exact xoff.modulus_pos
    · exact Nat.zero_le _
    · rw [hknown, hmax]
      exact iff_of_false Bool.false_ne_true (by simp)
  | @given s₀ _ hset hheld =>
    unfold setSourceAndSize at hset
    cases hs : setSource s₀ with
    | ok u t =>
      rw [hs, Outcome.andThen_ok] at hset
      obtain ⟨hshape, -, -⟩ := setSource_ok hs
      cases hset
      have hdiv := hshape.blksizeDiv_eq file.length
      refine ⟨⟨hshape.1, hshape.2, hshape.3⟩, hheld, fun _ h => absurd h List.not_mem_nil, ?_,
        .inr ?_, ?_, .inr ?_, iff_of_true rfl (.inl rfl)⟩
      · dsimp only
        rw [hdiv]
        exact lt_of_le_of_lt (Nat.div_mul_le_self _ _) hN
      · dsimp only
        rw [hdiv]
        rfl
      · dsimp only
        rw [hdiv]
        exact le_refl _
      · dsimp only
        rw [hdiv, blockLength_eq]
        dsimp only
        have hsplit := Nat.div_add_mod file.length t.blksize
        have hlt := Nat.mod_lt file.length hshape.blksize_pos
        rw [Nat.mul_comm] at hsplit
        omega
    | starved t => rw [hs] at hset; cases hset
    | stop e t => rw [hs] at hset; cases hset
    | fault => rw [hs] at hset; cases hset

theorem Requested.frontier (ha : Truthful file app) (hstart : FrontierOf file size [] s₀)
    (h : Requested file app size s₀ ks s) : FrontierOf file size ks s := by
  induction h with
  | start => exact hstart
  | @fetched ks s k s' _ horder hfits hget ih =>
    have hgoes := getblk_truthful (k := k) ha ih.held
    rw [hget] at hgoes
    obtain ⟨t, rfl, hf, hb, hs, hm, hon, hcur, hno⟩ := hgoes
    have ht := ih.congr (t := t) (fun _ => by rw [hon, hno, hb]) hf hb hs hm
    exact ht.note horder (hb ▸ hfits) (hb ▸ hon)
  | @stopped ks s k e s' _ hget ih =>
    have hgoes := getblk_truthful (k := k) ha ih.held
    rw [hget] at hgoes
    obtain ⟨hf, hb, hs, hm, hheld⟩ := hgoes
    exact ih.congr hheld hf hb hs hm
  | @delivered ks s s' _ hd ih =>
    refine ih.congr hd.held ?_ ?_ ?_ ?_ <;> rw [hd.same]
    rfl

theorem FrontierOf.eof_eq (h : FrontierOf file size ks s)
    (hlast : s.maxBlkno * s.blksize + s.onlastblk < xoff.modulus) :
    s.eof = s.maxBlkno * s.blksize + s.onlastblk := by
  rw [Source.eof, Nat.shiftLeft_eq, ← h.shaped.blksize_eq, Nat.mod_eq_of_lt h.fits, xoff.add_eq hlast]

theorem FrontierOf.bytes_of_pos (h : FrontierOf file size ks s) (hpos : 0 < s.maxBlkno) :
    s.onlastblk = blockLength file s.blksize s.maxBlkno := by
  rcases h.bytes with ⟨rfl, rfl, -⟩ | hb
  · rcases h.top with hmem | htop
    · exact absurd hmem List.not_mem_nil
    · exact absurd htop hpos.ne'
  · exact hb

/-- A frontier past the end of the file is taken for the end. -/
theorem FrontierOf.max_le (h : FrontierOf file size ks s) (hr : EndRight file ks s) :
    s.maxBlkno * s.blksize ≤ file.length := by
  by_contra hpast
  have hb := h.shaped.blksize_pos
  have hpos : 0 < s.maxBlkno := Nat.pos_of_ne_zero fun h0 => by
    rw [h0, Nat.zero_mul] at hpast
    exact hpast (Nat.zero_le _)
  have hempty : blockLength file s.blksize s.maxBlkno = 0 := by
    rw [blockLength_eq]
    omega
  have hlast : s.onlastblk = 0 := (h.bytes_of_pos hpos).trans hempty
  have hknown : s.eofKnown = true := h.known.mpr (.inr ⟨hpos, hempty ▸ hb⟩)
  have heof := hr.1 hknown
  rw [h.eof_eq (by rw [hlast]; exact h.fits), hlast] at heof
  omega

theorem FrontierOf.endRight (h : FrontierOf file size ks s) (hN : file.length < xoff.modulus)
    (hin : s.maxBlkno * s.blksize ≤ file.length) : EndRight file ks s := by
  constructor
  · intro hknown
    have hshort : blockLength file s.blksize s.maxBlkno = file.length - s.maxBlkno * s.blksize ∧
        s.onlastblk = blockLength file s.blksize s.maxBlkno := by
      rw [blockLength_eq]
      rcases h.known.mp hknown with rfl | ⟨hpos, hlt⟩
      · have hdiv : file.length < (s.maxBlkno + 1) * s.blksize :=
          (Nat.div_lt_iff_lt_mul h.shaped.blksize_pos).mp (Nat.lt_succ_of_le h.above)
        rw [Nat.add_mul] at hdiv
        refine ⟨by omega, ?_⟩
        rcases h.bytes with ⟨hs, -⟩ | hb
        · cases hs
        · rw [hb, blockLength_eq]
      · refine ⟨?_, (h.bytes_of_pos hpos).trans (blockLength_eq _ _ _)⟩
        rw [blockLength_eq] at hlt
        omega
    rw [h.eof_eq (by omega)]
    omega
  · intro k hk
    rw [Source.bytesOnSrcblk]
    by_cases htop : k = s.maxBlkno
    · rw [if_pos htop, htop]
      rcases h.bytes with ⟨-, rfl, -⟩ | hb
      · exact absurd hk List.not_mem_nil
      · exact hb
    · rw [if_neg htop, blockLength_eq]
      have hle := h.le k hk
      have hnext : (k + 1) * s.blksize ≤ s.maxBlkno * s.blksize :=
        Nat.mul_le_mul_right _ (by omega)
      rw [Nat.add_mul] at hnext
      omega

/-- The end of the source and the sizes of its blocks come out right exactly when no
block is fetched that starts past the end. -/
theorem endRight_iff (hN : file.length < xoff.modulus) (ha : Truthful file app)
    (hstart : Started file size s₀) (h : Requested file app size s₀ ks s) :
    EndRight file ks s ↔ ∀ k ∈ ks, k * s.blksize ≤ file.length := by
  have hf := h.frontier ha (hstart.frontier hN)
  constructor
  · exact fun hr k hk => (Nat.mul_le_mul_right _ (hf.le k hk)).trans (hf.max_le hr)
  · refine fun hall => hf.endRight hN ?_
    rcases hf.top with hmem | htop
    · exact hall _ hmem
    · rw [htop]
      cases size with
      | unknown => exact (Nat.zero_mul _).le.trans (Nat.zero_le _)
      | given => exact Nat.div_mul_le_self _ _

end Frontier

theorem serveFile_truthful (file : List UInt8) : Truthful file (some (serveFile file)) := by
  intro f hf s k _
  cases hf
  exact ⟨⟨rfl, fun _ => rfl⟩, fun _ => ⟨nofun, rfl⟩⟩

def shortFile : List UInt8 := [1, 2, 3, 4, 5]

def shortSource : Source := { blksize := 16, shiftby := 4, maskby := 15, maxWinsize := allocSize }

theorem shortFile_started : Started shortFile .unknown shortSource :=
  .unknown (show setSource { blksize := 16 } = .ok () shortSource from rfl) rfl
    fun h => absurd rfl h

def shortFirst : Source := noteBlock 0 ({ shortSource with getblkno := 0 }.serve shortFile 0)

theorem shortFile_first :
    Requested shortFile (some (serveFile shortFile)) .unknown shortSource [0] shortFirst :=
  .fetched .start (.inr (.inl rfl)) (by decide) rfl

/-- With only blocks of the file fetched, the end is right. -/
theorem endRight_iff_shortFile :
    (EndRight shortFile [0] shortFirst ↔
      ∀ k ∈ [0], k * shortFirst.blksize ≤ shortFile.length) :=
  endRight_iff (by decide) (serveFile_truthful _) shortFile_started shortFile_first

/-- The empty block after a short block 0 moves the end of the source to 16. -/
theorem endRight_fails :
    ¬ ∀ (file : List UInt8) (app : Option GetblkFunc) (size : SizeGiven) (s₀ s : Source)
      (ks : List ℕ), file.length < xoff.modulus → Truthful file app → Started file size s₀ →
      Requested file app size s₀ ks s → EndRight file ks s := by
  intro hall
  have hsecond : Requested shortFile (some (serveFile shortFile)) .unknown shortSource [1, 0]
      (noteBlock 1 ({ shortFirst with getblkno := 1 }.serve shortFile 1)) :=
    .fetched shortFile_first (.inr (.inr List.mem_cons_self)) (by decide) rfl
  have hend := (hall shortFile (some (serveFile shortFile)) .unknown shortSource _ [1, 0]
    (by decide) (serveFile_truthful _) shortFile_started hsecond).1 rfl
  exact absurd hend (by decide)

end Xdelta
