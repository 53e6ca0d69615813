import Xdelta.Encoder.Extend
import Xdelta.SourceEnd

/-!
# Indexing the source

The scan of `xd3_srcwin_move_point`: every checksum is taken inside a block, every
entry of the table leads back to its offset, and the position goes forward only.
-/
namespace Xdelta
open Chunked

/-- The number of the block in which `file` ends. -/
def lastBlock (file : List UInt8) (s : Source) : ℕ := file.length / s.blksize

structure Booked (file : List UInt8) (s : Source) : Prop extends s.Faithful file where
  max_le : s.maxBlkno ≤ lastBlock file s
  unknown : s.eofKnown = false → s.maxBlkno < lastBlock file s ∨ lastBlock file s = 0
  known : s.eofKnown = true → s.maxBlkno = lastBlock file s ∧ s.onlastblk = file.length % s.blksize

section Booking

variable {file : List UInt8} {s s' t : Source} {k : ℕ}

theorem Booked.congr (h : Booked file s) (hf : s'.Faithful file) (hb : s'.blksize = s.blksize)
    (hfr : s'.frontier = s.frontier) : Booked file s' := by
  obtain ⟨hmax, hon, heof⟩ : s'.maxBlkno = s.maxBlkno ∧ s'.onlastblk = s.onlastblk ∧
      s'.eofKnown = s.eofKnown := by
    simpa [Source.frontier] using hfr
  have hlast : lastBlock file s' = lastBlock file s := by rw [lastBlock, lastBlock, hb]
  refine ⟨hf, ?_, ?_, ?_⟩
  · rw [hmax, hlast]
    exact h.max_le
  · rw [hmax, hlast, heof]
    exact h.unknown
  · rw [hmax, hlast, heof, hon, hb]
    exact h.known

theorem Booked.blksize_pos (h : Booked file s) : 0 < s.blksize := h.toShaped.blksize_pos

/-- The last block starts in the file, and ends after it. -/
theorem Booked.last_spec (h : Booked file s) :
    lastBlock file s * s.blksize + file.length % s.blksize = file.length ∧
      file.length % s.blksize < s.blksize := by
  rw [lastBlock, Nat.mul_comm]
  exact ⟨Nat.div_add_mod _ _, Nat.mod_lt _ h.blksize_pos⟩

theorem Booked.eof_eq (h : Booked file s) (hN : file.length < xoff.modulus)
    (hknown : s.eofKnown = true) : s.eof = file.length := by
  obtain ⟨hmax, hon⟩ := h.known hknown
  have hlast := h.last_spec.1
  rw [Source.eof, hmax, hon, Nat.shiftLeft_eq, ← h.blksize_eq, Nat.mod_eq_of_lt (by omega),
    xoff.add_eq (by omega), hlast]

/-- The blocks before the last are full, and the last is not. -/
theorem Booked.blockLength_of_lt (h : Booked file s) (hk : k < lastBlock file s) :
    blockLength file s.blksize k = s.blksize := by
  have hlast := h.last_spec.1
  have hle : (k + 1) * s.blksize ≤ lastBlock file s * s.blksize := Nat.mul_le_mul_right _ hk
  rw [Nat.add_mul] at hle
  rw [blockLength_eq]
  omega

theorem Booked.blockLength_last (h : Booked file s) :
    blockLength file s.blksize (lastBlock file s) = file.length % s.blksize := by
  obtain ⟨hlast, hlt⟩ := h.last_spec
  rw [blockLength_eq]
  omega

/-- The bookkeeping for a block that starts within the file. -/
theorem Booked.note (h : Booked file t) (hon : t.onblk = blockLength file t.blksize k)
    (hk : k ≤ lastBlock file t) :
    Booked file (noteBlock k t) ∧ (noteBlock k t).bytesOnSrcblk k = blockLength file t.blksize k ∧
      k ≤ (noteBlock k t).maxBlkno ∧
      (t.eofKnown = true ∨ lastBlock file t = 0 → (noteBlock k t).eofKnown = t.eofKnown) := by
  have hf := h.toFaithful.noteBlock k
  obtain ⟨hlast, hlt⟩ := h.last_spec
  rcases lt_trichotomy t.maxBlkno k with hmax | hmax | hmax
  · rw [noteBlock_of_lt hmax] at hf ⊢
    have hopen : t.eofKnown = false := by
      by_contra hne
      have := (h.known (Bool.eq_true_of_not_eq_false hne)).1
      omega
    refine ⟨⟨hf, hk, fun heof => ?_, fun heof => ?_⟩, ?_, le_refl _, fun hne => ?_⟩
    · -- a full block is not the last one
      by_cases hfull : t.onblk = t.blksize
      · refine .inl (lt_of_le_of_ne hk fun heq => ?_)
        have hshort := h.blockLength_last
        rw [← show k = lastBlock file t from heq, ← hon] at hshort
        omega
      · dsimp only at heof
        rw [if_neg hfull] at heof
        cases heof
    · have hshort : t.onblk ≠ t.blksize := fun hfull => by
        dsimp only at heof
        rw [if_pos hfull, hopen] at heof
        cases heof
      have hkeq : k = lastBlock file t := by
        by_contra hne
        exact hshort (hon.trans (h.blockLength_of_lt (by omega)))
      refine ⟨hkeq, ?_⟩
      dsimp only
      rw [hon, hkeq, h.blockLength_last]
    · rw [Source.bytesOnSrcblk, if_pos rfl]
      exact hon
    · rcases hne with hne | hne
      · rw [hopen] at hne
        cases hne
      · omega
  · subst hmax
    rw [noteBlock_self] at hf ⊢
    refine ⟨⟨hf, h.max_le, h.unknown, fun heof => ⟨(h.known heof).1, ?_⟩⟩, ?_, le_refl _,
      fun _ => rfl⟩
    · dsimp only
      rw [hon, (h.known heof).1, h.blockLength_last]
    · rw [Source.bytesOnSrcblk, if_pos rfl]
      exact hon
  · rw [noteBlock_of_gt hmax]
    refine ⟨h, ?_, hmax.le, fun _ => rfl⟩
    rw [Source.bytesOnSrcblk, if_neg hmax.ne,
      h.blockLength_of_lt (lt_of_lt_of_le hmax h.max_le)]

theorem getblk_booked {app : Option GetblkFunc} (hserve : ServesBlocks file app)
    (htrue : Truthful file app) (h : Booked file s) (hk : k ≤ lastBlock file s) :
    (getblk app k s).Ends
      (fun _ s' => Booked file s' ∧ s'.blksize = s.blksize ∧
        (s'.curblk.getD []).take s'.onblk = Source.block file s.blksize k ∧
        s'.bytesOnSrcblk k = blockLength file s.blksize k ∧ k ≤ s'.maxBlkno ∧
        (s.eofKnown = true ∨ lastBlock file s = 0 → s'.eofKnown = s.eofKnown))
      (fun _ => False)
      (fun _ s' => Booked file s' ∧ s'.blksize = s.blksize ∧ s'.eofKnown = s.eofKnown) := by
  have hheld : s.HeldTrue file := fun hcur => by
    obtain ⟨b, hb⟩ := Option.ne_none_iff_exists'.mp hcur
    obtain ⟨hblock, hon⟩ := h.holds b hb
    rw [hon, hblock]
  have hserves := getblk_serves hserve h.toFaithful k
  have htruth := @getblk_truthful _ _ _ k htrue hheld
  cases hg : getblk app k s with
  | ok u s' =>
    rw [hg] at hserves htruth
    obtain ⟨hf, hb, hblock⟩ := hserves
    obtain ⟨t, rfl, hfr, htb, hts, htm, hon, -, -⟩ := htruth
    have hft : t.Faithful file := by
      obtain ⟨hcur, hno, honb⟩ : (noteBlock k t).curblk = t.curblk ∧
          (noteBlock k t).curblkno = t.curblkno ∧ (noteBlock k t).onblk = t.onblk :=
        ⟨noteBlock_curblk _ _, (noteBlock_held k t).1, (noteBlock_held k t).2⟩
      refine ⟨⟨hts ▸ h.shiftby_lt, ?_, ?_⟩, ?_⟩
      · rw [htb, hts, h.blksize_eq]
      · rw [htm, hts, h.maskby_eq]
      · intro b hcb
        have hh := hf.holds b (hcur.trans hcb)
        rwa [hno, honb, noteBlock_blksize] at hh
    have hbt := h.congr hft htb hfr
    have hlast : lastBlock file t = lastBlock file s := by rw [lastBlock, lastBlock, htb]
    obtain ⟨hnote, hbytes, hmax, heof⟩ := hbt.note (htb ▸ hon) (hlast ▸ hk)
    have hsame : t.eofKnown = s.eofKnown := congrArg (·.2.2) hfr
    exact ⟨hnote, hb, hblock, htb ▸ hbytes, hmax,
      fun hk' => (heof (by rwa [hsame, hlast])).trans hsame⟩
  | starved s' => rw [hg] at hserves; exact hserves
  | stop e s' =>
    rw [hg] at hserves htruth
    exact ⟨h.congr hserves.1 hserves.2 htruth.1, hserves.2, congrArg (·.2.2) htruth.1⟩
  | fault => rw [hg] at hserves; exact hserves

end Booking

/-- Every entry stands for an offset before `pos`, with the bytes looked at in the file. -/
def Located (env : EncEnv) (file : List UInt8) (pos : ℕ) (s : Search) : Prop :=
  ∀ b, s.largeTable b ≠ 0 →
    s.largeTable b = (s.largeOffsets b + 1) % env.sizeT.modulus ∧
      s.largeOffsets b + env.smatcher.largeLook ≤ file.length ∧ s.largeOffsets b < pos

theorem Located.mono {env : EncEnv} {file : List UInt8} {pos pos' : ℕ} {s : Search}
    (h : Located env file pos s) (hpos : pos ≤ pos') : Located env file pos' s := fun b hb =>
  ⟨(h b hb).1, (h b hb).2.1, (h b hb).2.2.trans_le hpos⟩

/-- Past the end of the file the position may come back to it. -/
theorem Located.clamp {env : EncEnv} {file : List UInt8} {pos : ℕ} {s : Search}
    (h : Located env file pos s) (hlook : 0 < env.smatcher.largeLook) :
    Located env file file.length s := fun b hb =>
  ⟨(h b hb).1, (h b hb).2.1, by have := (h b hb).2.1; omega⟩

theorem Located.insert {env : EncEnv} {file : List UInt8} {pos : ℕ} {s : Search}
    (h : Located env file pos s) (bytes : List UInt8) {base blkpos : ℕ}
    (hin : base + blkpos + env.smatcher.largeLook ≤ file.length) (hpos : base + blkpos < pos)
    (hlook : 0 < env.smatcher.largeLook) (hN : file.length < xoff.modulus) :
    Located env file pos (s.insertLarge env bytes base blkpos) := by
  intro b hb
  unfold Search.insertLarge at hb ⊢
  dsimp only at hb ⊢
  by_cases heq : b = env.largeHash bytes
  · subst heq
    rw [Function.update_self, Function.update_self, xoff.add_eq (by omega)]
    exact ⟨rfl, hin, hpos⟩
  · rw [Function.update_of_ne heq] at hb ⊢
    rw [Function.update_of_ne heq]
    exact h b hb

/-- The expansion of a truncated offset gives the offset, within 2^32 of the position. -/
theorem sourceCksumOffset_eq {sizeT : Width} {pos offset : ℕ} (hpos : offset < pos)
    (hspan : sizeT = .w32 → pos - offset < 2 ^ 32)
    (hne : (offset + 1) % sizeT.modulus ≠ 0) (hlt : offset + 1 < xoff.modulus) :
    sourceCksumOffset sizeT pos ((offset + 1) % sizeT.modulus - 1) = offset := by
  cases sizeT with
  | w64 =>
    rw [sourceCksumOffset, Nat.mod_eq_of_lt hlt, Nat.add_sub_cancel]
  | w32 =>
    have hmod : Width.w32.modulus = 2 ^ 32 := rfl
    have hnear := hspan rfl
    rw [hmod] at hne ⊢
    have hlow : (offset + 1) % 2 ^ 32 - 1 = offset % 2 ^ 32 := by omega
    have hor : ∀ hi low : ℕ, low < 2 ^ 32 → (hi <<< 32) ||| low = hi * 2 ^ 32 + low :=
      fun hi low h => by rw [← Nat.shiftLeft_add_eq_or_of_lt h, Nat.shiftLeft_eq]
    rw [sourceCksumOffset, hlow, Nat.shiftRight_eq_div_pow]
    split_ifs with h0 hsr
    · omega
    · rw [hor _ _ (by omega)]
      omega
    · rw [hor _ _ (by omega)]
      omega

def SameButTable (s s' : Search) : Prop :=
  s' = { s with largeTable := s'.largeTable, largeOffsets := s'.largeOffsets }

/-- The values of `smatcher` that a conversion to `ptrdiff_t` keeps. -/
structure Smatcher.Scans (sm : Smatcher) : Prop where
  look_pos : 4 ≤ sm.largeLook
  step_pos : 1 ≤ sm.largeStep
  look_lt : sm.largeLook < 2 ^ 63
  step_lt : sm.largeStep < 2 ^ 63

/-- The scan of a block, downwards from `blkpos`, never leaves the block. -/
theorem indexBlock_located {env : EncEnv} {file block : List UInt8} {base pos : ℕ} {oldpos : ℤ}
    (hsm : env.smatcher.Scans) (hold : 0 ≤ oldpos) (hbase : base + block.length ≤ file.length)
    (hpos : base + block.length ≤ pos) (hN : file.length < xoff.modulus) (fuel : ℕ) {blkpos : ℤ}
    {s : Search} (h0 : 0 ≤ blkpos) (hin : blkpos + env.smatcher.largeLook ≤ block.length)
    (hfuel : blkpos < fuel) (hs : Located env file pos s) :
    ∃ s', indexBlock env block base oldpos fuel blkpos s = some s' ∧ Located env file pos s' ∧
      SameButTable s s' := by
  have hlook := hsm.look_pos
  have hstep : ptrdiff env.smatcher.largeStep = env.smatcher.largeStep := if_pos hsm.step_lt
  have hpos1 := hsm.step_pos
  induction fuel generalizing blkpos s with
  | zero => exact absurd hfuel (by omega)
  | succ fuel ih =>
    have hs' := hs.insert ((block.drop blkpos.toNat).take env.smatcher.largeLook)
      (by omega : base + blkpos.toNat + env.smatcher.largeLook ≤ file.length) (by omega) (by omega)
      hN
    rw [indexBlock, if_neg (by omega)]
    dsimp only
    rw [hstep]
    by_cases hmore : oldpos ≤ blkpos - env.smatcher.largeStep
    · rw [if_pos hmore]
      obtain ⟨s', hres, hloc, hsame⟩ := @ih (blkpos - env.smatcher.largeStep) _ (by omega)
        (by omega) (by omega) hs'
      refine ⟨s', hres, hloc, ?_⟩
      rw [SameButTable, hsame]
      rfl
    · rw [if_neg hmore]
      exact ⟨_, rfl, hs', rfl⟩

/-- What the scan keeps: a source whose end is right once known, a position within the file or
just past its last block, and a table that leads back to the offsets. -/
structure Scanning (env : EncEnv) (file : List UInt8) (src : Source) (m : Matcher) : Prop where
  source : m.enc.src = .live src
  booked : Booked file src
  pos : m.search.srcwinCksumPos ≤ file.length ∨
    m.search.srcwinCksumPos = (lastBlock file src + 1) * src.blksize ∧
      (src.eofKnown = true ∨ lastBlock file src = 0)
  located : Located env file m.search.srcwinCksumPos m.search
  maxsrcaddr : m.search.maxsrcaddr ≤ file.length

structure ScansOn (src : Source) (m : Matcher) (src' : Source) (m' : Matcher) : Prop where
  pos : m.search.srcwinCksumPos ≤ m'.search.srcwinCksumPos
  blksize : src'.blksize = src.blksize
  known : src.eofKnown = true → src'.eofKnown = true

theorem ScansOn.trans {s₁ s₂ s₃ : Source} {m₁ m₂ m₃ : Matcher} (h : ScansOn s₁ m₁ s₂ m₂)
    (h' : ScansOn s₂ m₂ s₃ m₃) : ScansOn s₁ m₁ s₃ m₃ :=
  ⟨h.pos.trans h'.pos, h'.blksize.trans h.blksize, fun hk => h'.known (h.known hk)⟩

section Scan

variable {env : EncEnv} {file : List UInt8} {src : Source} {m : Matcher}

/-- A block that was fetched is indexed, and the position goes past it. -/
theorem indexFetched_ends (hsm : env.smatcher.Scans) (hN : file.length < xoff.modulus)
    {blkno blkrem : ℕ} (h : Scanning env file src m) (hblk : blkno ≤ lastBlock file src)
    (hpos : blkno * src.blksize + blkrem = m.search.srcwinCksumPos) (hrem : blkrem < src.blksize)
    (hcur : (src.curblk.getD []).take src.onblk = Source.block file src.blksize blkno)
    (hbytes : src.bytesOnSrcblk blkno = blockLength file src.blksize blkno)
    (hmax : blkno ≤ src.maxBlkno) (hend : (lastBlock file src + 1) * src.blksize < xoff.modulus)
    (hsize : src.blksize ≤ 2 ^ 63) :
    ∃ m', indexFetched env blkno blkrem m = .ok () m' ∧ Scanning env file src m' ∧
      m.search.srcwinCksumPos < m'.search.srcwinCksumPos := by
  have hlast := h.booked.last_spec.1
  have hle : blkno * src.blksize ≤ lastBlock file src * src.blksize := Nat.mul_le_mul_right _ hblk
  have hnext : (blkno + 1) * src.blksize ≤ (lastBlock file src + 1) * src.blksize :=
    Nat.mul_le_mul_right _ (by omega)
  have hlen : m.curblk.length = blockLength file src.blksize blkno := by
    rw [Matcher.curblk, h.source]
    exact congrArg List.length hcur
  have hlenle : blockLength file src.blksize blkno ≤ src.blksize ∧
      blkno * src.blksize + blockLength file src.blksize blkno ≤ file.length := by
    rw [blockLength_eq]
    omega
  have hlt63 : blockLength file src.blksize blkno < 2 ^ 63 := by
    have h64 : xoff.modulus = 2 ^ 64 := rfl
    have hshort := h.booked.last_spec.2
    rw [Nat.add_mul, Nat.one_mul] at hend
    by_contra hge
    -- only one block of this size has an end
    have hzero : lastBlock file src = 0 := by
      by_contra hne
      have : src.blksize ≤ lastBlock file src * src.blksize :=
        Nat.le_mul_of_pos_left _ (Nat.pos_of_ne_zero hne)
      omega
    rw [hzero, Nat.zero_mul] at hlast
    omega
  have hexp : (blkno + 1) * src.blksize = blkno * src.blksize + src.blksize := by
    rw [Nat.add_mul, Nat.one_mul]
  -- the position after the block is within the file unless the block is the last
  have hafter : (blkno + 1) * src.blksize ≤ file.length ∨
      (blkno + 1) * src.blksize = (lastBlock file src + 1) * src.blksize ∧
        (src.eofKnown = true ∨ lastBlock file src = 0) := by
    rcases Nat.lt_or_ge blkno (lastBlock file src) with hlt | hge
    · left
      have : (blkno + 1) * src.blksize ≤ lastBlock file src * src.blksize :=
        Nat.mul_le_mul_right _ hlt
      omega
    · have heq : blkno = lastBlock file src := by omega
      refine .inr ⟨by rw [heq], ?_⟩
      by_cases hk : src.eofKnown = true
      · exact .inl hk
      · rcases h.booked.unknown (Bool.eq_false_of_not_eq_true hk) with hu | hu
        · omega
        · exact .inr hu
  have hstep : xoff.add blkno 1 * src.blksize % xoff.modulus = (blkno + 1) * src.blksize := by
    have hb := h.booked.blksize_pos
    have hsmall : blkno + 1 ≤ (blkno + 1) * src.blksize := Nat.le_mul_of_pos_right _ hb
    rw [xoff.add_eq (by omega), Nat.mod_eq_of_lt (by omega)]
  have hlook := hsm.look_pos
  have hl : ptrdiff env.smatcher.largeLook = env.smatcher.largeLook := if_pos hsm.look_lt
  have hpb : ptrdiff (src.bytesOnSrcblk blkno) = blockLength file src.blksize blkno := by
    rw [hbytes]
    exact if_pos hlt63
  have hfinish : ∀ s, SameButTable m.search s → Located env file ((blkno + 1) * src.blksize) s →
      Scanning env file src { m with search := { s with
        srcwinCksumPos := (blkno + 1) * src.blksize } } := by
    intro s hsame hloc
    refine ⟨h.source, h.booked, hafter, hloc, ?_⟩
    dsimp only
    rw [hsame]
    exact h.maxsrcaddr
  rw [indexFetched, h.source]
  dsimp only
  rw [hstep, hpb, hl]
  by_cases hshort : (blockLength file src.blksize blkno : ℤ) < env.smatcher.largeLook
  · rw [if_pos hshort]
    exact ⟨_, rfl, hfinish _ rfl (h.located.mono (by omega)), by dsimp only; omega⟩
  · rw [if_neg hshort, Nat.mul_comm src.blksize, Nat.mod_eq_of_lt (by omega)]
    have hrem0 : 0 ≤ ptrdiff blkrem := by
      have h63 : blkrem < 2 ^ 63 := by omega
      rw [ptrdiff, if_pos h63]
      exact Int.natCast_nonneg _
    obtain ⟨s, hres, hloc, hsame⟩ := @indexBlock_located env file m.curblk (blkno * src.blksize)
      ((blkno + 1) * src.blksize) (ptrdiff blkrem) hsm hrem0 (by omega) (by omega) hN
      (m.curblk.length + 1) (blockLength file src.blksize blkno - env.smatcher.largeLook) m.search
      (by omega) (by omega) (by push_cast; omega) (h.located.mono (by omega))
    rw [hres]
    exact ⟨_, rfl, hfinish _ hsame hloc, by dsimp only; omega⟩

/-- One round of the scan goes past a block, or stops before it. -/
theorem indexRound_ends (hserve : ServesBlocks file env.getblk) (htrue : Truthful file env.getblk)
    (hsm : env.smatcher.Scans) (hN : file.length < xoff.modulus) (h : Scanning env file src m)
    (hin : m.search.srcwinCksumPos ≤ file.length)
    (hend : (lastBlock file src + 1) * src.blksize < xoff.modulus) :
    (indexRound env src m).Ends
      (fun _ m' => ∃ src', Scanning env file src' m' ∧ ScansOn src m src' m' ∧
        m.search.srcwinCksumPos < m'.search.srcwinCksumPos)
      (fun _ => False)
      (fun _ m' => ∃ src', Scanning env file src' m' ∧ ScansOn src m src' m' ∧
        m'.search.srcwinCksumPos ≤ file.length) := by
  have hb := h.booked.blksize_pos
  obtain ⟨hpos, hrem⟩ := h.booked.blksizeDiv_spec m.search.srcwinCksumPos
  have hblk : (src.blksizeDiv m.search.srcwinCksumPos).1 ≤ lastBlock file src := by
    rw [h.booked.blksizeDiv_eq]
    exact Nat.div_le_div_right hin
  have hsize : src.blksize ≤ 2 ^ 63 := by
    rw [h.booked.blksize_eq]
    exact Nat.pow_le_pow_right (by decide) (Nat.le_of_lt_succ h.booked.shiftby_lt)
  rw [indexRound]
  generalize src.blksizeDiv m.search.srcwinCksumPos = div at hpos hrem hblk
  obtain ⟨blkno, blkrem⟩ := div
  dsimp only at hpos hrem hblk ⊢
  have hget := getblk_booked hserve htrue h.booked hblk
  rw [onSource, h.source]
  dsimp only
  have hkeep : ∀ s' : Source, Booked file s' → s'.blksize = src.blksize →
      (src.eofKnown = true → s'.eofKnown = true) →
      Scanning env file s' { m with enc := { m.enc with src := .live s' } } ∧
        ScansOn src m s' { m with enc := { m.enc with src := .live s' } } :=
    fun s' hs' hsz hk => ⟨⟨rfl, hs', .inl hin, h.located, h.maxsrcaddr⟩, ⟨le_refl _, hsz, hk⟩⟩
  cases hg : getblk env.getblk blkno src with
  | ok u s' =>
    rw [hg] at hget
    obtain ⟨hs', hsz, hcur, hbytes, hmax, hk⟩ := hget
    have hlast : lastBlock file s' = lastBlock file src := by rw [lastBlock, lastBlock, hsz]
    obtain ⟨hscan, hadv⟩ := hkeep s' hs' hsz fun hk' => (hk (.inl hk')).trans hk'
    obtain ⟨m', hres, hscan', hlt⟩ := indexFetched_ends hsm hN hscan (hlast ▸ hblk)
      (hsz ▸ hpos) (hsz ▸ hrem) (hsz ▸ hcur) (hsz ▸ hbytes) hmax (by rw [hlast, hsz]; exact hend)
      (hsz ▸ hsize)
    change Outcome.Ends _ _ _ (indexFetched env blkno blkrem _)
    rw [hres]
    exact ⟨s', hscan', hadv.trans ⟨hlt.le, rfl, id⟩, hlt⟩
  | starved s' => rw [hg] at hget; exact hget
  | stop e s' =>
    rw [hg] at hget
    obtain ⟨hs', hsz, hk⟩ := hget
    obtain ⟨hscan, hadv⟩ := hkeep s' hs' hsz fun hk' => hk.trans hk'
    exact ⟨s', hscan, hadv, hin⟩
  | fault => rw [hg] at hget; exact hget

/-- The loop: a scan within the file goes on to the target or to the end. -/
theorem indexLoop_ends (hserve : ServesBlocks file env.getblk) (htrue : Truthful file env.getblk)
    (hsm : env.smatcher.Scans) (hN : file.length < xoff.modulus) {target : ℕ} (fuel : ℕ)
    (h : Scanning env file src m) (hend : (lastBlock file src + 1) * src.blksize < xoff.modulus)
    (hshort : src.blksize ≤ file.length ∨ src.eofKnown = true ∨ target ≤ src.blksize)
    (hfuel : target - m.search.srcwinCksumPos < fuel) :
    (indexLoop env target fuel m).Ends
      (fun _ m' => ∃ src', Scanning env file src' m' ∧ ScansOn src m src' m')
      (fun _ => False)
      (fun _ m' => ∃ src', Scanning env file src' m' ∧ ScansOn src m src' m' ∧
        m'.search.srcwinCksumPos ≤ file.length) := by
  induction fuel generalizing src m with
  | zero => exact absurd hfuel (Nat.not_lt_zero _)
  | succ fuel ih =>
    rw [indexLoop]
    dsimp only
    rw [h.source]
    dsimp only
    by_cases hmore : m.search.srcwinCksumPos < target ∧
        (src.eofKnown = false ∨ m.search.srcwinCksumPos < src.eof)
    · have hin : m.search.srcwinCksumPos ≤ file.length := by
        rcases h.pos with hin | ⟨hpast, hknown⟩
        · exact hin
        · obtain ⟨hlast, hlt⟩ := h.booked.last_spec
          rw [Nat.add_mul, Nat.one_mul] at hpast
          rcases hmore.2 with hopen | heof
          · -- a source shorter than a block, of unknown size: its block is behind
            rcases hknown with hk | hzero
            · rw [hopen] at hk
              cases hk
            · rw [hzero, Nat.zero_mul] at hlast hpast
              rcases hshort with hs | hs | hs
              · omega
              · rw [hopen] at hs
                cases hs
              · omega
          · by_cases hk : src.eofKnown = true
            · rw [h.booked.eof_eq hN hk] at heof
              exact heof.le
            · rcases hknown with hk' | hzero
              · exact absurd hk' hk
              · rw [hzero, Nat.zero_mul] at hlast hpast
                rcases hshort with hs | hs | hs
                · omega
                · exact absurd hs hk
                · omega
      rw [if_pos hmore]
      refine ((indexRound_ends hserve htrue hsm hN h hin hend).mono (fun _ _ hq => hq)
        (fun _ hf => hf) fun _ _ hs => hs).andThen fun _ m₁ ⟨src₁, hscan, hadv, hlt⟩ => ?_
      have hlast : lastBlock file src₁ = lastBlock file src := by
        rw [lastBlock, lastBlock, hadv.blksize]
      refine (ih hscan (by rw [hlast, hadv.blksize]; exact hend) ?_ (by omega)).mono
        (fun _ _ ⟨src', hs, ha⟩ => ⟨src', hs, hadv.trans ha⟩) (fun _ hf => hf)
        fun _ _ ⟨src', hs, ha, hp⟩ => ⟨src', hs, hadv.trans ha, hp⟩
      rw [hadv.blksize]
      rcases hshort with hs | hs | hs
      · exact .inl hs
      · exact .inr (.inl (hadv.known hs))
      · exact .inr (.inr hs)
    · rw [if_neg hmore]
      exact ⟨src, h, le_refl _, rfl, id⟩

end Scan

/-- What holds between calls: the position is within the file, or past its only block while
the size is unknown. -/
structure Indexed (env : EncEnv) (file : List UInt8) (src : Source) (m : Matcher) : Prop where
  source : m.enc.src = .live src
  booked : Booked file src
  pos : m.search.srcwinCksumPos ≤ file.length ∨
    src.eofKnown = false ∧ lastBlock file src = 0 ∧ m.search.srcwinCksumPos = src.blksize
  located : Located env file m.search.srcwinCksumPos m.search
  maxsrcaddr : m.search.maxsrcaddr ≤ file.length

/-- When the scan works: the block after the last one has an address, and a source shorter
than a block either has a known size or is not scanned past its block. -/
structure Scannable (env : EncEnv) (file : List UInt8) (m : Matcher) : Prop where
  end_lt : ∀ src, m.enc.src = .live src → (lastBlock file src + 1) * src.blksize < xoff.modulus
  short : ∀ src, m.enc.src = .live src → src.blksize ≤ file.length ∨ src.eofKnown = true ∨
    m.scanTarget env src ≤ src.blksize

section Calls

variable {env : EncEnv} {file : List UInt8} {src : Source} {m : Matcher}

def Onward (env : EncEnv) (file : List UInt8) (m m' : Matcher) : Prop :=
  (∃ src', Indexed env file src' m') ∧ m.search.srcwinCksumPos ≤ m'.search.srcwinCksumPos

theorem finishMove_ends (hsm : env.smatcher.Scans) (hN : file.length < xoff.modulus) (target : ℕ)
    {m₀ : Matcher} (h : Scanning env file src m)
    (hle : m₀.search.srcwinCksumPos ≤ m.search.srcwinCksumPos)
    (hin : m₀.search.srcwinCksumPos ≤ file.length ∨ src.eofKnown = false) :
    ∃ n m', finishMove env target m = .ok n m' ∧ Onward env file m₀ m' := by
  have hlook := hsm.look_pos
  rw [finishMove, h.source]
  dsimp only
  by_cases hend : src.eofKnown = true ∧ src.eof ≤ m.search.srcwinCksumPos
  · have heof := h.booked.eof_eq hN hend.1
    rw [if_pos hend, heof]
    refine ⟨_, _, rfl, ⟨src, h.source, h.booked, .inl (le_refl _),
      h.located.clamp (by omega), h.maxsrcaddr⟩, ?_⟩
    rcases hin with hin | hopen
    · exact hin
    · rw [hopen] at hend
      cases hend.1
  · rw [if_neg hend]
    refine ⟨_, _, rfl, ⟨src, h.source, h.booked, ?_, h.located, h.maxsrcaddr⟩, hle⟩
    rcases h.pos with hpos | ⟨hpast, hknown⟩
    · exact .inl hpos
    · by_cases hk : src.eofKnown = true
      · left
        by_contra hbeyond
        exact hend ⟨hk, by rw [h.booked.eof_eq hN hk]; omega⟩
      · rcases hknown with hk' | hzero
        · exact absurd hk' hk
        · refine .inr ⟨Bool.eq_false_of_not_eq_true hk, hzero, ?_⟩
          rw [hpast, hzero, Nat.zero_add, Nat.one_mul]

/-- One call of `xd3_srcwin_move_point`. -/
theorem srcwinMovePoint_ends (hserve : ServesBlocks file env.getblk)
    (htrue : Truthful file env.getblk) (hsm : env.smatcher.Scans)
    (hN : file.length < xoff.modulus) (h : Indexed env file src m) (hc : Scannable env file m) :
    (srcwinMovePoint env m).Ends (fun _ m' => Onward env file m m') (fun _ => False)
      (fun _ m' => Onward env file m m') := by
  have hshort := hc.short src h.source
  have hmaxsrc := h.maxsrcaddr
  obtain ⟨hlast, hrem⟩ := h.booked.last_spec
  rw [srcwinMovePoint, h.source]
  dsimp only
  by_cases hdone : src.eofKnown = true ∧ m.search.srcwinCksumPos = src.eof
  · rw [if_pos hdone]
    exact ⟨⟨src, h⟩, le_refl _⟩
  · rw [if_neg hdone]
    have hscan : Scanning env file src { m with search := { m.search with
        srcwinCksumPos := max m.search.srcwinCksumPos m.search.maxsrcaddr } } := by
      refine ⟨h.source, h.booked, ?_, h.located.mono (Nat.le_max_left _ _), h.maxsrcaddr⟩
      dsimp only
      rcases h.pos with hpos | ⟨-, hzero, hpos⟩
      · exact .inl (by omega)
      · rw [hzero, Nat.zero_mul] at hlast
        rw [hzero, Nat.zero_add, Nat.one_mul]
        exact .inr ⟨by omega, .inr rfl⟩
    rcases h.pos with hpos | ⟨hopen, hzero, hpos⟩
    · refine ((indexLoop_ends hserve htrue hsm hN _ hscan (hc.end_lt src h.source) ?_
        (Nat.lt_succ_self _)).mono (fun _ _ hq => hq) (fun _ hf => hf) ?_).andThen
          fun _ m₁ ⟨src₁, hs₁, hadv⟩ => ?_
      · rcases hshort with hs | hs | hs
        · exact .inl hs
        · exact .inr (.inl hs)
        · by_cases hfull : src.blksize ≤ file.length
          · exact .inl hfull
          · exact .inr (.inr (by omega))
      · rintro _ m₁ ⟨src₁, hs₁, hadv, hin⟩
        exact ⟨⟨src₁, hs₁.source, hs₁.booked, .inl hin, hs₁.located, hs₁.maxsrcaddr⟩,
          (Nat.le_max_left _ _).trans hadv.pos⟩
      · obtain ⟨n, m', hres, hon⟩ := finishMove_ends hsm hN (max (m.scanTarget env src)
          (max m.search.srcwinCksumPos m.search.maxsrcaddr)) hs₁
          ((Nat.le_max_left _ _).trans hadv.pos) (.inl hpos)
        rw [hres]
        exact hon
    · -- the only block is behind, and nothing more is asked for
      rw [hzero, Nat.zero_mul] at hlast
      have hmax : max m.search.srcwinCksumPos m.search.maxsrcaddr = src.blksize := by omega
      have htarget : max (m.scanTarget env src) src.blksize = src.blksize := by
        rcases hshort with hs | hs | hs
        · omega
        · rw [hopen] at hs
          cases hs
        · omega
      have hloop : indexLoop env src.blksize (src.blksize - src.blksize + 1)
          { m with search := { m.search with srcwinCksumPos := src.blksize } } =
          .ok () { m with search := { m.search with srcwinCksumPos := src.blksize } } := by
        rw [indexLoop]
        dsimp only
        rw [h.source]
        exact if_neg fun hlt => Nat.lt_irrefl _ hlt.1
      rw [hmax] at hscan ⊢
      rw [htarget, hloop, Outcome.andThen_ok]
      obtain ⟨n, m', hres, hon⟩ := finishMove_ends hsm hN src.blksize hscan
        (show m.search.srcwinCksumPos ≤ src.blksize by omega) (.inr hopen)
      rw [hres]
      exact hon

end Calls

/-- The matcher with nothing indexed, before a source that has just been set. -/
structure Unindexed (file : List UInt8) (size : SizeGiven) (m : Matcher) : Prop where
  source : ∃ s, m.enc.src = .live s ∧ Started file size s ∧ s.Holds file
  pos : m.search.srcwinCksumPos = 0
  table : ∀ b, m.search.largeTable b = 0
  maxsrcaddr : m.search.maxsrcaddr = 0

/-- What happens between two calls: the rest of the encoder goes on, and knows of no match
past the end of the source; it asks for blocks that start in the source; the application
delivers blocks of the file. -/
inductive Elsewhere (env : EncEnv) (file : List UInt8) : Matcher → Matcher → Prop
  | matching {m m'} : m'.enc.src = m.enc.src →
      m'.search.srcwinCksumPos = m.search.srcwinCksumPos →
      m'.search.largeTable = m.search.largeTable →
      m'.search.largeOffsets = m.search.largeOffsets →
      m'.search.maxsrcaddr ≤ file.length → Elsewhere env file m m'
  | fetched {m : Matcher} {s s' : Source} {k : ℕ} : m.enc.src = .live s →
      k * s.blksize ≤ file.length → getblk env.getblk k s = .ok () s' →
      Elsewhere env file m { m with enc := { m.enc with src := .live s' } }
  | stopped {m : Matcher} {s s' : Source} {k : ℕ} {e : Stop} : m.enc.src = .live s →
      k * s.blksize ≤ file.length → getblk env.getblk k s = .stop e s' →
      Elsewhere env file m { m with enc := { m.enc with src := .live s' } }
  | delivered {m : Matcher} {s s' : Source} : m.enc.src = .live s → DeliversBlock file s s' →
      s'.Holds file → Elsewhere env file m { m with enc := { m.enc with src := .live s' } }

/-- The states between calls of `xd3_srcwin_move_point`, where every call meets `cond`. -/
inductive Scanned (env : EncEnv) (file : List UInt8) (size : SizeGiven) (cond : Matcher → Prop) :
    Matcher → Prop
  | start {m} : Unindexed file size m → Scanned env file size cond m
  | returned {m n m'} : Scanned env file size cond m → cond m →
      srcwinMovePoint env m = .ok n m' → Scanned env file size cond m'
  | interrupted {m e m'} : Scanned env file size cond m → cond m →
      srcwinMovePoint env m = .stop e m' → Scanned env file size cond m'
  | between {m m'} : Scanned env file size cond m → Elsewhere env file m m' →
      Scanned env file size cond m'

/-- What a call does to `srcwin_cksum_pos`. -/
def Forward (file : List UInt8) (m m' : Matcher) : Prop :=
  m.search.srcwinCksumPos ≤ m'.search.srcwinCksumPos ∧
    ∀ src, m'.enc.src = .live src → src.eofKnown = true → m'.search.srcwinCksumPos ≤ file.length

/-- The table leads back to the offsets; the next call ends without reading outside of a
block, and moves the position forward within the source. -/
structure ScanRight (env : EncEnv) (file : List UInt8) (m : Matcher) : Prop where
  entries : ∀ b, m.search.largeTable b ≠ 0 →
    (env.sizeT = .w32 → m.search.srcwinCksumPos - m.search.largeOffsets b < 2 ^ 32) →
    sourceCksumOffset env.sizeT m.search.srcwinCksumPos (m.search.largeTable b - 1) =
      m.search.largeOffsets b
  returns : (srcwinMovePoint env m).Ends (fun _ m' => Forward file m m') (fun _ => False)
    (fun _ m' => Forward file m m')

section Runs

variable {env : EncEnv} {file : List UInt8} {size : SizeGiven} {m m' : Matcher}

theorem Started.booked {s : Source} (hN : file.length < xoff.modulus) (h : Started file size s)
    (hheld : s.Holds file) : Booked file s := by
  have hfr := h.frontier hN
  have hmax : s.maxBlkno = size.top file s.blksize := by
    rcases hfr.top with hmem | htop
    · exact absurd hmem List.not_mem_nil
    · exact htop
  cases size with
  | unknown =>
    have hzero : s.maxBlkno = 0 := hmax
    have hopen : s.eofKnown ≠ true := fun hk => by
      rcases hfr.known.mp hk with hs | ⟨hpos, -⟩
      · cases hs
      · omega
    refine ⟨⟨hfr.shaped, hheld⟩, by omega, fun _ => by omega, fun hk => absurd hk hopen⟩
  | given =>
    have hlast : s.maxBlkno = lastBlock file s := hmax
    have hknown : s.eofKnown = true := hfr.known.mpr (.inl rfl)
    refine ⟨⟨hfr.shaped, hheld⟩, hlast.le, fun hopen => ?_, fun _ => ⟨hlast, ?_⟩⟩
    · rw [hknown] at hopen
      cases hopen
    · rcases hfr.bytes with ⟨hs, -⟩ | hb
      · cases hs
      · have hpos := hfr.shaped.blksize_pos
        have hdiv := Nat.div_add_mod file.length s.blksize
        have hlt := Nat.mod_lt file.length hpos
        rw [Nat.mul_comm] at hdiv
        rw [hb, hlast, lastBlock, blockLength_eq]
        omega

theorem Unindexed.indexed (hN : file.length < xoff.modulus) (h : Unindexed file size m) :
    ∃ src, Indexed env file src m := by
  obtain ⟨s, hs, hstart, hheld⟩ := h.source
  exact ⟨s, hs, hstart.booked hN hheld, .inl (by rw [h.pos]; exact Nat.zero_le _),
    fun b hb => absurd (h.table b) hb, by rw [h.maxsrcaddr]; exact Nat.zero_le _⟩

theorem Indexed.elsewhere (hserve : ServesBlocks file env.getblk)
    (htrue : Truthful file env.getblk) {src : Source} (h : Indexed env file src m)
    (hstep : Elsewhere env file m m') : ∃ src', Indexed env file src' m' := by
  have hsource : ∀ s' : Source, Booked file s' → s'.blksize = src.blksize →
      (lastBlock file src = 0 → s'.eofKnown = src.eofKnown) →
      Indexed env file s' { m with enc := { m.enc with src := .live s' } } := by
    intro s' hb hsz hk
    refine ⟨rfl, hb, ?_, h.located, h.maxsrcaddr⟩
    rcases h.pos with hpos | ⟨hopen, hzero, hpos⟩
    · exact .inl hpos
    · rw [lastBlock, hsz]
      exact .inr ⟨(hk hzero).trans hopen, hzero, hpos⟩
  cases hstep with
  | matching hsrc hpos htable hoffsets hmax =>
    refine ⟨src, hsrc.trans h.source, h.booked, hpos ▸ h.pos, ?_, hmax⟩
    rw [Located, htable, hoffsets, hpos]
    exact h.located
  | @fetched s s' k hs hk hget =>
    cases hs.symm.trans h.source
    have hends := getblk_booked hserve htrue h.booked
      ((Nat.le_div_iff_mul_le h.booked.blksize_pos).mpr hk)
    rw [hget] at hends
    obtain ⟨hb, hsz, -, -, -, heof⟩ := hends
    exact ⟨s', hsource s' hb hsz fun hzero => heof (.inr hzero)⟩
  | @stopped s s' k e hs hk hget =>
    cases hs.symm.trans h.source
    have hends := getblk_booked hserve htrue h.booked
      ((Nat.le_div_iff_mul_le h.booked.blksize_pos).mpr hk)
    rw [hget] at hends
    exact ⟨s', hsource s' hends.1 hends.2.1 fun _ => hends.2.2⟩
  | @delivered s s' hs hdel hheld =>
    cases hs.symm.trans h.source
    have hsz : s'.blksize = src.blksize := by rw [hdel.same]
    have hf : s'.Faithful file := by
      refine ⟨⟨?_, ?_, ?_⟩, hheld⟩
      · rw [hdel.same]
        exact h.booked.shiftby_lt
      · rw [hdel.same]
        exact h.booked.blksize_eq
      · rw [hdel.same]
        exact h.booked.maskby_eq
    exact ⟨s', hsource s' (h.booked.congr hf hsz (by rw [hdel.same]; rfl)) hsz
      fun _ => by rw [hdel.same]⟩

theorem Scanned.indexed (hserve : ServesBlocks file env.getblk)
    (htrue : Truthful file env.getblk) (hsm : env.smatcher.Scans)
    (hN : file.length < xoff.modulus) (h : Scanned env file size (Scannable env file) m) :
    ∃ src, Indexed env file src m := by
  induction h with
  | start h => exact h.indexed hN
  | returned _ hc hok ih =>
    obtain ⟨src, hi⟩ := ih
    have hends := srcwinMovePoint_ends hserve htrue hsm hN hi hc
    rw [hok] at hends
    exact hends.1
  | interrupted _ hc hstop ih =>
    obtain ⟨src, hi⟩ := ih
    have hends := srcwinMovePoint_ends hserve htrue hsm hN hi hc
    rw [hstop] at hends
    exact hends.1
  | between _ hstep ih =>
    obtain ⟨src, hi⟩ := ih
    exact hi.elsewhere hserve htrue hstep

theorem Onward.forward (h : Onward env file m m') :
    Forward file m m' := by
  obtain ⟨⟨src', hi⟩, hle⟩ := h
  refine ⟨hle, fun src hsrc hknown => ?_⟩
  cases hi.source.symm.trans hsrc
  rcases hi.pos with hpos | ⟨hopen, -, -⟩
  · exact hpos
  · rw [hopen] at hknown
    cases hknown

/-- In every run whose calls are all scannable, the scan is right. -/
theorem scanRight_of_scannable (hserve : ServesBlocks file env.getblk)
    (htrue : Truthful file env.getblk) (hsm : env.smatcher.Scans)
    (hN : file.length < xoff.modulus) (h : Scanned env file size (Scannable env file) m)
    (hc : Scannable env file m) : ScanRight env file m := by
  obtain ⟨src, hi⟩ := h.indexed hserve htrue hsm hN
  refine ⟨fun b hb hspan => ?_, (srcwinMovePoint_ends hserve htrue hsm hN hi hc).mono
    (fun _ _ ho => ho.forward) (fun _ hf => hf) fun _ _ ho => ho.forward⟩
  obtain ⟨hentry, hin, hlt⟩ := hi.located b hb
  have hlook := hsm.look_pos
  rw [hentry] at hb ⊢
  exact sourceCksumOffset_eq hlt hspan hb (by omega)

end Runs

def shortEnv : EncEnv := { getblk := some (serveFile shortFile), smatcher := ⟨4, 1, 4, 1, 1, 0, 0⟩ }

def shortMatcher : Matcher := { enc := { src := .live shortSource } }

theorem shortMatcher_unindexed : Unindexed shortFile .unknown shortMatcher :=
  ⟨⟨_, rfl, shortFile_started, nofun⟩, rfl, fun _ => rfl, rfl⟩

/-- With its size given, a source shorter than a block is scanned right. -/
theorem scanRight_of_scannable_given :
    ScanRight shortEnv shortFile { enc := { src := .live { shortSource with
      maxBlkno := 0, onlastblk := 5, eofKnown := true } } } := by
  refine scanRight_of_scannable (servesBlocks_serveFile _) (serveFile_truthful _)
    ⟨by decide, by decide, by decide, by decide⟩ (by decide) (.start ⟨⟨_, rfl, .given
      (show setSourceAndSize 5 { blksize := 16 } = .ok () _ from rfl) fun h => absurd rfl h,
      nofun⟩, rfl, fun _ => rfl, rfl⟩) ⟨fun src hsrc => ?_, fun src hsrc => ?_⟩
  · cases hsrc
    decide
  · cases hsrc
    exact .inr (.inl rfl)

/-- The scan goes past the five bytes of the source, to the end of its block; a step that is
negative as a `ptrdiff_t` leaves the block upwards. -/
theorem scanRight_fails :
    (¬ ∀ (env : EncEnv) (file : List UInt8) (size : SizeGiven) (m : Matcher),
      ServesBlocks file env.getblk → Truthful file env.getblk →
      4 ≤ env.smatcher.largeLook → 1 ≤ env.smatcher.largeStep → file.length < xoff.modulus →
      Scanned env file size (fun _ => True) m → ScanRight env file m) ∧
    srcwinMovePoint { shortEnv with smatcher := ⟨4, 2 ^ 64 - 1, 4, 1, 1, 0, 0⟩ } shortMatcher =
      .fault := by
  refine ⟨fun hall => ?_, rfl⟩
  have hright := hall shortEnv shortFile .unknown shortMatcher (servesBlocks_serveFile _)
    (serveFile_truthful _) (by decide) (by decide) (by decide) (.start shortMatcher_unindexed)
  have hret := hright.returns
  obtain ⟨n, m', hok, src, hsrc, hknown, hpos⟩ : ∃ n m', srcwinMovePoint shortEnv shortMatcher =
      .ok n m' ∧ ∃ src, m'.enc.src = .live src ∧ src.eofKnown = true ∧
        m'.search.srcwinCksumPos = 16 := ⟨_, _, rfl, _, rfl, rfl, rfl⟩
  rw [hok] at hret
  have hle := hret.2 src hsrc hknown
  rw [hpos] at hle
  exact absurd hle (by decide)

end Xdelta
