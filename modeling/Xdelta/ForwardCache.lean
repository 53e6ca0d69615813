import Xdelta.BlockCache
import Xdelta.Lib.Fifo

/-!
# The block cache of a file that is read forward

When the file cannot seek and the slots are used in turn, they hold what a cache filled
forward holds, and a request is refused exactly when that cache has evicted the block.
-/
namespace Xdelta
open Chunked Fifo

/-- The block number that slot `i` of `n` shows after `p` blocks. -/
def slotNumber (n p i : ℕ) : ℕ := ((Cache.upto n p).slots i).getD invalidOffset

theorem slotNumber_succ (n p i : ℕ) :
    slotNumber n (p + 1) i = if i = p % n then p else slotNumber n p i := by
  unfold slotNumber
  rw [Cache.upto, Cache.fill, Cache.upto_next]
  dsimp only
  by_cases hi : i = p % n
  · rw [hi, Function.update_self, if_pos rfl, Option.getD_some]
  · rw [Function.update_of_ne hi, if_neg hi]

/-- The cache after the first `p` blocks; slot `hole` may have been emptied for another. -/
structure ReadForward (p : ℕ) (hole : Option ℕ) (c : BlkCache) : Prop where
  fifo : c.doSrcFifo = true
  size_pos : 0 < c.lruSize
  numbers : ∀ i < c.lruSize, (c.lru i).blkno = slotNumber c.lruSize p i ∨
    hole = some i ∧ (c.lru i).blkno = invalidOffset
  shaped : c.source.Shaped
  position : c.sourcePosition = p * c.source.blksize
  filePos : c.filePos = c.sourcePosition

section Reading

variable {file : List UInt8} {p b : ℕ} {hole : Option ℕ} {c : BlkCache}

theorem ReadForward.newSlot (h : ReadForward p hole c) (hpb : p ≤ b) (hb : b ≠ invalidOffset) :
    mainGetblkLru b c = .ok (b % c.lruSize, true) (c.eject (b % c.lruSize)) := by
  have hbefore : ∀ q, (c.lru (b % c.lruSize)).blkno = q → q ≠ invalidOffset → q < b := by
    rintro q hq hvalid
    rcases h.numbers _ (Nat.mod_lt b h.size_pos) with hn | hn
    · cases hslot : (Cache.upto c.lruSize p).slots (b % c.lruSize) with
      | none => exact absurd (hq.symm.trans (hn.trans (by rw [slotNumber, hslot]; rfl))) hvalid
      | some q' =>
        have hqq : q = q' := hq.symm.trans (hn.trans (by rw [slotNumber, hslot]; rfl))
        exact hqq ▸ ((Cache.upto_slots h.size_pos).mp hslot).2.1.trans_le hpb
    · exact absurd (hq.symm.trans hn.2) hvalid
  unfold mainGetblkLru
  rw [if_pos h.fifo]
  dsimp only
  rw [if_neg fun heq => absurd (hbefore b heq hb) (lt_irrefl b),
    if_neg fun hback => absurd (hbefore _ rfl hback.1) (Nat.not_lt.mpr hback.2.le)]

/-- A block read before is in its slot, unless it has been evicted. -/
theorem ReadForward.oldSlot (h : ReadForward p none c) (hpb : b < p) (hb : p ≤ invalidOffset) :
    mainGetblkLru b c =
      if p ≤ b + c.lruSize then .ok (b % c.lruSize, false) c
      else .stop ⟨.toofarback, none⟩ c := by
  obtain ⟨q, hslot, hbq⟩ := Cache.exists_upto_slots (n := c.lruSize) hpb
  obtain ⟨hmod, hqp, hnear⟩ := (Cache.upto_slots h.size_pos).mp hslot
  have hnumber : (c.lru (b % c.lruSize)).blkno = q := by
    refine ((h.numbers _ (Nat.mod_lt b h.size_pos)).resolve_right fun hn => nomatch hn.1).trans ?_
    rw [slotNumber, hslot]
    rfl
  unfold mainGetblkLru
  rw [if_pos h.fifo]
  dsimp only
  rw [hnumber]
  by_cases hle : p ≤ b + c.lruSize
  · rw [if_pos (Cache.eq_of_mod_eq hmod hbq (by omega)).symm, if_pos hle]
  · rw [if_neg (by omega : q ≠ b), if_pos ⟨by omega, by omega⟩, if_neg hle]

theorem ReadForward.read (h : ReadForward p hole c) {c' : BlkCache} (hfifo : c'.doSrcFifo = c.doSrcFifo)
    (hsize : c'.lruSize = c.lruSize) (hsrc : c'.source.setup = c.source.setup)
    (hlru : ∀ i, (c'.lru i).blkno = if i = p % c.lruSize then p else (c.lru i).blkno)
    (hpos : c'.sourcePosition = c.sourcePosition + c.source.blksize)
    (hfile : c'.filePos = c'.sourcePosition) {hole' : Option ℕ}
    (hhole : ∀ i, hole = some i → i ≠ p % c.lruSize → hole' = some i) :
    ReadForward (p + 1) hole' c' := by
  refine ⟨hfifo.trans h.fifo, hsize ▸ h.size_pos, fun i hi => ?_, h.shaped.of_setup hsrc, ?_, hfile⟩
  · rw [hlru, hsize, slotNumber_succ]
    by_cases hip : i = p % c.lruSize
    · rw [if_pos hip, if_pos hip]
      exact .inl rfl
    · rw [if_neg hip, if_neg hip]
      exact (h.numbers i (hsize ▸ hi)).imp_right fun hn => ⟨hhole i hn.1 hip, hn.2⟩
  · rw [hpos, h.position, show c'.source.blksize = c.source.blksize from congrArg Prod.fst hsrc,
      Nat.add_mul, Nat.one_mul]

theorem readInput_forward {k idx : ℕ} (hpos : c.filePos = k * c.source.blksize)
    (hfull : (k + 1) * c.source.blksize ≤ file.length) (blkno : ℕ) :
    ∃ c', readInput file idx blkno c = .ok c.source.blksize c' ∧
      c' = { c with filePos := c.filePos + c.source.blksize, lru := c'.lru } ∧
      ∀ i, (c'.lru i).blkno = if i = idx then blkno else (c.lru i).blkno := by
  rw [Nat.add_mul, Nat.one_mul] at hfull
  have hlen : ((file.drop c.filePos).take c.source.blksize).length = c.source.blksize := by
    rw [List.length_take, List.length_drop, hpos]
    omega
  unfold readInput
  dsimp only
  rw [hlen]
  refine ⟨_, rfl, rfl, fun i => ?_⟩
  dsimp only
  by_cases hi : i = idx
  · rw [hi, Function.update_self, if_pos rfl]
  · rw [Function.update_of_ne hi, if_neg hi]

theorem setSize_blkno (c : BlkCache) (idx size i : ℕ) :
    ((c.setSize idx size).lru i).blkno = (c.lru i).blkno := by
  unfold BlkCache.setSize
  dsimp only
  by_cases hi : i = idx
  · rw [hi, Function.update_self]
  · rw [Function.update_of_ne hi]

theorem eject_blkno_of_ne (c : BlkCache) {idx i : ℕ} (hi : i ≠ idx) :
    ((c.eject idx).lru i).blkno = (c.lru i).blkno := by
  rw [BlkCache.eject_lru, Function.update_of_ne hi]

theorem skipBlock_forward (h : ReadForward p hole c) (hp : p ≠ invalidOffset)
    (hfull : (p + 1) * c.source.blksize ≤ file.length) :
    ∃ c', skipBlock file c = .ok () c' ∧ ReadForward (p + 1) hole c' ∧ c'.lruSize = c.lruSize ∧
      c'.source = c.source := by
  have hblk : 0 < c.source.blksize := h.shaped.blksize_eq ▸ Nat.two_pow_pos _
  have hdiv : c.source.blksizeDiv c.sourcePosition = (p, 0) := by
    rw [h.shaped.blksizeDiv_eq, h.position, Nat.mul_div_cancel _ hblk, Nat.mul_mod_left]
  have hat : (c.eject (p % c.lruSize)).filePos = p * c.source.blksize := h.filePos.trans h.position
  obtain ⟨c₁, hread, hc₁, hlru⟩ := @readInput_forward file _ p (p % c.lruSize) hat hfull p
  unfold skipBlock
  rw [hdiv]
  dsimp only
  rw [h.newSlot le_rfl hp, Outcome.andThen_ok]
  dsimp only
  rw [hread, Outcome.andThen_ok, if_neg (by rw [hc₁]; exact not_not_intro rfl)]
  refine ⟨_, rfl, h.read ?_ ?_ ?_ (fun i => ?_) ?_ ?_ fun i hi _ => hi, ?_, ?_⟩
  · change c₁.doSrcFifo = _
    rw [hc₁]
    rfl
  · change c₁.lruSize = _
    rw [hc₁]
    rfl
  · change c₁.source.setup = _
    rw [hc₁]
    rfl
  · change ((c₁.setSize _ _).lru i).blkno = _
    rw [setSize_blkno, hlru]
    by_cases hi : i = p % c.lruSize
    · rw [if_pos hi, if_pos hi]
    · rw [if_neg hi, if_neg hi, eject_blkno_of_ne c hi]
  · change c₁.sourcePosition + c.source.blksize = _
    rw [hc₁]
    rfl
  · change c₁.filePos = c₁.sourcePosition + c.source.blksize
    rw [hc₁]
    exact congrArg (· + _) h.filePos
  · change c₁.lruSize = _
    rw [hc₁]
    rfl
  · change c₁.source = _
    rw [hc₁]
    rfl

/-- The blocks up to `b` are skipped. -/
theorem skipLoop_forward (hb : b < invalidOffset) (fuel : ℕ) (h : ReadForward p hole c) (hpb : p ≤ b)
    (hin : b * c.source.blksize ≤ file.length)
    (hfuel : b * c.source.blksize - c.sourcePosition < fuel) :
    ∃ c', skipLoop file (b * c.source.blksize) fuel c = .ok () c' ∧ ReadForward b hole c' ∧
      c'.lruSize = c.lruSize ∧ c'.source = c.source := by
  have hblk : 0 < c.source.blksize := h.shaped.blksize_eq ▸ Nat.two_pow_pos _
  induction fuel generalizing p c with
  | zero => exact absurd hfuel (Nat.not_lt_zero _)
  | succ fuel ih =>
    rw [skipLoop]
    dsimp only
    rcases Nat.eq_or_lt_of_le hpb with rfl | hlt
    · rw [if_neg (by rw [h.position]; exact lt_irrefl _)]
      exact ⟨c, rfl, h, rfl, rfl⟩
    · have hnext : (p + 1) * c.source.blksize ≤ b * c.source.blksize :=
        Nat.mul_le_mul_right _ hlt
      obtain ⟨c₁, hskip, hforward, hsize, hsrc⟩ :=
        skipBlock_forward h (by omega) (hnext.trans hin)
      rw [Nat.add_mul, Nat.one_mul, ← h.position] at hnext
      have hpos : c₁.sourcePosition = c.sourcePosition + c.source.blksize := by
        rw [hforward.position, hsrc, h.position, Nat.add_mul, Nat.one_mul]
      rw [if_pos (by omega), hskip, Outcome.andThen_ok, ← hsrc]
      rw [← hsrc] at hin hblk hfuel hnext hpos
      obtain ⟨c₂, hloop, hforward₂, hsize₂, hsrc₂⟩ := ih hforward hlt hin (by omega) hblk
      exact ⟨c₂, hloop, hforward₂, hsize₂.trans hsize, hsrc₂.trans rfl⟩

theorem reachBlock_forward (hN : file.length < xoff.modulus) (hb : b < invalidOffset)
    (h : ReadForward p hole c) (hpb : p ≤ b) (hin : b * c.source.blksize ≤ file.length) :
    (if b * c.source.blksize ≠ c.sourcePosition then mainReadSeekSource file false b c
      else .ok () c).Ends
      (fun _ c' => ReadForward b hole c' ∧ c'.lruSize = c.lruSize ∧ c'.source = c.source)
      (fun _ => False) (fun _ _ => False) := by
  by_cases hat : b * c.source.blksize ≠ c.sourcePosition
  · have hlow : ¬b * c.source.blksize < c.sourcePosition := by
      rw [h.position]
      exact Nat.not_lt.mpr (Nat.mul_le_mul_right _ hpb)
    have hfailed : ReadForward p hole { c with seekFailed := true } :=
      ⟨h.fifo, h.size_pos, h.numbers, h.shaped, h.position, h.filePos⟩
    obtain ⟨c₁, hloop, hforward⟩ := skipLoop_forward hb
      (b * c.source.blksize - c.sourcePosition + 1) hfailed hpb hin (Nat.lt_succ_self _)
    rw [if_pos hat, mainReadSeekSource]
    dsimp only at hloop ⊢
    rw [if_neg (fun hseek => absurd hseek.2 (by decide)), Nat.mod_eq_of_lt (lt_of_le_of_lt hin hN),
      if_neg hlow, hloop]
    exact hforward
  · have hblk : 0 < c.source.blksize := h.shaped.blksize_eq ▸ Nat.two_pow_pos _
    have hpos : p * c.source.blksize = b * c.source.blksize :=
      h.position.symm.trans (not_not.mp hat).symm
    rw [if_neg hat]
    exact ⟨Nat.eq_of_mul_eq_mul_right hblk hpos ▸ h, rfl, rfl⟩

/-- A request is served as a cache filled forward serves it, and refused where that is. -/
theorem mainGetblkFunc_forward (hN : file.length < xoff.modulus) (h : ReadForward p none c)
    (hblk : 2 ≤ c.source.blksize) (hp : p * c.source.blksize ≤ file.length)
    (hfull : (b + 1) * c.source.blksize ≤ file.length) :
    (mainGetblkFunc file false b c).Ends
      (fun _ c' => p ≤ b + c.lruSize ∧ ReadForward (max p (b + 1)) none c' ∧
        c'.lruSize = c.lruSize ∧ c'.source.setup = c.source.setup)
      (fun _ => False) (fun e _ => e.ret = .toofarback ∧ ¬p ≤ b + c.lruSize) := by
  have hmod : xoff.modulus = invalidOffset + 1 := rfl
  have hpos : 0 < invalidOffset := by decide
  have hsmall : ∀ q, q * c.source.blksize ≤ file.length → q < invalidOffset := by
    intro q hq
    have : q * 2 ≤ q * c.source.blksize := Nat.mul_le_mul_left _ hblk
    omega
  have hin : b * c.source.blksize ≤ file.length :=
    (Nat.mul_le_mul_right _ (Nat.le_succ b)).trans hfull
  have hb := hsmall b hin
  unfold mainGetblkFunc
  dsimp only
  rw [Nat.mod_eq_of_lt (lt_of_le_of_lt hin hN)]
  rcases Nat.lt_or_ge b p with hbp | hpb
  · rw [h.oldSlot hbp (hsmall p hp).le]
    by_cases hle : p ≤ b + c.lruSize
    · rw [if_pos hle, Outcome.andThen_ok]
      dsimp only
      rw [if_pos rfl, max_eq_left hbp]
      exact ⟨hle, ⟨h.fifo, h.size_pos, h.numbers, ⟨h.shaped.1, h.shaped.2, h.shaped.3⟩, h.position,
        h.filePos⟩, rfl, rfl⟩
    · rw [if_neg hle]
      exact ⟨rfl, hle⟩
  · rw [h.newSlot hpb hb.ne, Outcome.andThen_ok]
    dsimp only
    rw [if_neg Bool.noConfusion]
    -- the slot of the block is empty while the blocks before it are skipped
    have hemptied : ReadForward p (some (b % c.lruSize))
        { c.eject (b % c.lruSize) with
          lruMisses := (c.eject (b % c.lruSize)).lruMisses + 1 } := by
      refine ⟨h.fifo, h.size_pos, fun i hi => ?_, h.shaped, h.position, h.filePos⟩
      change ((c.eject _).lru i).blkno = _ ∨ _ ∧ ((c.eject _).lru i).blkno = _
      by_cases hib : i = b % c.lruSize
      · rw [hib, BlkCache.eject_lru, Function.update_self]
        exact .inr ⟨rfl, rfl⟩
      · rw [eject_blkno_of_ne c hib]
        exact .inl ((h.numbers i hi).resolve_right fun hn => nomatch hn.1)
    have hreach := reachBlock_forward hN hb hemptied hpb hin
    refine Outcome.Ends.andThen (hreach.mono (fun _ _ hq => hq) (fun _ hf => hf)
      fun _ _ hf => hf.elim) fun _ c₁ ⟨hforward, (hsize : c₁.lruSize = c.lruSize),
        (hsrc : c₁.source = c.source)⟩ => ?_
    have hsrc₁ : c₁.source.blksize = c.source.blksize := by rw [hsrc]
    obtain ⟨c₂, hread, hc₂, hlru⟩ := @readInput_forward file c₁ b (b % c.lruSize)
      (hforward.filePos.trans hforward.position) (by rw [hsrc₁]; exact hfull) b
    rw [hread, Outcome.andThen_ok, max_eq_right (Nat.le_succ_of_le hpb)]
    refine ⟨by omega, hforward.read ?_ ?_ ?_ (fun i => ?_) ?_ ?_ (fun i hi hne => ?_), ?_, ?_⟩
    · change c₂.doSrcFifo = _
      rw [hc₂]
    · change c₂.lruSize = _
      rw [hc₂]
    · change c₂.source.setup = _
      rw [hc₂]
    · change ((c₂.setSize _ _).lru i).blkno = _
      rw [setSize_blkno, hlru, hsize]
    · change b * c.source.blksize + c₁.source.blksize = _
      rw [hforward.position, hsrc₁]
    · change c₂.filePos = b * c.source.blksize + c₁.source.blksize
      rw [hc₂]
      exact congrArg (· + _) ((hforward.filePos.trans hforward.position).trans (by rw [hsrc₁]))
    · cases hi
      exact absurd (by rw [hsize]) hne
    · change c₂.lruSize = _
      rw [hc₂]
      exact hsize
    · change c₂.source.setup = _
      rw [hc₂]
      exact congrArg Source.setup hsrc

end Reading

def getblkAll (file : List UInt8) : List ℕ → Cached Unit
  | [] => pure ()
  | b :: bs => mainGetblkFunc file false b >>= fun _ => getblkAll file bs

/-- A list of requests is served to its end exactly when a cache filled forward serves it. -/
theorem getblkAll_forward {file : List UInt8} (hN : file.length < xoff.modulus) (bs : List ℕ)
    {p : ℕ} {c : BlkCache} (h : ReadForward p none c) (hblk : 2 ≤ c.source.blksize)
    (hp : p * c.source.blksize ≤ file.length)
    (hfull : ∀ b ∈ bs, (b + 1) * c.source.blksize ≤ file.length) :
    (∃ c', getblkAll file bs c = .ok () c') ↔
      (bs.foldlM (Cache.request c.lruSize) (Cache.upto c.lruSize p)).isSome = true := by
  induction bs generalizing p c with
  | nil => exact iff_of_true ⟨c, rfl⟩ rfl
  | cons b bs ih =>
    obtain ⟨hb, hbs⟩ := List.forall_mem_cons.mp hfull
    have hends := mainGetblkFunc_forward hN h hblk hp hb
    rw [getblkAll, Routine.bind_apply, List.foldlM_cons, Cache.request_upto h.size_pos]
    cases hcall : mainGetblkFunc file false b c with
    | ok a c' =>
      rw [hcall] at hends
      obtain ⟨hle, hforward, hsize, hsetup⟩ := hends
      have hsame : c'.source.blksize = c.source.blksize := congrArg Prod.fst hsetup
      rw [if_pos hle, Outcome.andThen_ok, ← hsize]
      rw [← hsame] at hblk hbs hb hp
      refine ih hforward hblk ?_ hbs
      rcases max_choice p (b + 1) with hmax | hmax <;> rw [hmax]
      · exact hp
      · exact hb
    | starved c' => rw [hcall] at hends; exact hends.elim
    | fault => rw [hcall] at hends; exact hends.elim
    | stop e c' =>
      rw [hcall] at hends
      rw [if_neg hends.2]
      exact iff_of_false (fun ⟨_, hok⟩ => nomatch hok) Bool.false_ne_true

/-- The cache of a file whose size is not known holds the first `MAX_LRU_SIZE` blocks. -/
theorem mainSetSource_forward {file : List UInt8} {a : SourceArgs} {window : ℕ} {c : BlkCache}
    (hmin : allocSize ≤ a.srcwinsz) (hstat : a.stat = none) (hw : a.window = some window)
    (hfull : window ≤ file.length) (h : mainSetSource file a = .ok () c) :
    ReadForward maxLruSize none c ∧ c.lruSize = maxLruSize ∧
      c.source.blksize = window / maxLruSize := by
  obtain ⟨b, k, hwb, hbk, hk, hb, hpow⟩ := SourceArgs.window_spec hmin hw
  obtain ⟨c₁, hfirst, hread⟩ := @mainGetblkFunc_first file window a.doSrcFifo
  have hdiv : window / maxLruSize = b := by
    rw [hwb, Nat.mul_div_cancel_left _ (by decide)]
  have hlen : (file.take window).length = window := List.length_take_of_le hfull
  have hunknown : a.sizeKnown c₁.source.onblk window = none := by
    rw [SourceArgs.sizeKnown, hstat]
    cases a.external <;> exact if_neg (by rw [hread.onblk, hlen]; exact lt_irrefl _)
  rw [mainSetSource, hw] at h
  dsimp only at h
  rw [hfirst, Outcome.andThen_ok, hunknown] at h
  dsimp only at h
  cases hset : setSource (c₁.split window).source with
  | ok u s =>
    rw [hset] at h
    cases h
    have hblksize : (c₁.split window).source.blksize = 2 ^ k := hdiv.trans hbk
    have hsize : s.blksize = b := (setSource_blksize (by omega) hblksize hset).trans hdiv
    refine ⟨⟨rfl, (by decide : 0 < maxLruSize), fun i hi => .inl ?_, (setSource_ok hset).1, ?_, ?_⟩,
      rfl, hsize.trans hdiv.symm⟩
    · have hi' : i < maxLruSize := hi
      have hslot := (Cache.upto_slots (n := maxLruSize) (p := maxLruSize) (b := i) (i := i)
        (by decide)).mpr ⟨Nat.mod_eq_of_lt hi', hi', Nat.le_add_left _ _⟩
      change i = slotNumber maxLruSize maxLruSize i
      rw [slotNumber, hslot]
      rfl
    · change c₁.sourcePosition = maxLruSize * s.blksize
      rw [hread.sourcePosition, hlen, hsize, hwb]
    · exact hread.filePos.trans hread.sourcePosition.symm
  | starved s => rw [hset] at h; cases h
  | stop e s => rw [hset] at h; cases h
  | fault => rw [hset] at h; cases h

end Xdelta
