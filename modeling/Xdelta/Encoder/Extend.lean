import Xdelta.Decoder.Emission
import Xdelta.Encoder.Search
import Mathlib.Order.Bounds.Basic

/-!
# Extending a source match

The two loops of `xd3_source_extend_match` step over blocks and may be interrupted
at each of them. Whatever the blocks and the interruptions, they find the longest
match backwards and forwards within their limits.
-/
namespace Xdelta
open Chunked

/-- The common prefix: equal up to its length, and different there unless a list ends. -/
theorem commonPrefix_spec (as bs : List UInt8) :
    commonPrefix as bs ≤ as.length ∧ commonPrefix as bs ≤ bs.length ∧
      (∀ i < commonPrefix as bs, as[i]? = bs[i]?) ∧
      (commonPrefix as bs < as.length → commonPrefix as bs < bs.length →
        as[commonPrefix as bs]? ≠ bs[commonPrefix as bs]?) := by
  induction as generalizing bs with
  | nil => simp [commonPrefix]
  | cons a as ih =>
    cases bs with
    | nil => simp [commonPrefix]
    | cons b bs =>
      rw [commonPrefix]
      by_cases hab : a = b
      · obtain ⟨ha, hb, heq, hne⟩ := ih bs
        rw [if_pos hab]
        refine ⟨Nat.succ_le_succ ha, Nat.succ_le_succ hb, fun i hi => ?_, fun h1 h2 => ?_⟩
        · cases i with
          | zero => simp [hab]
          | succ i => simpa using heq i (Nat.lt_of_succ_lt_succ hi)
        · simpa using hne (Nat.lt_of_succ_lt_succ h1) (Nat.lt_of_succ_lt_succ h2)
      · rw [if_neg hab]
        exact ⟨Nat.zero_le _, Nat.zero_le _, fun i hi => absurd hi (Nat.not_lt_zero _),
          fun _ _ => by simpa using hab⟩

theorem commonPrefix_append (p as bs : List UInt8) :
    commonPrefix (p ++ as) (p ++ bs) = p.length + commonPrefix as bs := by
  induction p with
  | nil => simp
  | cons a p ih =>
    rw [List.cons_append, List.cons_append, commonPrefix, if_pos rfl, ih, List.length_cons]
    omega

theorem commonPrefix_drop {as bs : List UInt8} {k : ℕ} (h : as.take k = bs.take k)
    (hk : k ≤ as.length) :
    k + commonPrefix (as.drop k) (bs.drop k) = commonPrefix as bs := by
  conv_rhs => rw [← List.take_append_drop k as, ← List.take_append_drop k bs, ← h,
    commonPrefix_append, List.length_take_of_le hk]

/-- The first `k` ints are equal. -/
abbrev SameInts (s1 s2 : List UInt8) (k : ℕ) : Prop := s1.take (k * 4) = s2.take (k * 4)

theorem SameInts.le {s1 s2 : List UInt8} {j k : ℕ} (h : SameInts s1 s2 k) (hjk : j ≤ k) :
    SameInts s1 s2 j := by
  have hle : j * 4 ≤ k * 4 := Nat.mul_le_mul_right _ hjk
  have htake := congrArg (List.take (j * 4)) h
  rwa [List.take_take, List.take_take, Nat.min_eq_left hle] at htake

theorem compareInts_spec {s1 s2 : List UInt8} (k i : ℕ) (h : SameInts s1 s2 i) :
    compareInts s1 s2 k i = (i + k, true) ∧ SameInts s1 s2 (i + k) ∨
      ∃ j, compareInts s1 s2 k i = (j + 1, false) ∧ SameInts s1 s2 j ∧ j < i + k := by
  induction k generalizing i with
  | zero => exact .inl ⟨rfl, h⟩
  | succ k ih =>
    rw [compareInts]
    by_cases heq : intAt s1 i = intAt s2 i
    · have hnext : SameInts s1 s2 (i + 1) := by
        rw [SameInts, Nat.add_mul, List.take_add, List.take_add, h]
        exact congrArg _ heq
      rw [if_pos heq, show i + (k + 1) = i + 1 + k by omega]
      exact ih (i + 1) hnext
    · rw [if_neg heq]
      exact .inr ⟨i, rfl, h, by omega⟩

theorem intLoop_spec {s1 s2 : List UInt8} {nint : ℕ} (hn : 8 ≤ nint) (fuel i : ℕ)
    (h : SameInts s1 s2 i) (hi : i ≤ nint) :
    intLoop s1 s2 (nint - 8) fuel i ≤ nint ∧
      SameInts s1 s2 (intLoop s1 s2 (nint - 8) fuel i - 1) := by
  induction fuel generalizing i with
  | zero => exact ⟨hi, h.le (Nat.sub_le _ _)⟩
  | succ fuel ih =>
    rw [intLoop]
    by_cases hle : i ≤ nint - 8
    · rw [if_pos hle]
      rcases compareInts_spec 8 i h with ⟨heq, hall⟩ | ⟨j, heq, hj, hlt⟩
      · rw [heq]
        exact ih _ hall (by omega)
      · rw [heq]
        exact ⟨by dsimp only; omega, hj⟩
    · rw [if_neg hle]
      exact ⟨hi, h.le (Nat.sub_le _ _)⟩

/-- Comparing by ints or by bytes gives the common prefix. -/
theorem forwardMatch_eq {s1 s2 : List UInt8} {n : ℕ} (h1 : n ≤ s1.length) :
    forwardMatch s1 s2 n = commonPrefix (s1.take n) (s2.take n) := by
  have hskip : ∀ k, SameInts s1 s2 k → k * 4 ≤ n →
      k * 4 + commonPrefix ((s1.take n).drop (k * 4)) ((s2.take n).drop (k * 4)) =
        commonPrefix (s1.take n) (s2.take n) := by
    intro k hk hkn
    refine commonPrefix_drop ?_ (by rw [List.length_take]; omega)
    rw [List.take_take, List.take_take, Nat.min_eq_left hkn]
    exact hk
  rw [forwardMatch]
  by_cases hint : (n / 4) >>> 3 ≠ 0
  · have h8 : 8 ≤ n / 4 := by
      rw [Nat.shiftRight_eq_div_pow] at hint
      omega
    obtain ⟨hle, hsame⟩ := @intLoop_spec s1 s2 _ h8 (n / 4) 0 rfl (Nat.zero_le _)
    rw [if_pos hint]
    exact hskip _ hsame (by omega)
  · rw [if_neg hint, Nat.zero_add]
    rfl

/-- The constants of one extension: the file and the window, where the match starts in each,
and how far it may go. -/
structure Probe where
  file : List UInt8
  window : List UInt8
  srcpos : ℕ
  inputPosition : ℕ
  maxback : ℕ
  maxfwd : ℕ
  blksize : ℕ
  srcpos_le : srcpos ≤ file.length
  back_src : maxback ≤ srcpos
  fwd_input : inputPosition + maxfwd ≤ window.length
  file_lt : file.length < xoff.modulus
  window_lt : window.length < usize.modulus

namespace Probe

/-- The `b` bytes before the start agree. -/
def AgreeBack (P : Probe) (b : ℕ) : Prop :=
  ∀ i < b, P.file[P.srcpos - 1 - i]? = P.window[P.inputPosition - 1 - i]?

/-- The `f` bytes from the start on agree. -/
def AgreeFwd (P : Probe) (f : ℕ) : Prop :=
  ∀ i < f, P.file[P.srcpos + i]? = P.window[P.inputPosition + i]?

def LongestBack (P : Probe) (b : ℕ) : Prop :=
  IsGreatest {b | b ≤ P.maxback ∧ b ≤ P.inputPosition ∧ P.AgreeBack b} b

def LongestFwd (P : Probe) (f : ℕ) : Prop :=
  IsGreatest {f | f ≤ P.maxfwd ∧ P.srcpos + f ≤ P.file.length ∧ P.AgreeFwd f} f

theorem AgreeBack.longest_of_ne {P : Probe} {b : ℕ} (h : P.AgreeBack b) (hle : b < P.maxback)
    (hin : b ≤ P.inputPosition)
    (hne : P.file[P.srcpos - 1 - b]? ≠ P.window[P.inputPosition - 1 - b]?) : P.LongestBack b := by
  refine ⟨⟨hle.le, hin, h⟩, fun c hc => ?_⟩
  by_contra hlt
  exact hne (hc.2.2 b (Nat.lt_of_not_le hlt))

theorem AgreeFwd.longest_of_ne {P : Probe} {f : ℕ} (h : P.AgreeFwd f) (hle : f < P.maxfwd)
    (hin : P.srcpos + f ≤ P.file.length)
    (hne : P.file[P.srcpos + f]? ≠ P.window[P.inputPosition + f]?) : P.LongestFwd f := by
  refine ⟨⟨hle.le, hin, h⟩, fun c hc => ?_⟩
  by_contra hlt
  exact hne (hc.2.2 f (Nat.lt_of_not_le hlt))

end Probe

structure Probing (P : Probe) (m : Matcher) : Prop where
  source : ∃ s, m.enc.src = .live s ∧ s.Faithful P.file ∧ s.blksize = P.blksize
  window : m.enc.window = P.window
  inputPosition : m.search.inputPosition = P.inputPosition
  srcpos : m.search.matchSrcpos = P.srcpos
  maxback : m.search.matchMaxback = P.maxback
  maxfwd : m.search.matchMaxfwd = P.maxfwd

/-- The application serves the file, and has not lost the blocks behind. -/
structure ServesAll (file : List UInt8) (app : Option GetblkFunc) : Prop where
  serves : ServesBlocks file app
  near : ∀ f, app = some f → ∀ s k, (f s k).2 ≠ some .toofarback

theorem noteBlock_held (blkno : ℕ) (s : Source) :
    (noteBlock blkno s).curblkno = s.curblkno ∧ (noteBlock blkno s).onblk = s.onblk := by
  unfold noteBlock
  dsimp only
  split_ifs <;> exact ⟨rfl, rfl⟩

/-- A block held and numbered `blkno` is that block of the file. -/
theorem Source.Faithful.block_noted {file : List UInt8} {s : Source} (h : s.Faithful file)
    {blkno : ℕ} (hcur : s.curblk.isSome = true) (hno : s.curblkno = blkno) :
    ((Xdelta.noteBlock blkno s).curblk.getD []).take (Xdelta.noteBlock blkno s).onblk =
      Source.block file s.blksize blkno := by
  obtain ⟨b, hb⟩ := Option.isSome_iff_exists.mp hcur
  obtain ⟨hblock, hon⟩ := h.holds b hb
  rw [noteBlock_curblk, (noteBlock_held blkno s).2, hb, Option.getD_some, hon, List.take_length,
    hblock, hno]

theorem getblk_serves {file : List UInt8} {app : Option GetblkFunc} (happ : ServesBlocks file app)
    {s : Source} (hs : s.Faithful file) (blkno : ℕ) :
    (getblk app blkno s).Ends
      (fun _ s' => s'.Faithful file ∧ s'.blksize = s.blksize ∧
        (s'.curblk.getD []).take s'.onblk = Source.block file s.blksize blkno)
      (fun _ => False) (fun _ s' => s'.Faithful file ∧ s'.blksize = s.blksize) := by
  have hs' : ({ s with getblkno := blkno } : Source).Faithful file :=
    hs.congr rfl rfl rfl rfl rfl rfl
  unfold getblk
  split
  · dsimp only
    split
    · exact ⟨hs', rfl⟩
    · rename_i f
      obtain ⟨hf, hb, -, hn⟩ := happ f rfl _ blkno hs'
      split
      · rename_i source ret heq
        rw [heq] at hf hb
        exact ⟨hf, hb⟩
      · rename_i source heq
        rw [heq] at hf hb hn
        obtain ⟨hcur, hno⟩ := hn rfl
        refine ⟨hf.noteBlock blkno, (noteBlock_blksize _ _).trans hb, ?_⟩
        rw [hf.block_noted hcur hno]
        exact congrArg (Source.block file · blkno) hb
  · rename_i hne
    rw [not_or, not_not] at hne
    exact ⟨hs.noteBlock blkno, noteBlock_blksize _ _,
      hs.block_noted (Option.isSome_iff_ne_none.mpr hne.1) hne.2.symm⟩

theorem getblk_near {file : List UInt8} {app : Option GetblkFunc} (happ : ServesAll file app)
    {blkno : ℕ} {s s' : Source} {e : Stop} (h : getblk app blkno s = .stop e s') :
    e.ret ≠ .toofarback := by
  unfold getblk at h
  dsimp only at h
  split at h
  · split at h
    · cases h
      exact nofun
    · rename_i f
      have hnear := happ.near f rfl { s with getblkno := blkno } blkno
      split at h
      · rename_i source ret heq
        rw [heq] at hnear
        cases h
        exact fun hret => hnear (congrArg some hret)
      · cases h
  · cases h

theorem tryBlock_ends {P : Probe} {env : EncEnv} (happ : ServesAll P.file env.getblk)
    {m : Matcher} (hm : Probing P m) (blkno : ℕ) :
    (tryBlock env blkno m).Ends
      (fun far m' => far = false ∧ Probing P m' ∧ m'.search = m.search ∧
        m'.curblk = Source.block P.file P.blksize blkno)
      (fun _ => False) (fun _ m' => Probing P m' ∧ m'.search = m.search) := by
  obtain ⟨s, hsrc, hfaith, hblk⟩ := hm.source
  have hends := getblk_serves happ.serves hfaith blkno
  have hkeep : ∀ s' : Source, s'.Faithful P.file → s'.blksize = s.blksize →
      Probing P { m with enc := { m.enc with src := .live s' } } := fun s' hf hb =>
    ⟨⟨s', rfl, hf, hb.trans hblk⟩, hm.window, hm.inputPosition, hm.srcpos, hm.maxback, hm.maxfwd⟩
  rw [tryBlock, onSource, hsrc]
  dsimp only
  cases hg : getblk env.getblk blkno s with
  | ok u s' =>
    rw [hg] at hends
    obtain ⟨hf, hb, hcur⟩ := hends
    refine ⟨rfl, hkeep s' hf hb, rfl, ?_⟩
    rw [← hblk, ← hcur]
    rfl
  | starved s' => rw [hg] at hends; exact hends
  | fault => rw [hg] at hends; exact hends
  | stop e s' =>
    rw [hg] at hends
    obtain ⟨hf, hb⟩ := hends
    change Outcome.Ends _ _ _ (if e.ret = .toofarback then _ else _)
    rw [if_neg (getblk_near happ hg)]
    exact ⟨hkeep s' hf hb, rfl⟩

/-- The match is `n` bytes longer backwards. -/
def Matcher.addBack (m : Matcher) (n : ℕ) : Matcher :=
  { m with search := { m.search with matchBack := m.search.matchBack + n } }

/-- The inner loop counts the bytes that agree, up to a difference or to the last one. It
may ask for more bytes than the window has before the position. -/
theorem backwardBytes_spec (block : List UInt8) {tryrem tryoff streamoff : ℕ} (m : Matcher)
    (hoff : tryrem ≤ tryoff) (hblock : tryoff ≤ block.length)
    (hwindow : streamoff ≤ m.enc.window.length) :
    streamoff < tryrem ∧ backwardBytes block tryrem tryoff streamoff m = .fault ∨
    ∃ n ≤ streamoff, (∀ i < n, block[tryoff - 1 - i]? = m.enc.window[streamoff - 1 - i]?) ∧
      (n = tryrem ∧ backwardBytes block tryrem tryoff streamoff m =
          .ok (some (tryoff - n, streamoff - n)) (m.addBack n) ∨
        n < tryrem ∧ block[tryoff - 1 - n]? ≠ m.enc.window[streamoff - 1 - n]? ∧
          backwardBytes block tryrem tryoff streamoff m = .ok none (m.addBack n)) := by
  induction tryrem generalizing tryoff streamoff m with
  | zero =>
    exact .inr ⟨0, Nat.zero_le _, fun i hi => absurd hi (Nat.not_lt_zero _), .inl ⟨rfl, rfl⟩⟩
  | succ k ih =>
    have hlt : tryoff - 1 < block.length := by omega
    rw [backwardBytes]
    dsimp only
    by_cases hstart : streamoff = 0
    · rw [if_pos (.inr hstart)]
      exact .inl ⟨by omega, rfl⟩
    have hlt' : streamoff - 1 < m.enc.window.length := by omega
    rw [if_neg (by omega), byteAt, byteAt, List.getElem?_eq_getElem hlt,
      List.getElem?_eq_getElem hlt']
    dsimp only
    by_cases heq : block[tryoff - 1] = m.enc.window[streamoff - 1]
    · rw [if_pos heq]
      rcases @ih (tryoff - 1) (streamoff - 1) (m.addBack 1) (by omega) (by omega) hlt'.le with
        ⟨hshort, hres⟩ | ⟨n, hn', hall, hcase⟩
      · exact .inl ⟨by omega, hres⟩
      have hback : (m.addBack 1).addBack n = m.addBack (n + 1) := by
        unfold Matcher.addBack
        dsimp only
        rw [Nat.add_assoc, Nat.add_comm 1]
      have hshift : ∀ i, tryoff - 1 - 1 - i = tryoff - 1 - (i + 1) ∧
          streamoff - 1 - 1 - i = streamoff - 1 - (i + 1) := fun i => ⟨by omega, by omega⟩
      refine .inr ⟨n + 1, by omega, fun i hi => ?_, ?_⟩
      · cases i with
        | zero =>
          rw [Nat.sub_zero, Nat.sub_zero, List.getElem?_eq_getElem hlt,
            List.getElem?_eq_getElem hlt', heq]
        | succ i =>
          have hi' := hall i (by omega)
          rwa [(hshift i).1, (hshift i).2] at hi'
      · rcases hcase with ⟨hn, hres⟩ | ⟨hn, hne, hres⟩
        · rw [hback] at hres
          refine .inl ⟨by omega, hres.trans ?_⟩
          rw [Nat.sub_sub, Nat.sub_sub, Nat.add_comm 1]
        · rw [hback] at hres
          rw [(hshift n).1, (hshift n).2] at hne
          exact .inr ⟨by omega, hne, hres⟩
    · rw [if_neg heq]
      refine .inr ⟨0, Nat.zero_le _, fun i hi => absurd hi (Nat.not_lt_zero _),
        .inr ⟨Nat.succ_pos _, ?_, rfl⟩⟩
      rw [Nat.sub_zero, Nat.sub_zero, List.getElem?_eq_getElem hlt, List.getElem?_eq_getElem hlt']
      exact fun h => heq (Option.some_inj.mp h)

theorem getElem?_block {file : List UInt8} {blksize blkno x : ℕ} (hx : x < blksize) :
    (Source.block file blksize blkno)[x]? = file[blkno * blksize + x]? := by
  rw [Source.block, List.getElem?_take_of_lt hx, List.getElem?_drop]

theorem Probing.addBack {P : Probe} {m : Matcher} (h : Probing P m) (n : ℕ) :
    Probing P (m.addBack n) :=
  ⟨h.source, h.window, h.inputPosition, h.srcpos, h.maxback, h.maxfwd⟩

/-- The backward loop changes `match_back` only, and counts bytes that agree. -/
structure BackFrom (P : Probe) (m m' : Matcher) : Prop where
  probing : Probing P m'
  search : m'.search = { m.search with matchBack := m'.search.matchBack }
  le : m'.search.matchBack ≤ P.maxback
  input : m'.search.matchBack ≤ P.inputPosition
  agree : P.AgreeBack m'.search.matchBack

theorem BackFrom.trans {P : Probe} {m₁ m₂ m₃ : Matcher} (h : BackFrom P m₁ m₂)
    (h' : BackFrom P m₂ m₃) : BackFrom P m₁ m₃ :=
  ⟨h'.probing, by rw [h'.search, h.search], h'.le, h'.input, h'.agree⟩

theorem step_back {blksize tryblk tryoff pos : ℕ} (h : tryblk * blksize + tryoff = pos)
    (hoff : tryoff < blksize) (hpos : 0 < pos) (hlt : pos < xoff.modulus) :
    ∃ blk off, (if tryoff = 0 then xoff.sub tryblk 1 else tryblk) = blk ∧
      (if tryoff = 0 then blksize else tryoff) = off ∧ 0 < off ∧ off ≤ blksize ∧
      blk * blksize + off = pos := by
  by_cases hz : tryoff = 0
  · have hone : 1 ≤ tryblk := Nat.pos_of_ne_zero fun h0 => by
      rw [h0, Nat.zero_mul] at h
      omega
    have hblk : tryblk ≤ tryblk * blksize := Nat.le_mul_of_pos_right _ (by omega)
    have hsize : blksize ≤ tryblk * blksize := Nat.le_mul_of_pos_left _ hone
    refine ⟨tryblk - 1, blksize, ?_, if_pos hz, by omega, le_refl _, ?_⟩
    · rw [if_pos hz, xoff.sub_eq (by omega) hone]
    · rw [Nat.sub_mul, Nat.one_mul]
      omega
  · exact ⟨tryblk, tryoff, if_neg hz, if_neg hz, by omega, hoff.le, h⟩

/-- The backward loop extends the match to the longest, or is interrupted on the way. -/
theorem backwardLoop_ends {P : Probe} {env : EncEnv} (happ : ServesAll P.file env.getblk)
    (fuel : ℕ) {m : Matcher} (hm : Probing P m) {tryblk tryoff streamoff : ℕ}
    (hpos : tryblk * P.blksize + tryoff = P.srcpos - m.search.matchBack)
    (hoff : tryoff < P.blksize) (hstream : streamoff = P.inputPosition - m.search.matchBack)
    (hle : m.search.matchBack ≤ P.maxback) (hinput : m.search.matchBack ≤ P.inputPosition)
    (hagree : P.AgreeBack m.search.matchBack) (hfuel : P.maxback - m.search.matchBack < fuel) :
    (backwardLoop env P.blksize fuel tryblk tryoff streamoff m).Decides
      (P.inputPosition < P.maxback)
      (fun ended m' => ended = .doneback ∧ BackFrom P m m' ∧ P.LongestBack m'.search.matchBack)
      (fun _ => False) (fun _ m' => BackFrom P m m') := by
  induction fuel generalizing m tryblk tryoff streamoff with
  | zero => exact absurd hfuel (Nat.not_lt_zero _)
  | succ fuel ih =>
    have hbs := P.back_src
    have hin := P.srcpos_le
    have hflt := P.file_lt
    have hfwd := P.fwd_input
    rw [backwardLoop]
    dsimp only
    rw [hm.maxback]
    by_cases hmore : m.search.matchBack < P.maxback
    · rw [if_pos hmore]
      obtain ⟨blk, off, hblk, hoff', hpos0, hoffle, hposn⟩ :=
        step_back hpos hoff (by omega) (by omega)
      rw [hblk, hoff']
      refine ((tryBlock_ends happ hm blk).mono (fun far m' h => h) (fun _ h => h)
        fun _ m' h => ⟨h.1, by rw [h.2], by rw [h.2]; exact hle, by rw [h.2]; exact hinput,
          by rw [h.2]; exact hagree⟩).decides.andThen fun far m₁ ⟨hfar, hm₁, hsearch, hcur⟩ => ?_
      have hback : m₁.search.matchBack = m.search.matchBack := by rw [hsearch]
      have hlen : off ≤ m₁.curblk.length := by
        rw [hcur, Source.length_block]
        omega
      rw [hfar, if_neg Bool.false_ne_true, hm₁.maxback, hback]
      rcases @backwardBytes_spec m₁.curblk _ off streamoff m₁
        (Nat.min_le_left off (P.maxback - m.search.matchBack)) hlen
        (by rw [hm₁.window]; omega) with ⟨hshort, hres⟩ | ⟨n, hn', hall, hcase⟩
      · rw [hres]
        change P.inputPosition < P.maxback
        omega
      -- the bytes of the block are those of the file
      have hbyte : ∀ i < off, m₁.curblk[off - 1 - i]? =
          P.file[P.srcpos - 1 - (m.search.matchBack + i)]? := by
        intro i hi
        rw [hcur, getElem?_block (by omega)]
        congr 1
        omega
      have hwin : ∀ i, m₁.enc.window[streamoff - 1 - i]? =
          P.window[P.inputPosition - 1 - (m.search.matchBack + i)]? := by
        intro i
        rw [hm₁.window]
        congr 1
        omega
      have hagree' : n ≤ off → P.AgreeBack (m.search.matchBack + n) := by
        intro hn i hi
        by_cases hold : i < m.search.matchBack
        · exact hagree i hold
        · have hnew := hall (i - m.search.matchBack) (by omega)
          rw [hbyte _ (by omega), hwin] at hnew
          rwa [Nat.add_sub_cancel' (Nat.le_of_not_lt hold)] at hnew
      have hfrom : n ≤ min off (P.maxback - m.search.matchBack) →
          BackFrom P m (m₁.addBack n) := by
        intro hn
        have hval : (m₁.addBack n).search.matchBack = m.search.matchBack + n := by
          rw [← hback]
          rfl
        refine ⟨hm₁.addBack n, ?_, by omega, by omega, hval ▸ hagree' (by omega)⟩
        rw [Matcher.addBack, hsearch]
      have hval : (m₁.addBack n).search.matchBack = m.search.matchBack + n := by
        rw [← hback]
        rfl
      rcases hcase with ⟨hn, hres⟩ | ⟨hn, hne, hres⟩
      · rw [hres, Outcome.andThen_ok]
        have hstep := hfrom hn.le
        refine (ih hstep.probing ?_ ?_ ?_ hstep.le hstep.input hstep.agree ?_).mono id
          (fun _ _ h => ⟨h.1, hstep.trans h.2.1, h.2.2⟩) (fun _ h => h) fun _ _ h => hstep.trans h
        · rw [hval]
          omega
        · omega
        · rw [hval]
          omega
        · rw [hval]
          omega
      · rw [hres, Outcome.andThen_ok]
        have hstep := hfrom hn.le
        refine ⟨rfl, hstep, ?_⟩
        rw [hbyte _ (by omega), hwin] at hne
        rw [hval]
        exact (hagree' (by omega)).longest_of_ne (by omega) (by omega) hne
    · rw [if_neg hmore]
      have heq : m.search.matchBack = P.maxback := by omega
      exact ⟨rfl, ⟨hm, rfl, hle, hinput, hagree⟩, ⟨hle, hinput, hagree⟩, fun c hc => heq ▸ hc.1⟩

/-- The match is `n` bytes longer forwards. -/
def Matcher.addFwd (m : Matcher) (n : ℕ) : Matcher :=
  { m with search := { m.search with matchFwd := m.search.matchFwd + n } }

theorem Probing.addFwd {P : Probe} {m : Matcher} (h : Probing P m) (n : ℕ) :
    Probing P (m.addFwd n) :=
  ⟨h.source, h.window, h.inputPosition, h.srcpos, h.maxback, h.maxfwd⟩

/-- The forward loop changes `match_fwd` only, and counts bytes that agree. -/
structure FwdFrom (P : Probe) (m m' : Matcher) : Prop where
  probing : Probing P m'
  search : m'.search = { m.search with matchFwd := m'.search.matchFwd }
  le : m'.search.matchFwd ≤ P.maxfwd
  inside : P.srcpos + m'.search.matchFwd ≤ P.file.length
  agree : P.AgreeFwd m'.search.matchFwd

theorem FwdFrom.trans {P : Probe} {m₁ m₂ m₃ : Matcher} (h : FwdFrom P m₁ m₂)
    (h' : FwdFrom P m₂ m₃) : FwdFrom P m₁ m₃ :=
  ⟨h'.probing, by rw [h'.search, h.search], h'.le, h'.inside, h'.agree⟩

theorem step_fwd {blksize tryblk tryoff pos : ℕ} (h : tryblk * blksize + tryoff = pos)
    (hoff : tryoff ≤ blksize) (hb : 0 < blksize) (hlt : pos < xoff.modulus) :
    ∃ blk off, (if tryoff = blksize then xoff.add tryblk 1 else tryblk) = blk ∧
      (if tryoff = blksize then 0 else tryoff) = off ∧ off < blksize ∧
      blk * blksize + off = pos := by
  by_cases hz : tryoff = blksize
  · have hblk : tryblk ≤ tryblk * blksize := Nat.le_mul_of_pos_right _ hb
    refine ⟨tryblk + 1, 0, ?_, if_pos hz, hb, ?_⟩
    · rw [if_pos hz, xoff.add_eq (by omega)]
    · rw [Nat.add_mul, Nat.one_mul]
      omega
  · exact ⟨tryblk, tryoff, if_neg hz, if_neg hz, by omega, h⟩

/-- The forward loop extends the match to the longest, or is interrupted on the way. -/
theorem forwardLoop_ends {P : Probe} {env : EncEnv} (happ : ServesAll P.file env.getblk)
    (fuel : ℕ) {m : Matcher} (hm : Probing P m) {tryblk tryoff streamoff : ℕ}
    (hb : 0 < P.blksize) (hpos : tryblk * P.blksize + tryoff = P.srcpos + m.search.matchFwd)
    (hoff : tryoff ≤ P.blksize) (hstream : streamoff = P.inputPosition + m.search.matchFwd)
    (hfrom : FwdFrom P m m) (hfuel : P.maxfwd - m.search.matchFwd < fuel) :
    (forwardLoop env P.blksize fuel tryblk tryoff streamoff m).Ends
      (fun _ m' => FwdFrom P m m' ∧ P.LongestFwd m'.search.matchFwd)
      (fun _ => False) (fun _ m' => FwdFrom P m m') := by
  induction fuel generalizing m tryblk tryoff streamoff with
  | zero => exact absurd hfuel (Nat.not_lt_zero _)
  | succ fuel ih =>
    have hflt := P.file_lt
    have hfwd := P.fwd_input
    have hle := hfrom.le
    have hinside := hfrom.inside
    rw [forwardLoop]
    dsimp only
    rw [hm.maxfwd]
    by_cases hmore : m.search.matchFwd < P.maxfwd
    · rw [if_pos hmore]
      obtain ⟨blk, off, hblk, hoff', hofflt, hposn⟩ := step_fwd hpos hoff hb (by omega)
      rw [hblk, hoff']
      refine ((tryBlock_ends happ hm blk).mono (fun far m' h => h) (fun _ h => h)
        fun _ m' h => ⟨h.1, by rw [h.2], by rw [h.2]; exact hle, by rw [h.2]; exact hinside,
          by rw [h.2]; exact hfrom.agree⟩).andThen fun far m₁ ⟨hfar, hm₁, hsearch, hcur⟩ => ?_
      have hback : m₁.search.matchFwd = m.search.matchFwd := by rw [hsearch]
      have hlen : m₁.curblk.length = min P.blksize (P.file.length - blk * P.blksize) := by
        rw [hcur, Source.length_block]
      have hstay : FwdFrom P m m₁ := ⟨hm₁, by rw [hsearch], hback ▸ hle, hback ▸ hinside,
        hback ▸ hfrom.agree⟩
      rw [hfar, if_neg Bool.false_ne_true, if_neg (by omega)]
      generalize hrem : min (m₁.search.matchMaxfwd - m₁.search.matchFwd)
        (m₁.curblk.length - off) = tryrem
      rw [hm₁.maxfwd, hback] at hrem
      by_cases hzero : tryrem = 0
      · -- the file ends at a block boundary, or where the last block does
        rw [if_pos hzero]
        refine ⟨hstay, ?_⟩
        rw [hback]
        exact ⟨⟨hle, hinside, hfrom.agree⟩, fun c hc => by have := hc.2.1; omega⟩
      · rw [if_neg hzero, hm₁.window, if_neg (by omega)]
        have hdrop : tryrem ≤ (m₁.curblk.drop off).length := by
          rw [List.length_drop]
          omega
        rw [forwardMatch_eq hdrop]
        obtain ⟨hn1, hn2, hall, hne⟩ := commonPrefix_spec ((m₁.curblk.drop off).take tryrem)
          ((P.window.drop streamoff).take tryrem)
        generalize commonPrefix ((m₁.curblk.drop off).take tryrem)
          ((P.window.drop streamoff).take tryrem) = n at hn1 hn2 hall hne
        rw [List.length_take_of_le hdrop] at hn1 hne
        rw [List.length_take_of_le (by rw [List.length_drop]; omega)] at hn2 hne
        have hbyte : ∀ i < tryrem, ((m₁.curblk.drop off).take tryrem)[i]? =
            P.file[P.srcpos + (m.search.matchFwd + i)]? := by
          intro i hi
          rw [List.getElem?_take_of_lt hi, List.getElem?_drop, hcur, getElem?_block (by omega)]
          congr 1
          omega
        have hwin : ∀ i < tryrem, ((P.window.drop streamoff).take tryrem)[i]? =
            P.window[P.inputPosition + (m.search.matchFwd + i)]? := by
          intro i hi
          rw [List.getElem?_take_of_lt hi, List.getElem?_drop]
          congr 1
          omega
        have hagree : P.AgreeFwd (m.search.matchFwd + n) := by
          intro i hi
          by_cases hold : i < m.search.matchFwd
          · exact hfrom.agree i hold
          · have hnew := hall (i - m.search.matchFwd) (by omega)
            rw [hbyte _ (by omega), hwin _ (by omega)] at hnew
            rwa [Nat.add_sub_cancel' (Nat.le_of_not_lt hold)] at hnew
        have hval : (m₁.addFwd n).search.matchFwd = m.search.matchFwd + n := by
          rw [← hback]
          rfl
        have hstep : FwdFrom P m (m₁.addFwd n) :=
          ⟨hm₁.addFwd n, by rw [Matcher.addFwd, hsearch], by omega, by omega, hval ▸ hagree⟩
        change Outcome.Ends _ _ _ (if tryrem ≠ n then Outcome.ok () (m₁.addFwd n) else
          forwardLoop env P.blksize fuel blk (off + n) (streamoff + n) (m₁.addFwd n))
        by_cases hall' : tryrem ≠ n
        · rw [if_pos hall']
          have hdiff := hne (by omega) (by omega)
          rw [hbyte _ (by omega), hwin _ (by omega)] at hdiff
          refine ⟨hstep, ?_⟩
          rw [hval]
          exact hagree.longest_of_ne (by omega) (by omega) hdiff
        · rw [if_neg hall']
          refine (ih hstep.probing ?_ ?_ ?_ ⟨hstep.probing, rfl, hstep.le, hstep.inside,
            hstep.agree⟩ ?_).mono (fun _ _ h => ⟨hstep.trans h.1, h.2⟩) (fun _ h => h)
            fun _ _ h => hstep.trans h
          · rw [hval]
            omega
          · omega
          · rw [hval]
            omega
          · rw [hval]
            omega
    · rw [if_neg hmore]
      have heq : m.search.matchFwd = P.maxfwd := by omega
      exact ⟨hfrom, ⟨hle, hinside, hfrom.agree⟩, fun c hc => heq ▸ hc.1⟩

/-- `xd3_source_extend_match` up to the test against `min_match`. -/
def sourceExtend (env : EncEnv) : Mat Unit := fun m =>
  match m.enc.src with
  | .live src =>
    (extendBackward env src m).andThen fun ended m =>
    if ended = .doneback then extendForward env src m else .ok () m
  | _ => .fault

theorem sourceExtendMatch_eq (env : EncEnv) (m : Matcher) :
    sourceExtendMatch env m = (sourceExtend env m).andThen fun _ => recordMatch := by
  rw [sourceExtendMatch, sourceExtend]
  cases m.enc.src with
  | null => rfl
  | dead => rfl
  | live src =>
    dsimp only
    cases extendBackward env src m <;> rfl

structure Extending (P : Probe) (m : Matcher) : Prop where
  probing : Probing P m
  back_le : m.search.matchBack ≤ P.maxback
  back_input : m.search.matchBack ≤ P.inputPosition
  back : P.AgreeBack m.search.matchBack
  fwd_le : m.search.matchFwd ≤ P.maxfwd
  inside : P.srcpos + m.search.matchFwd ≤ P.file.length
  fwd : P.AgreeFwd m.search.matchFwd
  stage : m.search.matchState = .backward ∨
    m.search.matchState = .forward ∧ P.LongestBack m.search.matchBack

theorem Extending.of_back {P : Probe} {m m' : Matcher} (h : Extending P m) (hm : BackFrom P m m')
    (hstage : m.search.matchState = .backward) : Extending P m' := by
  have hfwd : m'.search.matchFwd = m.search.matchFwd := by rw [hm.search]
  have hstate : m'.search.matchState = m.search.matchState := by rw [hm.search]
  exact ⟨hm.probing, hm.le, hm.input, hm.agree, hfwd ▸ h.fwd_le, hfwd ▸ h.inside, hfwd ▸ h.fwd,
    .inl (hstate.trans hstage)⟩

theorem Extending.of_fwd {P : Probe} {m m' : Matcher} (h : Extending P m) (hm : FwdFrom P m m') :
    Extending P m' := by
  have hback : m'.search.matchBack = m.search.matchBack := by rw [hm.search]
  have hstate : m'.search.matchState = m.search.matchState := by rw [hm.search]
  exact ⟨hm.probing, hback ▸ h.back_le, hback ▸ h.back_input, hback ▸ h.back, hm.le, hm.inside, hm.agree, by
    rw [hback, hstate]
    exact h.stage⟩

theorem Source.Shaped.blksizeDiv_spec {s : Source} (h : s.Shaped) (x : ℕ) :
    (s.blksizeDiv x).1 * s.blksize + (s.blksizeDiv x).2 = x ∧ (s.blksizeDiv x).2 < s.blksize := by
  have hpos : 0 < s.blksize := h.blksize_eq ▸ Nat.two_pow_pos _
  rw [h.blksizeDiv_eq, Nat.mul_comm]
  exact ⟨Nat.div_add_mod _ _, Nat.mod_lt _ hpos⟩

/-- The backward half: recomputing the block from what has been matched so far. -/
theorem extendBackward_ends {P : Probe} {env : EncEnv} (happ : ServesAll P.file env.getblk)
    {m : Matcher} (h : Extending P m) {src : Source} (hsrc : m.enc.src = .live src) :
    (extendBackward env src m).Decides (P.inputPosition < P.maxback)
      (fun ended m' => ended = .doneback ∧ Extending P m' ∧ P.LongestBack m'.search.matchBack)
      (fun _ => False) (fun _ m' => Extending P m') := by
  obtain ⟨s, hs, hfaith, hblk⟩ := h.probing.source
  cases hsrc.symm.trans hs
  have hback := h.back_le
  have hbs := P.back_src
  have hbi := h.back_input
  have hin := P.srcpos_le
  have hflt := P.file_lt
  have hwlt := P.window_lt
  have hfwd := P.fwd_input
  rw [extendBackward]
  by_cases hstage : m.search.matchState = .backward
  · rw [if_pos hstage]
    dsimp only
    rw [h.probing.srcpos, h.probing.inputPosition, xoff.sub_eq (by omega) (by omega),
      usize.sub_eq (by omega) (by omega), h.probing.maxback, hblk]
    obtain ⟨hpos, hoff⟩ := hfaith.blksizeDiv_spec (P.srcpos - m.search.matchBack)
    rw [hblk] at hpos hoff
    refine ((backwardLoop_ends happ _ h.probing hpos hoff rfl hback hbi h.back (by omega)).mono id
      (fun _ _ hq => hq) (fun _ hf => hf) fun _ _ hb => h.of_back hb hstage).andThen
        fun ended m' ⟨hended, hfrom, hlong⟩ => ?_
    have hm' := h.of_back hfrom hstage
    rw [if_pos hended]
    exact ⟨hended, ⟨⟨hm'.probing.source, hm'.probing.window, hm'.probing.inputPosition,
      hm'.probing.srcpos, hm'.probing.maxback, hm'.probing.maxfwd⟩, hm'.back_le, hm'.back_input,
      hm'.back, hm'.fwd_le, hm'.inside, hm'.fwd, .inr ⟨rfl, hlong⟩⟩, hlong⟩
  · rw [if_neg hstage]
    rcases h.stage with hback | ⟨-, hlong⟩
    · exact absurd hback hstage
    · exact ⟨rfl, h, hlong⟩

theorem extendForward_ends {P : Probe} {env : EncEnv} (happ : ServesAll P.file env.getblk)
    {m : Matcher} (h : Extending P m) {src : Source} (hshape : src.Shaped)
    (hblk : src.blksize = P.blksize) :
    (extendForward env src m).Ends
      (fun _ m' => FwdFrom P m m' ∧ P.LongestFwd m'.search.matchFwd)
      (fun _ => False) (fun _ m' => Extending P m') := by
  have hle := h.fwd_le
  have hinside := h.inside
  have hflt := P.file_lt
  have hwlt := P.window_lt
  have hfwd := P.fwd_input
  have hpos0 : 0 < src.blksize := hshape.blksize_eq ▸ Nat.two_pow_pos _
  rw [extendForward]
  dsimp only
  rw [h.probing.srcpos, h.probing.inputPosition, xoff.add_eq (by omega), usize.add_eq (by omega),
    h.probing.maxfwd, hblk]
  obtain ⟨hpos, hoff⟩ := hshape.blksizeDiv_spec (P.srcpos + m.search.matchFwd)
  rw [hblk] at hpos hoff
  exact (forwardLoop_ends happ _ h.probing (hblk ▸ hpos0) hpos hoff.le rfl
    ⟨h.probing, rfl, hle, hinside, h.fwd⟩ (by omega)).mono
      (fun _ _ hq => hq) (fun _ hf => hf) fun _ _ hf => h.of_fwd hf

/-- One call: it comes to the longest match, or is interrupted with a part of it. -/
theorem sourceExtend_ends {P : Probe} {env : EncEnv} (happ : ServesAll P.file env.getblk)
    {m : Matcher} (h : Extending P m) :
    (sourceExtend env m).Decides (P.inputPosition < P.maxback)
      (fun _ m' => P.LongestBack m'.search.matchBack ∧ P.LongestFwd m'.search.matchFwd)
      (fun _ => False) (fun _ m' => Extending P m') := by
  obtain ⟨s, hs, hfaith, hblk⟩ := h.probing.source
  rw [sourceExtend, hs]
  refine (extendBackward_ends happ h hs).andThen fun ended m₁ ⟨hended, hm₁, hlong⟩ => ?_
  rw [if_pos hended]
  refine ((extendForward_ends happ hm₁ hfaith.toShaped hblk).mono (fun _ m' hq => ⟨?_, hq.2⟩)
    (fun _ hf => hf) fun _ _ hf => hf).decides
  have hback : m'.search.matchBack = m₁.search.matchBack := by rw [hq.1.search]
  rwa [hback]

def Answers (file : List UInt8) (m m' : Matcher) : Prop :=
  ∃ s s', m.enc.src = .live s ∧ s'.Faithful file ∧ s'.blksize = s.blksize ∧
    m' = { m with enc := { m.enc with src := .live s' } }

/-- Calls that return early, the application answering after each. -/
inductive Interrupted (env : EncEnv) (file : List UInt8) : Matcher → Matcher → Prop
  | none (m) : Interrupted env file m m
  | again {m m₁ m₂ m₃ e} : Interrupted env file m m₁ → sourceExtend env m₁ = .stop e m₂ →
      Answers file m₂ m₃ → Interrupted env file m m₃

theorem Extending.answered {P : Probe} {m m' : Matcher} (h : Extending P m)
    (ha : Answers P.file m m') : Extending P m' := by
  obtain ⟨s, s', hs, hfaith, hsize, rfl⟩ := ha
  obtain ⟨t, ht, -, hblk⟩ := h.probing.source
  cases hs.symm.trans ht
  exact ⟨⟨⟨s', rfl, hfaith, hsize.trans hblk⟩, h.probing.window, h.probing.inputPosition,
    h.probing.srcpos, h.probing.maxback, h.probing.maxfwd⟩, h.back_le, h.back_input, h.back,
    h.fwd_le, h.inside, h.fwd, h.stage⟩

/-- The run: a match stays under way however often its extension is interrupted. -/
theorem Interrupted.extending {P : Probe} {env : EncEnv} (happ : ServesAll P.file env.getblk)
    {m m' : Matcher} (hrun : Interrupted env P.file m m') (h : Extending P m) :
    Extending P m' := by
  induction hrun with
  | none => exact h
  | again _ hstop hans ih =>
    have hends := sourceExtend_ends happ ih
    rw [hstop] at hends
    exact hends.answered hans

/-- The matcher where a match is set up: a live source and input left to compare. -/
structure Readied (file : List UInt8) (m : Matcher) : Prop where
  source : ∃ s, m.enc.src = .live s ∧ s.Faithful file
  ahead : m.search.inputPosition ≤ m.enc.availIn
  input : m.enc.availIn ≤ m.enc.nextIn.length
  input_lt : m.enc.nextIn.length < usize.modulus
  file_lt : file.length < xoff.modulus

/-- A match may be tried from `srcpos`: nothing is matched yet, and its limits keep within
the source before it and the input after it. -/
structure Tried (srcpos : ℕ) (m m₁ : Matcher) : Prop where
  enc : m₁.enc = m.enc
  inputPosition : m₁.search.inputPosition = m.search.inputPosition
  matchSrcpos : m₁.search.matchSrcpos = srcpos
  matchState : m₁.search.matchState = .backward
  matchBack : m₁.search.matchBack = 0
  matchFwd : m₁.search.matchFwd = 0
  maxback_le : m₁.search.matchMaxback ≤ srcpos
  maxfwd_le : m₁.search.matchMaxfwd ≤ usize.sub m.enc.availIn m.search.inputPosition

theorem sourceMatchSetup_tried {srcpos : ℕ} {m m₁ : Matcher}
    (h : sourceMatchSetup srcpos m = .ok true m₁) : Tried srcpos m m₁ := by
  unfold sourceMatchSetup at h
  dsimp only at h
  cases hsrc : m.enc.src with
  | null => rw [hsrc] at h; cases h
  | dead => rw [hsrc] at h; cases h
  | live src =>
    rw [hsrc] at h
    dsimp only at h
    by_cases hlast : srcpos ≠ 0 ∧ srcpos = m.search.matchLastSrcpos
    · rw [if_pos hlast] at h
      cases h
    rw [if_neg hlast] at h
    by_cases hfar : srcpos < m.search.srcwinCksumPos ∧
        src.maxWinsize < m.search.srcwinCksumPos - srcpos
    · rw [if_pos hfar] at h
      cases h
    rw [if_neg hfar] at h
    by_cases hdec : m.enc.srcwinDecided = false
    · rw [if_pos hdec] at h
      cases h
      refine ⟨rfl, rfl, rfl, rfl, rfl, rfl, Nat.min_le_right _ _, ?_⟩
      dsimp only
      split_ifs
      · exact Nat.min_le_left _ _
      · exact le_refl _
    · rw [if_neg hdec] at h
      by_cases hout : srcpos < src.srcbase ∨ xoff.add src.srcbase src.srclen < srcpos
      · rw [if_pos hout] at h
        cases h
      · rw [if_neg hout] at h
        cases h
        exact ⟨rfl, rfl, rfl, rfl, rfl, rfl, (Nat.min_le_right _ _).trans (Nat.sub_le _ _),
          Nat.min_le_left _ _⟩

theorem Tried.extending {file : List UInt8} {srcpos : ℕ} {m m₁ : Matcher}
    (h : Tried srcpos m m₁) (hm : Readied file m) (hpos : srcpos ≤ file.length) :
    ∃ P : Probe, P.file = file ∧ P.window = m.enc.window ∧ P.srcpos = srcpos ∧
      P.inputPosition = m.search.inputPosition ∧ P.maxback = m₁.search.matchMaxback ∧
      P.maxfwd = m₁.search.matchMaxfwd ∧ Extending P m₁ := by
  obtain ⟨s, hsrc, hfaith⟩ := hm.source
  have hahead := hm.ahead
  have hinput := hm.input
  have hlt := hm.input_lt
  have hlen : m.enc.window.length = m.enc.availIn := List.length_take_of_le hinput
  have hfwd := h.maxfwd_le
  rw [usize.sub_eq (by omega) hahead] at hfwd
  let P : Probe :=
    { file := file
      window := m.enc.window
      srcpos := srcpos
      inputPosition := m.search.inputPosition
      maxback := m₁.search.matchMaxback
      maxfwd := m₁.search.matchMaxfwd
      blksize := s.blksize
      srcpos_le := hpos
      back_src := h.maxback_le
      fwd_input := by omega
      file_lt := hm.file_lt
      window_lt := by omega }
  have hnone : ∀ {p : ℕ → Prop} {n : ℕ}, n = 0 → ∀ i < n, p i := fun hn i hi => by omega
  exact ⟨P, rfl, rfl, rfl, rfl, rfl, rfl,
    ⟨⟨s, (congrArg Encoder.src h.enc).trans hsrc, hfaith, rfl⟩, congrArg Encoder.window h.enc,
      h.inputPosition, h.matchSrcpos, rfl, rfl⟩,
    by rw [h.matchBack]; exact Nat.zero_le _, by rw [h.matchBack]; exact Nat.zero_le _,
    hnone h.matchBack, by rw [h.matchFwd]; exact Nat.zero_le _, by rw [h.matchFwd]; exact hpos,
    hnone h.matchFwd, .inl h.matchState⟩

/-- The extension of a match comes to the longest one in both directions, whatever the block
size and the interruptions. It faults only where the limit backwards is beyond the start of
the input. -/
theorem sourceExtend_longest {file : List UInt8} {env : EncEnv} (happ : ServesAll file env.getblk)
    {srcpos : ℕ} {m m₁ m₂ : Matcher} (hm : Readied file m) (hpos : srcpos ≤ file.length)
    (hsetup : sourceMatchSetup srcpos m = .ok true m₁) (hrun : Interrupted env file m₁ m₂) :
    (∀ m', sourceExtend env m₂ = .ok () m' →
      IsGreatest {b | b ≤ m₁.search.matchMaxback ∧ b ≤ m.search.inputPosition ∧
        ∀ i < b, file[srcpos - 1 - i]? = m.enc.window[m.search.inputPosition - 1 - i]?}
        m'.search.matchBack ∧
      IsGreatest {f | f ≤ m₁.search.matchMaxfwd ∧ srcpos + f ≤ file.length ∧
        ∀ i < f, file[srcpos + i]? = m.enc.window[m.search.inputPosition + i]?}
        m'.search.matchFwd) ∧
    (m₁.search.matchMaxback ≤ m.search.inputPosition → sourceExtend env m₂ ≠ .fault) ∧
    sourceExtendMatch env m₂ = (sourceExtend env m₂).andThen fun _ => recordMatch := by
  obtain ⟨P, rfl, hwin, rfl, hin, hback, hfwd, hstart⟩ :=
    (sourceMatchSetup_tried hsetup).extending hm hpos
  have hends := sourceExtend_ends happ (hrun.extending happ hstart)
  rw [← hwin, ← hin, ← hback, ← hfwd]
  refine ⟨fun m' hok => ?_, fun hle hfault => ?_, sourceExtendMatch_eq env m₂⟩
  · rw [hok] at hends
    exact hends
  · rw [hfault] at hends
    exact absurd hends (Nat.not_lt_of_le hle)

/-- A matcher at the third byte of its input, before a source of which no block is held. -/
def waitingMatcher : Matcher :=
  { enc :=
      { nextIn := [9, 2, 3, 4, 8]
        availIn := 5
        src := .live { blksize := 2, shiftby := 1, maskby := 1, maxWinsize := 6 } }
    search := { inputPosition := 2, minMatch := 4 } }

def Matcher.answered (env : EncEnv) (file : List UInt8) (m : Matcher) : Matcher :=
  match sourceExtend env m with
  | .stop _ m' =>
    match m'.enc.src with
    | .live s => { m' with enc := { m'.enc with src := .live (s.serve file s.getblkno) } }
    | _ => m'
  | _ => m

theorem interrupted_answered {P : Probe} {env : EncEnv} (happ : ServesAll P.file env.getblk)
    {m : Matcher} (h : Extending P m) (n : ℕ) :
    Interrupted env P.file m ((Matcher.answered env P.file)^[n] m) := by
  induction n with
  | zero => exact .none m
  | succ n ih =>
    rw [Function.iterate_succ_apply']
    generalize (Matcher.answered env P.file)^[n] m = m₁ at ih ⊢
    have hends := sourceExtend_ends happ (ih.extending happ h)
    unfold Matcher.answered
    cases hcall : sourceExtend env m₁ with
    | ok a m₂ => exact ih
    | starved m₂ => exact ih
    | fault => exact ih
    | stop e m₂ =>
      rw [hcall] at hends
      obtain ⟨s, hs, hfaith, -⟩ := hends.probing.source
      dsimp only
      rw [hs]
      exact ih.again hcall ⟨s, _, hs, ⟨hfaith.toShaped.serve P.file _,
        Source.serve_holds P.file s _⟩, rfl, rfl⟩

def waitingFile : List UInt8 := [1, 2, 3, 4, 5, 6]

def waitingEnv : EncEnv := { smatcher := ⟨4, 1, 4, 1, 1, 0, 0⟩ }

def waitingTried : Matcher :=
  { waitingMatcher with
    search := { waitingMatcher.search with
      matchState := .backward, matchSrcpos := 2, matchLastSrcpos := 2
      matchMaxback := min (usize.sub 2 0) 2, matchMaxfwd := usize.sub 5 2 } }

/-- Two bytes agree forwards and one backwards, over three blocks, each of which is asked for. -/
theorem sourceExtend_longest_waiting : ∃ m₁ m₂ m',
    sourceMatchSetup 2 waitingMatcher = .ok true m₁ ∧
      Interrupted waitingEnv waitingFile m₁ m₂ ∧
      m₂ = (Matcher.answered waitingEnv waitingFile)^[3] m₁ ∧
      sourceExtend waitingEnv m₂ = .ok () m' ∧ m'.search.matchBack = 1 ∧
      m'.search.matchFwd = 2 ∧
      IsGreatest {b | b ≤ m₁.search.matchMaxback ∧ b ≤ 2 ∧
        ∀ i < b, waitingFile[2 - 1 - i]? = waitingMatcher.enc.window[2 - 1 - i]?} 1 ∧
      IsGreatest {f | f ≤ m₁.search.matchMaxfwd ∧ 2 + f ≤ 6 ∧
        ∀ i < f, waitingFile[2 + i]? = waitingMatcher.enc.window[2 + i]?} 2 := by
  have hfaith : ({ blksize := 2, shiftby := 1, maskby := 1, maxWinsize := 6 } : Source).Faithful
      waitingFile := ⟨⟨by decide, rfl, rfl⟩, nofun⟩
  have happ : ServesAll waitingFile waitingEnv.getblk :=
    ⟨fun f hf => (by cases hf), fun f hf => (by cases hf)⟩
  have hm : Readied waitingFile waitingMatcher :=
    ⟨⟨_, rfl, hfaith⟩, by decide, by decide, by decide, by decide⟩
  have hsetup : sourceMatchSetup 2 waitingMatcher = .ok true waitingTried := rfl
  have hends : (sourceExtend waitingEnv
      ((Matcher.answered waitingEnv waitingFile)^[3] waitingTried)).returns
        (fun m' => decide (m'.search.matchBack = 1 ∧ m'.search.matchFwd = 2)) = true := by
    decide +kernel
  obtain ⟨_, m', hok, hmatch⟩ := Outcome.returns_iff.mp hends
  obtain ⟨hback, hfwd⟩ := of_decide_eq_true hmatch
  obtain ⟨P, hfile, -, -, -, -, -, hstart⟩ :=
    (sourceMatchSetup_tried hsetup).extending hm (by decide)
  have hrun := interrupted_answered (hfile ▸ happ) hstart 3
  rw [hfile] at hrun
  obtain ⟨hgreatback, hgreatfwd⟩ :=
    (sourceExtend_longest happ hm (by decide) hsetup hrun).1 m' hok
  rw [hback] at hgreatback
  rw [hfwd] at hgreatfwd
  exact ⟨_, _, m', hsetup, hrun, rfl, hok, hback, hfwd, hgreatback, hgreatfwd⟩

end Xdelta
