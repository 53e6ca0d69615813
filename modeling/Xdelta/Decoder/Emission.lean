import Xdelta.Decoder.Prompt

/-!
# Executing a window stays in bounds

The additions by which the parser checks sizes and addresses wrap. What holds
without wrapping is that a copy refers to what precedes it and that the position is
at most what has been written and what is pending; the room left in the output
buffer bounds the sizes that are carried out.
-/
namespace Xdelta
open Chunked Delta

/-- The block held is a block of `file`, of the size the source announces. -/
structure Source.Faithful (file : List UInt8) (source : Source) : Prop extends source.Shaped where
  holds : source.Holds file

/-- The application's function, where there is one, answers from `file`: it may refuse,
but when it returns 0 it holds the block asked for. -/
def ServesBlocks (file : List UInt8) (app : Option GetblkFunc) : Prop :=
  ∀ f, app = some f → ∀ source blkno, source.Faithful file →
    (f source blkno).1.Faithful file ∧ (f source blkno).1.blksize = source.blksize ∧
      (f source blkno).2 ≠ some .output ∧
      ((f source blkno).2 = none →
        (f source blkno).1.curblk.isSome = true ∧ (f source blkno).1.curblkno = blkno)

theorem servesBlocks_serveFile (file : List UInt8) : ServesBlocks file (some (serveFile file)) := by
  rintro f hf source blkno hs
  cases hf
  exact ⟨⟨hs.toShaped.serve file blkno, Source.serve_holds file source blkno⟩, rfl, nofun,
    fun _ => ⟨rfl, rfl⟩⟩

theorem Source.Faithful.congr {file : List UInt8} {s s' : Source} (h : s.Faithful file)
    (h1 : s'.shiftby = s.shiftby) (h2 : s'.blksize = s.blksize) (h3 : s'.maskby = s.maskby)
    (h4 : s'.curblk = s.curblk) (h5 : s'.curblkno = s.curblkno) (h6 : s'.onblk = s.onblk) :
    s'.Faithful file := by
  refine ⟨⟨h1 ▸ h.shiftby_lt, ?_, ?_⟩, ?_⟩
  · rw [h2, h1, h.blksize_eq]
  · rw [h3, h1, h.maskby_eq]
  · unfold Source.Holds
    rw [h4, h2, h5, h6]
    exact h.holds

theorem Source.Faithful.noteBlock {file : List UInt8} {s : Source} (h : s.Faithful file)
    (blkno : ℕ) : (noteBlock blkno s).Faithful file := by
  unfold Xdelta.noteBlock
  dsimp only
  split_ifs <;> exact h.congr rfl rfl rfl rfl rfl rfl

theorem noteBlock_curblk (blkno : ℕ) (s : Source) : (noteBlock blkno s).curblk = s.curblk := by
  unfold noteBlock
  dsimp only
  split_ifs <;> rfl

theorem noteBlock_blksize (blkno : ℕ) (s : Source) : (noteBlock blkno s).blksize = s.blksize := by
  unfold noteBlock
  dsimp only
  split_ifs <;> rfl

theorem getblk_ends {file : List UInt8} {app : Option GetblkFunc} (happ : ServesBlocks file app)
    {s : Source} (hs : s.Faithful file) (blkno : ℕ) :
    (getblk app blkno s).Ends
      (fun _ s' => s'.Faithful file ∧ s'.blksize = s.blksize ∧ s'.curblk.isSome = true)
      (fun _ => False) (fun e s' => s'.Faithful file ∧ e.ret ≠ .output) := by
  have hs' : ({ s with getblkno := blkno } : Source).Faithful file :=
    hs.congr rfl rfl rfl rfl rfl rfl
  unfold getblk
  split
  · dsimp only
    split
    · exact ⟨hs', nofun⟩
    · rename_i f
      obtain ⟨hf, hb, ho, hn⟩ := happ f rfl _ blkno hs'
      split
      · rename_i source ret heq
        rw [heq] at hf ho
        exact ⟨hf, fun h => ho (congrArg some h)⟩
      · rename_i source heq
        rw [heq] at hf hb hn
        refine ⟨hf.noteBlock blkno, (noteBlock_blksize _ _).trans hb, ?_⟩
        rw [noteBlock_curblk]
        exact (hn rfl).1
  · rename_i hne
    rw [not_or] at hne
    refine ⟨hs.noteBlock blkno, noteBlock_blksize _ _, ?_⟩
    rw [noteBlock_curblk]
    exact Option.isSome_iff_ne_none.mpr hne.1

namespace Window

/-- The cursors of the sections stay within them, and the address modes are the default nine. -/
structure Cursors (w : Window) : Prop where
  buf_le : ∀ k, (w.sect k).buf ≤ (w.sect k).bufMax
  max_le : ∀ k, (w.sect k).bufMax ≤ (w.sect k).mem.length
  near : w.acache.sNear = 4
  same : w.acache.sSame = 3

def unparsed (w : Window) : Window :=
  { w with
    decPosition := 0
    decCurrent1 := {}
    decCurrent2 := {}
    instSect := { w.instSect with buf := 0 }
    addrSect := { w.addrSect with buf := 0 }
    acache := ⟨0, 0, 0, fun _ => 0, fun _ => 0⟩ }

def pending (w : Window) (h : Half) : ℕ := if (w.half h).type = .noop then 0 else (w.half h).size

@[simp] theorem half_setHalf (w : Window) (h : Half) (i : Hinst) : (w.setHalf h i).half h = i := by
  cases h <;> rfl

@[simp] theorem unparsed_setHalf (w : Window) (h : Half) (i : Hinst) :
    (w.setHalf h i).unparsed = w.unparsed := by
  cases h <;> rfl

@[simp] theorem sect_setHalf (w : Window) (h : Half) (i : Hinst) (k : Sect) :
    (w.setHalf h i).sect k = w.sect k := by
  cases h <;> cases k <;> rfl

@[simp] theorem acache_setHalf (w : Window) (h : Half) (i : Hinst) :
    (w.setHalf h i).acache = w.acache := by
  cases h <;> rfl

@[simp] theorem decPosition_setHalf (w : Window) (h : Half) (i : Hinst) :
    (w.setHalf h i).decPosition = w.decPosition := by
  cases h <;> rfl

theorem Cursors.setHalf {w : Window} (hw : w.Cursors) (h : Half) (i : Hinst) :
    (w.setHalf h i).Cursors where
  buf_le k := by simpa using hw.buf_le k
  max_le k := by simpa using hw.max_le k
  near := by simpa using hw.near
  same := by simpa using hw.same

end Window

def Half.other : Half → Half
  | first => .second
  | second => .first

@[simp] theorem Window.half_other_setHalf (w : Window) (h : Half) (i : Hinst) :
    (w.setHalf h i).half h.other = w.half h.other := by
  cases h <;> rfl

/-- A step of the parser on half `h`: cursors advance, and only the half's size,
its address and the position change besides. -/
structure Parses (h : Half) (w w' : Window) : Prop where
  cursors : w'.Cursors
  unparsed : w'.unparsed = w.unparsed
  type : (w'.half h).type = (w.half h).type
  other : w'.half h.other = w.half h.other
  inst_le : w.instSect.buf ≤ w'.instSect.buf

theorem Parses.trans {h : Half} {w w' w'' : Window} (h1 : Parses h w w') (h2 : Parses h w' w'') :
    Parses h w w'' where
  cursors := h2.cursors
  unparsed := h2.unparsed.trans h1.unparsed
  type := h2.type.trans h1.type
  other := h2.other.trans h1.other
  inst_le := h1.inst_le.trans h2.inst_le

theorem Parses.refl {w : Window} (hw : w.Cursors) (h : Half) : Parses h w w :=
  ⟨hw, rfl, rfl, rfl, le_rfl⟩

theorem readHalfSize_ends {w : Window} (hw : w.Cursors) (h : Half) :
    (readHalfSize h w).Ends (fun _ w' => Parses h w w' ∧ w'.decPosition = w.decPosition)
      (fun _ => False) (fun e _ => e.ret.ordinary = false) := by
  unfold readHalfSize
  obtain ⟨hf, hv⟩ := readInteger_bounds usize w.instSect.bytes w.instSect.buf w.instSect.bufMax
    (Desect.length_bytes (hw.max_le .inst)).ge (hw.buf_le .inst)
  cases hr : readInteger usize w.instSect.bytes w.instSect.buf w.instSect.bufMax with
  | fault => exact absurd hr hf
  | error msg => rfl
  | value v i =>
    obtain ⟨-, hlt, hle⟩ := hv v i hr
    have hc : ({ w with instSect := { w.instSect with buf := i } } : Window).Cursors := by
      refine ⟨fun k => ?_, fun k => ?_, hw.near, hw.same⟩
      · cases k <;> [exact hw.buf_le .data; exact hle; exact hw.buf_le .addr]
      · cases k <;> [exact hw.max_le .data; exact hw.max_le .inst; exact hw.max_le .addr]
    refine ⟨⟨hc.setHalf h _, ?_, ?_, ?_, ?_⟩, ?_⟩
    · rw [Window.unparsed_setHalf]
      rfl
    · rw [Window.half_setHalf]
    · rw [Window.half_other_setHalf]
      cases h <;> rfl
    · have hs := Window.sect_setHalf { w with instSect := { w.instSect with buf := i } } h
        { w.half h with size := v } .inst
      exact le_of_lt (lt_of_lt_of_eq hlt (congrArg Desect.buf hs).symm)
    · exact Window.decPosition_setHalf _ _ _

theorem readHalfAddr_ends {w : Window} (hw : w.Cursors) (h : Half) {mode : ℕ} (hm : mode < 9) :
    (readHalfAddr h mode w).Ends (fun _ w' => Parses h w w' ∧ w'.decPosition = w.decPosition)
      (fun _ => False) (fun e _ => e.ret.ordinary = false) := by
  unfold readHalfAddr
  obtain ⟨hf, hv⟩ := decodeAddress_bounds usize w.acache w.decPosition mode w.addrSect.bytes
    w.addrSect.buf w.addrSect.bufMax (Desect.length_bytes (hw.max_le .addr)).ge (hw.buf_le .addr)
    (by rw [hw.near, hw.same]; exact hm)
  cases hr : decodeAddress usize w.acache w.decPosition mode w.addrSect.bytes w.addrSect.buf
      w.addrSect.bufMax with
  | fault => exact absurd hr hf
  | error msg => rfl
  | value a i c =>
    obtain ⟨hle, hc⟩ := hv a i c hr
    have hcur : ({ w with addrSect := { w.addrSect with buf := i }, acache := c } :
        Window).Cursors := by
      refine ⟨fun k => ?_, fun k => ?_, ?_, ?_⟩
      · cases k <;> [exact hw.buf_le .data; exact hw.buf_le .inst; exact hle]
      · cases k <;> [exact hw.max_le .data; exact hw.max_le .inst; exact hw.max_le .addr]
      · rw [hc]
        exact (AddrCache.update_sNear _ _).trans hw.near
      · rw [hc]
        exact (AddrCache.update_sSame _ _).trans hw.same
    refine ⟨⟨hcur.setHalf h _, ?_, ?_, ?_, ?_⟩, ?_⟩
    · rw [Window.unparsed_setHalf]
      rfl
    · rw [Window.half_setHalf]
    · rw [Window.half_other_setHalf]
      cases h <;> rfl
    · have hs := Window.sect_setHalf
        { w with addrSect := { w.addrSect with buf := i }, acache := c } h
        { w.half h with addr := a } .inst
      exact le_of_eq (congrArg Desect.buf hs).symm
    · exact Window.decPosition_setHalf _ _ _

/-- Parsing a half: its copy refers to what precedes the position and does not leave
the copy window, and the position advances by the half's size, all this in wrapping
arithmetic. -/
theorem decodeParseHalfinst_ends {w : Window} (hw : w.Cursors) (h : Half)
    (hm : ∀ m, (w.half h).type = .cpy m → m < 9) :
    (decodeParseHalfinst h w).Ends
      (fun _ w' => Parses h w w' ∧
        w'.decPosition = usize.add w.decPosition (w'.half h).size ∧
        ∀ m, (w'.half h).type = .cpy m → (w'.half h).addr < w.decPosition ∧
          ((w'.half h).addr < w.decCpylen →
            usize.add (w'.half h).addr (w'.half h).size ≤ w.decCpylen))
      (fun _ => False) (fun e _ => e.ret.ordinary = false) := by
  unfold decodeParseHalfinst
  have hsize : (if (w.half h).size = 0 then readHalfSize h w else Outcome.ok () w).Ends
      (fun _ w' => Parses h w w' ∧ w'.decPosition = w.decPosition) (fun _ => False)
      (fun e _ => e.ret.ordinary = false) := by
    split
    · exact readHalfSize_ends hw h
    · exact ⟨.refl hw h, rfl⟩
  refine hsize.andThen fun _ w1 ⟨h1, hp1⟩ => ?_
  refine Outcome.Ends.andThen (Q := fun _ w2 => (Parses h w w2 ∧ w2.decPosition = w.decPosition) ∧
    ∀ m, (w2.half h).type = .cpy m → (w2.half h).addr < w.decPosition ∧
      ((w2.half h).addr < w.decCpylen →
        usize.add (w2.half h).addr (w2.half h).size ≤ w.decCpylen)) ?_ fun _ w2 hw2 => ?_
  · split
    · rename_i mode ht
      refine (readHalfAddr_ends h1.cursors h (hm mode (h1.type ▸ ht))).andThen fun _ w2 ⟨h2, hp2⟩ => ?_
      have hcpy : w2.decCpylen = w.decCpylen :=
        (congrArg Window.decCpylen (h2.unparsed.trans h1.unparsed) :
          w2.unparsed.decCpylen = w.unparsed.decCpylen)
      unfold checkHalfAddr
      split
      · exact rfl
      · rename_i hlt
        split
        · exact rfl
        · rename_i hin
          rw [hcpy] at hin
          refine ⟨⟨h1.trans h2, hp2.trans hp1⟩, fun _ _ => ⟨?_, fun ha => ?_⟩⟩
          · rw [← hp1, ← hp2]
            exact Nat.lt_of_not_le hlt
          · exact Nat.le_of_not_lt fun hgt => hin ⟨ha, hgt⟩
    · rename_i ht
      exact ⟨⟨h1, hp1⟩, fun m hc => absurd hc (ht m)⟩
  · obtain ⟨⟨h2, hp2⟩, ha⟩ := hw2
    unfold advanceHalf
    split
    · exact rfl
    · have hhalf : ({ w2 with decPosition := usize.add w2.decPosition (w2.half h).size } :
          Window).half h = w2.half h := by cases h <;> rfl
      refine ⟨⟨⟨h2.cursors.buf_le, h2.cursors.max_le, h2.cursors.near, h2.cursors.same⟩,
        h2.unparsed, ?_, ?_, h2.inst_le⟩, ?_, ?_⟩
      · rw [hhalf]
        exact h2.type
      · rw [← h2.other]
        cases h <;> rfl
      · rw [hhalf, ← hp2]
      · rw [hhalf]
        exact ha

def Window.Settled (w : Window) : Prop :=
  w.decCurrent1.type = .noop ∧ w.decCurrent2.type = .noop

theorem Window.pending_noop {w : Window} {h : Half} (ht : (w.half h).type = .noop) :
    w.pending h = 0 := if_pos ht

theorem Window.pending_of_ne {w : Window} {h : Half} (ht : (w.half h).type ≠ .noop) :
    w.pending h = (w.half h).size := if_neg ht

/-- An instruction parsed: a byte and more is consumed, the position advances by the
sizes, and copies refer to what precedes them, all this in wrapping arithmetic. -/
structure Instructed (w w' : Window) : Prop where
  cursors : w'.Cursors
  unparsed : w'.unparsed = w.unparsed
  first_ne : w'.decCurrent1.type ≠ .noop
  consumed : w.instSect.buf < w'.instSect.buf
  position : w'.decPosition =
    (w.decPosition + (w'.pending .first + w'.pending .second)) % usize.modulus
  first : ∀ m, w'.decCurrent1.type = .cpy m → w'.decCurrent1.addr < w.decPosition ∧
    (w'.decCurrent1.addr < w.decCpylen →
      usize.add w'.decCurrent1.addr w'.decCurrent1.size ≤ w.decCpylen)
  second : ∀ m, w'.decCurrent2.type = .cpy m →
    w'.decCurrent2.addr < w.decPosition + w'.pending .first ∧
    (w'.decCurrent2.addr < w.decCpylen →
      usize.add w'.decCurrent2.addr w'.decCurrent2.size ≤ w.decCpylen)

theorem decodeInstruction_ends {w : Window} (hw : w.Cursors) :
    (decodeInstruction w).Ends (fun _ => Instructed w) (fun _ => False)
      (fun e _ => e.ret.ordinary = false) := by
  unfold decodeInstruction
  split
  · rfl
  · rename_i hne
    have hle := hw.buf_le .inst
    have hmax : w.instSect.bytes.length = w.instSect.bufMax := Desect.length_bytes (hw.max_le .inst)
    simp only [Window.sect] at hle
    have hlt : w.instSect.buf < w.instSect.bytes.length := by omega
    rw [List.getElem?_eq_getElem hlt]
    dsimp only
    generalize w.instSect.bytes[w.instSect.buf] = code
    obtain ⟨hne1, hm1, hm2⟩ := codeTable_wf code
    generalize codeTable code = inst at hne1 hm1 hm2
    generalize hw0 : Window.loadInst _ inst = w0
    have hc0 : w0.Cursors := by
      subst hw0
      refine ⟨fun k => ?_, fun k => ?_, hw.near, hw.same⟩
      · cases k <;> [exact hw.buf_le .data; exact Nat.lt_of_le_of_ne hle hne; exact hw.buf_le .addr]
      · cases k <;> [exact hw.max_le .data; exact hw.max_le .inst; exact hw.max_le .addr]
    have hu0 : w0.unparsed = w.unparsed := by
      subst hw0
      rfl
    have hp0 : w0.decPosition = w.decPosition := by
      subst hw0
      rfl
    have hl0 : w0.decCpylen = w.decCpylen := by
      subst hw0
      rfl
    have hb0 : w0.instSect.buf = w.instSect.buf + 1 := by
      subst hw0
      rfl
    have ht1 : (w0.half .first).type = inst.type1 := by
      subst hw0
      rfl
    have ht2 : (w0.half .second).type = inst.type2 := by
      subst hw0
      rfl
    rw [if_pos hne1]
    refine (decodeParseHalfinst_ends hc0 .first (ht1 ▸ hm1)).andThen fun _ w1 hw1 => ?_
    obtain ⟨h1, hp1, ha1⟩ := hw1
    rw [hp0] at hp1 ha1
    rw [hl0] at ha1
    have hpend1 : w1.pending .first = (w1.half .first).size :=
      Window.pending_of_ne (h1.type ▸ ht1 ▸ hne1)
    have hne1' : w1.decCurrent1.type ≠ .noop := by
      have := h1.type ▸ ht1 ▸ hne1
      exact this
    have hb1 := h1.inst_le
    split
    · rename_i hne2
      have ht2' : (w1.half .second).type = inst.type2 := (congrArg Hinst.type h1.other).trans ht2
      refine (decodeParseHalfinst_ends h1.cursors .second (ht2' ▸ hm2)).mono
        (fun _ w2 hw2 => ?_) (fun _ h => h) (fun _ _ h => h)
      obtain ⟨h2, hp2, ha2⟩ := hw2
      have hpend2 : w2.pending .second = (w2.half .second).size :=
        Window.pending_of_ne (h2.type ▸ ht2' ▸ hne2)
      have hsame : w2.decCurrent1 = w1.decCurrent1 := h2.other
      have hpend1' : w2.pending .first = (w1.half .first).size := by
        rw [← hpend1]
        unfold Window.pending Window.half
        rw [hsame]
      have hcpy : w1.decCpylen = w.decCpylen :=
        (congrArg Window.decCpylen (h1.unparsed.trans hu0) :
          w1.unparsed.decCpylen = w.unparsed.decCpylen)
      have hb2 := h2.inst_le
      refine ⟨h2.cursors, h2.unparsed.trans (h1.unparsed.trans hu0), hsame ▸ hne1', by omega,
        ?_, ?_, fun m hc => ?_⟩
      · rw [hp2, hp1, hpend1', hpend2, Width.add, Width.add, Nat.mod_add_mod, Nat.add_assoc]
      · rw [hsame]
        exact ha1
      · obtain ⟨ha, hin⟩ := ha2 m hc
        rw [hcpy] at hin
        refine ⟨lt_of_lt_of_le ha ?_, hin⟩
        rw [hp1, hpend1']
        exact Nat.mod_le _ _
    · rename_i hn2
      have ht2' : (w1.half .second).type = .noop :=
        ((congrArg Hinst.type h1.other).trans ht2).trans (not_not.mp hn2)
      have hpend2 : w1.pending .second = 0 := Window.pending_noop ht2'
      refine ⟨h1.cursors, h1.unparsed.trans hu0, hne1', by omega, ?_, ha1, fun m hc => ?_⟩
      · rw [hp1, hpend1, hpend2]
        rfl
      · rw [show w1.decCurrent2.type = .noop from ht2'] at hc
        cases hc

/-- Windows are executed, not only skipped over. -/
def Flags.Emits (f : Flags) : Prop :=
  f.justHdr = false ∧ f.skipWindow = false ∧ f.skipEmit = false

/-- The invariant of a window while it is executed, but for the source being there. -/
structure Window.Primed (file : List UInt8) (w : Window) : Prop extends w.Cursors where
  emits : w.flags.Emits
  target : hasBits w.decWinInd vcdTarget = false
  indicated : w.decCpylen = 0 ∨ srcortgt w.decWinInd = true
  buffer : w.nextOut = w.decBuffer
  room : w.out.length ≤ w.spaceOut
  space : w.spaceOut ≤ hardMaxWinsize + allocSize
  position : w.decPosition ≤ w.decCpylen + w.out.length + (w.pending .first + w.pending .second)
  first : ∀ m, w.decCurrent1.type = .cpy m → w.decCurrent1.addr < w.decCpylen + w.out.length
  second : ∀ m, w.decCurrent2.type = .cpy m →
    w.decCurrent2.addr < w.decCpylen + w.out.length + w.pending .first
  faithful : ∀ source, w.src = some source → source.Faithful file

structure Window.Sound (file : List UInt8) (w : Window) : Prop extends w.Primed file where
  source : w.decCpylen ≠ 0 → w.src.isSome = true

/-- What the equality of the unparsed windows says of each field. -/
theorem Window.Sound.of_unparsed {file : List UInt8} {w w' : Window} (hw : w.Sound file)
    (hc : w'.Cursors) (hu : w'.unparsed = w.unparsed)
    (hpos : w'.decPosition ≤ w.decCpylen + w.out.length + (w'.pending .first + w'.pending .second))
    (h1 : ∀ m, w'.decCurrent1.type = .cpy m → w'.decCurrent1.addr < w.decCpylen + w.out.length)
    (h2 : ∀ m, w'.decCurrent2.type = .cpy m →
      w'.decCurrent2.addr < w.decCpylen + w.out.length + w'.pending .first) : w'.Sound file := by
  have hout : w'.out = w.out := (congrArg Window.out hu : w'.unparsed.out = w.unparsed.out)
  have hcpy : w'.decCpylen = w.decCpylen :=
    (congrArg Window.decCpylen hu : w'.unparsed.decCpylen = w.unparsed.decCpylen)
  have hspace : w'.spaceOut = w.spaceOut :=
    (congrArg Window.spaceOut hu : w'.unparsed.spaceOut = w.unparsed.spaceOut)
  have hnext : w'.nextOut = w.nextOut :=
    (congrArg Window.nextOut hu : w'.unparsed.nextOut = w.unparsed.nextOut)
  have hbuf : w'.decBuffer = w.decBuffer :=
    (congrArg Window.decBuffer hu : w'.unparsed.decBuffer = w.unparsed.decBuffer)
  have hflags : w'.flags = w.flags :=
    (congrArg Window.flags hu : w'.unparsed.flags = w.unparsed.flags)
  have hsrc : w'.src = w.src := (congrArg Window.src hu : w'.unparsed.src = w.unparsed.src)
  have hind : w'.decWinInd = w.decWinInd :=
    (congrArg Window.decWinInd hu : w'.unparsed.decWinInd = w.unparsed.decWinInd)
  refine ⟨⟨hc, hflags ▸ hw.emits, hind ▸ hw.target, ?_, ?_, ?_, ?_, ?_, ?_, ?_, ?_⟩, ?_⟩
  · rw [hcpy, hind]
    exact hw.indicated
  · rw [hnext, hbuf, hw.buffer]
  · rw [hout, hspace]
    exact hw.room
  · rw [hspace]
    exact hw.space
  · rw [hcpy, hout]
    exact hpos
  · rw [hcpy, hout]
    exact h1
  · rw [hcpy, hout]
    exact h2
  · rw [hsrc]
    exact hw.faithful
  · rw [hcpy, hsrc]
    exact hw.source

/-- A sound window remains so when an instruction is parsed. -/
theorem Window.Sound.instructed {file : List UInt8} {w w' : Window} (hw : w.Sound file)
    (hset : w.Settled) (h : Instructed w w') : w'.Sound file := by
  have hpos := hw.position
  rw [Window.pending_noop (h := .first) hset.1, Window.pending_noop (h := .second) hset.2] at hpos
  refine hw.of_unparsed h.cursors h.unparsed ?_ (fun m hm => ?_) (fun m hm => ?_)
  · rw [h.position]
    exact (Nat.mod_le _ _).trans (Nat.add_le_add_right hpos _)
  · exact lt_of_lt_of_le (h.first m hm).1 hpos
  · have := (h.second m hm).1
    omega

theorem writeOut_eq {bytes : List UInt8} {w : Window} (hbuf : w.nextOut = w.decBuffer)
    (hroom : w.out.length + bytes.length ≤ w.spaceOut) :
    writeOut bytes w = .ok () { w with out := w.out ++ bytes } := if_pos (.inr ⟨hroom, hbuf⟩)

theorem slice_eq_some (mem : List UInt8) (pos len : ℕ) (h : len = 0 ∨ pos + len ≤ mem.length) :
    ∃ bytes, slice mem pos len = some bytes ∧ bytes.length = len := by
  unfold slice
  by_cases h0 : len = 0
  · rw [if_pos h0]
    exact ⟨[], rfl, h0.symm⟩
  · rw [if_neg h0, if_pos (h.resolve_left h0)]
    refine ⟨_, rfl, ?_⟩
    rw [List.length_take, List.length_drop]
    omega

/-- Writing some bytes of half `h`, the first half being done if it is the second,
leaves a sound window: what is pending becomes what is written. -/
theorem Window.Sound.write {file : List UInt8} {w : Window} (hw : w.Sound file) {h : Half}
    (ht : (w.half h).type ≠ .noop) (hord : h = .second → w.decCurrent1.type = .noop)
    (left : Hinst) (bytes : List UInt8) (hroom : w.out.length + bytes.length ≤ w.spaceOut)
    (hleft : (left.type = .noop ∧ bytes.length = (w.half h).size) ∨
      (left.type = (w.half h).type ∧ left.size + bytes.length = (w.half h).size ∧
        left.addr ≤ (w.half h).addr + bytes.length)) :
    ({ w with out := w.out ++ bytes }.setHalf h left).Sound file := by
  have hpos := hw.position
  have hlen : (w.out ++ bytes).length = w.out.length + bytes.length := List.length_append
  have hpend : (if left.type = .noop then 0 else left.size) + bytes.length = w.pending h := by
    rw [Window.pending_of_ne ht]
    rcases hleft with ⟨hn, hl⟩ | ⟨ht', hl, -⟩
    · rw [if_pos hn]
      omega
    · rw [if_neg (ht' ▸ ht)]
      exact hl
  have hcur : ({ w with out := w.out ++ bytes } : Window).Cursors := by
    refine ⟨fun k => ?_, fun k => ?_, hw.near, hw.same⟩
    · cases k <;> [exact hw.buf_le .data; exact hw.buf_le .inst; exact hw.buf_le .addr]
    · cases k <;> [exact hw.max_le .data; exact hw.max_le .inst; exact hw.max_le .addr]
  have hc := hcur.setHalf h left
  cases h with
  | first =>
    refine ⟨⟨hc, hw.emits, hw.target, hw.indicated, hw.buffer, hlen ▸ hroom, hw.space, ?_, ?_, ?_,
      hw.faithful⟩, hw.source⟩
    · have : ({ w with out := w.out ++ bytes }.setHalf .first left).pending .first =
          if left.type = .noop then 0 else left.size := rfl
      have h2 : ({ w with out := w.out ++ bytes }.setHalf .first left).pending .second =
          w.pending .second := rfl
      rw [this, h2]
      simp only [setHalf, hlen]
      omega
    · intro m hm
      simp only [setHalf] at hm ⊢
      rcases hleft with ⟨hn, -⟩ | ⟨ht', -, ha⟩
      · rw [hn] at hm
        cases hm
      · have := hw.first m (ht' ▸ hm)
        simp only [half] at ha
        omega
    · intro m hm
      have := hw.second m hm
      have h1 : ({ w with out := w.out ++ bytes }.setHalf .first left).pending .first =
          if left.type = .noop then 0 else left.size := rfl
      rw [h1]
      simp only [setHalf, hlen]
      omega
  | second =>
    have h0 : w.pending .first = 0 := pending_noop (hord rfl)
    refine ⟨⟨hc, hw.emits, hw.target, hw.indicated, hw.buffer, hlen ▸ hroom, hw.space, ?_, ?_, ?_,
      hw.faithful⟩, hw.source⟩
    · have h1 : ({ w with out := w.out ++ bytes }.setHalf .second left).pending .first =
          w.pending .first := rfl
      have h2 : ({ w with out := w.out ++ bytes }.setHalf .second left).pending .second =
          if left.type = .noop then 0 else left.size := rfl
      rw [h1, h2]
      simp only [setHalf, hlen]
      omega
    · intro m hm
      have := hw.first m hm
      simp only [setHalf, hlen]
      omega
    · intro m hm
      simp only [setHalf] at hm ⊢
      have h1 : ({ w with out := w.out ++ bytes }.setHalf .second left).pending .first =
          w.pending .first := rfl
      rcases hleft with ⟨hn, -⟩ | ⟨ht', -, ha⟩
      · rw [hn] at hm
        cases hm
      · have := hw.second m (ht' ▸ hm)
        simp only [half, setHalf] at ha h1
        omega

/-- What a round of output does to half `h`: the window stays sound, and the half is
done or has become smaller. -/
structure Outputs (file : List UInt8) (h : Half) (w w' : Window) : Prop where
  sound : w'.Sound file
  other : w'.half h.other = w.half h.other
  inst : w'.instSect = w.instSect
  less : (w'.half h).type = .noop ∨
    ((w'.half h).type ≠ .noop ∧ (w'.half h).size < (w.half h).size)

/-- A round of output of half `h` of a sound window stays in bounds. -/
def OutputsAt (file : List UInt8) (h : Half) (w : Window) (f : Emit) : Prop :=
  (f w).Ends (fun _ w' => Outputs file h w w') (fun _ => False)
    (fun e w' => e.ret.ordinary = true → w'.Sound file ∧ e.ret ≠ .output)

theorem Window.Sound.consumeData {file : List UInt8} {w : Window} (hw : w.Sound file) (buf : ℕ)
    (hbuf : buf ≤ w.dataSect.bufMax) :
    ({ w with dataSect := { w.dataSect with buf := buf } } : Window).Sound file where
  buf_le k := by cases k <;> [exact hbuf; exact hw.buf_le .inst; exact hw.buf_le .addr]
  max_le k := by cases k <;> [exact hw.max_le .data; exact hw.max_le .inst; exact hw.max_le .addr]
  near := hw.near
  same := hw.same
  emits := hw.emits
  target := hw.target
  indicated := hw.indicated
  buffer := hw.buffer
  room := hw.room
  space := hw.space
  position := hw.position
  first := hw.first
  second := hw.second
  faithful := hw.faithful
  source := hw.source

theorem Window.Sound.setSource {file : List UInt8} {w : Window} (hw : w.Sound file)
    {source : Source} (hs : source.Faithful file) :
    ({ w with src := some source } : Window).Sound file where
  buf_le k := by cases k <;> [exact hw.buf_le .data; exact hw.buf_le .inst; exact hw.buf_le .addr]
  max_le k := by cases k <;> [exact hw.max_le .data; exact hw.max_le .inst; exact hw.max_le .addr]
  near := hw.near
  same := hw.same
  emits := hw.emits
  target := hw.target
  indicated := hw.indicated
  buffer := hw.buffer
  room := hw.room
  space := hw.space
  position := hw.position
  first := hw.first
  second := hw.second
  faithful s h := by
    cases h
    exact hs
  source _ := rfl

theorem Window.Sound.target_lt {file : List UInt8} {w : Window} (hw : w.Sound file) {h : Half}
    {m : ℕ} (hm : (w.half h).type = .cpy m) (hord : h = .second → w.decCurrent1.type = .noop)
    (haddr : w.decCpylen ≤ (w.half h).addr) : (w.half h).addr - w.decCpylen < w.out.length := by
  cases h with
  | first =>
    have := hw.first m hm
    simp only [Window.half] at haddr ⊢
    omega
  | second =>
    have := hw.second m hm
    rw [Window.pending_noop (h := .first) (hord rfl)] at this
    simp only [Window.half] at haddr ⊢
    omega

section Round
variable {file : List UInt8} {w : Window} {h : Half} (hw : w.Sound file)
  (ht : (w.half h).type ≠ .noop) (hord : h = .second → w.decCurrent1.type = .noop)
  (hroom : w.out.length + (w.half h).size ≤ w.spaceOut)
include hw ht hord hroom

/-- The cases that write all of the half, taking its bytes from the data section. -/
private theorem outputs_data {bytes : List UInt8} (hlen : bytes.length = (w.half h).size) {n : ℕ}
    (hbuf : w.dataSect.buf + n ≤ w.dataSect.bufMax) :
    ((writeOut bytes w).andThen fun _ w =>
      Outcome.ok () ({ w with dataSect := { w.dataSect with buf := w.dataSect.buf + n } }.setHalf h
        { w.half h with type := .noop })).Ends (fun _ w' => Outputs file h w w') (fun _ => False)
      (fun e w' => e.ret.ordinary = true → w'.Sound file ∧ e.ret ≠ .output) := by
  have hs := hw.write ht hord { w.half h with type := .noop } bytes
    (by omega) (.inl ⟨rfl, hlen⟩)
  rw [writeOut_eq hw.buffer (by omega), Outcome.andThen_ok]
  have hc := hs.consumeData (w.dataSect.buf + n) (by cases h <;> exact hbuf)
  refine ⟨?_, ?_, ?_, .inl ?_⟩
  · cases h <;> exact hc
  · cases h <;> rfl
  · cases h <;> rfl
  · rw [Window.half_setHalf]

theorem outputRun_ends : OutputsAt file h w (outputRun h) := by
  unfold OutputsAt outputRun
  split
  · exact fun h => nomatch h
  · rename_i hne
    have hle := hw.buf_le .data
    have hmax : w.dataSect.bytes.length = w.dataSect.bufMax := Desect.length_bytes (hw.max_le .data)
    simp only [Window.sect] at hle
    have hlt : w.dataSect.buf < w.dataSect.bytes.length := by omega
    rw [List.getElem?_eq_getElem hlt]
    exact outputs_data hw ht hord hroom List.length_replicate (Nat.lt_of_le_of_ne hle hne)

theorem outputAdd_ends : OutputsAt file h w (outputAdd h) := by
  unfold OutputsAt outputAdd
  dsimp only
  split
  · rename_i h0
    have hs := hw.write ht hord { w.half h with type := .noop } []
      hw.room (.inl ⟨rfl, h0.symm⟩)
    rw [List.append_nil] at hs
    refine ⟨hs, ?_, ?_, .inl ?_⟩
    · cases h <;> rfl
    · cases h <;> rfl
    · rw [Window.half_setHalf]
  · split
    · exact fun h => nomatch h
    · rename_i hdata
      have hle := hw.buf_le .data
      have hmax : w.dataSect.bytes.length = w.dataSect.bufMax := Desect.length_bytes (hw.max_le .data)
      simp only [Window.sect] at hle
      have hbuf : w.dataSect.buf + (w.half h).size ≤ w.dataSect.bufMax := by omega
      obtain ⟨bytes, hb, hlen⟩ := slice_eq_some w.dataSect.bytes w.dataSect.buf (w.half h).size
        (.inr (by omega))
      rw [hb]
      exact outputs_data hw ht hord hroom hlen hbuf

theorem outputTargetCopy_ends (hcpy : ∃ m, (w.half h).type = .cpy m)
    (haddr : w.decCpylen ≤ (w.half h).addr) : OutputsAt file h w (outputTargetCopy h) := by
  unfold OutputsAt outputTargetCopy
  dsimp only
  obtain ⟨m, hm⟩ := hcpy
  obtain ⟨bytes, hb, hlen⟩ := copyOverlap_eq_some (hw.target_lt hm hord haddr) (w.half h).size
  rw [hb]
  dsimp only
  rw [List.drop_left]
  have hs := hw.write ht hord { w.half h with type := .noop, size := 0 } bytes
    (by omega) (.inl ⟨rfl, hlen⟩)
  generalize hl : ({ w.half h with type := .noop, size := 0 } : Hinst) = left at hs
  have hwr : writeOut bytes (w.setHalf h left) =
      .ok () ({ w with out := w.out ++ bytes }.setHalf h left) := by
    cases h <;> exact writeOut_eq hw.buffer (by simp only [Window.setHalf]; omega)
  rw [hwr]
  refine ⟨hs, ?_, ?_, .inl ?_⟩
  · cases h <;> rfl
  · cases h <;> rfl
  · rw [Window.half_setHalf, ← hl]

private theorem copyBlock_ends {source : Source} (hs : source.Faithful file)
    (hb : source.curblk.isSome = true) {blkoff take : ℕ} {left : Hinst}
    (hle : take = 0 ∨ blkoff + take ≤ source.onblk) (htake : take ≤ (w.half h).size)
    (hleft : (left.type = .noop ∧ take = (w.half h).size) ∨
      (left.type = (w.half h).type ∧ left.size + take = (w.half h).size ∧ 0 < take ∧
        left.addr ≤ (w.half h).addr + take)) :
    OutputsAt file h w fun w => copyBlock h blkoff take left { w with src := some source } := by
  obtain ⟨b, hcur⟩ := Option.isSome_iff_exists.mp hb
  have hon := (hs.holds b hcur).2
  obtain ⟨bytes, hsl, hlen⟩ := slice_eq_some (b.take source.onblk) blkoff take
    (by rw [List.length_take, ← hon, Nat.min_self]; exact hle)
  have hwsrc := hw.setSource hs
  have hhalf : ({ w with src := some source } : Window).half h = w.half h := by cases h <;> rfl
  have hsound := hwsrc.write (hhalf ▸ ht) hord left bytes
    (by rw [hlen]; exact Nat.le_trans (Nat.add_le_add_left htake _) hroom) (by
      rw [hhalf, hlen]
      rcases hleft with h | ⟨h1, h2, -, h3⟩
      · exact .inl h
      · exact .inr ⟨h1, h2, h3⟩)
  unfold OutputsAt copyBlock
  simp only [hcur, hsl]
  have hwr : writeOut bytes (({ w with src := some source } : Window).setHalf h left) =
      .ok () ({ w with src := some source, out := w.out ++ bytes }.setHalf h left) := by
    cases h <;> exact writeOut_eq hw.buffer (by
      simp only [Window.setHalf, hlen]
      exact Nat.le_trans (Nat.add_le_add_left htake _) hroom)
  rw [hwr]
  refine ⟨hsound, ?_, ?_, ?_⟩
  · cases h <;> rfl
  · cases h <;> rfl
  · rw [Window.half_setHalf]
    rcases hleft with ⟨h1, -⟩ | ⟨h1, h2, h3, -⟩
    · exact .inl h1
    · exact .inr ⟨h1 ▸ ht, by omega⟩

theorem outputSourceCopy_ends {app : Option GetblkFunc} (happ : ServesBlocks file app)
    (haddr : (w.half h).addr < w.decCpylen) :
    OutputsAt file h w (outputSourceCopy app h) := by
  obtain ⟨source, hsrc⟩ := Option.isSome_iff_exists.mp (hw.source (by omega))
  have hfaith := hw.faithful source hsrc
  unfold OutputsAt outputSourceCopy
  simp only [hsrc]
  generalize hblk : source.blksizeAdd source.cpyoffBlocks source.cpyoffBlkoff (w.half h).addr = blk
  have hoff : blk.2 < source.blksize := hblk ▸ hfaith.blksizeAdd_lt _ _ _
  have hends := getblk_ends happ hfaith blk.1
  cases hg : getblk app blk.1 source with
  | starved s => rw [hg] at hends; exact hends.elim
  | fault => rw [hg] at hends; exact hends.elim
  | stop e s =>
    rw [hg] at hends
    dsimp only
    split
    · exact fun h => nomatch h
    · exact fun _ => ⟨hw.setSource hends.1, hends.2⟩
  | ok a s =>
    rw [hg] at hends
    obtain ⟨hs, hbs, hcur⟩ := hends
    dsimp only
    have hblksize : source.blksize ≤ 2 ^ 63 := by
      rw [hfaith.blksize_eq]
      exact Nat.pow_le_pow_right (by decide) (Nat.le_of_lt_succ hfaith.shiftby_lt)
    have hspace := hw.space
    have hmod : usize.modulus = 2 ^ 64 := rfl
    have hmax : hardMaxWinsize + allocSize < 2 ^ 63 := by decide
    have hadd : usize.add blk.2 (w.half h).size = blk.2 + (w.half h).size :=
      usize.add_eq (by omega)
    rw [← hbs] at hoff hblksize
    rw [hadd, ← hbs, usize.sub_eq (by omega) hoff.le]
    have hon : s.onblk ≤ s.blksize := by
      obtain ⟨b, hb⟩ := Option.isSome_iff_exists.mp hcur
      obtain ⟨heq, hlen⟩ := hs.holds b hb
      rw [hlen, heq]
      exact Source.block_length_le _ _ _
    split
    · exact fun h => nomatch h
    · rename_i hshort
      split
      · exact copyBlock_ends hw ht hord hroom hs hcur (by omega) le_rfl (.inl ⟨rfl, rfl⟩)
      · -- the rest of the block, and what is left of the instruction for the next one
        rename_i hfit
        have hsub : usize.sub (w.half h).size (s.blksize - blk.2) =
            (w.half h).size - (s.blksize - blk.2) := usize.sub_eq (by omega) (by omega)
        refine copyBlock_ends hw ht hord hroom hs hcur (by omega) (by omega) (.inr ⟨rfl, ?_, ?_, ?_⟩)
        · dsimp only
          rw [hsub]
          omega
        · omega
        · exact Nat.mod_le _ _

end Round

/-- One round of output: the room left in the buffer is what bounds the size. -/
theorem decodeOutputHalfinst_ends {file : List UInt8} {app : Option GetblkFunc}
    (happ : ServesBlocks file app) {w : Window} (hw : w.Sound file) {h : Half}
    (ht : (w.half h).type ≠ .noop) (hord : h = .second → w.decCurrent1.type = .noop) :
    OutputsAt file h w (decodeOutputHalfinst app h) := by
  have hlt : w.out.length < usize.modulus := by
    have := hw.room
    have := hw.space
    have : hardMaxWinsize + allocSize < usize.modulus := by decide
    omega
  unfold OutputsAt decodeOutputHalfinst
  dsimp only
  split
  · exact fun h => nomatch h
  · rename_i hov
    rw [not_or, usize.overflow_iff hlt] at hov
    have hroom : w.out.length + (w.half h).size ≤ w.spaceOut := by
      have := hov.2
      rw [usize.add_eq (by omega)] at this
      omega
    split
    · rename_i hn
      exact absurd hn ht
    · exact outputRun_ends hw ht hord hroom
    · exact outputAdd_ends hw ht hord hroom
    · rename_i m hm
      split
      · rename_i haddr
        split
        · exact fun h => nomatch h
        · exact outputSourceCopy_ends hw ht hord hroom happ haddr
      · rename_i haddr
        exact outputTargetCopy_ends hw ht hord hroom ⟨m, hm⟩ (Nat.le_of_not_lt haddr)

theorem outputHalf_ends {file : List UInt8} {app : Option GetblkFunc}
    (happ : ServesBlocks file app) (h : Half) (fuel : ℕ) {w : Window} (hw : w.Sound file)
    (hord : h = .second → w.decCurrent1.type = .noop)
    (hfuel : ((w.half h).type = .noop ∧ 0 < fuel) ∨ (w.half h).size + 2 ≤ fuel) :
    (outputHalf app h fuel w).Ends
      (fun _ w' => w'.Sound file ∧ w'.half h.other = w.half h.other ∧
        w'.instSect = w.instSect ∧ (w'.half h).type = .noop)
      (fun _ => False) (fun e w' => e.ret.ordinary = true → w'.Sound file ∧ e.ret ≠ .output) := by
  induction fuel generalizing w with
  | zero => omega
  | succ fuel ih =>
    unfold outputHalf
    split
    · rename_i hn
      exact ⟨hw, rfl, rfl, hn⟩
    · rename_i hne
      have hsize := hfuel.resolve_left fun h => hne h.1
      refine (decodeOutputHalfinst_ends happ hw hne hord).andThen fun _ w' hw' => ?_
      refine (ih hw'.sound ?_ ?_).mono (fun _ w'' h => ?_) (fun _ h => h) (fun _ _ h => h)
      · rintro rfl
        exact (congrArg Hinst.type hw'.other).trans (hord rfl)
      · rcases hw'.less with hn | ⟨-, hlt⟩
        · exact .inl ⟨hn, by omega⟩
        · exact .inr (by omega)
      · exact ⟨h.1, h.2.1.trans hw'.other, h.2.2.1.trans hw'.inst, h.2.2.2⟩

/-- A round of the loop settles both halves, after consuming a byte if they were settled. -/
theorem emitRound_ends {file : List UInt8} {app : Option GetblkFunc}
    (happ : ServesBlocks file app) {w : Window} (hw : w.Sound file) :
    (emitRound app w).Ends
      (fun _ w' => w'.Sound file ∧ w'.Settled ∧ w'.instSect.bufMax = w.instSect.bufMax ∧
        w.instSect.buf ≤ w'.instSect.buf ∧ (w.Settled → w.instSect.buf < w'.instSect.buf))
      (fun _ => False) (fun e w' => e.ret.ordinary = true → w'.Sound file ∧ e.ret ≠ .output) := by
  unfold emitRound
  refine Outcome.Ends.andThen (Q := fun _ w' => w'.Sound file ∧
    w'.instSect.bufMax = w.instSect.bufMax ∧ w.instSect.buf ≤ w'.instSect.buf ∧
      (w.Settled → w.instSect.buf < w'.instSect.buf)) ?_ fun _ w1 ⟨hw1, hmax, hle, hlt⟩ => ?_
  · split
    · rename_i hset
      refine (decodeInstruction_ends hw.toCursors).mono (fun _ w' h => ?_) (fun _ h => h)
        (fun _ _ he ho => by rw [he] at ho; cases ho)
      have hmax : w'.instSect.bufMax = w.instSect.bufMax :=
        (congrArg (fun w : Window => w.instSect.bufMax) h.unparsed :
          w'.unparsed.instSect.bufMax = w.unparsed.instSect.bufMax)
      exact ⟨hw.instructed hset h, hmax, h.consumed.le, fun _ => h.consumed⟩
    · rename_i hset
      exact ⟨hw, rfl, le_rfl, fun h => absurd h hset⟩
  · refine (outputHalf_ends happ .first _ hw1 (fun h => nomatch h) (.inr le_rfl)).andThen
      fun _ w2 ⟨hw2, ho2, hi2, hn2⟩ => ?_
    refine (outputHalf_ends happ .second _ hw2 (fun _ => hn2) (.inr le_rfl)).mono
      (fun _ w3 ⟨hw3, ho3, hi3, hn3⟩ => ?_) (fun _ h => h) (fun _ _ h => h)
    rw [hi3, hi2]
    exact ⟨hw3, ⟨(congrArg Hinst.type ho3).trans hn2, hn3⟩, hmax, hle, hlt⟩

theorem emitLoop_ends {file : List UInt8} {app : Option GetblkFunc}
    (happ : ServesBlocks file app) (fuel : ℕ) {w : Window} (hw : w.Sound file)
    (hfuel : w.instSect.bufMax - w.instSect.buf + 1 < fuel ∨
      (w.Settled ∧ w.instSect.bufMax - w.instSect.buf < fuel)) :
    (emitLoop app fuel w).Ends (fun _ w' => w'.Sound file ∧ w'.Settled) (fun _ => False)
      (fun e w' => e.ret.ordinary = true → w'.Sound file ∧ e.ret ≠ .output) := by
  induction fuel generalizing w with
  | zero => omega
  | succ fuel ih =>
    unfold emitLoop
    split
    · rename_i hmore
      refine (emitRound_ends happ hw).andThen fun _ w' hround => ?_
      obtain ⟨hw', hset, hmax, hle, hlt⟩ := hround
      refine ih hw' (.inr ⟨hset, ?_⟩)
      have hin := hw.buf_le .inst
      have hin' := hw'.buf_le .inst
      simp only [Window.sect] at hin hin'
      rw [hmax] at hin' ⊢
      rcases hfuel with hf | ⟨hs, hf⟩
      · omega
      · have := hlt hs
        omega
    · rename_i hdone
      simp only [not_or, not_not] at hdone
      exact ⟨hw, hdone.2⟩

theorem decodeEmit_ends {file : List UInt8} {app : Option GetblkFunc}
    (happ : ServesBlocks file app) {w : Window} (hw : w.Sound file) :
    (decodeEmit app w).Ends (fun _ w' => w'.Sound file ∧ w'.Settled) (fun _ => False)
      (fun e w' => e.ret.ordinary = true → w'.Sound file ∧ e.ret ≠ .output) := by
  unfold decodeEmit
  refine (emitLoop_ends happ _ hw (.inl (by omega))).andThen fun _ w' h => ?_
  unfold checkWindow
  split_ifs <;> first | exact h | exact fun h => nomatch h

end Xdelta
