import Xdelta.Encoder.Delta
import Xdelta.Encoder.Encoding

/-!
# Window after window

From the moment string matching has filled the queue of a window to the moment the stream is
ready for the next one: the queue is flushed, the headers are written, and the stream is
reset. What string matching finds is not fixed here: any queue of true matches will do.
-/
namespace Xdelta
open Chunked Delta

/-- What string matching leaves: the window, its queue, and the range of source addresses in use. -/
structure FoundMatches where
  window : List UInt8
  queue : List Rinst
  minaddr : ℕ
  maxaddr : ℕ

/-- `xd3_encode_input` in `ENC_INPUT` and `ENC_SEARCH`, up to `ENC_INSTR`. -/
def Encoder.search (e : Encoder) (m : FoundMatches) : Encoder :=
  { e with
    encState := .instr
    nextIn := m.window
    availIn := m.window.length
    acache := e.acache.init
    unencodedOffset := 0
    ioptUsed := m.queue
    matchMinaddr := m.minaddr
    matchMaxaddr := m.maxaddr }

/-- `xd3_encode_input` in `ENC_INSTR` and `ENC_FLUSH`. -/
def encInstr : Enc Unit := fun e =>
  (ioptFlushInstructions true e).andThen fun _ e =>
  (ioptAddFinalize e).andThen fun _ e =>
  emitHdr { e with encState := .flush }

/-- A window from its matches to `ENC_POSTWIN`; what is put out is returned. -/
def encodeWindow (m : FoundMatches) : Enc (List UInt8) := fun e =>
  (encInstr (e.search m)).andThen fun _ e =>
  (encodeReset e).andThen fun _ e' =>
  .ok e.output { e' with currentWindow := e'.currentWindow + 1, encState := .input }

def encodeWindows : List FoundMatches → Enc (List UInt8)
  | [] => fun e => .ok [] e
  | m :: ms => fun e =>
    (encodeWindow m e).andThen fun out e =>
    (encodeWindows ms e).andThen fun outs e => .ok (out ++ outs) e

/-- The matches are as the queue holds them, true, and inside the range in use, which lies
inside the source. -/
structure FoundMatches.Valid (file : List UInt8) (m : FoundMatches) : Prop where
  hard : m.window.length ≤ hardMaxWinsize
  queued : Queued m.queue
  kind : ∀ r ∈ m.queue, r.type = .run ∨ ∃ mode, r.type = .cpy mode
  within : ∀ r ∈ m.queue, r.pos + r.size ≤ m.window.length
  true : ∀ r ∈ m.queue, TrueMatch file m.window r
  source : ∀ r ∈ m.queue, r.type ≠ .run → r.xtra ≠ 0 →
    m.minaddr ≤ r.addr ∧ r.addr + r.size ≤ m.maxaddr
  target : ∀ r ∈ m.queue, r.type ≠ .run → r.xtra = 0 → r.addr < r.pos
  range : m.minaddr ≤ m.maxaddr
  inside : m.maxaddr ≤ file.length
  offset : m.maxaddr < xoff.modulus
  room : m.maxaddr - m.minaddr + m.window.length < usize.modulus

structure Encoder.Rested (e : Encoder) : Prop where
  src : e.src ≠ .dead
  cleared : e.src.cleared = e.src
  decided : ∀ s, e.src = .live s → e.srcwinDecided = false
  null : e.src = .null → e.taroff = 0
  near : e.acache.sNear = 4
  same : e.acache.sSame = 3
  iout : e.iout = none
  hdr : e.hdr = []
  data : e.data = []
  inst : e.inst = []
  addr : e.addr = []
  secType : e.secType = none
  recodeAdler32 : e.recodeAdler32 < 2 ^ 32
  appheader : e.fileHdr.Fits

/-- A stream before a window that string matching will fill. -/
structure Encoder.Fresh (e : Encoder) : Prop extends e.Rested where
  recode : e.flags.adler32Recode = false

/-- A stream whose window is about to be written: nothing is encoded yet, what is left of the queue
may be, and a decoder may use the copy window that will be decided. -/
structure Encoder.Staged (file : List UInt8) (e : Encoder) : Prop extends PartEncoded file e where
  takes : ∀ r ∈ compact true e.ioptUsed, e.Takes file r
  apart : Apart e.unencodedOffset (compact true e.ioptUsed)
  hdr : e.hdr = []
  secType : e.secType = none
  undecided : ∀ s, e.src = .live s → e.srcwinDecided = false → s.srclen = 0
  inside : e.segment.2 = 0 ∨ e.segment.1 + e.segment.2 ≤ file.length
  below : e.segment.1 + e.segment.2 < xoff.modulus
  room : e.segment.2 + e.availIn < usize.modulus
  recodeAdler32 : e.recodeAdler32 < 2 ^ 32
  appheader : e.fileHdr.Fits
  sum : ∀ a, e.sentAdler32 = some a → a = adler32 1 e.nextIn

/-- The stream `e₁` after the window of `e` has been written. -/
structure Encoder.Emptied (e e₁ : Encoder) : Prop extends e₁.Rested where
  queue : e₁.ioptUsed = []
  flags : e₁.flags = e.flags
  unlimited : e₁.ioptUnlimited = e.ioptUnlimited
  fileHdr : e₁.fileHdr = e.fileHdr
  currentWindow : e₁.currentWindow = e.currentWindow + 1
  encState : e₁.encState = .input
  isNull : e₁.src = .null ↔ e.src = .null

section Window
variable {file : List UInt8} {e : Encoder} {m : FoundMatches}

theorem Encoder.Fresh.segment (h : e.Fresh) (hm : m.Valid file)
    (hnull : e.src = .null → m.maxaddr = 0) :
    (m.maxaddr = 0 ∧ (e.search m).segment = (0, 0)) ∨
      (e.search m).segment = (m.minaddr, m.maxaddr - m.minaddr) := by
  unfold Encoder.segment
  cases hs : e.src with
  | null =>
    refine .inl ⟨hnull hs, ?_⟩
    rw [show (e.search m).src = .null from hs]
  | dead => exact absurd hs h.src
  | live s =>
    have hzero : s.srcbase = 0 ∧ s.srclen = 0 := by
      have hcleared := h.cleared
      rw [hs] at hcleared
      have hsame := SourceRef.live.inj hcleared
      exact ⟨(congrArg Source.srcbase hsame).symm, (congrArg Source.srclen hsame).symm⟩
    rw [show (e.search m).src = .live s from hs]
    dsimp only
    rw [show (e.search m).srcwinDecided = false from h.decided s hs]
    by_cases hmax : m.maxaddr = 0
    · refine .inl ⟨hmax, ?_⟩
      rw [if_pos (.inr hmax), hzero.1, hzero.2]
    · refine .inr ((if_neg (not_or.mpr ⟨Bool.false_ne_true, hmax⟩)).trans ?_)
      exact congrArg (Prod.mk m.minaddr) (xoff.sub_eq hm.offset hm.range)

theorem AddrCache.init_rfc3284 {c : AddrCache} (hnear : c.sNear = 4) (hsame : c.sSame = 3) :
    c.init = .rfc3284 := by
  obtain ⟨sNear, sSame, nextSlot, nearArray, sameArray⟩ := c
  cases hnear
  cases hsame
  rfl

/-- Where nothing has been written yet, nothing is meant. -/
theorem PartEncoded.start (h : e.Steadied) (hoff : e.unencodedOffset = 0)
    (hcache : e.acache = .rfc3284) (hiout : e.iout = none) (hdata : e.data = [])
    (hinst : e.inst = [])
    (haddr : e.addr = []) : PartEncoded file e := by
  refine ⟨h, ?_, fun x hx => ⟨[], .flat hiout fun inst addr => ?_,
    fun _ h => absurd h List.not_mem_nil, fun rest => ?_⟩⟩
  · unfold Encoder.owed
    rw [hdata, hinst, haddr, hiout]
    exact Nat.zero_le _
  · rw [hinst, haddr, hcache, hoff]
    exact .nil _
  · rw [hdata, hoff]
    rfl

theorem Encoder.Fresh.coding (h : e.Fresh) (hm : m.Valid file) : PartEncoded file (e.search m) := by
  refine .start ⟨h.src, fun _ _ => .inr rfl, h.null, fun s hs hd => ?_, h.near, h.same, rfl,
    hm.hard,
    Nat.zero_le _⟩ rfl (AddrCache.init_rfc3284 h.near h.same) h.iout h.data h.inst h.addr
  exact absurd hd (by rw [show (e.search m).srcwinDecided = false from h.decided s hs]; decide)

theorem Encoder.Fresh.takes (h : e.Fresh) (hm : m.Valid file)
    (hnull : e.src = .null → m.maxaddr = 0) {r s : Rinst} (hr : r ∈ m.queue) (hs : SubRange s r)
    (hsize : minMatch ≤ s.size) : (e.search m).Takes file s := by
  have hfit := hm.queued.fit r hr
  have hkind := hm.kind r hr
  have hwithin := hm.within r hr
  have hpos : 0 < minMatch := by decide
  obtain ⟨d, hd, haddr, hend⟩ := hs.range
  have hne : ∀ mode, s.type = .cpy mode → r.type ≠ .run := by
    intro mode hc hrun
    rw [← hs.type, hc] at hrun
    cases hrun
  refine ⟨fun hnoop => ?_, by omega, ?_, hs.trueMatch (hm.true r hr), fun mode hc hx => ?_,
    fun mode hc hx => ?_⟩
  · rcases hkind with hk | ⟨mode, hk⟩ <;> rw [← hs.type, hnoop] at hk <;> cases hk
  · exact hend.trans hwithin
  · obtain ⟨hmin, hmax⟩ := hm.source r hr (hne mode hc) (hs.xtra ▸ hx)
    have hoffset := hm.offset
    have hplain : s.addr = r.addr + d := by rw [haddr, xoff.add_eq (by omega)]
    rcases h.segment hm hnull with ⟨hzero, -⟩ | hseg
    · omega
    · rw [hseg]
      dsimp only
      omega
  · have hbefore := hm.target r hr (hne mode hc) (hs.xtra ▸ hx)
    have hfits := hfit.within
    have hmod : xoff.modulus = usize.modulus := rfl
    have hplain : s.addr = r.addr + d := by rw [haddr, xoff.add_eq (by omega)]
    omega

theorem Encoder.Fresh.staged (h : e.Fresh) (hm : m.Valid file)
    (hnull : e.src = .null → m.maxaddr = 0) : (e.search m).Staged file := by
  have hout := (compactFrom_compacted le_rfl hm.queued).2
  have hroom := hm.room
  have hoffset := hm.offset
  have hrange := hm.range
  have hinside := hm.inside
  have hhard := hm.hard
  have hmax : hardMaxWinsize < usize.modulus := by decide
  have hwhere : ((e.search m).segment.2 = 0 ∨ (e.search m).segment.1 + (e.search m).segment.2 ≤
      file.length) ∧ (e.search m).segment.1 + (e.search m).segment.2 < xoff.modulus ∧
      (e.search m).segment.2 + m.window.length < usize.modulus := by
    rcases h.segment hm hnull with ⟨-, hseg⟩ | hseg
    · rw [hseg]
      exact ⟨.inl rfl, xoff.modulus_pos, by dsimp only; omega⟩
    · rw [hseg]
      exact ⟨.inr (by dsimp only; omega), by dsimp only; omega, by dsimp only; omega⟩
  refine ⟨h.coding hm, fun s hs => ?_, ⟨fun _ _ => Nat.zero_le _, hout.apart⟩, h.hdr, h.secType,
    fun s hs _ => ?_, hwhere.1, hwhere.2.1, hwhere.2.2, h.recodeAdler32, h.appheader,
    fun a ha => ?_⟩
  · obtain ⟨r, hr, hsr⟩ := hout.parts s hs
    exact h.takes hm hnull hr hsr (hout.sized s hs)
  · have hcleared := h.cleared
    rw [show e.src = .live s from hs] at hcleared
    exact (congrArg Source.srclen (SourceRef.live.inj hcleared)).symm
  · unfold Encoder.sentAdler32 at ha
    rw [show (e.search m).flags.adler32Recode = false from h.recode, Bool.or_false] at ha
    split at ha
    · cases ha
      exact congrArg (adler32 1) List.take_length
    · cases ha

/-- The queue is flushed, and all of the window is encoded. -/
theorem Encoder.Staged.flush (h : e.Staged file) :
    ∃ e', (ioptFlushInstructions true e).andThen (fun _ => ioptAddFinalize) = .ok () e' ∧
      PartEncoded file e' ∧ ({ e with ioptUsed := [] } : Encoder).SameWindow e' ∧
      e'.unencodedOffset = e'.availIn ∧ e'.iout = none := by
  have hcoding := h.toPartEncoded.queue (compact true e.ioptUsed)
    (e.ioptFree + (e.ioptUsed.length - (compact true e.ioptUsed).length))
  obtain ⟨e1, he1, h1, hsame1⟩ := flushFront_coding 0 le_rfl hcoding
    (fun s hs => (h.takes s hs).queue _ _) h.apart
  obtain ⟨e2, he2, h2, hsame2, hoff, hiout⟩ := ioptAddFinalize_coding h1
  refine ⟨e2, ?_, h2, ?_, hoff, hiout⟩
  · unfold ioptFlushInstructions
    exact (congrArg (Outcome.andThen · fun _ => ioptAddFinalize) he1).trans he2
  · exact Encoder.SameWindow.trans ⟨hsame1.frame, hsame1.segment, hsame1.undecided⟩ hsame2

end Window

def WinHdr.extent (h : WinHdr) : Extent := ⟨h.srclen, h.srcbase, h.tgtLen⟩

/-- The bytes `w` of a window stand for `window`: the header is one that the decoder accepts, and
the sections, read to their ends, mean the window. -/
structure EncodedWindow.StandsFor (file window : List UInt8) (w : EncodedWindow) : Prop where
  tgtLen : w.hdr.tgtLen = window.length
  plain : w.hdr.delInd = 0
  hard : window.length ≤ hardMaxWinsize
  copy : w.hdr.srcbase + w.hdr.srclen < xoff.modulus
  target : w.hdr.srclen + w.hdr.tgtLen < usize.modulus
  inside : w.hdr.srclen = 0 ∨ w.hdr.srcbase + w.hdr.srclen ≤ file.length
  adler32 : ∀ a, w.hdr.adler32 = some a → a = Xdelta.adler32 1 window
  reads : ∃ is c p, Script.Reads w.hdr.extent ⟨w.inst, w.addr, .rfc3284, w.hdr.srclen⟩ is
    ⟨[], [], c, p⟩ ∧ (∀ i ∈ is, i.size ≠ 0) ∧
    interpretEach file w.hdr.extent is ⟨[], w.data⟩ = some ⟨window, []⟩

/-- `xd3_encode_input` from `ENC_INSTR` until it asks for input; what is put out is returned. -/
def encodeQueue : Enc (List UInt8) := fun e =>
  (encInstr e).andThen fun _ e =>
  (encodeReset e).andThen fun _ e' =>
  .ok e.output { e' with currentWindow := e'.currentWindow + 1, encState := .input }

section Output
variable {file : List UInt8} {e e' : Encoder}

theorem Encoder.SameWindow.kept (h : ({ e with ioptUsed := [] } : Encoder).SameWindow e') :
    e'.src.cleared = e.src.cleared ∧ e'.flags = e.flags ∧ e'.secType = e.secType ∧
      e'.encAppheader = e.encAppheader ∧ e'.currentWindow = e.currentWindow ∧ e'.hdr = e.hdr ∧
      e'.recodeAdler32 = e.recodeAdler32 ∧ e'.ioptUnlimited = e.ioptUnlimited ∧
      e'.ioptUsed = [] := by
  have key : ∀ {α : Type} (p : Encoder → α), p e'.frame =
      p ({ e with ioptUsed := [] } : Encoder).frame := fun p => congrArg p h.frame
  exact ⟨key Encoder.src, key Encoder.flags, key Encoder.secType, key Encoder.encAppheader,
    key Encoder.currentWindow, key Encoder.hdr, key Encoder.recodeAdler32,
    key Encoder.ioptUnlimited,
    key Encoder.ioptUsed⟩

/-- The checksum of a window is the same after its instructions have been encoded. -/
theorem Encoder.SameWindow.sentAdler32
    (h : ({ e with ioptUsed := [] } : Encoder).SameWindow e') :
    ({ e' with encState := .flush } : Encoder).sentAdler32 = e.sentAdler32 := by
  obtain ⟨-, hflags, -, -, -, -, hrecode, -⟩ := h.kept
  have havail : e'.availIn = e.availIn := h.availIn
  have hnext : e'.nextIn = e.nextIn := h.nextIn
  unfold Encoder.sentAdler32
  dsimp only
  rw [hflags, havail, hnext, hrecode]

theorem Encoder.sentAdler32_isSome (e : Encoder) :
    e.sentAdler32.isSome = (e.flags.adler32 || e.flags.adler32Recode) := by
  unfold sentAdler32
  cases e.flags.adler32 || e.flags.adler32Recode <;> rfl

theorem Encoder.fileHdr_congr (hsec : e'.secType = e.secType)
    (happ : e'.encAppheader = e.encAppheader) : e'.fileHdr = e.fileHdr := by
  unfold fileHdr
  rw [hsec, happ]

theorem Encoder.fileHdr_plain (h : e.secType = none) : e.fileHdr.secId = none := by
  unfold fileHdr
  rw [h, Option.map_none]

theorem Encoder.compressed_none (h : e.secType = none) (k : Sect) : e.compressed k = none := by
  unfold compressed
  rw [h]

theorem Encoder.packed_plain (h : e.secType = none) (k : Sect) : e.packed k = e.sect k := by
  unfold packed
  rw [compressed_none h]
  rfl

/-- The source window that is announced is the one planned, or none. -/
theorem Encoder.Staged.announced (h : e.Staged file)
    (hs : ({ e with ioptUsed := [] } : Encoder).SameWindow e') :
    e'.usedSource = none ∨ (∃ s, e'.src = .live s ∧ e'.srcwinDecided = true ∧
      (s.srcbase, s.srclen) = e.segment ∧ e'.usedSource = some (s.srclen, s.srcbase)) := by
  unfold Encoder.usedSource
  cases hsrc : e'.src with
  | null => exact .inl rfl
  | dead => exact .inl rfl
  | live s =>
    dsimp only
    split
    · rename_i hpos
      have hd : e'.srcwinDecided = true := by
        by_contra hd
        obtain ⟨hd', hsame⟩ := hs.undecided (Bool.not_eq_true _ ▸ hd)
        have hzero := h.undecided s (hsame.symm.trans hsrc) hd'
        omega
      exact .inr ⟨s, rfl, hd, (segment_of_decided hsrc hd).symm.trans hs.segment, rfl⟩
    · exact .inl rfl

theorem Encoder.Staged.flushable (h : e.Staged file)
    (hs : ({ e with ioptUsed := [] } : Encoder).SameWindow e') (hc : PartEncoded file e') :
    ({ e' with encState := .flush } : Encoder).Flushable := by
  obtain ⟨-, -, hsec, happ, -, hhdr, hrecode, -⟩ := hs.kept
  have havail : e'.availIn = e.availIn := hs.availIn
  have hmax : 64 * hardMaxWinsize < usize.modulus := by decide
  have hhard := h.avail
  have hpacked := Encoder.packed_plain (e := { e' with encState := .flush }) (hsec.trans h.secType)
  refine ⟨hhdr.trans h.hdr, hc.src, fun p hp => ?_, ?_, ?_, ?_, ?_⟩
  · rcases h.announced hs with hnone | ⟨s, -, -, hplan, hsome⟩
    · cases hnone.symm.trans hp
    · cases hsome.symm.trans hp
      have hroom := h.room
      have hbelow := h.below
      rw [← hplan] at hroom hbelow
      dsimp only at hroom hbelow ⊢
      omega
  · change e'.availIn < _
    omega
  · change e'.recodeAdler32 < _
    rw [hrecode]
    exact h.recodeAdler32
  · have hfile : ({ e' with encState := .flush } : Encoder).fileHdr = e.fileHdr :=
      Encoder.fileHdr_congr hsec happ
    rw [hfile]
    exact h.appheader
  · have hsized := hc.sized
    have hoff := hc.offset
    rw [hpacked, hpacked, hpacked]
    simp only [Encoder.sect]
    omega

/-- Where the window lies, and that a decoder may find it there. -/
theorem Encoder.Staged.announces (h : e.Staged file)
    (hs : ({ e with ioptUsed := [] } : Encoder).SameWindow e') (hc : PartEncoded file e')
    (hdr : WinHdr) (hsource : hdr.source = e'.usedSource) (htgt : hdr.tgtLen = e'.availIn) :
    (hdr.srcbase + hdr.srclen < xoff.modulus ∧ hdr.srclen + hdr.tgtLen < usize.modulus ∧
      (hdr.srclen = 0 ∨ hdr.srcbase + hdr.srclen ≤ file.length)) ∧ e'.Suits hdr.extent := by
  have havail : e'.availIn = e.availIn := hs.availIn
  have hroom := h.room
  have hbelow := h.below
  have hinside := h.inside
  rcases h.announced hs with hused | ⟨s, hsrc, hd, hplan, hused⟩
  · have hzero : hdr.srclen = 0 ∧ hdr.srcbase = 0 := by
      unfold WinHdr.srclen WinHdr.srcbase
      rw [hsource, hused]
      exact ⟨rfl, rfl⟩
    rw [hzero.1, hzero.2]
    refine ⟨⟨xoff.modulus_pos, by omega, .inl rfl⟩, htgt, ?_, ?_, ?_, ?_⟩
    · rw [WinHdr.extent, hzero.1]
      dsimp only
      omega
    · rw [WinHdr.extent, hzero.1, hzero.2]
      exact xoff.modulus_pos
    · intro hor
      rw [WinHdr.extent, hzero.1]
      dsimp only
      unfold Encoder.usedSource at hused
      cases hsrc : e'.src with
      | null => exact (hc.null hsrc).symm
      | dead => exact absurd hsrc hc.src
      | live s =>
        rw [hsrc] at hor hused
        rcases hor with hor | hd
        · cases hor
        · rw [hc.decided s hsrc hd]
          dsimp only at hused
          split at hused
          · cases hused
          · omega
    · intro s hsrc hd hne
      unfold Encoder.usedSource at hused
      rw [hsrc] at hused
      dsimp only at hused
      rw [if_pos (Nat.pos_of_ne_zero hne)] at hused
      cases hused
  · rw [← hplan] at hroom hbelow hinside
    dsimp only at hroom hbelow hinside
    have hwin : hdr.srclen = s.srclen ∧ hdr.srcbase = s.srcbase := by
      unfold WinHdr.srclen WinHdr.srcbase
      rw [hsource, hused]
      exact ⟨rfl, rfl⟩
    rw [hwin.1, hwin.2, htgt]
    refine ⟨⟨by omega, by omega, hinside⟩, htgt, ?_, ?_, ?_, ?_⟩
    · rw [WinHdr.extent, hwin.1, htgt]
      dsimp only
      omega
    · rw [WinHdr.extent, hwin.1, hwin.2]
      dsimp only
      omega
    · intro _
      rw [WinHdr.extent, hwin.1, hc.decided s hsrc hd]
    · intro t ht _ _
      rw [hsrc] at ht
      cases ht
      rw [WinHdr.extent, hwin.2]

theorem Encoder.Staged.standsFor (h : e.Staged file)
    (hs : ({ e with ioptUsed := [] } : Encoder).SameWindow e') (hc : PartEncoded file e')
    (hoff : e'.unencodedOffset = e'.availIn) (hout : e'.iout = none)
    (hf : ({ e' with encState := .flush } : Encoder).Flushable) :
    (({ e' with encState := .flush } : Encoder).encoded hf).StandsFor file e.nextIn := by
  obtain ⟨-, -, hsec, -⟩ := hs.kept
  have hsec' : ({ e' with encState := .flush } : Encoder).secType = none := hsec.trans h.secType
  have havail : e'.availIn = e.availIn := hs.availIn
  have hnext : e'.nextIn = e.nextIn := hs.nextIn
  have hnone := Encoder.compressed_none hsec'
  have hpacked := Encoder.packed_plain hsec'
  have hinput := h.input
  obtain ⟨⟨hcopy, htarget, hin⟩, hsuits⟩ :=
    h.announces hs hc (({ e' with encState := .flush } : Encoder).encoded hf).hdr rfl rfl
  refine ⟨havail.trans hinput.symm, ?_, hinput ▸ h.avail, hcopy, htarget, hin, fun a ha => ?_, ?_⟩
  · change Encoder.delInd _ = 0
    unfold Encoder.delInd
    rw [hnone, hnone, hnone]
    rfl
  · exact h.sum a (hs.sentAdler32.symm.trans ha)
  · obtain ⟨is, hwritten, hsizes, hmeans⟩ := hc.written _ hsuits
    cases hwritten with
    | held hsome _ _ _ _ _ => cases hout.symm.trans hsome
    | flat _ hreads =>
      refine ⟨is, e'.acache,
        (({ e' with encState := .flush } : Encoder).encoded hf).hdr.extent.cpylen +
        e'.unencodedOffset, ?_, hsizes, ?_⟩
      · have hall := hreads [] []
        rw [List.append_nil, List.append_nil] at hall
        change Script.Reads _ ⟨Encoder.packed _ .inst, Encoder.packed _ .addr, _, _⟩ _ _
        rw [hpacked, hpacked]
        exact hall
      · change interpretEach _ _ _ ⟨_, Encoder.packed _ .data⟩ = _
        have hall := hmeans []
        have htaken : e'.nextIn.take e'.unencodedOffset = e.nextIn := by
          rw [hoff, havail, hnext, ← hinput, List.take_length]
        rw [List.append_nil, htaken] at hall
        rw [hpacked]
        exact hall

/-- The stream whose window `xd3_emit_hdr` has written. -/
def Encoder.sent (e : Encoder) (h : e.Flushable) : Encoder :=
  { e with
    hdr := e.hdr ++ (if e.currentWindow = 0 then e.fileHdr.bytes else []) ++ (e.encoded h).hdr.bytes
    data := e.packed .data
    inst := e.packed .inst
    addr := e.packed .addr }

theorem Encoder.output_sent (h : e.Flushable) : (e.sent h).output = e.written h := by
  unfold Encoder.sent Encoder.output Encoder.written EncodedWindow.bytes EncodedWindow.sections
  dsimp only
  rw [h.hdr, List.nil_append, List.append_assoc]
  rfl

theorem SourceRef.cleared_eq_null {a b : SourceRef} (h : a.cleared = b.cleared) :
    a = .null ↔ b = .null := by
  cases a <;> cases b <;>
    first
      | exact SourceRef.noConfusion h
      | exact ⟨SourceRef.noConfusion, SourceRef.noConfusion⟩
      | exact Iff.rfl

/-- `xd3_encode_reset` leaves a stream that rests. -/
theorem encodeReset_rested (hlive : e.src ≠ .dead) (hzero : e.src = .null → e.taroff = 0)
    (hnear : e.acache.sNear = 4) (hsame : e.acache.sSame = 3) (hiout : e.iout = none)
    (hsec : e.secType = none) (hsum : e.recodeAdler32 < 2 ^ 32) (hfits : e.fileHdr.Fits) :
    ∃ e₁, encodeReset e = .ok () e₁ ∧ e₁.Rested ∧ e₁.currentWindow = e.currentWindow ∧
      e₁.fileHdr = e.fileHdr ∧ e₁.ioptUsed = e.ioptUsed ∧ e₁.flags = e.flags ∧
      e₁.ioptUnlimited = e.ioptUnlimited ∧ (e₁.src = .null ↔ e.src = .null) := by
  unfold encodeReset
  cases hsrc : e.src with
  | dead => exact absurd hsrc hlive
  | null =>
    exact ⟨_, rfl, ⟨SourceRef.noConfusion, rfl, fun _ h => SourceRef.noConfusion h,
      fun _ => hzero hsrc, hnear, hsame, hiout, rfl, rfl, rfl, rfl, hsec, hsum, hfits⟩, rfl,
      rfl, rfl,
      rfl, rfl, Iff.rfl⟩
  | live s =>
    exact ⟨_, rfl, ⟨SourceRef.noConfusion, rfl, fun _ _ => rfl, SourceRef.noConfusion, hnear, hsame,
      hiout, rfl, rfl, rfl, rfl, hsec, hsum, hfits⟩, rfl, rfl, rfl, rfl, rfl,
      ⟨SourceRef.noConfusion, SourceRef.noConfusion⟩⟩

/-- One window: what is put out stands for it, and the stream rests. -/
theorem Encoder.Staged.encodeQueue (h : e.Staged file) :
    ∃ (w : EncodedWindow) (e₁ : Encoder), encodeQueue e =
        .ok ((if e.currentWindow = 0 then e.fileHdr.bytes else []) ++ w.bytes) e₁ ∧
      w.StandsFor file e.nextIn ∧ (e.src = .null → w.hdr.source = none) ∧
      w.hdr.adler32 = e.sentAdler32 ∧ e.Emptied e₁ := by
  obtain ⟨e', he, hc, hs, hoff, hout⟩ := h.flush
  have hf := h.flushable hs hc
  obtain ⟨hsrc, hflags, hsec, happ, hcur, hhdr, hrecode, hunlimited, hqueue⟩ := hs.kept
  have hfile : ({ e' with encState := .flush } : Encoder).fileHdr = e.fileHdr :=
    Encoder.fileHdr_congr hsec happ
  have hnull := SourceRef.cleared_eq_null hsrc
  obtain ⟨e₁, hreset, hrested, hcur₁, hfile₁, hqueue₁, hflags₁, hunlimited₁, hnull₁⟩ :=
    encodeReset_rested (e := ({ e' with encState := .flush } : Encoder).sent hf) hc.src hc.null
      hc.near hc.same hout (hsec.trans h.secType)
      (show e'.recodeAdler32 < 2 ^ 32 from hrecode ▸ h.recodeAdler32)
      (show ({ e' with encState := .flush } : Encoder).fileHdr.Fits from hfile ▸ h.appheader)
  have hemit : emitHdr { e' with encState := .flush } =
      .ok () (({ e' with encState := .flush } : Encoder).sent hf) := emitHdr_eq hc.src
  refine ⟨_, { e₁ with currentWindow := e₁.currentWindow + 1, encState := .input }, ?_,
    h.standsFor hs hc hoff hout hf, fun hn => ?_, hs.sentAdler32, ?_⟩
  · unfold Xdelta.encodeQueue encInstr
    rw [← Outcome.andThen_assoc, he, Outcome.andThen_ok, hemit, Outcome.andThen_ok, hreset,
      Outcome.andThen_ok, Encoder.output_sent hf, Encoder.written, hfile]
    exact congrArg (Outcome.ok · _) (by rw [← hcur])
  · change Encoder.usedSource _ = none
    unfold Encoder.usedSource
    rw [show ({ e' with encState := .flush } : Encoder).src = .null from hnull.mpr hn]
  · exact ⟨⟨hrested.src, hrested.cleared, hrested.decided, hrested.null, hrested.near, hrested.same,
      hrested.iout, hrested.hdr, hrested.data, hrested.inst, hrested.addr, hrested.secType,
      hrested.recodeAdler32, hrested.appheader⟩, hqueue₁.trans hqueue, hflags₁.trans hflags,
      hunlimited₁.trans hunlimited, hfile₁.trans hfile, congrArg (· + 1) (hcur₁.trans hcur), rfl,
      hnull₁.trans hnull⟩

end Output

section Window
variable {file : List UInt8} {e : Encoder} {m : FoundMatches}

theorem encodeWindow_standsFor (h : e.Fresh) (hm : m.Valid file)
    (hnull : e.src = .null → m.maxaddr = 0) :
    ∃ (w : EncodedWindow) (e₁ : Encoder), encodeWindow m e =
        .ok ((if e.currentWindow = 0 then e.fileHdr.bytes else []) ++ w.bytes) e₁ ∧
      w.StandsFor file m.window ∧ (e.src = .null → w.hdr.source = none) ∧
      w.hdr.adler32.isSome = e.flags.adler32 ∧ e₁.Fresh ∧
      e₁.currentWindow = e.currentWindow + 1 ∧ e₁.flags = e.flags ∧
      (e₁.src = .null ↔ e.src = .null) := by
  obtain ⟨w, e₁, hw, hstands, hnone, hsum, hempty⟩ := (h.staged hm hnull).encodeQueue
  refine ⟨w, e₁, hw, hstands, hnone, ?_, ⟨hempty.toRested, ?_⟩, hempty.currentWindow,
    hempty.flags, hempty.isNull⟩
  · rw [hsum, Encoder.sentAdler32_isSome, show (e.search m).flags = e.flags from rfl, h.recode,
      Bool.or_false]
  · rw [hempty.flags]
    exact h.recode

end Window

/-- What was put out, `ws`, stands for the windows, in order. -/
def StandFor (file : List UInt8) (windows : List (List UInt8)) (ws : List EncodedWindow) : Prop :=
  List.Forall₂ (EncodedWindow.StandsFor file) windows ws

section Session
variable {file : List UInt8} {e : Encoder} {ms : List FoundMatches}

theorem encodeWindows_cons (m : FoundMatches) : encodeWindows (m :: ms) e =
    (encodeWindow m e).andThen fun out e =>
    (encodeWindows ms e).andThen fun outs e => .ok (out ++ outs) e := rfl

/-- Windows after the first are written without the file header. -/
theorem encodeWindows_later (h : e.Fresh) (hms : ∀ m ∈ ms, m.Valid file)
    (hnull : e.src = .null → ∀ m ∈ ms, m.maxaddr = 0) (hcur : e.currentWindow ≠ 0) :
    ∃ (ws : List EncodedWindow) (e₁ : Encoder),
      encodeWindows ms e = .ok (ws.map EncodedWindow.bytes).flatten e₁ ∧
      StandFor file (ms.map FoundMatches.window) ws ∧
      (e.src = .null → ∀ w ∈ ws, w.hdr.source = none) ∧
      ∀ w ∈ ws, w.hdr.adler32.isSome = e.flags.adler32 := by
  induction ms generalizing e with
  | nil => exact ⟨[], e, rfl, .nil, fun _ w hw => absurd hw List.not_mem_nil,
      fun w hw => absurd hw List.not_mem_nil⟩
  | cons m ms ih =>
    obtain ⟨w, e₁, hw, hstands, hnone, hsum, hfresh, hcur₁, hflags, hsrc⟩ :=
      encodeWindow_standsFor h (hms m List.mem_cons_self) fun hn => hnull hn m List.mem_cons_self
    obtain ⟨ws, e₂, hws, hall, hnones, hsums⟩ := ih hfresh (fun m' hm' => hms m' (.tail m hm'))
      (fun hn m' hm' => hnull (hsrc.mp hn) m' (.tail m hm')) (by omega)
    refine ⟨w :: ws, e₂, ?_, .cons hstands hall, fun hn => ?_,
      List.forall_mem_cons.mpr ⟨hsum, hflags ▸ hsums⟩⟩
    · rw [encodeWindows_cons, hw, Outcome.andThen_ok, hws, Outcome.andThen_ok, if_neg hcur]
      rfl
    · exact List.forall_mem_cons.mpr ⟨hnone hn, hnones (hsrc.mpr hn)⟩

/-- A session: the file header, and then window after window. -/
theorem encodeWindows_standFor (h : e.Fresh) (hms : ∀ m ∈ ms, m.Valid file) (hne : ms ≠ [])
    (hnull : e.src = .null → ∀ m ∈ ms, m.maxaddr = 0) (hcur : e.currentWindow = 0) :
    ∃ (ws : List EncodedWindow) (e₁ : Encoder), encodeWindows ms e =
        .ok (e.fileHdr.bytes ++ (ws.map EncodedWindow.bytes).flatten) e₁ ∧
      StandFor file (ms.map FoundMatches.window) ws ∧
      (e.src = .null → ∀ w ∈ ws, w.hdr.source = none) ∧
      ∀ w ∈ ws, w.hdr.adler32.isSome = e.flags.adler32 := by
  cases ms with
  | nil => exact absurd rfl hne
  | cons m ms =>
    obtain ⟨w, e₁, hw, hstands, hnone, hsum, hfresh, hcur₁, hflags, hsrc⟩ :=
      encodeWindow_standsFor h (hms m List.mem_cons_self) fun hn => hnull hn m List.mem_cons_self
    obtain ⟨ws, e₂, hws, hall, hnones, hsums⟩ := encodeWindows_later hfresh
      (fun m' hm' => hms m' (.tail m hm')) (fun hn m' hm' => hnull (hsrc.mp hn) m' (.tail m hm'))
      (by omega)
    refine ⟨w :: ws, e₂, ?_, .cons hstands hall, fun hn => ?_,
      List.forall_mem_cons.mpr ⟨hsum, hflags ▸ hsums⟩⟩
    · rw [encodeWindows_cons, hw, Outcome.andThen_ok, hws, Outcome.andThen_ok, if_pos hcur,
        List.append_assoc]
      rfl
    · exact List.forall_mem_cons.mpr ⟨hnone hn, hnones (hsrc.mpr hn)⟩

end Session

end Xdelta
