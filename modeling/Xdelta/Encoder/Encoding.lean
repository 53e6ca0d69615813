import Xdelta.Encoder.Coding

/-!
# Encoding a window

What has been encoded of a window means the part of the target that it covers. Encoding an
instruction that is true, with the copy window decided when the first copy is reached, extends
that part; the gaps are filled with ADDs.
-/
namespace Xdelta
open Chunked Delta

def interpretEach (file : List UInt8) (x : Extent) : List Hinst → Spot → Option Spot
  | [], s => some s
  | i :: is, s => (i.interpret file x s).bind (interpretEach file x is)

section Meaning
variable {file : List UInt8} {x : Extent}

theorem interpretEach_append (is js : List Hinst) (s : Spot) :
    interpretEach file x (is ++ js) s =
      (interpretEach file x is s).bind (interpretEach file x js) := by
  induction is generalizing s with
  | nil => rfl
  | cons i is ih =>
    rw [List.cons_append, interpretEach, interpretEach, Option.bind_assoc]
    exact congrArg _ (funext ih)

theorem interpretEach_one (i : Hinst) (s : Spot) :
    interpretEach file x [i] s = i.interpret file x s := by
  rw [interpretEach]
  cases i.interpret file x s <;> rfl

/-- Halves that fill the window and use up the data deliver it. -/
theorem interpretAll_of_each {is : List Hinst} {s : Spot} {out : List UInt8}
    (h : interpretEach file x is s = some ⟨out, []⟩) (hlen : out.length = x.tgtlen) :
    interpretAll file x is s = some out := by
  induction is generalizing s with
  | nil =>
    cases h
    exact if_pos ⟨hlen, rfl⟩
  | cons i is ih =>
    obtain ⟨s', hs', h⟩ := Option.bind_eq_some_iff.mp h
    rw [interpretAll, hs', Option.bind_some]
    exact ih h

/-- A copy whose bytes are those of the target continues the target. -/
theorem copyBytes_true {target : List UInt8} {pos n addr : ℕ} (hin : pos + n ≤ target.length)
    (h : ∀ i < n, byteAtAddr file x (target.take (pos + i)) (addr + i) = target[pos + i]?) :
    copyBytes file x n addr (target.take pos) = some (target.take (pos + n)) := by
  induction n generalizing pos addr with
  | zero => rfl
  | succ n ih =>
    have hbyte := h 0 (Nat.succ_pos n)
    have hlt : pos < target.length := by omega
    rw [Nat.add_zero, Nat.add_zero, List.getElem?_eq_getElem hlt] at hbyte
    have htake : target.take pos ++ [target[pos]] = target.take (pos + 1) :=
      List.take_append_getElem hlt
    rw [copyBytes, hbyte, Option.bind_some, htake, ih (by omega),
      show pos + 1 + n = pos + (n + 1) by omega]
    intro i hi
    have hnext := h (i + 1) (by omega)
    rwa [show pos + (i + 1) = pos + 1 + i by omega, show addr + (i + 1) = addr + 1 + i by omega]
      at hnext

end Meaning

/-- Where the copy window of a stream will lie, once it has been decided: its offset and length. -/
def Encoder.segment (e : Encoder) : ℕ × ℕ :=
  match e.src with
  | .live s =>
    if e.srcwinDecided ∨ e.matchMaxaddr = 0 then (s.srcbase, s.srclen)
    else (e.matchMinaddr, xoff.sub e.matchMaxaddr e.matchMinaddr)
  | _ => (0, 0)

def Encoder.settled (e : Encoder) : Encoder :=
  match e.src with
  | .live s =>
    if e.srcwinDecided then e
    else { e with
      srcwinDecided := true
      src := .live { s with srcbase := e.segment.1, srclen := e.segment.2 }
      taroff := e.segment.2 }
  | _ => e

def Encoder.copyAddr (e : Encoder) (r : Rinst) : ℕ :=
  match e.src with
  | .live _ =>
    if r.xtra ≠ 0 then xoff.sub r.addr e.segment.1 else xoff.add e.settled.taroff r.addr
  | _ => r.addr

/-- The extent `x` of a window is one that a decoder may find for it, as far as is decided. -/
structure Encoder.Suits (e : Encoder) (x : Extent) : Prop where
  tgtlen : x.tgtlen = e.availIn
  below : x.cpylen + x.tgtlen < usize.modulus
  offset : x.cpyoff + x.cpylen < xoff.modulus
  cpylen : e.src = .null ∨ e.srcwinDecided = true → x.cpylen = e.taroff
  cpyoff : ∀ s, e.src = .live s → e.srcwinDecided = true → s.srclen ≠ 0 → x.cpyoff = s.srcbase

/-- The fields that encoding an instruction reads and leaves: its copy window can be decided. -/
structure Encoder.Steadied (e : Encoder) : Prop where
  src : e.src ≠ .dead
  instr : ∀ s, e.src = .live s → e.srcwinDecided = true ∨ e.encState = .instr
  null : e.src = .null → e.taroff = 0
  decided : ∀ s, e.src = .live s → e.srcwinDecided = true → e.taroff = s.srclen
  near : e.acache.sNear = 4
  same : e.acache.sSame = 3
  input : e.nextIn.length = e.availIn
  avail : e.availIn ≤ hardMaxWinsize
  offset : e.unencodedOffset ≤ e.availIn

/-- What a stream has encoded so far means the beginning of its target window, and no instruction
of it is empty. -/
structure PartEncoded (file : List UInt8) (e : Encoder) : Prop extends e.Steadied where
  sized : e.data.length + e.inst.length + e.addr.length + e.owed ≤ 32 * e.unencodedOffset
  written : ∀ x, e.Suits x → ∃ is, Written x e is ∧ (∀ i ∈ is, i.size ≠ 0) ∧ ∀ rest,
    interpretEach file x is ⟨[], e.data ++ rest⟩ = some ⟨e.nextIn.take e.unencodedOffset, rest⟩

/-- An instruction that may be encoded: a true one, whose copy has its source inside the
segment or its target before itself. -/
structure Encoder.Takes (file : List UInt8) (e : Encoder) (r : Rinst) : Prop where
  real : r.type ≠ .noop
  size : 0 < r.size
  within : r.pos + r.size ≤ e.availIn
  true : TrueMatch file e.nextIn r
  source : ∀ m, r.type = .cpy m → r.xtra ≠ 0 →
    e.segment.1 ≤ r.addr ∧ r.addr + r.size ≤ e.segment.1 + e.segment.2
  target : ∀ m, r.type = .cpy m → r.xtra = 0 → r.addr < r.pos

def SourceRef.cleared : SourceRef → SourceRef
  | .live s => .live { s with srcbase := 0, srclen := 0 }
  | src => src

/-- The stream with everything that encoding an instruction changes forgotten. -/
def Encoder.frame (e : Encoder) : Encoder :=
  { e with
    src := e.src.cleared
    srcwinDecided := false
    taroff := 0
    unencodedOffset := 0
    acache := .rfc3284
    iout := none
    ioptFree := 0
    handed := []
    data := []
    inst := []
    addr := [] }

/-- Encoding has left the window, its segment and the queue as they were, and the source too
unless the copy window has been decided. -/
structure Encoder.SameWindow (e e' : Encoder) : Prop where
  frame : e'.frame = e.frame
  segment : e'.segment = e.segment
  undecided : e'.srcwinDecided = false → e.srcwinDecided = false ∧ e'.src = e.src

section SameWindow
variable {e e' e'' : Encoder}

theorem Encoder.SameWindow.trans (h : e.SameWindow e') (h' : e'.SameWindow e'') :
    e.SameWindow e'' := by
  refine ⟨h'.frame.trans h.frame, h'.segment.trans h.segment, fun hd => ?_⟩
  obtain ⟨hd', hsrc'⟩ := h'.undecided hd
  obtain ⟨hd, hsrc⟩ := h.undecided hd'
  exact ⟨hd, hsrc'.trans hsrc⟩

theorem Encoder.SameWindow.nextIn (h : e.SameWindow e') : e'.nextIn = e.nextIn :=
  (congrArg Encoder.nextIn h.frame : e'.frame.nextIn = e.frame.nextIn)

theorem Encoder.SameWindow.availIn (h : e.SameWindow e') : e'.availIn = e.availIn :=
  (congrArg Encoder.availIn h.frame : e'.frame.availIn = e.frame.availIn)

theorem Encoder.SameWindow.queue (h : e.SameWindow e') : e'.ioptUsed = e.ioptUsed :=
  (congrArg Encoder.ioptUsed h.frame : e'.frame.ioptUsed = e.frame.ioptUsed)

theorem Encoder.Takes.later {file : List UInt8} {r : Rinst} (hr : e.Takes file r)
    (h : e.SameWindow e') : e'.Takes file r :=
  ⟨hr.real, hr.size, h.availIn ▸ hr.within, h.nextIn ▸ hr.true, h.segment ▸ hr.source, hr.target⟩

end SameWindow

section Copies
variable {file : List UInt8} {e : Encoder} {x : Extent} {r : Rinst}

theorem Encoder.segment_of_decided {s : Source} (hs : e.src = .live s)
    (hd : e.srcwinDecided = true) :
    e.segment = (s.srcbase, s.srclen) := by
  unfold segment
  rw [hs]
  exact if_pos (.inl hd)

theorem Encoder.settled_of_null (hs : e.src = .null) : e.settled = e := by
  unfold settled
  rw [hs]

theorem Encoder.settled_of_decided (hd : e.srcwinDecided = true) : e.settled = e := by
  unfold settled
  split
  · exact if_pos hd
  · rfl

theorem Encoder.settled_live {s : Source} (hs : e.src = .live s) (hd : ¬e.srcwinDecided = true) :
    e.settled = { e with
      srcwinDecided := true
      src := .live { s with srcbase := e.segment.1, srclen := e.segment.2 }
      taroff := e.segment.2 } := by
  unfold settled
  rw [hs]
  exact if_neg hd

/-- A settled stream with a source has decided its copy window, as planned. -/
theorem Encoder.settled_src {s : Source} (hs : e.src = .live s) : e.settled.srcwinDecided = true ∧
    e.settled.src = .live { s with srcbase := e.segment.1, srclen := e.segment.2 } := by
  by_cases hd : e.srcwinDecided = true
  · rw [settled_of_decided hd, segment_of_decided hs hd]
    exact ⟨hd, hs⟩
  · rw [settled_live hs hd]
    exact ⟨rfl, rfl⟩

theorem Encoder.settled_eq (e : Encoder) : ∃ src decided taroff, e.settled = { e with
    src := src, srcwinDecided := decided, taroff := taroff } := by
  unfold settled
  split
  · split
    · exact ⟨e.src, e.srcwinDecided, e.taroff, rfl⟩
    · exact ⟨_, true, _, rfl⟩
  · exact ⟨e.src, e.srcwinDecided, e.taroff, rfl⟩

theorem Encoder.settled_segment (e : Encoder) : e.settled.segment = e.segment := by
  cases hs : e.src with
  | live s =>
    obtain ⟨hd, hsrc⟩ := settled_src hs
    rw [segment_of_decided hsrc hd]
  | null => rw [settled_of_null hs]
  | dead =>
    unfold settled
    rw [hs]

theorem Encoder.settled_sameWindow (e : Encoder) : e.SameWindow e.settled := by
  refine ⟨?_, e.settled_segment, fun hd => ?_⟩
  swap
  · cases hs : e.src with
    | live s =>
      rw [(settled_src hs).1] at hd
      cases hd
    | null =>
      rw [settled_of_null hs] at hd ⊢
      exact ⟨hd, hs⟩
    | dead =>
      have hset : e.settled = e := by
        unfold settled
        rw [hs]
      rw [hset] at hd ⊢
      exact ⟨hd, hs⟩
  cases hs : e.src with
  | null => rw [settled_of_null hs]
  | dead =>
    unfold settled
    rw [hs]
  | live s =>
    by_cases hd : e.srcwinDecided = true
    · rw [settled_of_decided hd]
    · rw [settled_live hs hd]
      unfold frame
      rw [hs]
      rfl

/-- `xd3_srcwin_setup` decides the copy window as planned. -/
theorem srcwinSetup_eq {s : Source} (hs : e.src = .live s) (hst : e.encState = .instr)
    (hd : e.srcwinDecided = false) : srcwinSetup e = .ok () e.settled := by
  unfold srcwinSetup Encoder.settled Encoder.segment
  rw [hs]
  dsimp only
  rw [hst, hd]
  by_cases hm : e.matchMaxaddr = 0
  · rw [if_pos ⟨rfl, hm⟩, if_neg Bool.false_ne_true, if_pos (.inr hm)]
  · rw [if_neg fun h => hm h.2, if_neg Bool.false_ne_true,
      if_neg (not_or.mpr ⟨Bool.false_ne_true, hm⟩)]
    rfl

/-- The copy window is decided when the first copy is encoded. -/
theorem copyAddress_eq (h : e.Steadied) (r : Rinst) :
    copyAddress r e = .ok (e.copyAddr r) e.settled := by
  unfold copyAddress Encoder.copyAddr
  cases hs : e.src with
  | null => rw [Encoder.settled_of_null hs]
  | dead => exact absurd hs h.src
  | live s =>
    have hcall : (if e.srcwinDecided then Outcome.ok () e else srcwinSetup e) =
        .ok () e.settled := by
      by_cases hd : e.srcwinDecided = true
      · rw [if_pos hd, Encoder.settled_of_decided hd]
      · rw [if_neg hd]
        exact srcwinSetup_eq hs ((h.instr s hs).resolve_left hd) (Bool.not_eq_true _ ▸ hd)
    rw [hcall, Outcome.andThen_ok]
    dsimp only
    rw [(Encoder.settled_src hs).2]
    dsimp only
    split <;> rfl

theorem Encoder.Steadied.taroff_eq (h : e.Steadied) : e.settled.taroff = e.segment.2 := by
  cases hs : e.src with
  | null =>
    rw [settled_of_null hs, segment, hs]
    exact h.null hs
  | dead => exact absurd hs h.src
  | live s =>
    by_cases hd : e.srcwinDecided = true
    · rw [settled_of_decided hd, segment_of_decided hs hd]
      exact h.decided s hs hd
    · rw [settled_live hs hd]

theorem Encoder.settled_suits (h : e.Steadied) (hx : e.settled.Suits x) :
    e.Suits x ∧ x.cpylen = e.segment.2 ∧ (x.cpylen ≠ 0 → x.cpyoff = e.segment.1) := by
  have htaroff := h.taroff_eq
  have havail : e.settled.availIn = e.availIn := by
    obtain ⟨src, decided, taroff, heq⟩ := e.settled_eq
    rw [heq]
  cases hs : e.src with
  | dead => exact absurd hs h.src
  | null =>
    rw [settled_of_null hs] at hx htaroff
    have hlen : x.cpylen = e.segment.2 := (hx.cpylen (.inl hs)).trans htaroff
    refine ⟨hx, hlen, fun hne => absurd ?_ hne⟩
    rw [hlen, segment, hs]
  | live s =>
    obtain ⟨hdecided, hsrc⟩ := settled_src hs
    have hlen : x.cpylen = e.segment.2 := (hx.cpylen (.inr hdecided)).trans htaroff
    have hoff : x.cpylen ≠ 0 → x.cpyoff = e.segment.1 := fun hne =>
      hx.cpyoff _ hsrc hdecided (hlen ▸ hne)
    refine ⟨⟨hx.tgtlen.trans havail, hx.below, hx.offset, ?_, ?_⟩, hlen, hoff⟩
    · rintro (hnull | hd)
      · rw [hs] at hnull
        cases hnull
      · rw [hlen, ← htaroff, settled_of_decided hd]
    · intro t ht hd hne
      rw [hs] at ht
      cases ht
      rw [segment_of_decided hs hd] at hlen hoff
      exact hoff (hlen.symm ▸ hne)

theorem Encoder.Takes.sourceAddr (hr : e.Takes file r) (h : e.Steadied) (hx : e.settled.Suits x)
    {m : ℕ} (ht : r.type = .cpy m) (hxtra : r.xtra ≠ 0) :
    x.cpyoff + e.copyAddr r = r.addr ∧ e.copyAddr r + r.size ≤ x.cpylen := by
  obtain ⟨-, hlen, hoff⟩ := settled_suits h hx
  obtain ⟨hbase, hend⟩ := hr.source m ht hxtra
  have hsize := hr.size
  have hbound := hx.offset
  have hcpyoff : x.cpyoff = e.segment.1 := hoff (by omega)
  have haddr : e.copyAddr r = r.addr - e.segment.1 := by
    unfold copyAddr
    cases hs : e.src with
    | live s =>
      dsimp only
      rw [if_pos hxtra, xoff.sub_eq (by omega) hbase]
    | null =>
      rw [segment, hs] at hend
      dsimp only at hend
      omega
    | dead => exact absurd hs h.src
  rw [haddr]
  omega

theorem Encoder.Takes.targetAddr (hr : e.Takes file r) (h : e.Steadied) (hx : e.settled.Suits x)
    {m : ℕ} (ht : r.type = .cpy m) (hxtra : r.xtra = 0) : e.copyAddr r = x.cpylen + r.addr := by
  obtain ⟨hsuits, hlen, -⟩ := settled_suits h hx
  have hbefore := hr.target m ht hxtra
  have hwithin := hr.within
  have hbelow := hx.below
  have htgt := hsuits.tgtlen
  have hmod : xoff.modulus = usize.modulus := rfl
  unfold copyAddr
  cases hs : e.src with
  | live s =>
    dsimp only
    rw [if_neg (not_not_intro hxtra), h.taroff_eq, ← hlen, xoff.add_eq (by omega)]
  | null =>
    have hzero : x.cpylen = 0 := (hsuits.cpylen (.inl hs)).trans (h.null hs)
    rw [hzero, Nat.zero_add]
  | dead => exact absurd hs h.src

theorem Encoder.Steadied.settle (h : e.Steadied) : e.settled.Steadied := by
  cases hs : e.src with
  | null =>
    rw [settled_of_null hs]
    exact h
  | dead => exact absurd hs h.src
  | live s =>
    by_cases hd : e.srcwinDecided = true
    · rw [settled_of_decided hd]
      exact h
    · rw [settled_live hs hd]
      refine ⟨SourceRef.noConfusion, fun _ _ => .inl rfl, SourceRef.noConfusion, fun t ht _ => ?_,
        h.near, h.same, h.input, h.avail, h.offset⟩
      cases ht
      rfl

/-- What writing the operands of instruction `r` does: it becomes `r'`, with address `a`, and
`data` and `bytes` are appended to their sections. -/
structure Operated (file : List UInt8) (e : Encoder) (r r' : Rinst) (a : ℕ)
    (data bytes : List UInt8)
    (e1 : Encoder) : Prop extends e1.Steadied, e.SameWindow e1 where
  coded : r'.Coded
  size : r'.size = r.size
  iout : e1.iout = e.iout
  instSect : e1.inst = e.inst
  dataSect : e1.data = e.data ++ data
  addrSect : e1.addr = e.addr ++ bytes
  unencoded : e1.unencodedOffset = e.unencodedOffset
  short : data.length ≤ r.size ∧ bytes.length ≤ 10
  suits : ∀ x, e1.Suits x → e.Suits x
  reads : ∀ x, e1.Suits x →
    Readable x ⟨r'.type, r.size, a⟩ e.acache (x.cpylen + r.pos) bytes e1.acache
  means : ∀ x, e1.Suits x → ∀ rest,
    (⟨r'.type, r.size, a⟩ : Hinst).interpret file x ⟨e.nextIn.take r.pos, data ++ rest⟩ =
      some ⟨e.nextIn.take (r.pos + r.size), rest⟩

private theorem Readable.plain (hr : e.Takes file r) (ht : ∀ m, r.type ≠ .cpy m) (hx : e.Suits x) :
    Readable x ⟨r.type, r.size, 0⟩ e.acache (x.cpylen + r.pos) [] e.acache := by
  have hwithin := hr.within
  have htgt := hx.tgtlen
  refine ⟨fun inst addr => ?_, by dsimp only; omega, hx.below⟩
  unfold Script.address
  dsimp only
  split
  · rename_i m hm
    exact absurd hm (ht m)
  · rfl

theorem encodeOperands_run (h : e.Steadied) (hr : e.Takes file r) (ht : r.type = .run) :
    ∃ e1, encodeOperands r e = .ok (r, 0) e1 ∧
      Operated file e r r 0 [UInt8.ofNat r.xtra] [] e1 := by
  have hwithin := hr.within
  have hinput := h.input
  refine ⟨{ e with data := e.data ++ [UInt8.ofNat r.xtra] }, ?_,
    ⟨h.src, h.instr, h.null, h.decided, h.near, h.same,
    h.input, h.avail, h.offset⟩,
    ⟨rfl, rfl, fun hd => ⟨hd, rfl⟩⟩, ⟨hr.real, hr.size, ?_⟩, rfl, rfl, rfl, rfl,
    (List.append_nil _).symm, rfl, ⟨hr.size, Nat.zero_le _⟩, ?_, ?_, ?_⟩
  · unfold encodeOperands
    rw [ht]
  · intro m hm
    rw [ht] at hm
    cases hm
  · exact fun x hx => ⟨hx.tgtlen, hx.below, hx.offset, hx.cpylen, hx.cpyoff⟩
  · intro x hx
    refine Readable.plain hr (fun m hm => ?_) ⟨hx.tgtlen, hx.below, hx.offset, hx.cpylen, hx.cpyoff⟩
    rw [ht] at hm
    cases hm
  · intro x _ rest
    have hbytes : List.replicate r.size (UInt8.ofNat r.xtra) =
        (e.nextIn.drop r.pos).take r.size := by
      refine List.ext_getElem? fun i => ?_
      by_cases hi : i < r.size
      · have hbyte := hr.true i hi
        unfold Rinst.Agrees at hbyte
        rw [ht] at hbyte
        rw [List.getElem?_take_of_lt hi, List.getElem?_drop, hbyte,
          List.getElem?_replicate_of_lt hi]
      · rw [List.getElem?_eq_none (by rw [List.length_replicate]; omega),
          List.getElem?_eq_none (by rw [List.length_take, List.length_drop]; omega)]
    unfold Hinst.interpret
    dsimp only
    rw [ht]
    dsimp only
    rw [List.singleton_append, List.head?_cons, Option.map_some, List.tail_cons, hbytes,
      List.take_add]

theorem encodeOperands_add (h : e.Steadied) (hr : e.Takes file r) (ht : r.type = .add) :
    ∃ e1, encodeOperands r e = .ok (r, 0) e1 ∧
      Operated file e r r 0 ((e.nextIn.drop r.pos).take r.size) [] e1 := by
  have hwithin := hr.within
  have hinput := h.input
  refine ⟨{ e with data := e.data ++ (e.nextIn.drop r.pos).take r.size }, ?_, ⟨h.src, h.instr,
    h.null, h.decided, h.near, h.same, h.input, h.avail, h.offset⟩,
    ⟨rfl, rfl, fun hd => ⟨hd, rfl⟩⟩,
    ⟨hr.real, hr.size, ?_⟩, rfl, rfl, rfl, rfl, (List.append_nil _).symm, rfl,
    ⟨List.length_take_le _ _, Nat.zero_le _⟩, ?_, ?_, ?_⟩
  · unfold encodeOperands
    rw [ht]
    exact if_pos hwithin
  · intro m hm
    rw [ht] at hm
    cases hm
  · exact fun x hx => ⟨hx.tgtlen, hx.below, hx.offset, hx.cpylen, hx.cpyoff⟩
  · intro x hx
    refine Readable.plain hr (fun m hm => ?_) ⟨hx.tgtlen, hx.below, hx.offset, hx.cpylen, hx.cpyoff⟩
    rw [ht] at hm
    cases hm
  · intro x _ rest
    have hlen : ((e.nextIn.drop r.pos).take r.size).length = r.size := by
      rw [List.length_take, List.length_drop]
      omega
    unfold Hinst.interpret
    dsimp only
    rw [ht]
    dsimp only
    rw [if_pos (by rw [List.length_append, hlen]; omega), List.take_left' hlen,
      List.drop_left' hlen,
      List.take_add]

/-- The decoder reads back the address of a copy. -/
theorem readAddress_copyAddr (h : e.Steadied) (hr : e.Takes file r) {m : ℕ}
    (ht : r.type = .cpy m) {x : Extent} (hx : e.settled.Suits x) (rest : List UInt8) :
    readAddress e.acache (x.cpylen + r.pos)
      (encodeAddress e.acache (e.copyAddr r) (usize.add r.pos e.settled.taroff)).2.1
      ((encodeAddress e.acache (e.copyAddr r) (usize.add r.pos e.settled.taroff)).1 ++ rest) =
        some (e.copyAddr r, rest) := by
  obtain ⟨hsuits, hlen, -⟩ := Encoder.settled_suits h hx
  have hwithin := hr.within
  have hsize := hr.size
  have hinput := h.input
  have hbelow := hx.below
  have htgt := hsuits.tgtlen
  have hhere : usize.add r.pos e.settled.taroff = x.cpylen + r.pos := by
    rw [h.taroff_eq, ← hlen, usize.add_eq (by omega), Nat.add_comm]
  rw [hhere]
  refine readAddress_encodeAddress _ ?_ (by omega) rest
  by_cases hxtra : r.xtra = 0
  · rw [hr.targetAddr h hx ht hxtra]
    have := hr.target m ht hxtra
    omega
  · have := (hr.sourceAddr h hx ht hxtra).2
    omega

/-- The copy from the address writes what the input has there. -/
theorem copyBytes_copyAddr (h : e.Steadied) (hr : e.Takes file r) {m : ℕ}
    (ht : r.type = .cpy m) {x : Extent} (hx : e.settled.Suits x) :
    copyBytes file x r.size (e.copyAddr r) (e.nextIn.take r.pos) =
      some (e.nextIn.take (r.pos + r.size)) := by
  have hmod : xoff.modulus = usize.modulus := rfl
  have hwithin := hr.within
  have hinput := h.input
  refine copyBytes_true (by omega) fun i hi => ?_
  have hbyte := hr.true i hi
  unfold Rinst.Agrees at hbyte
  rw [ht] at hbyte
  rw [← hbyte.1]
  unfold byteAtAddr
  by_cases hxtra : r.xtra = 0
  · have haddr := hr.targetAddr h hx ht hxtra
    have hbefore := hr.target m ht hxtra
    have hbelow := hx.below
    have htgt := (Encoder.settled_suits h hx).1.tgtlen
    rw [if_neg (not_not_intro hxtra), if_neg (by omega), xoff.add_eq (by omega),
      List.getElem?_take_of_lt (by omega)]
    congr 1
    omega
  · obtain ⟨hoff, hend⟩ := hr.sourceAddr h hx ht hxtra
    have hbound := hx.offset
    rw [if_pos hxtra, if_pos (by omega), xoff.add_eq (by omega)]
    congr 1
    omega

theorem encodeOperands_cpy (h : e.Steadied) (hr : e.Takes file r) {m : ℕ} (ht : r.type = .cpy m) :
    ∃ mode bytes e1, encodeOperands r e = .ok ({ r with type := .cpy mode }, e.copyAddr r) e1 ∧
      Operated file e r { r with type := .cpy mode } (e.copyAddr r) [] bytes e1 := by
  obtain ⟨src, decided, taroff, hset⟩ := e.settled_eq
  have hwithin := hr.within
  have hinput := h.input
  have hsize := hr.size
  have hcache := encodeAddress_cache e.acache (e.copyAddr r) (usize.add r.pos e.settled.taroff)
  have hmode := encodeAddress_mode_lt e.acache (e.copyAddr r) (usize.add r.pos e.settled.taroff)
  have hshort := encodeAddress_length_le e.acache (e.copyAddr r) (usize.add r.pos e.settled.taroff)
  have hread := fun (x : Extent) (hx : e.settled.Suits x) rest =>
    readAddress_copyAddr h hr ht hx rest
  generalize hc : encodeAddress e.acache (e.copyAddr r) (usize.add r.pos e.settled.taroff) = coded
    at hcache hmode hshort hread
  obtain ⟨bytes, mode, cache⟩ := coded
  dsimp only at hcache hmode hshort hread
  subst hcache
  have hkept := h.settle
  have hdata : e.settled.data = e.data ∧ e.settled.addr = e.addr ∧ e.settled.acache = e.acache ∧
      e.settled.nextIn = e.nextIn := by
    rw [hset]
    exact ⟨rfl, rfl, rfl, rfl⟩
  refine ⟨mode, bytes, { e.settled with
    addr := e.settled.addr ++ bytes, acache := e.acache.update (e.copyAddr r) }, ?_, ?_⟩
  · unfold encodeOperands
    rw [ht]
    dsimp only
    rw [copyAddress_eq h, Outcome.andThen_ok, hdata.2.2.1, hc]
  refine ⟨⟨hkept.src, hkept.instr, hkept.null, hkept.decided, h.near, h.same, hkept.input,
    hkept.avail, hkept.offset⟩,
    ⟨e.settled_sameWindow.frame, e.settled_segment, e.settled_sameWindow.undecided⟩,
    ⟨RType.noConfusion, hsize, fun m' hm' => ?_⟩, rfl, ?_, ?_, ?_, ?_, ?_,
    ⟨Nat.zero_le _, hshort⟩, fun x hx => ?_, fun x hx => ?_, fun x hx rest => ?_⟩
  · cases hm'
    rw [h.near, h.same] at hmode
    exact hmode
  · rw [hset]
  · rw [hset]
  · exact hdata.1.trans (List.append_nil _).symm
  · exact congrArg (· ++ bytes) hdata.2.1
  · rw [hset]
  · exact (Encoder.settled_suits h ⟨hx.tgtlen, hx.below, hx.offset, hx.cpylen, hx.cpyoff⟩).1
  · have hx' : e.settled.Suits x := ⟨hx.tgtlen, hx.below, hx.offset, hx.cpylen, hx.cpyoff⟩
    have htgt := (Encoder.settled_suits h hx').1.tgtlen
    refine ⟨fun inst addr => ?_, by dsimp only; omega, hx.below⟩
    unfold Script.address
    dsimp only
    rw [hread x hx', Option.bind_some]
    refine if_pos ?_
    dsimp only
    by_cases hxtra : r.xtra = 0
    · have haddr := hr.targetAddr h hx' ht hxtra
      have hbefore := hr.target m ht hxtra
      exact ⟨by omega, fun hin => absurd hin (by omega)⟩
    · have haddr := (hr.sourceAddr h hx' ht hxtra).2
      have hbelow := hx.below
      exact ⟨by omega, fun _ => by rw [usize.add_eq (by omega)]; exact haddr⟩
  · have hx' : e.settled.Suits x := ⟨hx.tgtlen, hx.below, hx.offset, hx.cpylen, hx.cpyoff⟩
    unfold Hinst.interpret
    dsimp only
    rw [copyBytes_copyAddr h hr ht hx']
    rfl

theorem encodeOperands_operated (h : e.Steadied) (hr : e.Takes file r) :
    ∃ r' a data bytes e1, encodeOperands r e = .ok (r', a) e1 ∧
      Operated file e r r' a data bytes e1 := by
  cases ht : r.type with
  | noop => exact absurd ht hr.real
  | run =>
    obtain ⟨e1, he, hop⟩ := encodeOperands_run h hr ht
    exact ⟨_, _, _, _, e1, he, hop⟩
  | add =>
    obtain ⟨e1, he, hop⟩ := encodeOperands_add h hr ht
    exact ⟨_, _, _, _, e1, he, hop⟩
  | cpy m =>
    obtain ⟨mode, bytes, e1, he, hop⟩ := encodeOperands_cpy h hr ht
    exact ⟨_, _, _, bytes, e1, he, hop⟩

end Copies

section Run
variable {file : List UInt8} {e : Encoder} {r : Rinst}

/-- `xd3_iopt_finish_encoding` of an instruction that begins where the encoded part ends. -/
theorem finishEncoding_coding (h : PartEncoded file e) (hr : e.Takes file r)
    (hpos : r.pos = e.unencodedOffset) :
    ∃ e', finishEncoding r e = .ok () e' ∧ PartEncoded file e' ∧ e.SameWindow e' ∧
      e'.unencodedOffset = r.pos + r.size := by
  obtain ⟨r', a, data, bytes, e1, he, hop⟩ := encodeOperands_operated h.toSteadied hr
  have hwithin := hr.within
  have havail := h.avail
  have hmax : hardMaxWinsize < usize.modulus := by decide
  have hadd : usize.add e1.unencodedOffset r.size = r.pos + r.size := by
    rw [hop.unencoded, ← hpos, usize.add_eq (by omega)]
  obtain ⟨inst, iout, n, hpair⟩ := ({ e1 with
    unencodedOffset := usize.add e1.unencodedOffset r.size
    handed := e1.handed ++ [Handed.mk r a] } : Encoder).pair_eq r'
  refine ⟨({ e1 with
    unencodedOffset := usize.add e1.unencodedOffset r.size
    handed := e1.handed ++ [Handed.mk r a] } : Encoder).pair r', ?_, ?_, ?_, ?_⟩
  · unfold finishEncoding
    rw [he, Outcome.andThen_ok]
  · refine ⟨?_, ?_, fun x hx => ?_⟩
    · rw [hpair]
      refine ⟨hop.src, hop.instr, hop.null, hop.decided, hop.near, hop.same, hop.input, hop.avail,
        ?_⟩
      dsimp only
      rw [hadd, hop.toSameWindow.availIn]
      exact hwithin
    · have hlen := ({ e1 with
        unencodedOffset := usize.add e1.unencodedOffset r.size
        handed := e1.handed ++ [Handed.mk r a] } : Encoder).pair_length r'
      have hsized := h.sized
      have hshort := hop.short
      have hsize := hr.size
      rw [hpair] at hlen ⊢
      unfold Encoder.owed at hlen hsized ⊢
      dsimp only at hlen ⊢
      rw [hop.instSect, hop.iout] at hlen
      rw [hadd, hop.dataSect, hop.addrSect, List.length_append, List.length_append, hpos]
      omega
    · have hx1 : e1.Suits x := by
        rw [hpair] at hx
        exact ⟨hx.tgtlen, hx.below, hx.offset, hx.cpylen, hx.cpyoff⟩
      obtain ⟨is, hwritten, hsizes, hmeans⟩ := h.written x (hop.suits x hx1)
      refine ⟨is ++ [⟨r'.type, r.size, a⟩], ?_, ?_, fun rest => ?_⟩
      · refine hwritten.pair hop.iout hop.instSect hop.addrSect ?_ (hpos ▸ hop.reads x hx1)
          hop.coded
          rfl hop.size
        dsimp only
        rw [hadd, hpos]
      · exact List.forall_mem_append.mpr
          ⟨hsizes, List.forall_mem_singleton.mpr (Nat.ne_of_gt hr.size)⟩
      · rw [hpair, interpretEach_append]
        dsimp only
        rw [hop.dataSect, List.append_assoc, hmeans, Option.bind_some, interpretEach_one, ← hpos,
          hop.means x hx1, hop.toSameWindow.nextIn, hadd]
  · rw [hpair]
    exact hop.toSameWindow.trans ⟨rfl, rfl, fun hd => ⟨hd, rfl⟩⟩
  · rw [hpair]
    exact hadd

theorem Written.congr {x : Extent} {e' : Encoder} {is : List Hinst} (h : Written x e is)
    (hout : e'.iout = e.iout) (hinst : e'.inst = e.inst) (haddr : e'.addr = e.addr)
    (hcache : e'.acache = e.acache) (hoff : e'.unencodedOffset = e.unencodedOffset) :
    Written x e' is := by
  cases h with
  | flat hnone h =>
    refine .flat (hout.trans hnone) ?_
    rw [hinst, haddr, hcache, hoff]
    exact h
  | @held is r i before bytes c p hsome hr hbytes h hi hp =>
    refine @Written.held x e' is r i before bytes c p (hout.trans hsome) hr
      (haddr.trans hbytes) ?_ ?_
      (hoff ▸ hp)
    · rw [hinst]
      exact h
    · rw [hcache]
      exact hi

theorem Encoder.Takes.queue (hr : e.Takes file r) (q : List Rinst) (n : ℕ) :
    ({ e with ioptUsed := q, ioptFree := n } : Encoder).Takes file r :=
  ⟨hr.real, hr.size, hr.within, hr.true, hr.source, hr.target⟩

theorem PartEncoded.queue (h : PartEncoded file e) (q : List Rinst) (n : ℕ) :
    PartEncoded file { e with ioptUsed := q, ioptFree := n } := by
  refine ⟨⟨h.src, h.instr, h.null, h.decided, h.near, h.same, h.input, h.avail, h.offset⟩, h.sized,
    fun x hx => ?_⟩
  obtain ⟨is, hwritten, hsizes, hmeans⟩ := h.written x
    ⟨hx.tgtlen, hx.below, hx.offset, hx.cpylen, hx.cpyoff⟩
  exact ⟨is, hwritten.congr rfl rfl rfl rfl rfl, hsizes, hmeans⟩

/-- An ADD up to `pos`. -/
theorem ioptAdd_coding (h : PartEncoded file e) {pos : ℕ} (hle : e.unencodedOffset ≤ pos)
    (hpos : pos ≤ e.availIn) :
    ∃ e', ioptAdd pos e = .ok () e' ∧ PartEncoded file e' ∧ e.SameWindow e' ∧
      e'.unencodedOffset = pos := by
  unfold ioptAdd
  split
  · rename_i hlt
    have htakes : e.Takes file
        { type := .add, pos := e.unencodedOffset, size := pos - e.unencodedOffset } := by
      refine ⟨RType.noConfusion, by dsimp only; omega, by dsimp only; omega, fun i _ => trivial,
        fun m hm => ?_, fun m hm => ?_⟩
      · cases hm
      · cases hm
    obtain ⟨e', he, hcoding, hsame, hoff⟩ := finishEncoding_coding h htakes rfl
    refine ⟨e', he, hcoding, hsame, hoff.trans ?_⟩
    dsimp only
    omega
  · exact ⟨e, rfl, h, ⟨rfl, rfl, fun hd => ⟨hd, rfl⟩⟩, by omega⟩

/-- `xd3_iopt_add_encoding`: the gap before the instruction is filled by an ADD. -/
theorem ioptAddEncoding_coding (h : PartEncoded file e) (hr : e.Takes file r)
    (hpos : e.unencodedOffset ≤ r.pos) :
    ∃ e', ioptAddEncoding r e = .ok () e' ∧ PartEncoded file e' ∧ e.SameWindow e' ∧
      e'.unencodedOffset = r.pos + r.size := by
  have hwithin := hr.within
  obtain ⟨e1, he1, h1, hsame1, hoff1⟩ := ioptAdd_coding h hpos (by omega)
  obtain ⟨e2, he2, h2, hsame2, hoff2⟩ := finishEncoding_coding h1 (hr.later hsame1) hoff1.symm
  refine ⟨e2, ?_, h2, hsame1.trans hsame2, hoff2⟩
  unfold ioptAddEncoding
  rw [he1, Outcome.andThen_ok, he2]

/-- Instructions that begin at or after `pos` and do not overlap. -/
structure Apart (pos : ℕ) (rs : List Rinst) : Prop where
  after : ∀ r ∈ rs, pos ≤ r.pos
  apart : rs.Pairwise fun a b => a.pos + a.size ≤ b.pos

theorem flushFront_coding (flushed : ℕ) {fuel : ℕ} (hfuel : e.ioptUsed.length ≤ fuel)
    (h : PartEncoded file e)
    (htakes : ∀ r ∈ e.ioptUsed, e.Takes file r) (hapart : Apart e.unencodedOffset e.ioptUsed) :
    ∃ e', flushFront true fuel flushed e = .ok () e' ∧ PartEncoded file e' ∧
      ({ e with ioptUsed := [] } : Encoder).SameWindow e' := by
  induction fuel generalizing e flushed with
  | zero =>
    have hnil : e.ioptUsed = [] := List.length_eq_zero_iff.mp (Nat.le_zero.mp hfuel)
    refine ⟨e, rfl, h, ?_, rfl, fun hd => ⟨hd, rfl⟩⟩
    unfold Encoder.frame
    rw [hnil]
  | succ fuel ih =>
    cases hq : e.ioptUsed with
    | nil =>
      refine ⟨e, ?_, h, ?_, rfl, fun hd => ⟨hd, rfl⟩⟩
      · unfold flushFront
        rw [hq]
      · unfold Encoder.frame
        rw [hq]
    | cons renc rest =>
      rw [hq] at hfuel htakes hapart
      have htake := htakes renc List.mem_cons_self
      obtain ⟨happart, hrest⟩ := List.pairwise_cons.mp hapart.apart
      obtain ⟨e1, he1, h1, hsame1, hoff1⟩ := ioptAddEncoding_coding (r := renc)
        (h.queue rest e.ioptFree) (htake.queue rest e.ioptFree)
        (hapart.after renc List.mem_cons_self)
      have hq1 : e1.ioptUsed = rest := hsame1.queue
      have hfuel1 : e1.ioptUsed.length ≤ fuel := by
        rw [hq1]
        exact Nat.le_of_succ_le_succ hfuel
      have htakes1 : ∀ r ∈ e1.ioptUsed, e1.Takes file r := by
        rw [hq1]
        exact fun r hr =>
          ((htakes r (List.mem_cons_of_mem _ hr)).queue rest e.ioptFree).later hsame1
      have hapart1 : Apart e1.unencodedOffset e1.ioptUsed := by
        rw [hq1, hoff1]
        exact ⟨happart, hrest⟩
      obtain ⟨e', he', h', hsame'⟩ := ih flushed hfuel1 h1 htakes1 hapart1
      have hsame : ({ e with ioptUsed := [] } : Encoder).SameWindow { e1 with ioptUsed := [] } :=
        ⟨congrArg (fun e : Encoder => { e with ioptUsed := [] }) hsame1.frame, hsame1.segment,
          hsame1.undecided⟩
      refine ⟨e', ?_, h', hsame.trans hsame'⟩
      unfold flushFront
      rw [hq]
      dsimp only
      rw [he1, Outcome.andThen_ok, if_pos rfl, he']

/-- `xd3_iopt_add_finalize`: the rest is added, and nothing is held back. -/
theorem ioptAddFinalize_coding (h : PartEncoded file e) :
    ∃ e', ioptAddFinalize e = .ok () e' ∧ PartEncoded file e' ∧ e.SameWindow e' ∧
      e'.unencodedOffset = e'.availIn ∧ e'.iout = none := by
  obtain ⟨e1, he1, h1, hsame1, hoff1⟩ := ioptAdd_coding h h.offset le_rfl
  unfold ioptAddFinalize
  rw [he1, Outcome.andThen_ok]
  cases hout : e1.iout with
  | none => exact ⟨e1, rfl, h1, hsame1, hoff1.trans hsame1.availIn.symm, hout⟩
  | some iout =>
    obtain ⟨n, hn⟩ := (e1.emitSingle iout iout.code1).freeNonadd_eq iout
    dsimp only
    rw [hn]
    refine ⟨_, rfl, ⟨⟨h1.src, h1.instr, h1.null, h1.decided, h1.near, h1.same, h1.input, h1.avail,
      h1.offset⟩, ?_, fun x hx => ?_⟩, hsame1.trans ⟨rfl, rfl, fun hd => ⟨hd, rfl⟩⟩,
        hoff1.trans hsame1.availIn.symm, rfl⟩
    · have hlen := e1.emitSingle_length iout iout.code1
      have hsized := h1.sized
      have howed : e1.owed = 11 := if_pos (by rw [hout]; rfl)
      rw [howed] at hsized
      unfold Encoder.owed
      rw [Option.isSome_none, if_neg Bool.false_ne_true]
      dsimp only [Encoder.emitSingle] at hlen ⊢
      omega
    obtain ⟨is, hwritten, hsizes, hmeans⟩ := h1.written x
      ⟨hx.tgtlen, hx.below, hx.offset, hx.cpylen, hx.cpyoff⟩
    refine ⟨is, ?_, hsizes, hmeans⟩
    cases hwritten with
    | flat hnone _ =>
      rw [hout] at hnone
      cases hnone
    | @held is r i before bytes c p hsome hr hbytes h hi hp =>
      rw [hout] at hsome
      cases hsome
      obtain ⟨n, hcode, hreads⟩ := hr.reads h hi
      refine .flat rfl fun inst addr => ?_
      rw [Encoder.emitSingle_eq _ hcode]
      dsimp only
      rw [hbytes, ← hp]
      exact hreads inst addr

end Run

end Xdelta
