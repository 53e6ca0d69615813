import Xdelta.Encoder.Overlap
import Xdelta.Decoder.Interpret

/-!
# Coding the instructions of a window

What the encoder writes for an instruction is read back by the decoder as that instruction,
whether it has an opcode of its own or shares one with the instruction before it. The
instruction that is held back to share an opcode has its address written already, and its
opcode not yet.
-/
namespace Xdelta
open Chunked Delta

namespace Script

/-- The halves `is` are read, one opcode after the other. -/
inductive Reads (x : Extent) : Script → List Hinst → Script → Prop
  | nil (r : Script) : Reads x r [] r
  | step {r r' r'' : Script} {is is' : List Hinst} (hn : r.next x = some (is, r'))
      (h : Reads x r' is' r'') : Reads x r (is ++ is') r''

section Reads
variable {x : Extent} {r r' r'' : Script} {is is' : List Hinst}

theorem Reads.one (hn : r.next x = some (is, r')) : Reads x r is r' := by
  have h := Reads.step hn (.nil r')
  rwa [List.append_nil] at h

theorem Reads.trans (h : Reads x r is r') (h' : Reads x r' is' r'') :
    Reads x r (is ++ is') r'' := by
  induction h with
  | nil r => exact h'
  | step hn _ ih =>
    rw [List.append_assoc]
    exact .step hn (ih h')

/-- Up to the end of the instruction section these are all halves there are. -/
theorem Reads.read (h : Reads x r is r') (hend : r'.inst = []) : r.read x = (is, some r'.addr) := by
  induction h with
  | nil r => exact read_nil hend
  | step hn _ ih => rw [read_some hn, ih hend]

end Reads

end Script

theorem encodeAddress_length_le (c : AddrCache) (addr here : ℕ) :
    (encodeAddress c addr here).1.length ≤ 10 := by
  unfold encodeAddress
  split
  · exact emitInteger_length_le _
  · dsimp only
    split
    · exact Nat.le_add_left _ _
    · exact emitInteger_length_le _

theorem readNat_emitInteger {v : ℕ} (hv : v < usize.modulus) (rest : List UInt8) :
    readNat (emitInteger v ++ rest) = some (v, rest) := by
  unfold readNat
  rw [decodeInteger_emitInteger usize v rest hv]

private theorem readAddress_integer (c : AddrCache) {addr here d m : ℕ}
    (hok : ModeOk c addr here d m)
    (hlt : addr < here) (hhere : here < usize.modulus) (rest : List UInt8) :
    readAddress c here m (emitInteger d ++ rest) = some (addr, rest) := by
  have hd : d < usize.modulus := by cases hok <;> omega
  unfold readAddress
  rw [readNat_emitInteger hd]
  cases hok with
  | self => rw [if_pos (by omega), Option.map_some]
  | here =>
    rw [if_pos (by omega), Option.map_some]
    dsimp only
    rw [usize.sub_eq hhere (by omega), show here - (here - addr) = addr by omega]
  | near hi hle =>
    rw [if_pos (by omega), Option.map_some]
    dsimp only
    rw [usize.add_eq (by omega), Nat.sub_add_cancel hle]

theorem readAddress_encodeAddress (c : AddrCache) {addr here : ℕ} (hlt : addr < here)
    (hhere : here < usize.modulus) (rest : List UInt8) :
    readAddress c here (encodeAddress c addr here).2.1 ((encodeAddress c addr here).1 ++ rest) =
      some (addr, rest) := by
  have hok := searchMode_ok c addr here
  unfold encodeAddress
  cases hs : searchMode c addr here with
  | good d m =>
    rw [hs] at hok
    exact readAddress_integer c hok hlt hhere rest
  | best d m =>
    rw [hs] at hok
    dsimp only
    by_cases hsame : 0 < c.sSame ∧ c.sameArray (addr % (c.sSame * 256)) = addr
    · rw [if_pos hsame]
      have hidx : addr % (c.sSame * 256) < c.sSame * 256 := Nat.mod_lt _ (by omega)
      generalize hx : addr % (c.sSame * 256) = y at hsame hidx
      unfold readAddress
      rw [if_neg (by dsimp only; omega), List.singleton_append]
      dsimp only
      rw [UInt8.toNat_ofNat',
        show (c.sNear + 2 + y / 256 - (2 + c.sNear)) * 256 + y % 256 % 2 ^ 8 = y by omega, hsame.2]
    · rw [if_neg hsame]
      exact readAddress_integer c hok hlt hhere rest

/-- The address of half `i` is what `bytes` holds, and the half has room in the window. -/
structure Readable (x : Extent) (i : Hinst) (c : AddrCache) (p : ℕ) (bytes : List UInt8)
    (c' : AddrCache) : Prop where
  address : ∀ inst addr, Script.address x i.type i.size ⟨inst, bytes ++ addr, c, p⟩ =
    some (i.addr, ⟨inst, addr, c', p⟩)
  room : p + i.size ≤ x.cpylen + x.tgtlen
  below : x.cpylen + x.tgtlen < usize.modulus

/-- The size as it follows an opcode that gives it as `n`. -/
def sizeBytes (n size : ℕ) : List UInt8 := if n = 0 then emitInteger size else []

section Readable
variable {x : Extent} {i j : Hinst} {c c' c'' : AddrCache} {p : ℕ} {bytes bytes' : List UInt8}

theorem Readable.half (h : Readable x i c p bytes c') {n : ℕ} (hn : n = 0 ∨ n = i.size)
    (inst addr : List UInt8) :
    Script.half x i.type n ⟨sizeBytes n i.size ++ inst, bytes ++ addr, c, p⟩ =
      some (i, ⟨inst, addr, c', p + i.size⟩) := by
  have hroom := h.room
  have hbelow := h.below
  have hsize : Script.size n ⟨sizeBytes n i.size ++ inst, bytes ++ addr, c, p⟩ =
      some (i.size, ⟨inst, bytes ++ addr, c, p⟩) := by
    unfold Script.size sizeBytes
    by_cases h0 : n = 0
    · rw [if_pos h0, if_pos h0, readNat_emitInteger (by omega)]
      rfl
    · rw [if_neg h0, if_neg h0, List.nil_append, hn.resolve_left h0]
  have hadd : usize.add p i.size = p + i.size := usize.add_eq (by omega)
  unfold Script.half
  rw [hsize, Option.bind_some, h.address, Option.bind_some]
  unfold Script.advance
  dsimp only
  rw [hadd, if_pos hroom]
  rfl

theorem Readable.next_single (h : Readable x i c p bytes c') {code n : ℕ}
    (hcode : codeTable (UInt8.ofNat code) = ⟨i.type, n, .noop, 0⟩) (hn : n = 0 ∨ n = i.size)
    (inst addr : List UInt8) :
    Script.next x ⟨UInt8.ofNat code :: (sizeBytes n i.size ++ inst), bytes ++ addr, c, p⟩ =
      some ([i], ⟨inst, addr, c', p + i.size⟩) := by
  unfold Script.next
  dsimp only
  rw [hcode]
  dsimp only
  rw [h.half hn, Option.bind_some, if_pos rfl]

theorem Readable.next_double (hi : Readable x i c p bytes c')
    (hj : Readable x j c' (p + i.size) bytes' c'') {code : ℕ}
    (hcode : codeTable (UInt8.ofNat code) = ⟨i.type, i.size, j.type, j.size⟩) (hi0 : 0 < i.size)
    (hj0 : 0 < j.size) (hne : j.type ≠ .noop) (inst addr : List UInt8) :
    Script.next x ⟨UInt8.ofNat code :: inst, bytes ++ (bytes' ++ addr), c, p⟩ =
      some ([i, j], ⟨inst, addr, c'', p + i.size + j.size⟩) := by
  have hsi : sizeBytes i.size i.size ++ inst = inst := by
    rw [sizeBytes, if_neg (Nat.ne_of_gt hi0), List.nil_append]
  have hsj : sizeBytes j.size j.size ++ inst = inst := by
    rw [sizeBytes, if_neg (Nat.ne_of_gt hj0), List.nil_append]
  have h1 := hi.half (.inr rfl) inst (bytes' ++ addr)
  have h2 := hj.half (.inr rfl) inst addr
  rw [hsi] at h1
  rw [hsj] at h2
  unfold Script.next
  dsimp only
  rw [hcode]
  dsimp only
  rw [h1, Option.bind_some, if_neg hne, h2]
  rfl

end Readable

/-- Opcode `code` is that of one instruction; it may leave out the size. -/
def Single (code : ℕ) (t : RType) (size : ℕ) : Prop :=
  ∃ n, codeTable (UInt8.ofNat code) = ⟨t, n, .noop, 0⟩ ∧ (n = 0 ∨ n = size)

/-- What an instruction must be for its opcode to be found in the table. -/
structure Rinst.Coded (r : Rinst) : Prop where
  real : r.type ≠ .noop
  size : 0 < r.size
  mode : ∀ m, r.type = .cpy m → m < 9

theorem chooseInstruction_single (prev : Option Rinst) {r : Rinst} (h : r.Coded) :
    ∃ code, (chooseInstruction prev r).2 = { r with code1 := code } ∧
      Single code r.type r.size := by
  unfold chooseInstruction
  split
  · exact absurd ‹_› h.real
  · rename_i ht
    exact ⟨0, rfl, 0, by rw [ht]; exact codeTable_run, .inl rfl⟩
  · rename_i ht
    split
    · rename_i hle
      refine ⟨1 + r.size, ?_, r.size, by rw [ht]; exact codeTable_add hle, .inr rfl⟩
      split
      · split
        · split <;> rfl
        · rfl
      · rfl
    · exact ⟨1, rfl, 0, by rw [ht]; exact codeTable_add (Nat.zero_le _), .inl rfl⟩
  · rename_i m ht
    have hm := h.mode m ht
    dsimp only
    split
    · rename_i hle
      refine ⟨19 + 16 * m + (r.size - 3), ?_, r.size,
        by rw [ht]; exact codeTable_cpy hm hle.2 hle.1,
        .inr rfl⟩
      split
      · split
        · split
          · rfl
          · split <;> rfl
        · rfl
      · rfl
    · exact ⟨19 + 16 * m, rfl, 0, by rw [ht]; exact codeTable_cpy_sized hm, .inl rfl⟩

theorem chooseInstruction_none (r : Rinst) : (chooseInstruction none r).1 = none := by
  unfold chooseInstruction
  split
  · rfl
  · rfl
  · split <;> rfl
  · dsimp only
    split <;> rfl

/-- The pending instruction stays as it is, or it takes the opcode it shares. -/
theorem chooseInstruction_pair {p r : Rinst} (hp : p.Coded) (hr : r.Coded) :
    (chooseInstruction (some p) r).1 = some p ∨
      ∃ code, (chooseInstruction (some p) r).1 = some { p with code2 := code } ∧ code ≠ 0 ∧
        codeTable (UInt8.ofNat code) = ⟨p.type, p.size, r.type, r.size⟩ := by
  unfold chooseInstruction
  split
  · exact .inl rfl
  · exact .inl rfl
  · rename_i ht
    split
    · dsimp only
      split
      · rename_i m hpt
        split
        · rename_i h
          refine .inr ⟨247 + m, rfl, by omega, ?_⟩
          rw [hpt, ht, h.1, h.2]
          exact codeTable_cpy_add (hp.mode m hpt)
        · exact .inl rfl
      · exact .inl rfl
    · exact .inl rfl
  · rename_i m ht
    have hm := hr.mode m ht
    dsimp only
    split
    · rename_i hle
      split
      · rename_i hadd
        have h1 : 1 ≤ p.size := hp.size
        split
        · rename_i h
          refine .inr ⟨_, rfl, by omega, ?_⟩
          rw [hadd.1, ht]
          exact codeTable_add_cpy h.2 h1 hadd.2 hle.2 h.1
        · split
          · rename_i h
            refine .inr ⟨_, rfl, by omega, ?_⟩
            rw [hadd.1, ht, h.1]
            exact codeTable_add_cpy_same h.2 hm h1 hadd.2
          · exact .inl rfl
      · exact .inl rfl
    · exact .inl rfl

/-- The held-back instruction `r` with the half it will be read as. -/
structure Held (r : Rinst) (i : Hinst) : Prop extends r.Coded where
  type : r.type = i.type
  same : r.size = i.size
  code1 : Single r.code1 r.type r.size
  code2 : r.code2 = 0

/-- What the encoder has written reads back as a list of halves, the held-back one included. -/
inductive Written (x : Extent) (e : Encoder) : List Hinst → Prop
  | flat {is : List Hinst} (hout : e.iout = none)
      (h : ∀ inst addr, Script.Reads x ⟨e.inst ++ inst, e.addr ++ addr, .rfc3284, x.cpylen⟩ is
        ⟨inst, addr, e.acache, x.cpylen + e.unencodedOffset⟩) : Written x e is
  | held {is : List Hinst} {r : Rinst} {i : Hinst} {before bytes : List UInt8}
      {c : AddrCache} {p : ℕ}
      (hout : e.iout = some r) (hr : Held r i) (haddr : e.addr = before ++ bytes)
      (h : ∀ inst addr, Script.Reads x ⟨e.inst ++ inst, before ++ addr, .rfc3284, x.cpylen⟩ is
        ⟨inst, addr, c, p⟩)
      (hi : Readable x i c p bytes e.acache) (hp : p + i.size = x.cpylen + e.unencodedOffset) :
      Written x e (is ++ [i])

theorem Encoder.freeNonadd_eq (e : Encoder) (r : Rinst) :
    ∃ n, e.freeNonadd r = { e with ioptFree := n } := by
  unfold freeNonadd
  split
  · exact ⟨e.ioptFree, rfl⟩
  · exact ⟨e.ioptFree + 1, rfl⟩

/-- Only the instruction section, the held-back instruction and the free slots change. -/
theorem Encoder.pair_eq (e : Encoder) (r : Rinst) :
    ∃ inst iout n, e.pair r = { e with inst := inst, iout := iout, ioptFree := n } := by
  unfold pair
  split
  · exact ⟨e.inst, _, e.ioptFree, rfl⟩
  · rename_i iout inst _
    split
    · obtain ⟨m, hm⟩ := (e.emitDouble iout.code2).freeNonadd_eq iout
      rw [hm]
      obtain ⟨n, hn⟩ :=
        ({ e.emitDouble iout.code2 with ioptFree := m } : Encoder).freeNonadd_eq inst
      rw [hn]
      exact ⟨_, none, n, rfl⟩
    · obtain ⟨m, hm⟩ := (e.emitSingle iout iout.code1).freeNonadd_eq iout
      rw [hm]
      exact ⟨_, some inst, m, rfl⟩

theorem Encoder.emitSingle_eq (e : Encoder) {code n : ℕ} {t : RType}
    (hcode : codeTable (UInt8.ofNat code) = ⟨t, n, .noop, 0⟩) (r : Rinst) :
    e.emitSingle r code = { e with inst := e.inst ++ UInt8.ofNat code :: sizeBytes n r.size } := by
  unfold emitSingle sizeBytes
  rw [hcode]

def Encoder.owed (e : Encoder) : ℕ := if e.iout.isSome then 11 else 0

theorem Encoder.emitSingle_length (e : Encoder) (r : Rinst) (code : ℕ) :
    (e.emitSingle r code).inst.length ≤ e.inst.length + 11 := by
  have hlen := emitInteger_length_le r.size
  unfold emitSingle
  dsimp only
  rw [List.length_append, List.length_cons]
  split
  · omega
  · rw [List.length_nil]
    omega

theorem Encoder.pair_length (e : Encoder) (r : Rinst) :
    (e.pair r).inst.length + (e.pair r).owed ≤ e.inst.length + e.owed + 11 := by
  unfold pair
  split
  · unfold owed
    dsimp only
    rw [Option.isSome_some, if_pos rfl]
    omega
  · rename_i iout inst hc
    have hsome : e.owed = 11 := by
      refine if_pos (Option.isSome_iff_ne_none.mpr fun hnone => ?_)
      rw [hnone] at hc
      have hprev := chooseInstruction_none { r with code2 := 0 }
      rw [hc] at hprev
      cases hprev
    split
    · obtain ⟨m, hm⟩ := (e.emitDouble iout.code2).freeNonadd_eq iout
      rw [hm]
      obtain ⟨n, hn⟩ :=
        ({ e.emitDouble iout.code2 with ioptFree := m } : Encoder).freeNonadd_eq inst
      rw [hn, hsome]
      unfold owed emitDouble
      dsimp only
      rw [List.length_append, List.length_singleton, Option.isSome_none, if_neg Bool.false_ne_true]
      omega
    · obtain ⟨m, hm⟩ := (e.emitSingle iout iout.code1).freeNonadd_eq iout
      have hlen := e.emitSingle_length iout iout.code1
      rw [hm, hsome]
      unfold owed
      dsimp only
      rw [Option.isSome_some, if_pos rfl]
      omega

section Pair
variable {x : Extent} {e e1 : Encoder} {is : List Hinst} {r : Rinst} {j : Hinst}
  {bytes : List UInt8}

/-- The held-back instruction is written with an opcode of its own. -/
theorem Held.reads {r : Rinst} {i : Hinst} (hr : Held r i) {inst₀ before B : List UInt8}
    {c c' : AddrCache} {p : ℕ}
    (h : ∀ inst addr, Script.Reads x ⟨inst₀ ++ inst, before ++ addr, .rfc3284, x.cpylen⟩ is
      ⟨inst, addr, c, p⟩) (hi : Readable x i c p B c') :
    ∃ n, codeTable (UInt8.ofNat r.code1) = ⟨r.type, n, .noop, 0⟩ ∧
      ∀ inst addr, Script.Reads x ⟨(inst₀ ++ UInt8.ofNat r.code1 :: sizeBytes n r.size) ++ inst,
        (before ++ B) ++ addr, .rfc3284, x.cpylen⟩ (is ++ [i]) ⟨inst, addr, c', p + i.size⟩ := by
  obtain ⟨n, hcode, hn⟩ := hr.code1
  refine ⟨n, hcode, fun inst addr => ?_⟩
  rw [hr.type] at hcode
  rw [hr.same] at hn ⊢
  rw [List.append_assoc, List.append_assoc, List.cons_append]
  exact (h _ _).trans (.one (hi.next_single hcode hn inst addr))

/-- The next instruction is paired with the held-back one, or takes its place. -/
theorem Written.pair (h : Written x e is) (hiout : e1.iout = e.iout) (hinst : e1.inst = e.inst)
    (haddr : e1.addr = e.addr ++ bytes) (hoff : e1.unencodedOffset = e.unencodedOffset + j.size)
    (hj : Readable x j e.acache (x.cpylen + e.unencodedOffset) bytes e1.acache) (hr : r.Coded)
    (ht : r.type = j.type) (hs : r.size = j.size) : Written x (e1.pair r) (is ++ [j]) := by
  have hr0 : ({ r with code2 := 0 } : Rinst).Coded := ⟨hr.real, hr.size, hr.mode⟩
  obtain ⟨code, hchosen, hsingle⟩ := chooseInstruction_single e1.iout hr0
  have hheld : Held { r with code1 := code, code2 := 0 } j :=
    ⟨⟨hr.real, hr.size, hr.mode⟩, ht, hs, hsingle, rfl⟩
  have hpos : x.cpylen + e.unencodedOffset + j.size = x.cpylen + e1.unencodedOffset := by
    rw [hoff, Nat.add_assoc]
  unfold Encoder.pair
  generalize hc : chooseInstruction e1.iout { r with code2 := 0 } = chosen at hchosen
  obtain ⟨prev, inst⟩ := chosen
  cases hchosen
  cases h with
  | flat hout h =>
    rw [hiout, hout] at hc
    have hprev := chooseInstruction_none { r with code2 := 0 }
    rw [hc] at hprev
    cases hprev
    refine .held rfl hheld haddr (fun inst addr => ?_) hj hpos
    rw [hinst]
    exact h inst addr
  | @held is r0 i before B c p hout hr0' haddr0 h hi hp =>
    rw [hiout, hout] at hc
    have haddr1 : e1.addr = before ++ (B ++ bytes) := by
      rw [haddr, haddr0, List.append_assoc]
    rw [← hp] at hj hpos
    rcases chooseInstruction_pair hr0'.toCoded hr0 with hprev | ⟨code', hprev, hne, hdouble⟩
    · -- no common opcode
      rw [hc] at hprev
      cases hprev
      obtain ⟨n, hcode, hreads⟩ := hr0'.reads h hi
      dsimp only
      rw [if_neg (not_not_intro hr0'.code2), Encoder.emitSingle_eq _ hcode]
      obtain ⟨m, hm⟩ := ({ e1 with
        inst := e1.inst ++ UInt8.ofNat r0.code1 :: sizeBytes n r0.size } : Encoder).freeNonadd_eq r0
      rw [hm]
      refine @Written.held x _ _ _ j (before ++ B) bytes _ _ rfl hheld ?_
        (fun inst addr => ?_) hj hpos
      · exact haddr1.trans (List.append_assoc _ _ _).symm
      · dsimp only
        rw [hinst]
        exact hreads inst addr
    · -- one opcode for both
      rw [hc] at hprev
      cases hprev
      dsimp only
      rw [if_pos hne]
      obtain ⟨m, hm⟩ := (e1.emitDouble code').freeNonadd_eq { r0 with code2 := code' }
      rw [hm]
      obtain ⟨m', hm'⟩ := ({ e1.emitDouble code' with ioptFree := m } : Encoder).freeNonadd_eq
        { r with code1 := code, code2 := 0 }
      rw [hm']
      have hshared : codeTable (UInt8.ofNat code') = ⟨i.type, i.size, j.type, j.size⟩ := by
        rw [← hr0'.type, ← hr0'.same, ← ht, ← hs]
        exact hdouble
      have hnext := hi.next_double hj hshared (hr0'.same ▸ hr0'.size) (hs ▸ hr.size) (ht ▸ hr.real)
      refine .flat rfl fun inst addr => ?_
      dsimp only [Encoder.emitDouble]
      rw [hinst, haddr1, List.append_assoc, List.append_assoc, List.append_assoc, ← hpos,
        List.append_assoc, List.singleton_append]
      exact (h _ _).trans (.one (hnext inst addr))

end Pair

end Xdelta
