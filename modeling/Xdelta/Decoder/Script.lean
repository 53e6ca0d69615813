import Xdelta.Decoder.Emission

/-!
# Reading the instructions of a window

The instruction and address sections, seen as lists of bytes, are read into a list
of half instructions. The parser of the decoder, which works with cursors on two
buffers, reads the same list.
-/
namespace Xdelta
open Chunked Delta

/-- What the two sections still hold, with what reading an address depends on. -/
structure Script where
  inst : List UInt8
  addr : List UInt8
  acache : AddrCache
  position : ℕ

structure Extent where
  cpylen : ℕ
  cpyoff : ℕ
  tgtlen : ℕ

def readNat (bytes : List UInt8) : Option (ℕ × List UInt8) :=
  match decodeInteger usize bytes 0 with
  | .value v rest => some (v, rest)
  | _ => none

def readAddress (c : AddrCache) (here mode : ℕ) (bytes : List UInt8) :
    Option (ℕ × List UInt8) :=
  if mode < 2 + c.sNear then
    (readNat bytes).map fun p =>
      (match mode with
        | 0 => p.1
        | 1 => usize.sub here p.1
        | slot + 2 => usize.add p.1 (c.nearArray slot), p.2)
  else
    match bytes with
    | [] => none
    | b :: rest => some (c.sameArray ((mode - (2 + c.sNear)) * 256 + b.toNat), rest)

namespace Script

def size (n : ℕ) (r : Script) : Option (ℕ × Script) :=
  if n = 0 then (readNat r.inst).map fun p => (p.1, { r with inst := p.2 }) else some (n, r)

/-- The address of a copy of `n` bytes: it precedes the position and stays in the copy window. -/
def address (e : Extent) (t : RType) (n : ℕ) (r : Script) : Option (ℕ × Script) :=
  match t with
  | .cpy mode =>
    (readAddress r.acache r.position mode r.addr).bind fun p =>
    if p.1 < r.position ∧ (p.1 < e.cpylen → usize.add p.1 n ≤ e.cpylen) then
      some (p.1, { r with addr := p.2, acache := r.acache.update p.1 })
    else none
  | _ => some (0, r)

def advance (e : Extent) (n : ℕ) (r : Script) : Option Script :=
  if usize.add r.position n ≤ e.cpylen + e.tgtlen then
    some { r with position := usize.add r.position n }
  else none

def half (e : Extent) (t : RType) (n : ℕ) (r : Script) : Option (Hinst × Script) :=
  (r.size n).bind fun p =>
  (p.2.address e t p.1).bind fun q =>
  (q.2.advance e p.1).map fun r => (⟨t, p.1, q.1⟩, r)

def next (e : Extent) (r : Script) : Option (List Hinst × Script) :=
  match r.inst with
  | [] => none
  | code :: inst =>
    (half e (codeTable code).type1 (codeTable code).size1 { r with inst := inst }).bind fun p =>
    if (codeTable code).type2 = .noop then some ([p.1], p.2)
    else
      (half e (codeTable code).type2 (codeTable code).size2 p.2).map fun q => ([p.1, q.1], q.2)

/-- All halves up to the end of the instruction section, with the bytes then left of
the address section, or up to the first that cannot be read. -/
def readFrom (e : Extent) : ℕ → Script → List Hinst × Option (List UInt8)
  | 0, r => ([], if r.inst = [] then some r.addr else none)
  | n + 1, r =>
    if r.inst = [] then ([], some r.addr)
    else
      match r.next e with
      | none => ([], none)
      | some (is, r) => (is ++ (readFrom e n r).1, (readFrom e n r).2)

def read (e : Extent) (r : Script) : List Hinst × Option (List UInt8) :=
  readFrom e r.inst.length r

def lastFrom (e : Extent) : ℕ → Script → Script
  | 0, r => r
  | n + 1, r =>
    match r.next e with
    | none => r
    | some (_, r) => lastFrom e n r

def last (e : Extent) (r : Script) : Script := lastFrom e r.inst.length r

end Script

theorem readNat_suffix {bytes : List UInt8} {p : ℕ × List UInt8} (h : readNat bytes = some p) :
    p.2 <:+ bytes := by
  unfold readNat at h
  split at h
  · rename_i hd
    cases h
    exact decodeInteger_suffix _ hd
  · cases h

namespace Script
variable {e : Extent}

theorem size_inst {n : ℕ} {r : Script} {p : ℕ × Script} (h : r.size n = some p) :
    p.2.inst <:+ r.inst := by
  unfold size at h
  split at h
  · obtain ⟨q, hq, rfl⟩ := Option.map_eq_some_iff.mp h
    exact readNat_suffix hq
  · cases h
    exact List.suffix_rfl

theorem address_inst {t : RType} {n : ℕ} {r : Script} {p : ℕ × Script}
    (h : r.address e t n = some p) : p.2.inst = r.inst := by
  unfold address at h
  split at h
  · obtain ⟨q, -, h⟩ := Option.bind_eq_some_iff.mp h
    split at h
    · cases h
      rfl
    · cases h
  · cases h
    rfl

theorem half_inst {t : RType} {n : ℕ} {r : Script} {p : Hinst × Script}
    (h : r.half e t n = some p) : p.2.inst <:+ r.inst := by
  obtain ⟨q, hq, h⟩ := Option.bind_eq_some_iff.mp h
  obtain ⟨q', hq', h⟩ := Option.bind_eq_some_iff.mp h
  obtain ⟨r', hr', rfl⟩ := Option.map_eq_some_iff.mp h
  have hadv : r'.inst = q'.2.inst := by
    unfold advance at hr'
    split at hr'
    · cases hr'
      rfl
    · cases hr'
  rw [hadv, address_inst hq']
  exact size_inst hq

theorem next_inst {r : Script} {p : List Hinst × Script} (h : r.next e = some p) :
    p.2.inst.length < r.inst.length := by
  unfold next at h
  split at h
  · cases h
  · rename_i code inst hinst
    obtain ⟨q, hq, h⟩ := Option.bind_eq_some_iff.mp h
    rw [hinst, List.length_cons, Nat.lt_succ_iff]
    have hle := (half_inst hq).length_le
    split at h
    · cases h
      exact hle
    · obtain ⟨q', hq', rfl⟩ := Option.map_eq_some_iff.mp h
      exact (half_inst hq').length_le.trans hle

theorem readFrom_eq {n : ℕ} {r : Script} (h : r.inst.length ≤ n) : readFrom e n r = r.read e := by
  induction n using Nat.strongRecOn generalizing r with
  | _ n ih =>
    cases n with
    | zero =>
      have hnil : r.inst = [] := List.length_eq_zero_iff.mp (Nat.le_zero.mp h)
      rw [read, hnil]
      rfl
    | succ n =>
      cases hr : r.inst with
      | nil =>
        rw [read, hr, readFrom, if_pos hr, List.length_nil, readFrom, if_pos hr]
      | cons code inst =>
        have hne : r.inst ≠ [] := by
          rw [hr]
          exact List.cons_ne_nil _ _
        rw [read, hr, List.length_cons, readFrom, readFrom, if_neg hne, if_neg hne]
        cases hn : r.next e with
        | none => rfl
        | some p =>
          have hlt := next_inst hn
          rw [hr, List.length_cons] at hlt h
          dsimp only
          rw [ih n (Nat.lt_succ_self n) (by omega), ih inst.length (by omega) (by omega)]

theorem read_nil {r : Script} (h : r.inst = []) : r.read e = ([], some r.addr) := by
  rw [read, h, List.length_nil, readFrom, if_pos h]

theorem read_none {r : Script} (h : r.inst ≠ []) (hn : r.next e = none) :
    r.read e = ([], none) := by
  obtain ⟨n, hlen⟩ := Nat.exists_eq_succ_of_ne_zero (mt List.length_eq_zero_iff.mp h)
  rw [read, hlen, readFrom, if_neg h, hn]

theorem read_some {r r' : Script} {is : List Hinst} (hn : r.next e = some (is, r')) :
    r.read e = (is ++ (r'.read e).1, (r'.read e).2) := by
  have hlt : r'.inst.length < r.inst.length := next_inst hn
  have hne : r.inst ≠ [] := by
    rintro h
    rw [h] at hlt
    exact absurd hlt (Nat.not_lt_zero _)
  obtain ⟨n, hlen⟩ := Nat.exists_eq_succ_of_ne_zero (mt List.length_eq_zero_iff.mp hne)
  rw [read, hlen, readFrom, if_neg hne, hn]
  dsimp only
  rw [readFrom_eq (by omega)]

end Script

namespace Script
variable {e : Extent}

theorem lastFrom_eq {n : ℕ} {r : Script} (h : r.inst.length ≤ n) : lastFrom e n r = r.last e := by
  induction n using Nat.strongRecOn generalizing r with
  | _ n ih =>
    cases hr : r.inst with
    | nil =>
      have hn : r.next e = none := by
        rw [next, hr]
      rw [last, hr]
      cases n with
      | zero => rfl
      | succ n => rw [lastFrom, hn, List.length_nil, lastFrom]
    | cons code inst =>
      obtain ⟨n, rfl⟩ : ∃ k, n = k + 1 := ⟨n - 1, by rw [hr, List.length_cons] at h; omega⟩
      rw [last, hr, List.length_cons, lastFrom, lastFrom]
      cases hn : r.next e with
      | none => rfl
      | some p =>
        have hlt := next_inst hn
        rw [hr, List.length_cons] at hlt h
        dsimp only
        rw [ih n (Nat.lt_succ_self n) (by omega), ih inst.length (by omega) (by omega)]

theorem last_nil {r : Script} (h : r.inst = []) : r.last e = r := by
  rw [last, h]
  rfl

theorem last_some {r r' : Script} {is : List Hinst} (hn : r.next e = some (is, r')) :
    r.last e = r'.last e := by
  have hlt : r'.inst.length < r.inst.length := next_inst hn
  obtain ⟨n, hlen⟩ : ∃ k, r.inst.length = k + 1 := ⟨r.inst.length - 1, by omega⟩
  rw [last, hlen, lastFrom, hn]
  exact lastFrom_eq (by omega)

end Script

def Desect.left (d : Desect) : List UInt8 := d.bytes.drop d.buf

theorem Desect.left_of_suffix {d : Desect} (h : d.bufMax ≤ d.mem.length) {rest : List UInt8}
    (hrest : rest <:+ d.bytes) : ({ d with buf := d.bufMax - rest.length } : Desect).left = rest := by
  have hb : ({ d with buf := d.bufMax - rest.length } : Desect).bytes = d.bytes := rfl
  rw [left, hb, ← length_bytes h]
  exact (List.suffix_iff_eq_drop.mp hrest).symm

def Hinst.norm (i : Hinst) : Hinst :=
  match i.type with
  | .cpy _ => i
  | _ => { i with addr := 0 }

namespace Window

def script (w : Window) : Script where
  inst := w.instSect.left
  addr := w.addrSect.left
  acache := w.acache
  position := w.decPosition

def extent (w : Window) : Extent := ⟨w.decCpylen, w.decCpyoff, w.decTgtlen⟩

theorem extent_of_unparsed {w w' : Window} (h : w'.unparsed = w.unparsed) :
    w'.extent = w.extent := by
  have h1 : w'.decCpylen = w.decCpylen :=
    (congrArg Window.decCpylen h : w'.unparsed.decCpylen = w.unparsed.decCpylen)
  have h2 : w'.decCpyoff = w.decCpyoff :=
    (congrArg Window.decCpyoff h : w'.unparsed.decCpyoff = w.unparsed.decCpyoff)
  have h3 : w'.decTgtlen = w.decTgtlen :=
    (congrArg Window.decTgtlen h : w'.unparsed.decTgtlen = w.unparsed.decTgtlen)
  rw [extent, extent, h1, h2, h3]

end Window

theorem readHalfSize_script {w : Window} (hw : w.Cursors) (h : Half) :
    (readHalfSize h w).Ends
      (fun _ w' => (readNat w.script.inst).map (fun p => (p.1, { w.script with inst := p.2 })) =
        some ((w'.half h).size, w'.script))
      (fun _ => False) (fun _ _ => readNat w.script.inst = none) := by
  have hlen : w.instSect.bytes.length = w.instSect.bufMax := Desect.length_bytes (hw.max_le .inst)
  have hle : w.instSect.buf ≤ w.instSect.bytes.length := by
    rw [hlen]
    exact hw.buf_le .inst
  have hread := readInteger_eq usize w.instSect.bytes hle
  rw [hlen, show w.instSect.bytes.drop w.instSect.buf = w.script.inst from rfl] at hread
  unfold readHalfSize readNat
  rw [hread]
  cases hd : decodeInteger usize w.script.inst 0 with
  | overflow p rest => rfl
  | input p => rfl
  | value v rest =>
    have hsuf : rest <:+ w.instSect.bytes :=
      (decodeInteger_suffix _ hd).trans (List.drop_suffix _ _)
    have hleft := Desect.left_of_suffix (hw.max_le .inst) hsuf
    simp only [Window.sect] at hleft
    cases h <;> exact congrArg some (Prod.ext rfl (congrArg (fun l => { w.script with inst := l })
      hleft.symm))

theorem readHalfAddr_script {w : Window} (hw : w.Cursors) (h : Half) {mode : ℕ} (hm : mode < 9) :
    (readHalfAddr h mode w).Ends
      (fun _ w' => ∃ p, readAddress w.script.acache w.script.position mode w.script.addr = some p ∧
        w'.half h = { w.half h with addr := p.1 } ∧
        w'.script = { w.script with addr := p.2, acache := w.script.acache.update p.1 })
      (fun _ => False)
      (fun _ _ => readAddress w.script.acache w.script.position mode w.script.addr = none) := by
  have hlen : w.addrSect.bytes.length = w.addrSect.bufMax := Desect.length_bytes (hw.max_le .addr)
  have hle : w.addrSect.buf ≤ w.addrSect.bytes.length := by
    rw [hlen]
    exact hw.buf_le .addr
  have hread := readInteger_eq usize w.addrSect.bytes hle
  rw [hlen] at hread
  -- what is known once the new cursor and the value are
  have hvalue : ∀ (a : ℕ) (rest : List UInt8), rest <:+ w.addrSect.bytes →
      ∀ w', w' = { w with
        addrSect := { w.addrSect with buf := w.addrSect.bufMax - rest.length }
        acache := w.acache.update a }.setHalf h { w.half h with addr := a } →
      w'.half h = { w.half h with addr := a } ∧
        w'.script = { w.script with addr := rest, acache := w.script.acache.update a } := by
    intro a rest hrest w' hw'
    have hleft := Desect.left_of_suffix (hw.max_le .addr) hrest
    simp only [Window.sect] at hleft
    subst hw'
    refine ⟨Window.half_setHalf _ _ _, ?_⟩
    cases h <;> exact congrArg (fun l => ({ w.script with
      addr := l, acache := w.script.acache.update a } : Script)) hleft
  unfold readHalfAddr decodeAddress readAddress
  by_cases hmode : mode < 2 + w.acache.sNear
  · rw [if_pos hmode, if_pos (show mode < 2 + w.script.acache.sNear from hmode), hread]
    unfold readNat
    rw [show w.addrSect.bytes.drop w.addrSect.buf = w.script.addr from rfl]
    cases hd : decodeInteger usize w.script.addr 0 with
    | overflow p rest => rfl
    | input p => rfl
    | value v rest =>
      have hsuf : rest <:+ w.addrSect.bytes :=
        (decodeInteger_suffix _ hd).trans (List.drop_suffix _ _)
      rcases mode with _ | _ | slot
      · exact ⟨_, rfl, hvalue _ _ hsuf _ rfl⟩
      · exact ⟨_, rfl, hvalue _ _ hsuf _ rfl⟩
      · exact ⟨_, rfl, hvalue _ _ hsuf _ rfl⟩
  · rw [if_neg hmode, if_neg (show ¬mode < 2 + w.script.acache.sNear from hmode)]
    by_cases hend : w.addrSect.buf = w.addrSect.bufMax
    · have hnil : w.script.addr = [] := List.drop_eq_nil_of_le (by omega)
      rw [if_pos hend, hnil]
      rfl
    · have hlt : w.addrSect.buf < w.addrSect.bytes.length := by omega
      have hcons : w.script.addr = w.addrSect.bytes[w.addrSect.buf] ::
          w.addrSect.bytes.drop (w.addrSect.buf + 1) := List.drop_eq_getElem_cons hlt
      have hidx : (mode - (2 + w.acache.sNear)) * 256 +
          w.addrSect.bytes[w.addrSect.buf].toNat < w.acache.sSame * 256 := by
        have := w.addrSect.bytes[w.addrSect.buf].toNat_lt
        rw [hw.near] at hmode ⊢
        rw [hw.same]
        omega
      rw [if_neg hend, List.getElem?_eq_getElem hlt, hcons]
      dsimp only
      rw [if_pos hidx]
      refine ⟨_, rfl, hvalue _ _ (List.drop_suffix _ _) _ ?_⟩
      rw [List.length_drop, hlen, show w.addrSect.bufMax - (w.addrSect.bufMax -
        (w.addrSect.buf + 1)) = w.addrSect.buf + 1 by omega]
      rfl

private theorem checkHalfAddr_script {w : Window} (h : Half) :
    (checkHalfAddr h w).Ends
      (fun _ w' => w' = w ∧ (w.half h).addr < w.decPosition ∧ ((w.half h).addr < w.decCpylen →
        usize.add (w.half h).addr (w.half h).size ≤ w.decCpylen))
      (fun _ => False)
      (fun _ _ => ¬((w.half h).addr < w.decPosition ∧ ((w.half h).addr < w.decCpylen →
        usize.add (w.half h).addr (w.half h).size ≤ w.decCpylen))) := by
  unfold checkHalfAddr
  split
  · rename_i hle
    exact fun hc => absurd hc.1 (Nat.not_lt.mpr hle)
  · rename_i hlt
    split
    · rename_i hbad
      exact fun hc => absurd (hc.2 hbad.1) (Nat.not_le.mpr hbad.2)
    · rename_i hgood
      exact ⟨rfl, Nat.lt_of_not_le hlt, fun ha => Nat.le_of_not_lt fun hgt => hgood ⟨ha, hgt⟩⟩

theorem Hinst.norm_cpy {i : Hinst} {m : ℕ} (h : i.type = .cpy m) : i.norm = i := by
  unfold norm
  rw [h]

theorem Hinst.norm_of_ne {i : Hinst} (h : ∀ m, i.type ≠ .cpy m) :
    i.norm = ⟨i.type, i.size, 0⟩ := by
  unfold norm
  split
  · rename_i m hm
    exact absurd hm (h m)
  · rfl

@[simp] theorem Hinst.norm_type (i : Hinst) : i.norm.type = i.type := by
  unfold norm
  split <;> rfl

@[simp] theorem Hinst.norm_size (i : Hinst) : i.norm.size = i.size := by
  unfold norm
  split <;> rfl

private theorem parseAddr_script {w : Window} (hw : w.Cursors) (h : Half)
    (hm : ∀ m, (w.half h).type = .cpy m → m < 9) :
    Outcome.Ends
      (fun _ w' => Parses h w w' ∧ (w'.half h).size = (w.half h).size ∧
        w.script.address w.extent (w.half h).type (w.half h).size =
          some ((w'.half h).norm.addr, w'.script))
      (fun _ => False)
      (fun _ _ => w.script.address w.extent (w.half h).type (w.half h).size = none)
      (match (w.half h).type with
        | .cpy mode => (readHalfAddr h mode w).andThen fun _ => checkHalfAddr h
        | _ => .ok () w) := by
  unfold Script.address
  split
  · rename_i mode ht
    have haddr := (readHalfAddr_ends hw h (hm mode ht)).and (readHalfAddr_script hw h (hm mode ht))
    cases hr : readHalfAddr h mode w with
    | starved w' =>
      rw [hr] at haddr
      exact haddr.1
    | fault =>
      rw [hr] at haddr
      exact haddr
    | stop e w' =>
      rw [hr] at haddr
      change Option.bind _ _ = none
      rw [haddr.2]
      rfl
    | ok a w' =>
      rw [hr] at haddr
      obtain ⟨⟨hp, hpos⟩, p, hread, hhalf, hscript⟩ := haddr
      have hcpy : w'.decCpylen = w.decCpylen :=
        congrArg Extent.cpylen (Window.extent_of_unparsed hp.unparsed)
      have hcheck := checkHalfAddr_script (w := w') h
      rw [hhalf, hpos, hcpy] at hcheck
      rw [Outcome.andThen_ok, hread, Option.bind_some]
      refine hcheck.mono (fun _ w'' ⟨heq, hc⟩ => ?_) (fun _ h => h) (fun _ _ hn => if_neg hn)
      subst heq
      have htype := hp.type.trans ht
      refine ⟨hp, by rw [hhalf], ?_⟩
      rw [Hinst.norm_cpy htype, hhalf, hscript]
      exact if_pos hc
  · rename_i ht
    have hnorm : (w.half h).norm.addr = 0 := congrArg Hinst.addr (Hinst.norm_of_ne ht)
    refine ⟨.refl hw h, rfl, ?_⟩
    rw [hnorm]

theorem decodeParseHalfinst_script {w : Window} (hw : w.Cursors) (h : Half)
    (hm : ∀ m, (w.half h).type = .cpy m → m < 9)
    (hmax : w.decMaxpos = w.decCpylen + w.decTgtlen) :
    (decodeParseHalfinst h w).Ends
      (fun _ w' => w.script.half w.extent (w.half h).type (w.half h).size =
        some ((w'.half h).norm, w'.script))
      (fun _ => False)
      (fun _ _ => w.script.half w.extent (w.half h).type (w.half h).size = none) := by
  unfold decodeParseHalfinst Script.half
  have hsize : (if (w.half h).size = 0 then readHalfSize h w else Outcome.ok () w).Ends
      (fun _ w' => Parses h w w' ∧
        w.script.size (w.half h).size = some ((w'.half h).size, w'.script)) (fun _ => False)
      (fun _ _ => w.script.size (w.half h).size = none) := by
    unfold Script.size
    split
    · exact ((readHalfSize_ends hw h).and (readHalfSize_script hw h)).mono
        (fun _ _ h => ⟨h.1.1, h.2⟩) (fun _ h => h.1) (fun _ _ h => by rw [h.2]; rfl)
    · exact ⟨.refl hw h, rfl⟩
  cases hr : (if (w.half h).size = 0 then readHalfSize h w else Outcome.ok () w) with
  | starved w1 =>
    rw [hr] at hsize
    exact hsize
  | fault =>
    rw [hr] at hsize
    exact hsize
  | stop e w1 =>
    rw [hr] at hsize
    change Option.bind _ _ = none
    rw [hsize]
    rfl
  | ok a w1 =>
    rw [hr] at hsize
    obtain ⟨h1, hs1⟩ := hsize
    have he1 := Window.extent_of_unparsed h1.unparsed
    have haddr := parseAddr_script h1.cursors h (h1.type ▸ hm)
    rw [Outcome.andThen_ok, hs1, Option.bind_some]
    rw [h1.type, he1] at haddr
    dsimp only
    rw [h1.type]
    refine Outcome.Ends.andThen (haddr.mono (fun _ _ h => h) (fun _ h => h)
      (fun _ _ hn => by rw [hn]; rfl)) fun _ w2 ⟨h2, hz2, hs2⟩ => ?_
    have ht2 : (w2.half h).type = (w.half h).type := h2.type.trans h1.type
    have hmax2 : w2.decMaxpos = w.extent.cpylen + w.extent.tgtlen :=
      (congrArg Window.decMaxpos (h2.unparsed.trans h1.unparsed) :
        w2.unparsed.decMaxpos = w.unparsed.decMaxpos).trans hmax
    rw [hs2, Option.bind_some]
    unfold advanceHalf Script.advance
    dsimp only
    rw [← hmax2, ← hz2]
    by_cases hle : usize.add w2.decPosition (w2.half h).size ≤ w2.decMaxpos
    · rw [if_neg (Nat.not_lt.mpr hle), if_pos (show usize.add w2.script.position _ ≤ _ from hle)]
      have hhalf : ({ w2 with decPosition := usize.add w2.decPosition (w2.half h).size } :
          Window).half h = w2.half h := by cases h <;> rfl
      refine Eq.trans ?_ (congrArg (fun i => some (Hinst.norm i, _)) hhalf.symm)
      rw [← ht2, ← Hinst.norm_type, ← Hinst.norm_size (w2.half h)]
      rfl
    · rw [if_pos (Nat.lt_of_not_le hle), if_neg (show ¬usize.add w2.script.position _ ≤ _ from hle)]
      rfl

/-- What is left to do of half `h`. -/
def Window.remaining (w : Window) (h : Half) : List Hinst :=
  if (w.half h).type = .noop then [] else [(w.half h).norm]

theorem Window.remaining_noop {w : Window} {h : Half} (ht : (w.half h).type = .noop) :
    w.remaining h = [] := if_pos ht

theorem Window.remaining_of_ne {w : Window} {h : Half} (ht : (w.half h).type ≠ .noop) :
    w.remaining h = [(w.half h).norm] := if_neg ht

theorem Window.script_inst_nil {w : Window} (hw : w.Cursors) :
    w.script.inst = [] ↔ w.instSect.buf = w.instSect.bufMax := by
  have hlen : w.instSect.bytes.length = w.instSect.bufMax := Desect.length_bytes (hw.max_le .inst)
  have hle : w.instSect.buf ≤ w.instSect.bufMax := hw.buf_le .inst
  change w.instSect.bytes.drop w.instSect.buf = [] ↔ _
  rw [List.drop_eq_nil_iff]
  omega

theorem decodeInstruction_script {w : Window} (hw : w.Cursors)
    (hmax : w.decMaxpos = w.decCpylen + w.decTgtlen) :
    (decodeInstruction w).Ends
      (fun _ w' => w.script.next w.extent =
        some (w'.remaining .first ++ w'.remaining .second, w'.script))
      (fun _ => False) (fun _ _ => w.script.next w.extent = none) := by
  unfold decodeInstruction Script.next
  by_cases hne : w.instSect.buf = w.instSect.bufMax
  · rw [if_pos hne, (Window.script_inst_nil hw).mpr hne]
    rfl
  · rw [if_neg hne]
    have hle := hw.buf_le .inst
    have hlen : w.instSect.bytes.length = w.instSect.bufMax := Desect.length_bytes (hw.max_le .inst)
    simp only [Window.sect] at hle
    have hlt : w.instSect.buf < w.instSect.bytes.length := by omega
    have hcons : w.script.inst = w.instSect.bytes[w.instSect.buf] ::
        w.instSect.bytes.drop (w.instSect.buf + 1) := List.drop_eq_getElem_cons hlt
    rw [List.getElem?_eq_getElem hlt, hcons]
    dsimp only
    generalize w.instSect.bytes[w.instSect.buf] = code
    obtain ⟨hne1, hm1, hm2⟩ := codeTable_wf code
    generalize codeTable code = inst at hne1 hm1 hm2
    generalize hw0 : Window.loadInst _ inst = w0
    have hc0 : w0.Cursors := by
      subst hw0
      refine ⟨fun k => ?_, fun k => ?_, hw.near, hw.same⟩
      · cases k <;> [exact hw.buf_le .data; exact Nat.lt_of_le_of_ne hle hne; exact hw.buf_le .addr]
      · cases k <;> [exact hw.max_le .data; exact hw.max_le .inst; exact hw.max_le .addr]
    have hs0 : ({ w.script with inst := w.instSect.bytes.drop (w.instSect.buf + 1) } : Script) =
        w0.script := by
      subst hw0
      rfl
    have he0 : w0.extent = w.extent := by
      subst hw0
      rfl
    have hmax0 : w0.decMaxpos = w0.decCpylen + w0.decTgtlen := by
      subst hw0
      exact hmax
    obtain ⟨ht1, hz1⟩ : (w0.half .first).type = inst.type1 ∧ (w0.half .first).size = inst.size1 := by
      subst hw0
      exact ⟨rfl, rfl⟩
    obtain ⟨ht2, hz2⟩ : (w0.half .second).type = inst.type2 ∧
        (w0.half .second).size = inst.size2 := by
      subst hw0
      exact ⟨rfl, rfl⟩
    rw [if_pos hne1]
    have hfirst := (decodeParseHalfinst_ends hc0 .first (ht1 ▸ hm1)).and
      (decodeParseHalfinst_script hc0 .first (ht1 ▸ hm1) hmax0)
    rw [ht1, hz1, he0] at hfirst
    rw [hs0]
    refine Outcome.Ends.andThen (hfirst.mono (fun _ _ h => h) (fun _ h => h.1)
      (fun _ _ hn => by rw [hn.2]; rfl)) fun _ w1 hw1 => ?_
    obtain ⟨⟨h1, _⟩, hs1⟩ := hw1
    rw [hs1, Option.bind_some]
    have htype1 : (w1.half .first).type = inst.type1 := h1.type.trans ht1
    have hother1 : w1.half .second = w0.half .second := h1.other
    have hrem1 : w1.remaining .first = [(w1.half .first).norm] :=
      Window.remaining_of_ne (htype1 ▸ hne1)
    by_cases hn2 : inst.type2 = .noop
    · rw [if_neg (not_not_intro hn2), if_pos hn2]
      have hrem2 : w1.remaining .second = [] :=
        Window.remaining_noop (hother1 ▸ ht2.trans hn2)
      change some ([(w1.half .first).norm], w1.script) = _
      rw [hrem1, hrem2]
      rfl
    · rw [if_pos hn2, if_neg hn2]
      have htype2 : (w1.half .second).type = inst.type2 := hother1 ▸ ht2
      have hmax1 : w1.decMaxpos = w1.decCpylen + w1.decTgtlen := by
        have he := (Window.extent_of_unparsed h1.unparsed)
        have hm : w1.decMaxpos = w0.decMaxpos :=
          (congrArg Window.decMaxpos h1.unparsed : w1.unparsed.decMaxpos = w0.unparsed.decMaxpos)
        rw [hm, hmax0]
        exact (congrArg (fun e : Extent => e.cpylen + e.tgtlen) he).symm
      have hsecond := (decodeParseHalfinst_ends h1.cursors .second (htype2 ▸ hm2)).and
        (decodeParseHalfinst_script h1.cursors .second (htype2 ▸ hm2) hmax1)
      rw [htype2, (congrArg Hinst.size hother1).trans hz2, Window.extent_of_unparsed h1.unparsed,
        he0] at hsecond
      refine hsecond.mono (fun _ w2 hw2 => ?_) (fun _ h => h.1) (fun _ _ hn => by rw [hn.2]; rfl)
      obtain ⟨⟨h2, _⟩, hs2⟩ := hw2
      have hother2 : w2.half .first = w1.half .first := h2.other
      have hrem1' : w2.remaining .first = [(w1.half .first).norm] := by
        rw [← hrem1]
        unfold Window.remaining
        rw [hother2]
      have hrem2 : w2.remaining .second = [(w2.half .second).norm] :=
        Window.remaining_of_ne (h2.type ▸ htype2 ▸ hn2)
      rw [hs2, hrem1', hrem2]
      rfl

end Xdelta
