import Xdelta.Decoder.Setup
import Xdelta.Merge.Append

/-!
# The merge reader and the decoder

A window whose sections hold exactly what its instructions use and whose instructions
fill the target window is appended to the whole delta as what the decoder makes of it.
For any other window the reader either reads past the data section or succeeds where the
decoder refuses.
-/
namespace Xdelta
open Chunked Delta

/-- Halves that can be carried out from position `p` on: a copy refers to what precedes
it, and one from the copy window stays in it. -/
def Refers (e : Extent) : ℕ → List Hinst → Prop
  | _, [] => True
  | p, i :: is => i.type ≠ .noop ∧ (∀ m, i.type = .cpy m → i.addr < p ∧
      (i.addr < e.cpylen → i.addr + i.size ≤ e.cpylen)) ∧ Refers e (p + i.size) is

theorem refers_append {e : Extent} {p : ℕ} {is js : List Hinst} :
    Refers e p (is ++ js) ↔ Refers e p is ∧ Refers e (p + sizes is) js := by
  induction is generalizing p with
  | nil => simp [Refers, sizes]
  | cons i is ih => simp [Refers, ih, sizes, and_assoc, Nat.add_assoc]

namespace Script
variable {e : Extent}

private theorem half_refers {t : RType} {n : ℕ} {r r' : Script} {i : Hinst}
    (h : r.half e t n = some (i, r')) (ht : t ≠ .noop)
    (hlt : r.position + i.size < usize.modulus) :
    Refers e r.position [i] ∧ r'.position = r.position + i.size := by
  obtain ⟨q, hq, h⟩ := Option.bind_eq_some_iff.mp h
  obtain ⟨q', hq', h⟩ := Option.bind_eq_some_iff.mp h
  obtain ⟨r1, hr1, hp⟩ := Option.map_eq_some_iff.mp h
  cases hp
  have hpos : q.2.position = r.position := by
    unfold size at hq
    split at hq
    · obtain ⟨v, -, rfl⟩ := Option.map_eq_some_iff.mp hq
      rfl
    · cases hq
      rfl
  unfold address at hq'
  unfold advance at hr1
  split at hr1
  · cases hr1
    split at hq'
    · rename_i m
      obtain ⟨v, -, hq'⟩ := Option.bind_eq_some_iff.mp hq'
      split at hq'
      · rename_i hc
        cases hq'
        rw [hpos] at hc ⊢
        dsimp only at hlt hc ⊢
        refine ⟨⟨ht, fun _ _ => ⟨hc.1, fun ha => ?_⟩, trivial⟩, usize.add_eq hlt⟩
        have hle := hc.2 ha
        rwa [usize.add_eq (by omega)] at hle
      · cases hq'
    · rename_i hne
      cases hq'
      rw [hpos]
      exact ⟨⟨ht, fun m hm => absurd hm (hne m), trivial⟩, usize.add_eq hlt⟩
  · cases hr1

private theorem next_refers {r r' : Script} {is : List Hinst} (h : r.next e = some (is, r'))
    (hlt : r.position + sizes is < usize.modulus) :
    Refers e r.position is ∧ r'.position = r.position + sizes is := by
  unfold next at h
  split at h
  · cases h
  · rename_i code inst hinst
    obtain ⟨hne, -, -⟩ := codeTable_wf code
    obtain ⟨q, hq, h⟩ := Option.bind_eq_some_iff.mp h
    split at h
    · cases h
      have hlt' : r.position + q.1.size < usize.modulus := by simpa [sizes] using hlt
      have h1 := half_refers hq hne hlt'
      simpa [sizes] using h1
    · rename_i hne2
      obtain ⟨q', hq', hp⟩ := Option.map_eq_some_iff.mp h
      cases hp
      simp only [sizes, List.map_cons, List.map_nil, List.sum_cons, List.sum_nil,
        Nat.add_zero] at hlt ⊢
      obtain ⟨h1, hp1⟩ := half_refers hq hne (by dsimp only; omega)
      dsimp only at hp1
      obtain ⟨h2, hp2⟩ := half_refers hq' hne2 (by rw [hp1]; omega)
      rw [hp1] at h2 hp2
      exact ⟨⟨h1.1, h1.2.1, h2⟩, by rw [hp2, Nat.add_assoc]⟩

theorem read_refers {r : Script} (hlt : r.position + sizes (r.read e).1 < usize.modulus) :
    Refers e r.position (r.read e).1 := by
  induction hn : r.inst.length using Nat.strongRecOn generalizing r with
  | _ n ih =>
    subst hn
    by_cases hnil : r.inst = []
    · rw [read_nil hnil]
      trivial
    · cases hnext : r.next e with
      | none =>
        rw [read_none hnil hnext]
        trivial
      | some q =>
        rw [read_some hnext] at hlt ⊢
        simp only [sizes, List.map_append, List.sum_append] at hlt
        obtain ⟨h1, hp⟩ := next_refers hnext (by simp only [sizes]; omega)
        refine refers_append.mpr ⟨h1, ?_⟩
        rw [← hp]
        refine ih _ (next_inst hnext) ?_ rfl
        rw [hp]
        simp only [sizes]
        omega

end Script

def carryAll (file : List UInt8) (e : Extent) : List Hinst → Spot → Option Spot
  | [], s => some s
  | i :: is, s => (i.carry file e s).bind (carryAll file e is)

theorem delivered_eq (file : List UInt8) (e : Extent) (is : List Hinst) (s : Spot) :
    delivered file e is s = (carryAll file e is s).bind fun s' =>
      if s'.out.length = e.tgtlen ∧ s'.data = [] then some s'.out else none := by
  induction is generalizing s with
  | nil => rfl
  | cons i is ih =>
    rw [delivered, carryAll]
    cases i.carry file e s with
    | none => rfl
    | some s' => exact ih s'

/-- A window in its place in a whole delta: nothing in it wraps. -/
structure Extent.Fits (e : Extent) (winstart mode : ℕ) : Prop where
  below : e.cpylen + e.tgtlen < usize.modulus
  offset : e.cpyoff + e.cpylen < xoff.modulus
  start : winstart + e.tgtlen < xoff.modulus
  mode : e.cpylen = 0 ∨ mode ≠ 0

section Carry
variable {winstart mode : ℕ} {e : Extent} {i : Hinst} {data rest b : List UInt8}

@[simp] theorem Hinst.winst_size (i : Hinst) (addslen position : ℕ) :
    (i.winst winstart mode e addslen position).size = i.size := by
  unfold winst
  split
  · rfl
  · rfl
  · split <;> rfl

/-- The appended instruction is the half, moved to where the window begins. -/
theorem Hinst.winst_op (he : e.Fits winstart mode) (hne : i.type ≠ .noop)
    (haddr : ∀ m, i.type = .cpy m → i.addr < e.cpylen + e.tgtlen)
    (hb : i.bytes data = some (b, rest)) (adds : List UInt8) (position : ℕ) :
    ∃ o, i.op e data = some (o, rest) ∧
      (i.winst winstart mode e adds.length position).op (adds ++ b) = some (o.shift winstart) := by
  cases ht : i.type with
  | noop => exact absurd ht hne
  | run =>
    cases data with
    | nil =>
      rw [bytes_run_nil ht] at hb
      cases hb
    | cons c data =>
      rw [bytes_run_cons ht] at hb
      cases hb
      refine ⟨_, op_run_cons ht c _, ?_⟩
      rw [winst_run ht, Winst.op_run rfl, List.getElem?_append_right (Nat.le_refl _), Nat.sub_self]
      rfl
  | add =>
    rw [bytes_add ht] at hb
    split at hb
    · rename_i hle
      cases hb
      have hlen : (data.take i.size).length = i.size := List.length_take_of_le hle
      refine ⟨.add (data.take i.size), by rw [op_add ht, if_pos hle], ?_⟩
      rw [winst_add ht, Winst.op_add rfl, if_pos (by rw [List.length_append, hlen]),
        List.drop_left, List.take_of_length_le hlen.le]
      rfl
    · cases hb
  | cpy m =>
    rw [bytes_cpy ht] at hb
    cases hb
    have hlt := haddr m ht
    have hbelow := he.below
    have hoffset := he.offset
    have hstart := he.start
    have hxoff : xoff.modulus = usize.modulus := rfl
    refine ⟨_, op_cpy ht _, ?_⟩
    rw [winst_cpy ht]
    by_cases hin : i.addr < e.cpylen
    · rw [if_pos hin, if_pos hin, Winst.op_cpy rfl]
      dsimp only
      rw [if_neg (he.mode.resolve_left (by omega)), xoff.add_eq (by omega)]
      rfl
    · rw [if_neg hin, if_neg hin, Winst.op_cpy rfl]
      dsimp only
      rw [if_pos rfl, xoff.sub_add_eq (by omega) (by omega) (by omega)]
      rfl

/-- What has been appended does to the output so far what the halves do. -/
theorem appendAll_interp {is : List Hinst} {st st' : WholeState}
    (h : appendAll winstart mode e is (st, data) = some (st', rest)) :
    ∃ bytes new, st'.adds = st.adds ++ bytes ∧ st'.inst = st.inst ++ new ∧
      st'.wininfo = st.wininfo ∧ lengths new = sizes is ∧
      ∀ p, Refers e p is → p + sizes is ≤ e.cpylen + e.tgtlen → e.Fits winstart mode →
      ∀ file pre out, pre.length = winstart →
        interpFrom (st.adds ++ bytes) file new (pre ++ out) =
          (carryAll file e is ⟨out, data⟩).map (pre ++ ·.out) ∧
        ∀ s, carryAll file e is ⟨out, data⟩ = some s → s.data = rest := by
  induction is generalizing st data with
  | nil =>
    cases h
    refine ⟨[], [], (List.append_nil _).symm, (List.append_nil _).symm, rfl, rfl,
      fun p _ _ _ file pre out _ => ⟨rfl, fun s hs => ?_⟩⟩
    cases hs
    rfl
  | cons i is ih =>
    obtain ⟨s1, hs1, h⟩ := Option.bind_eq_some_iff.mp h
    obtain ⟨⟨b, rest1⟩, hb, rfl⟩ := Option.map_eq_some_iff.mp hs1
    obtain ⟨bytes, new, hadds, hinst, hinfo, hlen, hmean⟩ := ih h
    refine ⟨b ++ bytes, i.winst winstart mode e st.adds.length st.length :: new, ?_, ?_, hinfo,
      ?_, fun p href hp he file pre out hpre => ?_⟩
    · rw [hadds]
      exact List.append_assoc _ _ _
    · rw [hinst]
      exact List.append_assoc _ _ _
    · rw [lengths_cons, hlen, Hinst.winst_size]
      rfl
    · obtain ⟨hne, hcpy, href'⟩ := href
      rw [sizes, List.map_cons, List.sum_cons] at hp
      have haddr : ∀ m, i.type = .cpy m → i.addr < e.cpylen + e.tgtlen := by
        intro m hm
        have := (hcpy m hm).1
        omega
      obtain ⟨o, ho, hw⟩ := i.winst_op he hne haddr hb st.adds st.length
      rw [← List.append_assoc, interpFrom, Winst.op_append hw, Option.bind_some, ← hpre,
        Op.apply_shift, carryAll, Hinst.carry, ho, Option.bind_some]
      cases hout : o.apply file out with
      | none => exact ⟨rfl, fun s hs => by cases hs⟩
      | some out' => exact hmean _ href' (by simp only [sizes]; omega) he file pre out' hpre

def Hinst.uses (i : Hinst) : ℕ :=
  match i.type with
  | .run => 1
  | .add => i.size
  | _ => 0

def dataUsed (is : List Hinst) : ℕ := (is.map Hinst.uses).sum

theorem Hinst.bytes_uses (i : Hinst) (data : List UInt8) :
    (i.bytes data = none ↔ data.length < i.uses) ∧
      ∀ b rest, i.bytes data = some (b, rest) → i.uses + rest.length = data.length := by
  unfold bytes uses
  cases i.type with
  | run =>
    dsimp only
    cases data with
    | nil => exact ⟨⟨fun _ => Nat.zero_lt_one, fun _ => rfl⟩, nofun⟩
    | cons c data =>
      refine ⟨⟨nofun, fun h => ?_⟩, fun b rest h => ?_⟩
      · rw [List.length_cons] at h
        omega
      · cases h
        rw [List.length_cons, Nat.add_comm]
  | add =>
    dsimp only
    split
    · rename_i hle
      refine ⟨⟨nofun, fun h => absurd h (Nat.not_lt.mpr hle)⟩, fun b rest h => ?_⟩
      cases h
      rw [List.length_drop]
      omega
    · rename_i hgt
      exact ⟨⟨fun _ => Nat.lt_of_not_le hgt, fun _ => rfl⟩, nofun⟩
  | noop =>
    refine ⟨⟨nofun, fun h => absurd h (Nat.not_lt_zero _)⟩, fun b rest h => ?_⟩
    cases h
    exact Nat.zero_add _
  | cpy m =>
    refine ⟨⟨nofun, fun h => absurd h (Nat.not_lt_zero _)⟩, fun b rest h => ?_⟩
    cases h
    exact Nat.zero_add _

/-- Appending reads past the data exactly if there are fewer bytes than the halves use. -/
theorem appendAll_uses (is : List Hinst) (st : WholeState) :
    (appendAll winstart mode e is (st, data) = none ↔ data.length < dataUsed is) ∧
      ∀ st' rest, appendAll winstart mode e is (st, data) = some (st', rest) →
        dataUsed is + rest.length = data.length := by
  induction is generalizing st data with
  | nil =>
    refine ⟨⟨fun h => (by cases h), fun h => absurd h (Nat.not_lt_zero _)⟩, fun st' rest h => ?_⟩
    cases h
    exact Nat.zero_add _
  | cons i is ih =>
    obtain ⟨hnone, hsome⟩ := i.bytes_uses data
    have hused : dataUsed (i :: is) = i.uses + dataUsed is := by
      rw [dataUsed, List.map_cons, List.sum_cons, dataUsed]
    rw [appendAll, Hinst.append, hused]
    cases hb : i.bytes data with
    | none =>
      have := hnone.mp hb
      exact ⟨⟨fun _ => by omega, fun _ => rfl⟩, fun _ _ h => by cases h⟩
    | some q =>
      obtain ⟨b, rest1⟩ := q
      have hlen := hsome b rest1 hb
      obtain ⟨h1, h2⟩ := @ih rest1 { st.push b (i.winst winstart mode e st.adds.length st.length)
        with length := xoff.add st.length i.size }
      refine ⟨Iff.trans h1 (by omega), fun st' rest h => ?_⟩
      have := h2 st' rest h
      omega

/-- Halves that refer to what precedes them can be carried out. -/
theorem exists_carryAll {file : List UInt8}
    (hin : e.cpylen = 0 ∨ e.cpyoff + e.cpylen ≤ file.length) {is : List Hinst} {s : Spot}
    (href : Refers e (e.cpylen + s.out.length) is) (hused : dataUsed is ≤ s.data.length) :
    ∃ s', carryAll file e is s = some s' ∧ s'.out.length = s.out.length + sizes is := by
  induction is generalizing s with
  | nil => exact ⟨s, rfl, rfl⟩
  | cons i is ih =>
    obtain ⟨hne, hcpy, href'⟩ := href
    have hused' : i.uses + dataUsed is ≤ s.data.length := by
      rwa [dataUsed, List.map_cons, List.sum_cons] at hused
    have hcarry : ∃ out rest, i.carry file e s = some ⟨out, rest⟩ ∧
        i.uses + rest.length = s.data.length := by
      obtain ⟨hnone, hsome⟩ := i.bytes_uses s.data
      cases hb : i.bytes s.data with
      | none =>
        have := hnone.mp hb
        omega
      | some q =>
        obtain ⟨b, rest⟩ := q
        have hrest := hsome b rest hb
        cases ht : i.type with
        | noop => exact absurd ht hne
        | run =>
          cases hd : s.data with
          | nil =>
            rw [hd, Hinst.bytes_run_nil ht] at hb
            cases hb
          | cons c data =>
            rw [hd, Hinst.bytes_run_cons ht] at hb
            cases hb
            refine ⟨s.out ++ List.replicate i.size c, rest, ?_, by rw [← hd]; exact hrest⟩
            rw [Hinst.carry, hd, Hinst.op_run_cons ht]
            rfl
        | add =>
          rw [Hinst.bytes_add ht] at hb
          split at hb
          · rename_i hle
            cases hb
            refine ⟨s.out ++ s.data.take i.size, _, ?_, hrest⟩
            rw [Hinst.carry, Hinst.op_add ht, if_pos hle]
            rfl
          · cases hb
        | cpy m =>
          rw [Hinst.bytes_cpy ht] at hb
          cases hb
          obtain ⟨hlt, hwithin⟩ := hcpy m ht
          rw [Hinst.carry, Hinst.op_cpy ht, Option.bind_some]
          by_cases haddr : i.addr < e.cpylen
          · have hle := hin.resolve_left (by omega)
            have hend := hwithin haddr
            rw [if_pos haddr]
            dsimp only
            rw [Op.apply_source_of_le (.inr (by omega))]
            exact ⟨_, _, rfl, hrest⟩
          · obtain ⟨added, ha, -⟩ := copyOverlap_eq_some
              (show i.addr - e.cpylen < s.out.length by omega) i.size
            rw [if_neg haddr]
            dsimp only [Op.apply]
            rw [ha]
            exact ⟨_, _, rfl, hrest⟩
    obtain ⟨out, rest, hc, hlen⟩ := hcarry
    have hout : out.length = s.out.length + i.size := Hinst.carry_length hc
    obtain ⟨s', hs', hlen'⟩ := @ih ⟨out, rest⟩ (by rw [hout, ← Nat.add_assoc]; exact href')
      (by dsimp only; omega)
    refine ⟨s', ?_, ?_⟩
    · rw [carryAll, hc]
      exact hs'
    · rw [hlen', hout, Nat.add_assoc]
      rfl

/-- An appended instruction refers to bytes that are there. -/
private theorem Hinst.winst_sound (he : e.Fits winstart mode) (hne : i.type ≠ .noop) {p : ℕ}
    (hcpy : ∀ m, i.type = .cpy m → i.addr < p ∧ (i.addr < e.cpylen → i.addr + i.size ≤ e.cpylen))
    (hp : e.cpylen ≤ p ∧ p ≤ e.cpylen + e.tgtlen) (hb : i.bytes data = some (b, rest))
    (adds : List UInt8) :
    (i.winst winstart mode e adds.length (winstart + (p - e.cpylen))).Sound (adds ++ b) := by
  cases ht : i.type with
  | noop => exact absurd ht hne
  | run =>
    cases data with
    | nil =>
      rw [bytes_run_nil ht] at hb
      cases hb
    | cons c data =>
      rw [bytes_run_cons ht] at hb
      cases hb
      rw [winst_run ht]
      exact ⟨nofun, fun _ => by simp, nofun, nofun, nofun⟩
  | add =>
    rw [bytes_add ht] at hb
    split at hb
    · cases hb
      rw [winst_add ht]
      refine ⟨nofun, nofun, fun _ => ?_, nofun, nofun⟩
      rw [List.length_append, List.length_take]
      dsimp only
      omega
    · cases hb
  | cpy m =>
    obtain ⟨hlt, hwithin⟩ := hcpy m ht
    have hbelow := he.below
    have hoffset := he.offset
    have hstart := he.start
    have hxoff : xoff.modulus = usize.modulus := rfl
    rw [winst_cpy ht]
    by_cases hin : i.addr < e.cpylen
    · have hend := hwithin hin
      rw [if_pos hin, xoff.add_eq (by omega)]
      exact ⟨nofun, nofun, nofun, fun _ _ h => absurd h (he.mode.resolve_left (by omega)),
        fun _ _ _ => by dsimp only; omega⟩
    · rw [if_neg hin, xoff.sub_add_eq (by omega) (by omega) (by omega)]
      exact ⟨nofun, nofun, nofun, fun _ _ _ => by dsimp only; omega, fun _ _ h => absurd rfl h⟩

@[simp] theorem Hinst.winst_position (i : Hinst) (addslen position : ℕ) :
    (i.winst winstart mode e addslen position).position = position := by
  unfold winst
  split
  · rfl
  · rfl
  · split <;> rfl

theorem appendAll_wf (he : e.Fits winstart mode) {is : List Hinst} {p : ℕ}
    (href : Refers e p is) (hle : e.cpylen ≤ p) (hp : p + sizes is ≤ e.cpylen + e.tgtlen)
    {st st' : WholeState} (hst : st.Wf) (hlen : st.length = winstart + (p - e.cpylen))
    (h : appendAll winstart mode e is (st, data) = some (st', rest)) :
    st'.Wf ∧ st'.length = st.length + sizes is := by
  induction is generalizing p st data with
  | nil =>
    cases h
    exact ⟨hst, rfl⟩
  | cons i is ih =>
    obtain ⟨hne, hcpy, href'⟩ := href
    obtain ⟨s1, hs1, h⟩ := Option.bind_eq_some_iff.mp h
    obtain ⟨⟨b, rest1⟩, hb, rfl⟩ := Option.map_eq_some_iff.mp hs1
    have hsizes : sizes (i :: is) = i.size + sizes is := rfl
    have hstart := he.start
    rw [hsizes] at hp ⊢
    have hsum : xoff.add st.length i.size = st.length + i.size := xoff.add_eq (by omega)
    have hsound := i.winst_sound he hne hcpy ⟨hle, by omega⟩ hb st.adds
    rw [← hlen] at hsound
    have hwf : ({ st.push b (i.winst winstart mode e st.adds.length st.length) with
        length := xoff.add st.length i.size } : WholeState).Wf := by
      refine ⟨laid_append.mpr ⟨hst.laid, ?_, trivial⟩, ?_, ?_, fun j hj => ?_⟩
      · rw [Hinst.winst_position, hst.length_eq, Nat.zero_add]
      · change xoff.add st.length i.size = lengths (st.inst ++ [_])
        rw [hsum, lengths_append, ← hst.length_eq, lengths_cons, Hinst.winst_size]
        rfl
      · change xoff.add st.length i.size < _
        rw [hsum]
        omega
      · rcases List.mem_append.mp hj with hj | hj
        · have hold := hst.sound j hj
          refine ⟨hold.ne, fun ht => ?_, fun ht => ?_, hold.target, hold.source⟩
          · have := hold.run ht
            change _ < (st.adds ++ b).length
            rw [List.length_append]
            omega
          · have := hold.add ht
            change _ ≤ (st.adds ++ b).length
            rw [List.length_append]
            omega
        · rw [List.mem_singleton.mp hj]
          exact hsound
    obtain ⟨h1, h2⟩ := ih href' (by omega) (by omega) hwf (by
      change xoff.add st.length i.size = _
      rw [hsum]
      omega) h
    refine ⟨h1, h2.trans ?_⟩
    change xoff.add st.length i.size + _ = _
    rw [hsum, Nat.add_assoc]

end Carry

/-- The window as a decoder holds it that has the source file, which contains the copy
window, and does not verify checksums. -/
structure Decoding (file : List UInt8) (app : Option GetblkFunc) (P : Source → Prop)
    (w d : Window) : Prop where
  delta : d.delta = w.delta
  idle : d.Idle Flags.Emits file
  emits : d.flags.Emits
  nover : d.flags.adler32Nover = true
  serves : ServesBlocks file app
  delivers : Delivers file app P fun _ => False
  source : ∀ s, d.src = some s → P s
  present : hasBits w.decWinInd vcdSource = true → d.src.isSome = true
  within : w.decCpylen = 0 ∨ w.decCpyoff + w.decCpylen ≤ file.length
  target : hasBits w.decWinInd vcdTarget = false

/-- The merge reader stays in the data section, and succeeds only on a window that fills
its target and uses up its sections; the decoder then accepts the window too, and what has
been appended writes the same bytes after whatever precedes the window. -/
structure Agrees (winstart : ℕ) (st : WholeState) (w : Window) : Prop where
  bounds : wholeAppendWindow winstart ⟨w, st⟩ ≠ .fault
  accepts : ∀ g, wholeAppendWindow winstart ⟨w, st⟩ = .ok () g →
    ∃ bytes new, g.whole.adds = st.adds ++ bytes ∧ g.whole.inst = st.inst ++ new ∧
      lengths new = w.decTgtlen ∧
      g.win.dataSect.buf = g.win.dataSect.bufMax ∧ g.win.addrSect.buf = g.win.addrSect.bufMax ∧
      (winstart + w.decTgtlen < xoff.modulus → ∀ file app P d, Decoding file app P w d →
        ∃ d', emitWindow app d = .ok () d' ∧ ∀ pre, pre.length = winstart →
          interpFrom (st.adds ++ bytes) file new pre = some (pre ++ d'.out))

/-- The data section holds what the instructions that can be read use; if all of them can be
read, they use all of it and all of the address section, and fill the target window. -/
structure Window.Exact (w : Window) : Prop where
  holds : dataUsed (w.script.read w.extent).1 ≤ w.dataSect.left.length
  complete : ∀ left, (w.script.read w.extent).2 = some left → left = [] ∧
    dataUsed (w.script.read w.extent).1 = w.dataSect.left.length ∧
    sizes (w.script.read w.extent).1 = w.decTgtlen

section Agree
variable {w : Window} {winstart : ℕ} {st : WholeState}

theorem Window.Ready.congr {d : Window} (hw : w.Ready) (h : d.delta = w.delta) : d.Ready := by
  have hd : w.delta.Ready := by
    refine ⟨⟨fun k => ?_, fun k => ?_, hw.near, hw.same⟩, hw.settled, hw.position, hw.maxpos,
      hw.below, hw.offset, hw.indicated, hw.tgtlen⟩
    · cases k <;> [exact hw.buf_le .data; exact hw.buf_le .inst; exact hw.buf_le .addr]
    · cases k <;> [exact hw.max_le .data; exact hw.max_le .inst; exact hw.max_le .addr]
  rw [← h] at hd
  refine ⟨⟨fun k => ?_, fun k => ?_, hd.near, hd.same⟩, hd.settled, hd.position, hd.maxpos,
    hd.below, hd.offset, hd.indicated, hd.tgtlen⟩
  · cases k <;> [exact hd.buf_le .data; exact hd.buf_le .inst; exact hd.buf_le .addr]
  · cases k <;> [exact hd.max_le .data; exact hd.max_le .inst; exact hd.max_le .addr]

theorem wholeAppendWindow_decides (hw : w.Ready) :
    (wholeAppendWindow winstart ⟨w, st⟩).Decides
      (w.dataSect.left.length < dataUsed (w.script.read w.extent).1)
      (fun _ g => g.win.Cursors ∧ (w.script.read w.extent).2 = some g.win.script.addr ∧
        ∃ info, appendAll winstart (copyMode w.decWinInd) w.extent (w.script.read w.extent).1
          ({ st with wininfo := info }, w.dataSect.left) = some (g.whole, g.win.dataSect.left))
      (fun _ => False)
      (fun _ _ => (w.script.read w.extent).2 = none ∧
        dataUsed (w.script.read w.extent).1 ≤ w.dataSect.left.length) := by
  unfold wholeAppendWindow
  refine (appendLoop_decides hw.toCursors hw.maxpos (Nat.lt_succ_self _)).mono
    (fun h => (appendAll_uses _ _).1.mp h) (fun _ g ⟨h1, h2, h3⟩ => ⟨h1, h3, _, h2⟩)
    (fun _ h => h) (fun _ _ ⟨h1, h2⟩ => ⟨h1, Nat.le_of_not_lt fun h => ?_⟩)
  exact h2 ((appendAll_uses _ _).1.mpr h)

theorem Window.Ready.fits (hw : w.Ready) (hstart : winstart + w.decTgtlen < xoff.modulus) :
    w.extent.Fits winstart (copyMode w.decWinInd) where
  below := hw.below
  offset := hw.offset
  start := hstart
  mode := by
    refine hw.indicated.imp_right fun h => ?_
    unfold copyMode
    rw [srcortgt, Bool.or_eq_true, beq_iff_eq, beq_iff_eq] at h
    split
    · decide
    · rename_i hne
      rw [if_pos (h.resolve_left hne)]
      decide

theorem Window.Exact.refers (hw : w.Ready) {left : List UInt8}
    (hleft : (w.script.read w.extent).2 = some left) (h : w.Exact) :
    Refers w.extent w.decCpylen (w.script.read w.extent).1 ∧
      w.decCpylen + sizes (w.script.read w.extent).1 ≤ w.extent.cpylen + w.extent.tgtlen := by
  have hsizes := (h.complete left hleft).2.2
  have hpos : w.script.position = w.decCpylen := hw.position
  have hbelow := hw.below
  rw [← hpos, hsizes]
  refine ⟨Script.read_refers ?_, ?_⟩
  · rw [hsizes, hpos]
    exact hbelow
  · rw [hpos]
    exact le_rfl

/-- The reader agrees with the decoder exactly on the windows that hold what they use. -/
theorem wholeAppendWindow_agrees_iff (hw : w.Ready) (winstart : ℕ) (st : WholeState) :
    Agrees winstart st w ↔ w.Exact := by
  have hdec : (wholeAppendWindow winstart ⟨w, st⟩).Decides _ _ _ _ :=
    wholeAppendWindow_decides hw
  constructor
  · intro h
    have hholds : dataUsed (w.script.read w.extent).1 ≤ w.dataSect.left.length := by
      cases hr : wholeAppendWindow winstart ⟨w, st⟩ with
      | fault => exact absurd hr h.bounds
      | starved g => rw [hr] at hdec; exact hdec.elim
      | stop e g => rw [hr] at hdec; exact hdec.2
      | ok a g =>
        rw [hr] at hdec
        obtain ⟨-, -, info, hall⟩ := hdec
        have := (appendAll_uses (w.script.read w.extent).1 _).2 _ _ hall
        omega
    refine ⟨hholds, fun left hleft => ?_⟩
    cases hr : wholeAppendWindow winstart ⟨w, st⟩ with
    | fault => exact absurd hr h.bounds
    | starved g => rw [hr] at hdec; exact hdec.elim
    | stop e g =>
      rw [hr] at hdec
      rw [hdec.1] at hleft
      cases hleft
    | ok a g =>
      rw [hr] at hdec
      obtain ⟨hcur, haddr, info, hall⟩ := hdec
      obtain ⟨bytes, new, -, hinst, hlen, hdata, haddr', -⟩ := h.accepts g hr
      obtain ⟨bytes', new', -, hinst', -, hlen', -⟩ := appendAll_interp hall
      have hnew : new = new' := List.append_cancel_left (hinst.symm.trans hinst')
      rw [haddr] at hleft
      cases hleft
      refine ⟨(Window.script_addr_nil hcur).mpr haddr', ?_, ?_⟩
      · have := (appendAll_uses (w.script.read w.extent).1 _).2 _ _ hall
        rw [show g.win.dataSect.left = [] from (Window.spot_data_nil hcur).mpr hdata] at this
        exact this
      · rw [← hlen', ← hnew, hlen]
  · intro h
    refine ⟨fun hr => ?_, fun g hr => ?_⟩
    · rw [hr] at hdec
      exact absurd h.holds (Nat.not_le.mpr hdec)
    · rw [hr] at hdec
      obtain ⟨hcur, haddr, info, hall⟩ := hdec
      obtain ⟨hnil, hused, hsizes⟩ := h.complete _ haddr
      obtain ⟨href, hle⟩ := Window.Exact.refers hw haddr h
      obtain ⟨bytes, new, hadds, hinst, -, hlen, hmean⟩ := appendAll_interp hall
      have hrest : g.win.dataSect.left = [] := by
        have := (appendAll_uses (w.script.read w.extent).1 _).2 _ _ hall
        exact List.length_eq_zero_iff.mp (by omega)
      refine ⟨bytes, new, hadds, hinst, hlen.trans hsizes, (Window.spot_data_nil hcur).mp hrest,
        (Window.script_addr_nil hcur).mp hnil, fun hstart file app P d hd => ?_⟩
      have hext : d.extent = w.extent :=
        (congrArg Window.extent hd.delta : d.delta.extent = w.delta.extent)
      have hscript : d.script = w.script :=
        (congrArg Window.script hd.delta : d.delta.script = w.delta.script)
      have hdata : d.dataSect = w.dataSect :=
        (congrArg Window.dataSect hd.delta : d.delta.dataSect = w.delta.dataSect)
      have hready := hw.congr hd.delta
      have hspot : d.spot = ⟨[], w.dataSect.left⟩ := by
        rw [Window.spot, hd.idle.out, hdata]
      have hzero : Refers w.extent (w.extent.cpylen + ([] : List UInt8).length)
          (w.script.read w.extent).1 := href
      obtain ⟨s, hs, hslen⟩ := exists_carryAll (s := ⟨[], w.dataSect.left⟩) hd.within hzero h.holds
      have hinterp := fun pre hpre => hmean _ href hle (hw.fits hstart) file pre [] hpre
      have hmeaning : d.meaning file = some s.out := by
        rw [Window.meaning, Window.rest_settled hready.settled, hext, hscript, haddr, hnil,
          if_pos rfl, hspot, delivered_eq, hs, Option.bind_some]
        have hsdata : s.data = [] := by
          rw [← hrest]
          exact (hinterp (List.replicate winstart 0) List.length_replicate).2 s hs
        refine if_pos ⟨?_, hsdata⟩
        rw [hslen, hsizes]
        exact Nat.zero_add _
      have hind : d.decWinInd = w.decWinInd :=
        (congrArg Window.decWinInd hd.delta : d.delta.decWinInd = w.delta.decWinInd)
      have hwithin : d.extent.cpylen = 0 ∨
          d.extent.cpyoff + d.extent.cpylen ≤ file.length := by
        rw [hext]
        exact hd.within
      have hsum : ¬d.Mismatch s.out := by
        intro hm
        have := hm.2.1
        rw [hd.nover] at this
        cases this
      obtain ⟨d', hd', hout⟩ := emitWindow_ok hd.serves hd.delivers hready hd.idle hd.emits
        (hind ▸ hd.target) hd.source (hind ▸ hd.present) hwithin hsum hmeaning
      refine ⟨d', hd', fun pre hpre => ?_⟩
      have := (hinterp pre hpre).1
      rw [List.append_nil, hs] at this
      rw [this, hout]
      rfl

/-- A window that holds what it uses keeps the whole delta well formed. -/
theorem wholeAppendWindow_wf (hw : w.Ready) (he : w.Exact) (hst : st.Wf)
    (hlen : st.length = winstart) (hstart : winstart + w.decTgtlen < xoff.modulus) {g : Gather}
    (h : wholeAppendWindow winstart ⟨w, st⟩ = .ok () g) :
    g.whole.Wf ∧ g.whole.length = winstart + w.decTgtlen := by
  have hdec : (wholeAppendWindow winstart ⟨w, st⟩).Decides _ _ _ _ :=
    wholeAppendWindow_decides hw
  rw [h] at hdec
  obtain ⟨-, haddr, info, hall⟩ := hdec
  obtain ⟨href, hle⟩ := Window.Exact.refers hw haddr he
  have hwf : ({ st with wininfo := info } : WholeState).Wf :=
    ⟨hst.laid, hst.length_eq, hst.below, hst.sound⟩
  obtain ⟨h1, h2⟩ := appendAll_wf (hw.fits hstart) href le_rfl hle hwf
    (hlen.trans (by rw [show w.extent.cpylen = w.decCpylen from rfl, Nat.sub_self, Nat.add_zero]))
    hall
  refine ⟨h1, h2.trans ?_⟩
  rw [(he.complete _ haddr).2.2]
  exact congrArg (· + w.decTgtlen) hlen

end Agree

def shortData : Window where
  decTgtlen := 5
  decMaxpos := 5
  instSect := { mem := [6], bufMax := 1, size := 1 }
  acache := AddrCache.rfc3284

theorem shortData_ready : shortData.Ready where
  buf_le k := by cases k <;> decide
  max_le k := by cases k <;> decide
  near := rfl
  same := rfl
  settled := ⟨rfl, rfl⟩
  position := rfl
  maxpos := rfl
  below := by decide
  offset := by decide
  indicated := .inl rfl
  tgtlen := by decide

/-- The reader copies the five bytes from beyond the end of the data section. -/
theorem wholeAppendWindow_overreads :
    shortData.Ready ∧ wholeAppendWindow 0 ⟨shortData, {}⟩ = .fault ∧ ¬Agrees 0 {} shortData := by
  have hfault : wholeAppendWindow 0 ⟨shortData, {}⟩ = .fault := rfl
  exact ⟨shortData_ready, hfault, fun h => h.bounds hfault⟩

/-- A window that adds two bytes and copies four after them, with neither too much nor too
little in its sections. -/
def fullData : Window where
  decWinInd := vcdSource
  decCpylen := 4
  decCpyoff := 2
  decTgtlen := 6
  decPosition := 4
  decMaxpos := 10
  dataSect := { mem := [1, 2], bufMax := 2, size := 2 }
  instSect := { mem := [3, 20], bufMax := 2, size := 2 }
  addrSect := { mem := [0], bufMax := 1, size := 1 }
  acache := AddrCache.rfc3284

theorem fullData_ready : fullData.Ready where
  buf_le k := by cases k <;> decide
  max_le k := by cases k <;> decide
  near := rfl
  same := rfl
  settled := ⟨rfl, rfl⟩
  position := rfl
  maxpos := rfl
  below := by decide
  offset := by decide
  indicated := .inr rfl
  tgtlen := by decide

theorem fullData_exact : fullData.Exact := by
  have hread : fullData.script.read fullData.extent = ([⟨.add, 2, 0⟩, ⟨.cpy 0, 4, 0⟩], some []) :=
    rfl
  constructor
  · rw [hread]
    decide
  · rw [hread]
    rintro left ⟨⟩
    exact ⟨rfl, rfl, rfl⟩

theorem wholeAppendWindow_agrees_fullData : Agrees 0 {} fullData ∧ ¬Agrees 0 {} shortData := by
  refine ⟨(wholeAppendWindow_agrees_iff fullData_ready 0 {}).mpr fullData_exact, fun h => ?_⟩
  have hexact := (wholeAppendWindow_agrees_iff shortData_ready 0 {}).mp h
  exact absurd hexact.holds (by decide)

end Xdelta
