import Xdelta.Decoder.Execution

/-!
# One byte at a time

A window interpreted byte by byte: a run repeats its byte, an add takes the bytes of the
data section, a copy reads each byte from the source file or from the target window that
is being written. This is what the instructions of a window mean.
-/
namespace Xdelta
open Chunked Delta

/-- The byte at an address: of the copy window, or of the target window so far. -/
def byteAtAddr (file : List UInt8) (e : Extent) (out : List UInt8) (addr : ℕ) : Option UInt8 :=
  if addr < e.cpylen then file[e.cpyoff + addr]? else out[addr - e.cpylen]?

/-- Copy `n` bytes, each of which may be one that the copy has written. -/
def copyBytes (file : List UInt8) (e : Extent) : ℕ → ℕ → List UInt8 → Option (List UInt8)
  | 0, _, out => some out
  | n + 1, addr, out =>
    (byteAtAddr file e out addr).bind fun b => copyBytes file e n (addr + 1) (out ++ [b])

def Hinst.interpret (file : List UInt8) (e : Extent) (i : Hinst) (s : Spot) : Option Spot :=
  match i.type with
  | .noop => none
  | .run => s.data.head?.map fun b => ⟨s.out ++ List.replicate i.size b, s.data.tail⟩
  | .add =>
    if i.size ≤ s.data.length then some ⟨s.out ++ s.data.take i.size, s.data.drop i.size⟩ else none
  | .cpy _ => (copyBytes file e i.size i.addr s.out).map fun out => ⟨out, s.data⟩

/-- Interpret the halves: they must fill the target window and use up the data. -/
def interpretAll (file : List UInt8) (e : Extent) : List Hinst → Spot → Option (List UInt8)
  | [], s => if s.out.length = e.tgtlen ∧ s.data = [] then some s.out else none
  | i :: is, s => (i.interpret file e s).bind (interpretAll file e is)

/-- The target window, if every instruction can be read and the address section is used up. -/
def Window.interpret (file : List UInt8) (w : Window) : Option (List UInt8) :=
  if (w.script.read w.extent).2 = some [] then interpretAll file w.extent w.rest w.spot else none

section Bytes
variable {file : List UInt8} {e : Extent}

theorem copyBytes_source {n addr : ℕ} (hin : addr + n ≤ e.cpylen) (out : List UInt8) :
    copyBytes file e n addr out =
      if n = 0 ∨ e.cpyoff + addr + n ≤ file.length then
        some (out ++ (file.drop (e.cpyoff + addr)).take n) else none := by
  induction n generalizing addr out with
  | zero => simp [copyBytes]
  | succ n ih =>
    rw [copyBytes, byteAtAddr, if_pos (by omega)]
    by_cases hlt : e.cpyoff + addr < file.length
    · rw [List.getElem?_eq_getElem hlt, Option.bind_some, ih (by omega)]
      by_cases hn : n = 0 ∨ e.cpyoff + (addr + 1) + n ≤ file.length
      · rw [if_pos hn, if_pos (by omega), List.append_assoc, List.drop_eq_getElem_cons hlt,
          List.take_succ_cons]
        rfl
      · rw [if_neg hn, if_neg (by omega)]
    · rw [List.getElem?_eq_none (Nat.le_of_not_lt hlt), Option.bind_none, if_neg (by omega)]

theorem copyBytes_target {n addr : ℕ} (h : e.cpylen ≤ addr) (out : List UInt8) :
    copyBytes file e n addr out = copyOverlap out (addr - e.cpylen) n := by
  induction n generalizing addr out with
  | zero => rfl
  | succ n ih =>
    rw [copyBytes, byteAtAddr, if_neg (Nat.not_lt.mpr h), copyOverlap]
    cases out[addr - e.cpylen]? with
    | none => rfl
    | some b =>
      dsimp only
      rw [Option.bind_some, ih (by omega), show addr + 1 - e.cpylen = addr - e.cpylen + 1 by omega]

theorem copyBytes_length {n addr : ℕ} {out out' : List UInt8}
    (h : copyBytes file e n addr out = some out') : out'.length = out.length + n := by
  induction n generalizing addr out with
  | zero =>
    cases h
    rfl
  | succ n ih =>
    obtain ⟨b, -, h⟩ := Option.bind_eq_some_iff.mp h
    rw [ih h, List.length_append, List.length_singleton]
    omega

/-- A copy that starts in the copy window ends in it. -/
def Hinst.Inside (e : Extent) (i : Hinst) : Prop :=
  ∀ m, i.type = .cpy m → i.addr < e.cpylen → i.addr + i.size ≤ e.cpylen

theorem Hinst.interpret_eq_carry {i : Hinst} (h : i.Inside e) (s : Spot) :
    i.interpret file e s = i.carry file e s := by
  obtain ⟨out, data⟩ := s
  unfold interpret carry
  cases ht : i.type with
  | noop =>
    unfold op
    rw [ht]
    rfl
  | run =>
    cases data with
    | nil =>
      rw [op_run_nil ht]
      rfl
    | cons b rest =>
      rw [op_run_cons ht]
      rfl
  | add =>
    rw [op_add ht]
    dsimp only
    by_cases hle : i.size ≤ data.length
    · rw [if_pos hle, if_pos hle]
      rfl
    · rw [if_neg hle, if_neg hle]
      rfl
  | cpy m =>
    rw [op_cpy ht, Option.bind_some]
    dsimp only
    by_cases hlt : i.addr < e.cpylen
    · rw [if_pos hlt, copyBytes_source (h m ht hlt)]
      rfl
    · rw [if_neg hlt, copyBytes_target (Nat.le_of_not_lt hlt)]
      rfl

theorem Hinst.interpret_length {i : Hinst} {s s' : Spot} (h : i.interpret file e s = some s') :
    s'.out.length = s.out.length + i.size := by
  unfold interpret at h
  cases ht : i.type with
  | noop =>
    rw [ht] at h
    cases h
  | run =>
    rw [ht] at h
    obtain ⟨b, -, rfl⟩ := Option.map_eq_some_iff.mp h
    rw [List.length_append, List.length_replicate]
  | add =>
    rw [ht] at h
    dsimp only at h
    split at h
    · rename_i hle
      cases h
      rw [List.length_append, List.length_take_of_le hle]
    · cases h
  | cpy m =>
    rw [ht] at h
    obtain ⟨out, hout, rfl⟩ := Option.map_eq_some_iff.mp h
    exact copyBytes_length hout

/-- Halves that write more than the window holds deliver nothing. -/
theorem interpretAll_over {is : List Hinst} {s : Spot} (h : e.tgtlen < s.out.length + sizes is) :
    interpretAll file e is s = none := by
  induction is generalizing s with
  | nil => exact if_neg fun hc => absurd hc.1 (Nat.ne_of_gt h)
  | cons i is ih =>
    rw [interpretAll]
    cases hc : i.interpret file e s with
    | none => rfl
    | some s' =>
      refine ih ?_
      rw [Hinst.interpret_length hc]
      rwa [sizes, List.map_cons, List.sum_cons, ← Nat.add_assoc] at h

theorem interpretAll_eq {is : List Hinst}
    (h : ∀ i ∈ is, i.Inside e ∨ e.tgtlen < i.size) (s : Spot) :
    interpretAll file e is s = delivered file e is s := by
  induction is generalizing s with
  | nil => rfl
  | cons i is ih =>
    rcases h i List.mem_cons_self with hin | hbig
    · rw [interpretAll, delivered, Hinst.interpret_eq_carry hin]
      exact congrArg (Option.bind _) (funext (ih fun j hj => h j (List.mem_cons_of_mem _ hj)))
    · have hover : e.tgtlen < s.out.length + sizes (i :: is) := by
        rw [sizes, List.map_cons, List.sum_cons]
        omega
      rw [interpretAll_over hover, delivered_over hover]

end Bytes

def Hinst.Checked (e : Extent) (i : Hinst) : Prop :=
  ∀ m, i.type = .cpy m → i.addr < e.cpylen → usize.add i.addr i.size ≤ e.cpylen

/-- The sum has not wrapped, or the half is larger than any target window. -/
theorem Hinst.Checked.inside {e : Extent} {i : Hinst} (h : i.Checked e)
    (hbelow : e.cpylen + e.tgtlen < usize.modulus) : i.Inside e ∨ e.tgtlen < i.size := by
  by_cases hsum : i.addr + i.size < usize.modulus
  · refine .inl fun m hm hlt => ?_
    rw [← usize.add_eq hsum]
    exact h m hm hlt
  · by_cases hlt : i.addr < e.cpylen
    · exact .inr (by omega)
    · exact .inl fun m hm h => absurd h hlt

theorem Hinst.Checked.norm {e : Extent} {i : Hinst} (h : i.Checked e) : i.norm.Checked e := by
  intro m hm
  unfold Hinst.norm at hm ⊢
  split at hm
  · rename_i heq
    exact h m hm
  · rename_i hne
    exact absurd hm (hne m)

namespace Script
variable {e : Extent}

theorem half_checked {t : RType} {n : ℕ} {r : Script} {p : Hinst × Script}
    (h : r.half e t n = some p) : p.1.Checked e := by
  obtain ⟨q, -, h⟩ := Option.bind_eq_some_iff.mp h
  obtain ⟨q', hq', h⟩ := Option.bind_eq_some_iff.mp h
  obtain ⟨r', -, rfl⟩ := Option.map_eq_some_iff.mp h
  intro m hm hlt
  unfold address at hq'
  split at hq'
  · obtain ⟨v, -, hv⟩ := Option.bind_eq_some_iff.mp hq'
    split at hv
    · rename_i hcheck
      cases hv
      exact hcheck.2 hlt
    · cases hv
  · rename_i hne
    exact absurd hm (hne m)

theorem next_checked {r : Script} {p : List Hinst × Script} (h : r.next e = some p) :
    ∀ i ∈ p.1, i.Checked e := by
  unfold next at h
  split at h
  · cases h
  · obtain ⟨q, hq, h⟩ := Option.bind_eq_some_iff.mp h
    split at h
    · cases h
      intro i hi
      rw [List.mem_singleton.mp hi]
      exact half_checked hq
    · obtain ⟨q', hq', rfl⟩ := Option.map_eq_some_iff.mp h
      intro i hi
      simp only [List.mem_cons, List.not_mem_nil, or_false] at hi
      rcases hi with rfl | rfl
      · exact half_checked hq
      · exact half_checked hq'

theorem read_checked (r : Script) : ∀ i ∈ (r.read e).1, i.Checked e := by
  suffices ∀ n (r : Script), ∀ i ∈ (readFrom e n r).1, i.Checked e from this _ r
  intro n
  induction n with
  | zero => exact fun r i hi => absurd hi List.not_mem_nil
  | succ n ih =>
    intro r i hi
    unfold readFrom at hi
    split at hi
    · exact absurd hi List.not_mem_nil
    · split at hi
      · exact absurd hi List.not_mem_nil
      · rename_i is r' hnext
        rw [List.mem_append] at hi
        rcases hi with hi | hi
        · exact next_checked hnext i hi
        · exact ih r' i hi

end Script

namespace Window

theorem remaining_checked {w : Window} {h : Half} (hw : (w.half h).Checked w.extent) :
    ∀ i ∈ w.remaining h, i.Checked w.extent := by
  intro i hi
  unfold remaining at hi
  split at hi
  · exact absurd hi List.not_mem_nil
  · rw [List.mem_singleton.mp hi]
    exact hw.norm

/-- What a window means is its interpretation byte by byte. -/
theorem interpret_eq_meaning {w : Window} (hbelow : w.decCpylen + w.decTgtlen < usize.modulus)
    (hw : ∀ h, (w.half h).Checked w.extent) (file : List UInt8) :
    w.interpret file = w.meaning file := by
  have hall : ∀ i ∈ w.rest, i.Inside w.extent ∨ w.extent.tgtlen < i.size := by
    intro i hi
    refine Hinst.Checked.inside ?_ hbelow
    rw [rest, List.mem_append, List.mem_append] at hi
    rcases hi with hi | hi | hi
    · exact remaining_checked (hw _) i hi
    · exact remaining_checked (hw _) i hi
    · exact w.script.read_checked i hi
  rw [interpret, meaning, interpretAll_eq hall]

end Window

section Longer
variable {file : List UInt8} {e : Extent} (extra : List UInt8)

theorem byteAtAddr_append {out : List UInt8} {addr : ℕ} {b : UInt8}
    (h : byteAtAddr file e out addr = some b) : byteAtAddr (file ++ extra) e out addr = some b := by
  unfold byteAtAddr at h ⊢
  split
  · rename_i hlt
    rw [if_pos hlt] at h
    obtain ⟨hin, -⟩ := List.getElem?_eq_some_iff.mp h
    rw [List.getElem?_append_left hin]
    exact h
  · rename_i hlt
    rw [if_neg hlt] at h
    exact h

theorem copyBytes_append {n addr : ℕ} {out out' : List UInt8}
    (h : copyBytes file e n addr out = some out') :
    copyBytes (file ++ extra) e n addr out = some out' := by
  induction n generalizing addr out with
  | zero => exact h
  | succ n ih =>
    obtain ⟨b, hb, hrest⟩ := Option.bind_eq_some_iff.mp h
    rw [copyBytes, byteAtAddr_append extra hb]
    exact ih hrest

theorem Hinst.interpret_append {i : Hinst} {s s' : Spot} (h : i.interpret file e s = some s') :
    i.interpret (file ++ extra) e s = some s' := by
  unfold Hinst.interpret at h ⊢
  cases ht : i.type with
  | noop => rw [ht] at h; exact h
  | run => rw [ht] at h; exact h
  | add => rw [ht] at h; exact h
  | cpy m =>
    rw [ht] at h
    obtain ⟨out, hout, hs⟩ := Option.map_eq_some_iff.mp h
    exact Option.map_eq_some_iff.mpr ⟨out, copyBytes_append extra hout, hs⟩

theorem interpretAll_append {is : List Hinst} {s : Spot} {out : List UInt8}
    (h : interpretAll file e is s = some out) : interpretAll (file ++ extra) e is s = some out := by
  induction is generalizing s with
  | nil => exact h
  | cons i is ih =>
    obtain ⟨s', hs', hrest⟩ := Option.bind_eq_some_iff.mp h
    rw [interpretAll, i.interpret_append extra hs']
    exact ih hrest

/-- What a window delivers does not depend on what follows the end of the file. -/
theorem Window.interpret_append {w : Window} {out : List UInt8}
    (h : w.interpret file = some out) : w.interpret (file ++ extra) = some out := by
  unfold Window.interpret at h ⊢
  split
  · rename_i hread
    rw [if_pos hread] at h
    exact interpretAll_append extra h
  · rename_i hread
    rw [if_neg hread] at h
    cases h

end Longer

end Xdelta
