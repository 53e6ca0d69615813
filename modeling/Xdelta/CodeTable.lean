import Mathlib.Tactic.Common

/-!
# The default instruction code table

Types, sizes and modes of the 256 opcodes, and the choice of single and double
opcodes made by the encoder. The expanded table is the one the code carries;
it agrees with the parametrized description it was generated from.
-/
namespace Xdelta

/-- Instruction types. A copy carries its address mode, as `XD3_CPY + mode` does. -/
inductive RType where
  | noop
  | add
  | run
  | cpy (mode : ℕ)
  deriving DecidableEq, Repr

namespace RType

def ofCode : ℕ → RType
  | 0 => noop
  | 1 => add
  | 2 => run
  | n + 3 => cpy n

end RType

def minMatch : ℕ := 4
def minRun : ℕ := 8

structure Dinst where
  type1 : RType
  size1 : ℕ
  type2 : RType
  size2 : ℕ
  deriving DecidableEq, Repr

/-- A raw instruction of the encoder's queue. -/
structure Rinst where
  type : RType
  xtra : ℕ := 0
  code1 : ℕ := 0
  code2 : ℕ := 0
  pos : ℕ
  size : ℕ
  addr : ℕ := 0
  deriving DecidableEq, Repr

/-- `__rfc3284_code_table`. -/
def codeTableCodes : List (ℕ × ℕ × ℕ × ℕ) :=
  [(2,0,0,0), (1,0,0,0), (1,1,0,0), (1,2,0,0), (1,3,0,0), (1,4,0,0), (1,5,0,0), (1,6,0,0),
   (1,7,0,0), (1,8,0,0), (1,9,0,0), (1,10,0,0), (1,11,0,0), (1,12,0,0), (1,13,0,0), (1,14,0,0),
   (1,15,0,0), (1,16,0,0), (1,17,0,0), (3,0,0,0), (3,4,0,0), (3,5,0,0), (3,6,0,0), (3,7,0,0),
   (3,8,0,0), (3,9,0,0), (3,10,0,0), (3,11,0,0), (3,12,0,0), (3,13,0,0), (3,14,0,0), (3,15,0,0),
   (3,16,0,0), (3,17,0,0), (3,18,0,0), (4,0,0,0), (4,4,0,0), (4,5,0,0), (4,6,0,0), (4,7,0,0),
   (4,8,0,0), (4,9,0,0), (4,10,0,0), (4,11,0,0), (4,12,0,0), (4,13,0,0), (4,14,0,0), (4,15,0,0),
   (4,16,0,0), (4,17,0,0), (4,18,0,0), (5,0,0,0), (5,4,0,0), (5,5,0,0), (5,6,0,0), (5,7,0,0),
   (5,8,0,0), (5,9,0,0), (5,10,0,0), (5,11,0,0), (5,12,0,0), (5,13,0,0), (5,14,0,0), (5,15,0,0),
   (5,16,0,0), (5,17,0,0), (5,18,0,0), (6,0,0,0), (6,4,0,0), (6,5,0,0), (6,6,0,0), (6,7,0,0),
   (6,8,0,0), (6,9,0,0), (6,10,0,0), (6,11,0,0), (6,12,0,0), (6,13,0,0), (6,14,0,0), (6,15,0,0),
   (6,16,0,0), (6,17,0,0), (6,18,0,0), (7,0,0,0), (7,4,0,0), (7,5,0,0), (7,6,0,0), (7,7,0,0),
   (7,8,0,0), (7,9,0,0), (7,10,0,0), (7,11,0,0), (7,12,0,0), (7,13,0,0), (7,14,0,0), (7,15,0,0),
   (7,16,0,0), (7,17,0,0), (7,18,0,0), (8,0,0,0), (8,4,0,0), (8,5,0,0), (8,6,0,0), (8,7,0,0),
   (8,8,0,0), (8,9,0,0), (8,10,0,0), (8,11,0,0), (8,12,0,0), (8,13,0,0), (8,14,0,0), (8,15,0,0),
   (8,16,0,0), (8,17,0,0), (8,18,0,0), (9,0,0,0), (9,4,0,0), (9,5,0,0), (9,6,0,0), (9,7,0,0),
   (9,8,0,0), (9,9,0,0), (9,10,0,0), (9,11,0,0), (9,12,0,0), (9,13,0,0), (9,14,0,0), (9,15,0,0),
   (9,16,0,0), (9,17,0,0), (9,18,0,0), (10,0,0,0), (10,4,0,0), (10,5,0,0), (10,6,0,0), (10,7,0,0),
   (10,8,0,0), (10,9,0,0), (10,10,0,0), (10,11,0,0), (10,12,0,0), (10,13,0,0), (10,14,0,0),
   (10,15,0,0), (10,16,0,0), (10,17,0,0), (10,18,0,0), (11,0,0,0), (11,4,0,0), (11,5,0,0),
   (11,6,0,0), (11,7,0,0), (11,8,0,0), (11,9,0,0), (11,10,0,0), (11,11,0,0), (11,12,0,0),
   (11,13,0,0), (11,14,0,0), (11,15,0,0), (11,16,0,0), (11,17,0,0), (11,18,0,0), (1,1,3,4),
   (1,1,3,5), (1,1,3,6), (1,2,3,4), (1,2,3,5), (1,2,3,6), (1,3,3,4), (1,3,3,5), (1,3,3,6),
   (1,4,3,4), (1,4,3,5), (1,4,3,6), (1,1,4,4), (1,1,4,5), (1,1,4,6), (1,2,4,4), (1,2,4,5),
   (1,2,4,6), (1,3,4,4), (1,3,4,5), (1,3,4,6), (1,4,4,4), (1,4,4,5), (1,4,4,6), (1,1,5,4),
   (1,1,5,5), (1,1,5,6), (1,2,5,4), (1,2,5,5), (1,2,5,6), (1,3,5,4), (1,3,5,5), (1,3,5,6),
   (1,4,5,4), (1,4,5,5), (1,4,5,6), (1,1,6,4), (1,1,6,5), (1,1,6,6), (1,2,6,4), (1,2,6,5),
   (1,2,6,6), (1,3,6,4), (1,3,6,5), (1,3,6,6), (1,4,6,4), (1,4,6,5), (1,4,6,6), (1,1,7,4),
   (1,1,7,5), (1,1,7,6), (1,2,7,4), (1,2,7,5), (1,2,7,6), (1,3,7,4), (1,3,7,5), (1,3,7,6),
   (1,4,7,4), (1,4,7,5), (1,4,7,6), (1,1,8,4), (1,1,8,5), (1,1,8,6), (1,2,8,4), (1,2,8,5),
   (1,2,8,6), (1,3,8,4), (1,3,8,5), (1,3,8,6), (1,4,8,4), (1,4,8,5), (1,4,8,6), (1,1,9,4),
   (1,2,9,4), (1,3,9,4), (1,4,9,4), (1,1,10,4), (1,2,10,4), (1,3,10,4), (1,4,10,4), (1,1,11,4),
   (1,2,11,4), (1,3,11,4), (1,4,11,4), (3,4,1,1), (4,4,1,1), (5,4,1,1), (6,4,1,1), (7,4,1,1),
   (8,4,1,1), (9,4,1,1), (10,4,1,1), (11,4,1,1)]

def codeTable (code : UInt8) : Dinst :=
  match codeTableCodes.getD code.toNat (0,0,0,0) with
  | (t1, s1, t2, s2) => ⟨.ofCode t1, s1, .ofCode t2, s2⟩

/-- `xd3_choose_instruction`: the single opcode of `inst` and, when it pairs with
the pending instruction `prev`, the double opcode recorded on `prev`. -/
def chooseInstruction (prev : Option Rinst) (inst : Rinst) : Option Rinst × Rinst :=
  match inst.type with
  | .noop => (prev, inst)
  | .run => (prev, { inst with code1 := 0 })
  | .add =>
    if inst.size ≤ 17 then
      let inst' := { inst with code1 := 1 + inst.size }
      match prev with
      | some p =>
        match p.type with
        | .cpy mode =>
          if inst.size = 1 ∧ p.size = 4 then (some { p with code2 := 247 + mode }, inst')
          else (prev, inst')
        | _ => (prev, inst')
      | none => (prev, inst')
    else (prev, { inst with code1 := 1 })
  | .cpy mode =>
    let code1 := 19 + 16 * mode
    if inst.size ≤ 18 ∧ 4 ≤ inst.size then
      let inst' := { inst with code1 := code1 + (inst.size - 3) }
      match prev with
      | some p =>
        if p.type = .add ∧ p.size ≤ 4 then
          if inst.size ≤ 6 ∧ mode ≤ 5 then
            (some { p with code2 := 163 + mode * 12 + 3 * (p.size - 1) + (inst.size - 4) }, inst')
          else if inst.size = 4 ∧ 6 ≤ mode then
            (some { p with code2 := 235 + (mode - 6) * 4 + (p.size - 1) }, inst')
          else (prev, inst')
        else (prev, inst')
      | none => (prev, inst')
    else (prev, { inst with code1 := code1 })

private theorem codeTable_ofNat {c : ℕ} (h : c < 256) : codeTable (UInt8.ofNat c) =
    match codeTableCodes.getD c (0,0,0,0) with
    | (t1, s1, t2, s2) => ⟨.ofCode t1, s1, .ofCode t2, s2⟩ := by
  rw [codeTable, UInt8.toNat_ofNat', Nat.mod_eq_of_lt h]

theorem codeTable_run : codeTable (UInt8.ofNat 0) = ⟨.run, 0, .noop, 0⟩ := by decide

theorem codeTable_add {n : ℕ} (h : n ≤ 17) :
    codeTable (UInt8.ofNat (1 + n)) = ⟨.add, n, .noop, 0⟩ := by
  rw [codeTable_ofNat (by omega)]
  revert n
  decide

theorem codeTable_cpy_sized {m : ℕ} (h : m < 9) :
    codeTable (UInt8.ofNat (19 + 16 * m)) = ⟨.cpy m, 0, .noop, 0⟩ := by
  rw [codeTable_ofNat (by omega)]
  revert m
  decide

theorem codeTable_cpy {m n : ℕ} (h : m < 9) (h4 : 4 ≤ n) (h18 : n ≤ 18) :
    codeTable (UInt8.ofNat (19 + 16 * m + (n - 3))) = ⟨.cpy m, n, .noop, 0⟩ := by
  rw [codeTable_ofNat (by omega)]
  obtain ⟨k, rfl⟩ := Nat.exists_eq_add_of_le h4
  rw [show 4 + k - 3 = k + 1 by omega]
  have hk : k ≤ 14 := by omega
  clear h4 h18
  revert k
  revert m
  decide

theorem codeTable_add_cpy {m a n : ℕ} (h : m ≤ 5) (ha : 1 ≤ a) (ha4 : a ≤ 4) (h4 : 4 ≤ n)
    (h6 : n ≤ 6) : codeTable (UInt8.ofNat (163 + m * 12 + 3 * (a - 1) + (n - 4))) =
      ⟨.add, a, .cpy m, n⟩ := by
  rw [codeTable_ofNat (by omega)]
  obtain ⟨k, rfl⟩ := Nat.exists_eq_add_of_le h4
  obtain ⟨b, rfl⟩ := Nat.exists_eq_add_of_le ha
  rw [Nat.add_sub_cancel_left, Nat.add_sub_cancel_left]
  have hk : k ≤ 2 := by omega
  have hb : b ≤ 3 := by omega
  clear h4 h6 ha ha4
  revert b
  revert k
  revert m
  decide

theorem codeTable_add_cpy_same {m a : ℕ} (h6 : 6 ≤ m) (h : m < 9) (ha : 1 ≤ a) (ha4 : a ≤ 4) :
    codeTable (UInt8.ofNat (235 + (m - 6) * 4 + (a - 1))) = ⟨.add, a, .cpy m, 4⟩ := by
  rw [codeTable_ofNat (by omega)]
  obtain ⟨k, rfl⟩ := Nat.exists_eq_add_of_le h6
  obtain ⟨b, rfl⟩ := Nat.exists_eq_add_of_le ha
  rw [Nat.add_sub_cancel_left, Nat.add_sub_cancel_left]
  have hk : k ≤ 2 := by omega
  have hb : b ≤ 3 := by omega
  clear h6 h ha ha4
  revert b
  revert k
  decide

theorem codeTable_cpy_add {m : ℕ} (h : m < 9) :
    codeTable (UInt8.ofNat (247 + m)) = ⟨.cpy m, 4, .add, 1⟩ := by
  rw [codeTable_ofNat (by omega)]
  revert m
  decide

/-- Every opcode starts with a real instruction, and no mode exceeds the cache's nine. -/
theorem codeTable_wf (code : UInt8) :
    (codeTable code).type1 ≠ .noop ∧
      (∀ m, (codeTable code).type1 = .cpy m → m < 9) ∧
      (∀ m, (codeTable code).type2 = .cpy m → m < 9) := by
  have key : ∀ d ∈ codeTableCodes, RType.ofCode d.1 ≠ .noop ∧ d.1 < 12 ∧ d.2.2.1 < 12 := by
    decide +kernel
  have hlen : codeTableCodes.length = 256 := by decide +kernel
  have hlt : code.toNat < codeTableCodes.length := hlen ▸ code.toNat_lt
  have hmem : codeTableCodes.getD code.toNat (0,0,0,0) ∈ codeTableCodes := by
    rw [List.getD_eq_getElem?_getD, List.getElem?_eq_getElem hlt]
    exact List.getElem_mem hlt
  obtain ⟨h1, h2, h3⟩ := key _ hmem
  have hmode : ∀ c m, c < 12 → RType.ofCode c = .cpy m → m < 9 := by
    intro c m hc hm
    match c, hm with
    | n + 3, hm =>
      simp only [RType.ofCode, RType.cpy.injEq] at hm
      omega
  exact ⟨h1, fun m => hmode _ m h2, fun m => hmode _ m h3⟩

/-- The fields of `__rfc3284_code_table_desc` that `xd3_build_code_table` reads. -/
structure CodeTableDesc where
  addSizes : ℕ
  nearModes : ℕ
  sameModes : ℕ
  cpySizes : ℕ
  addcopyAddMax : ℕ
  addcopyNearCpyMax : ℕ
  addcopySameCpyMax : ℕ
  copyaddAddMax : ℕ
  copyaddNearCpyMax : ℕ
  copyaddSameCpyMax : ℕ

def rfc3284CodeTableDesc : CodeTableDesc := ⟨17, 4, 3, 15, 4, 6, 4, 1, 4, 4⟩

def buildCodeTable (desc : CodeTableDesc) : List (ℕ × ℕ × ℕ × ℕ) :=
  let modes := List.range (2 + desc.nearModes + desc.sameModes)
  let cpyMax (mode near same : ℕ) := if mode < 2 + desc.nearModes then near else same
  [(2,0,0,0), (1,0,0,0)] ++
    (List.range desc.addSizes).map (fun s => (1, s + 1, 0, 0)) ++
    modes.flatMap (fun mode => (3 + mode, 0, 0, 0) ::
      (List.range desc.cpySizes).map (fun s => (3 + mode, minMatch + s, 0, 0))) ++
    modes.flatMap (fun mode => (List.range desc.addcopyAddMax).flatMap (fun a =>
      (List.range (cpyMax mode desc.addcopyNearCpyMax desc.addcopySameCpyMax + 1 - minMatch)).map
        (fun s => (1, a + 1, 3 + mode, minMatch + s)))) ++
    modes.flatMap (fun mode =>
      (List.range (cpyMax mode desc.copyaddNearCpyMax desc.copyaddSameCpyMax + 1 - minMatch)).flatMap
        (fun s => (List.range desc.copyaddAddMax).map
          (fun a => (3 + mode, minMatch + s, 1, a + 1))))

/-- The check of `xd3_verify_rfc3284_code_table`. -/
theorem codeTableCodes_eq_build : codeTableCodes = buildCodeTable rfc3284CodeTableDesc := by
  decide +kernel

end Xdelta
