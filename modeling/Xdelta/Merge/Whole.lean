import Xdelta.Decoder.Emit

/-!
# Whole deltas

A delta read into memory: the instructions of all its windows laid end to end, with
the bytes they add. It is the state that deltas are merged in.
-/
namespace Xdelta
open Chunked Delta

/-- `xd3_winst`. -/
structure Winst where
  type : RType
  mode : ℕ
  size : ℕ
  addr : ℕ
  position : ℕ
  deriving DecidableEq, Repr

/-- `xd3_wininfo`. -/
structure Wininfo where
  offset : ℕ
  length : ℕ
  adler32 : ℕ
  deriving DecidableEq, Repr

/-- `xd3_whole_state`; the counts are the lengths of the lists. -/
structure WholeState where
  adds : List UInt8 := []
  inst : List Winst := []
  wininfo : List Wininfo := []
  length : ℕ := 0
  deriving DecidableEq, Repr

def WholeState.push (st : WholeState) (bytes : List UInt8) (inst : Winst) : WholeState :=
  { st with adds := st.adds ++ bytes, inst := st.inst ++ [inst] }

abbrev Merge := Routine WholeState Stop Unit

def Winst.op (adds : List UInt8) (i : Winst) : Option (Op UInt8) :=
  match i.type with
  | .run => adds[i.addr]?.map (.run i.size)
  | .add =>
    if i.addr + i.size ≤ adds.length then some (.add ((adds.drop i.addr).take i.size)) else none
  | _ => some (if i.mode = 0 then .target i.addr i.size else .source i.addr i.size)

def interpFrom (adds base : List UInt8) : List Winst → List UInt8 → Option (List UInt8)
  | [], out => some out
  | i :: is, out =>
    (i.op adds).bind fun o => (o.apply base out).bind (interpFrom adds base is)

def WholeState.interp (s : WholeState) (base : List UInt8) : Option (List UInt8) :=
  interpFrom s.adds base s.inst []

def lengths (is : List Winst) : ℕ := (is.map Winst.size).sum

/-- Instructions laid end to end from position `p` on. -/
def Laid : ℕ → List Winst → Prop
  | _, [] => True
  | p, i :: is => i.position = p ∧ Laid (p + i.size) is

structure Winst.Sound (adds : List UInt8) (i : Winst) : Prop where
  ne : i.type ≠ .noop
  run : i.type = .run → i.addr < adds.length
  add : i.type = .add → i.addr + i.size ≤ adds.length
  target : ∀ m, i.type = .cpy m → i.mode = 0 → i.addr < i.position
  source : ∀ m, i.type = .cpy m → i.mode ≠ 0 → i.addr + i.size < xoff.modulus

/-- What `xd3_whole_append_window` builds. -/
structure WholeState.Wf (s : WholeState) : Prop where
  laid : Laid 0 s.inst
  length_eq : s.length = lengths s.inst
  below : s.length < xoff.modulus
  sound : ∀ i ∈ s.inst, i.Sound s.adds

@[simp] theorem lengths_nil : lengths [] = 0 := rfl

@[simp] theorem lengths_cons (i : Winst) (is : List Winst) :
    lengths (i :: is) = i.size + lengths is := by
  rw [lengths, List.map_cons, List.sum_cons, lengths]

@[simp] theorem lengths_append (is js : List Winst) :
    lengths (is ++ js) = lengths is + lengths js := by
  rw [lengths, List.map_append, List.sum_append, lengths, lengths]

theorem laid_append {p : ℕ} {is js : List Winst} :
    Laid p (is ++ js) ↔ Laid p is ∧ Laid (p + lengths is) js := by
  induction is generalizing p with
  | nil => simp [Laid]
  | cons i is ih => simp [Laid, ih, and_assoc, Nat.add_assoc]

theorem interpFrom_append (adds base : List UInt8) (is js : List Winst) (out : List UInt8) :
    interpFrom adds base (is ++ js) out =
      (interpFrom adds base is out).bind (interpFrom adds base js) := by
  induction is generalizing out with
  | nil => rfl
  | cons i is ih =>
    rw [List.cons_append, interpFrom, interpFrom]
    cases i.op adds with
    | none => rfl
    | some o =>
      rw [Option.bind_some, Option.bind_some]
      cases o.apply base out with
      | none => rfl
      | some mid => exact ih mid

section Op
variable {adds : List UInt8} {i : Winst}

theorem Winst.op_run (h : i.type = .run) : i.op adds = adds[i.addr]?.map (.run i.size) := by
  unfold op
  rw [h]

theorem Winst.op_add (h : i.type = .add) : i.op adds =
    if i.addr + i.size ≤ adds.length then some (.add ((adds.drop i.addr).take i.size))
    else none := by
  unfold op
  rw [h]

theorem Winst.op_cpy {m : ℕ} (h : i.type = .cpy m) : i.op adds =
    some (if i.mode = 0 then .target i.addr i.size else .source i.addr i.size) := by
  unfold op
  rw [h]

theorem Winst.op_size {o : Op UInt8} (h : i.op adds = some o) : o.size = i.size := by
  unfold op at h
  split at h
  · obtain ⟨b, -, rfl⟩ := Option.map_eq_some_iff.mp h
    rfl
  · split at h
    · rename_i hle
      cases h
      exact List.length_take_of_le (by rw [List.length_drop]; omega)
    · cases h
  · cases h
    split <;> rfl

/-- Bytes added later do not change what an instruction does. -/
theorem Winst.op_append {o : Op UInt8} (h : i.op adds = some o) (more : List UInt8) :
    i.op (adds ++ more) = some o := by
  unfold op at h ⊢
  split at h
  · rename_i ht
    obtain ⟨b, hb, rfl⟩ := Option.map_eq_some_iff.mp h
    rw [List.getElem?_append_left (List.getElem?_eq_some_iff.mp hb).1, hb]
    rfl
  · rename_i ht
    split at h
    · rename_i hle
      rw [if_pos (by rw [List.length_append]; omega), List.drop_append_of_le_length (by omega),
        List.take_append_of_le_length (by rw [List.length_drop]; omega)]
      exact h
    · cases h
  · exact h

theorem Winst.Sound.op_append (h : i.Sound adds) (more : List UInt8) :
    i.op (adds ++ more) = i.op adds := by
  cases ht : i.type with
  | noop => exact absurd ht h.ne
  | run => rw [op_run ht, op_run ht, List.getElem?_append_left (h.run ht)]
  | add =>
    have hle := h.add ht
    rw [op_add ht, op_add ht, if_pos hle, if_pos (by rw [List.length_append]; omega),
      List.drop_append_of_le_length (by omega),
      List.take_append_of_le_length (by rw [List.length_drop]; omega)]
  | cpy m => rw [op_cpy ht, op_cpy ht]

end Op

theorem length_interpFrom {adds base : List UInt8} {is : List Winst} {out out' : List UInt8}
    (h : interpFrom adds base is out = some out') : out'.length = out.length + lengths is := by
  induction is generalizing out with
  | nil =>
    cases h
    rfl
  | cons i is ih =>
    obtain ⟨o, ho, h⟩ := Option.bind_eq_some_iff.mp h
    obtain ⟨mid, hmid, h⟩ := Option.bind_eq_some_iff.mp h
    rw [ih h, Op.length_apply hmid, Winst.op_size ho, lengths_cons, Nat.add_assoc]

theorem prefix_interpFrom {adds base : List UInt8} {is : List Winst} {out out' : List UInt8}
    (h : interpFrom adds base is out = some out') : out <+: out' := by
  induction is generalizing out with
  | nil =>
    cases h
    exact List.prefix_rfl
  | cons i is ih =>
    obtain ⟨o, ho, h⟩ := Option.bind_eq_some_iff.mp h
    obtain ⟨mid, hmid, h⟩ := Option.bind_eq_some_iff.mp h
    obtain ⟨added, rfl, -⟩ := Op.apply_eq_some hmid
    exact (List.prefix_append _ _).trans (ih h)

theorem interpFrom_split {adds base word : List UInt8} {is js : List Winst} {i : Winst}
    (h : interpFrom adds base (is ++ i :: js) [] = some word) :
    ∃ o, i.op adds = some o ∧
      o.apply base (word.take (lengths is)) = some (word.take (lengths is + i.size)) := by
  rw [interpFrom_append] at h
  obtain ⟨out, hout, h⟩ := Option.bind_eq_some_iff.mp h
  obtain ⟨o, ho, h⟩ := Option.bind_eq_some_iff.mp h
  obtain ⟨mid, hmid, h⟩ := Option.bind_eq_some_iff.mp h
  have hlen : out.length = lengths is := by
    rw [length_interpFrom hout, List.length_nil, Nat.zero_add]
  have hmidlen : mid.length = lengths is + i.size := by
    rw [Op.length_apply hmid, hlen, Winst.op_size ho]
  have hpre : mid <+: word := prefix_interpFrom h
  obtain ⟨added, hadded, -⟩ := Op.apply_eq_some hmid
  have hpre' : out <+: word := (hadded ▸ List.prefix_append out added).trans hpre
  refine ⟨o, ho, ?_⟩
  rw [← hmidlen, ← hlen, ← List.prefix_iff_eq_take.mp hpre, ← List.prefix_iff_eq_take.mp hpre']
  exact hmid

end Xdelta
