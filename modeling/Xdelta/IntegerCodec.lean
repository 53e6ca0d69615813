import Xdelta.Integer

/-!
# The integer codec as a whole

What the emitter, the incremental decoder and the buffer reader do with any
bytes, said in terms of the group sequence the bytes begin with: its value, and
whether it is terminated.
-/
namespace Xdelta

def groupRun : List UInt8 → List UInt8
  | [] => []
  | next :: rest => if continues next then next :: groupRun rest else [next]

def Terminated : List UInt8 → Prop
  | [] => False
  | next :: rest => if continues next then Terminated rest else True

/-- The number a sequence of groups stands for, after `val`. -/
def groupValue : ℕ → List UInt8 → ℕ
  | val, [] => val
  | val, next :: rest => groupValue (val * 128 + next.toNat % 128) rest

instance instDecidableTerminated : (bytes : List UInt8) → Decidable (Terminated bytes)
  | [] => .isFalse id
  | next :: rest =>
    have := instDecidableTerminated rest
    inferInstanceAs (Decidable (if continues next then Terminated rest else True))

/-- One call of `xd3_decode_uint32_t` or `xd3_decode_uint64_t`, with the part the stream keeps
afterwards: nothing once a value has been read. -/
def decodeCall (W : Width) (chunk : List UInt8) (part : ℕ) : DecodedInteger × ℕ :=
  match decodeInteger W chunk part with
  | .value val rest => (.value val rest, 0)
  | .overflow part rest => (.overflow part rest, part)
  | .input part => (.input part, part)

/-- The calls on chunks supplied one after another, until one does not ask for input; the bytes
left are those of the last chunk used and of the chunks after it. -/
def decodeChunks (W : Width) : List (List UInt8) → ℕ → DecodedInteger × ℕ
  | [], part => (.input part, part)
  | chunk :: chunks, part =>
    match decodeCall W chunk part with
    | (.value val rest, kept) => (.value val (rest ++ chunks.flatten), kept)
    | (.overflow part rest, kept) => (.overflow part (rest ++ chunks.flatten), kept)
    | (.input _, kept) => decodeChunks W chunks kept

/-- The chunks are decoded as the bytes they are made of. -/
theorem decodeChunks_eq (W : Width) (chunks : List (List UInt8)) (part : ℕ) :
    decodeChunks W chunks part = decodeCall W chunks.flatten part := by
  induction chunks generalizing part with
  | nil => rfl
  | cons chunk chunks ih =>
    rw [decodeChunks, List.flatten_cons, decodeCall, decodeCall, decodeInteger_append]
    cases decodeInteger W chunk part with
    | value val rest => rfl
    | overflow part rest => rfl
    | input part => exact ih part

section Reading

variable (W : Width) {val : ℕ}

theorem le_groupValue (bytes : List UInt8) : val ≤ groupValue val bytes := by
  induction bytes generalizing val with
  | nil => exact le_rfl
  | cons next rest ih =>
    rw [groupValue]
    exact le_trans (by omega) ih

/-- Another group would reach the width exactly when the mask says so. -/
theorem oflow_next (hv : val < W.modulus) (next : UInt8) :
    oflow W val = true ↔ W.modulus ≤ val * 128 + next.toNat % 128 := by
  rw [oflow_iff W hv]
  constructor
  · intro h
    omega
  · intro h
    cases W <;> simp only [Width.modulus, Width.bits] at * <;> omega

/-- The decoder finds the value of the sequence, that it is too large, or that it goes on. -/
theorem decodeInteger_eq (bytes : List UInt8) (hv : val < W.modulus) :
    (W.modulus ≤ groupValue val (groupRun bytes) →
      ∃ part rest, decodeInteger W bytes val = .overflow part rest) ∧
    (groupValue val (groupRun bytes) < W.modulus → Terminated bytes →
      decodeInteger W bytes val =
        .value (groupValue val (groupRun bytes)) (bytes.drop (groupRun bytes).length)) ∧
    (groupValue val (groupRun bytes) < W.modulus → ¬ Terminated bytes →
      decodeInteger W bytes val = .input (groupValue val (groupRun bytes))) := by
  induction bytes generalizing val with
  | nil =>
    refine ⟨fun h => ?_, fun _ h => h.elim, fun _ _ => rfl⟩
    exact absurd h (Nat.not_le.2 hv)
  | cons next rest ih =>
    by_cases ho : oflow W val = true
    · have hover : W.modulus ≤ groupValue val (groupRun (next :: rest)) := by
        have hnext := (oflow_next W hv next).1 ho
        rw [groupRun]
        split
        · exact hnext.trans (le_groupValue _)
        · exact hnext
      refine ⟨fun _ => ⟨val, rest, by rw [decodeInteger, if_pos ho]⟩, fun h => ?_, fun h => ?_⟩
      · exact absurd hover (Nat.not_le.2 h)
      · exact absurd hover (Nat.not_le.2 h)
    · have hno : val * 128 < W.modulus := by
        rw [oflow_iff W hv] at ho
        omega
      have hshift : shiftIn W val next = val * 128 + next.toNat % 128 := shiftIn_eq W next hno
      by_cases hc : continues next = true
      · have hrun : groupRun (next :: rest) = next :: groupRun rest := if_pos hc
        have hterm : Terminated (next :: rest) ↔ Terminated rest := by
          rw [Terminated, if_pos hc]
        have hdec : decodeInteger W (next :: rest) val =
            decodeInteger W rest (val * 128 + next.toNat % 128) := by
          rw [decodeInteger, if_neg ho, if_pos hc, hshift]
        have hlt : val * 128 + next.toNat % 128 < W.modulus := by
          rw [← hshift]
          exact shiftIn_lt W next hno
        rw [hrun, hterm, hdec, groupValue, List.length_cons, List.drop_succ_cons]
        exact ih hlt
      · have hrun : groupRun (next :: rest) = [next] := if_neg hc
        have hterm : Terminated (next :: rest) := by
          rw [Terminated, if_neg hc]
          trivial
        have hlt : groupValue val (groupRun (next :: rest)) < W.modulus := by
          rw [hrun]
          change val * 128 + next.toNat % 128 < W.modulus
          rw [← hshift]
          exact shiftIn_lt W next hno
        refine ⟨fun h => absurd h (Nat.not_le.2 hlt), fun _ _ => ?_, fun _ h => absurd hterm h⟩
        rw [decodeInteger, if_neg ho, if_neg hc, hshift, hrun]
        rfl

theorem groupRun_append_drop (bytes : List UInt8) :
    groupRun bytes ++ bytes.drop (groupRun bytes).length = bytes := by
  induction bytes with
  | nil => rfl
  | cons next rest ih =>
    rw [groupRun]
    split
    · rw [List.length_cons, List.drop_succ_cons, List.cons_append, ih]
    · rfl

end Reading

/-- What the three loops of one width do together. The last three cases exclude one another and
leave no other. -/
structure CodecRight (W : Width) : Prop where
  /-- The emitter writes the least number of groups, which is what the size function says. -/
  emits : ∀ n < W.modulus, (emitInteger n).length = sizeofInteger W n ∧
    ∀ k, 0 < k → (sizeofInteger W n ≤ k ↔ n < 128 ^ k)
  /-- Both readers give back what was emitted, and consume it exactly. -/
  roundTrips : ∀ n < W.modulus, ∀ (chunks : List (List UInt8)) (pre rest : List UInt8),
    chunks.flatten = emitInteger n ++ rest →
    decodeChunks W chunks 0 = (.value n rest, 0) ∧
    readInteger W (pre ++ chunks.flatten) pre.length (pre ++ chunks.flatten).length =
      .value n (pre.length + (emitInteger n).length)
  /-- A value is accepted: the sequence is terminated and its value fits. -/
  accepts : ∀ (chunks : List (List UInt8)) (pre : List UInt8),
    let run := groupRun chunks.flatten
    Terminated chunks.flatten → groupValue 0 run < W.modulus →
    decodeChunks W chunks 0 = (.value (groupValue 0 run) (chunks.flatten.drop run.length), 0) ∧
    readInteger W (pre ++ chunks.flatten) pre.length (pre ++ chunks.flatten).length =
      .value (groupValue 0 run) (pre.length + run.length)
  /-- Overflow is reported: the value of the sequence, terminated or not, does not fit. -/
  overflows : ∀ (chunks : List (List UInt8)) (pre : List UInt8),
    W.modulus ≤ groupValue 0 (groupRun chunks.flatten) →
    (∃ part rest, decodeChunks W chunks 0 = (.overflow part rest, part)) ∧
    readInteger W (pre ++ chunks.flatten) pre.length (pre ++ chunks.flatten).length =
      .error "overflow in read_intger"
  /-- More input is asked for: the sequence is not terminated and its value still fits. -/
  asks : ∀ (chunks : List (List UInt8)) (pre : List UInt8),
    ¬ Terminated chunks.flatten → groupValue 0 (groupRun chunks.flatten) < W.modulus →
    (∃ part, decodeChunks W chunks 0 = (.input part, part)) ∧
    readInteger W (pre ++ chunks.flatten) pre.length (pre ++ chunks.flatten).length =
      .error "end-of-input in read_integer"

/-- The buffer reader does what the incremental decoder does on the bytes from its position on. -/
theorem readInteger_pre (W : Width) (pre bytes : List UInt8) :
    readInteger W (pre ++ bytes) pre.length (pre ++ bytes).length =
      match decodeInteger W bytes 0 with
      | .value v rest => .value v ((pre ++ bytes).length - rest.length)
      | .overflow _ _ => .error "overflow in read_intger"
      | .input _ => .error "end-of-input in read_integer" := by
  have h := @readInteger_eq W (pre ++ bytes) pre.length (by simp)
  rwa [List.drop_left] at h

/-- The codec of either width. -/
theorem integerCodec_right (W : Width) : CodecRight W where
  emits n hn := ⟨emitInteger_length W hn, fun _ hk => sizeofInteger_le_iff W hn hk⟩
  roundTrips n hn chunks pre rest hflat := by
    have hdec : decodeInteger W chunks.flatten 0 = .value n rest := by
      rw [hflat]
      exact decodeInteger_emitInteger W n rest hn
    refine ⟨by rw [decodeChunks_eq, decodeCall, hdec], ?_⟩
    rw [readInteger_pre, hdec]
    dsimp only
    rw [hflat]
    simp only [List.length_append]
    congr 1
    omega
  accepts chunks pre := by
    intro run hterm hlt
    have hdec := (decodeInteger_eq W chunks.flatten W.modulus_pos).2.1 hlt hterm
    refine ⟨by rw [decodeChunks_eq, decodeCall, hdec], ?_⟩
    have hrun : run.length + (chunks.flatten.drop run.length).length = chunks.flatten.length := by
      rw [← List.length_append, groupRun_append_drop]
    change _ = ReadInteger.value (groupValue 0 run) (pre.length + run.length)
    rw [readInteger_pre, hdec, List.length_append]
    change ReadInteger.value _ (pre.length + chunks.flatten.length -
      (chunks.flatten.drop run.length).length) = _
    rw [show pre.length + chunks.flatten.length - (chunks.flatten.drop run.length).length =
      pre.length + run.length by omega]
  overflows chunks pre hle := by
    obtain ⟨part, rest, hdec⟩ := (decodeInteger_eq W chunks.flatten W.modulus_pos).1 hle
    refine ⟨⟨part, rest, by rw [decodeChunks_eq, decodeCall, hdec]⟩, ?_⟩
    rw [readInteger_pre, hdec]
  asks chunks pre hterm hlt := by
    have hdec := (decodeInteger_eq W chunks.flatten W.modulus_pos).2.2 hlt hterm
    refine ⟨⟨_, by rw [decodeChunks_eq, decodeCall, hdec]⟩, ?_⟩
    rw [readInteger_pre, hdec]

/-- Five bytes with their top bits on are not terminated, and yet too large for 32 bits. -/
theorem integerCodec_unterminated :
    ¬ ∀ (W : Width) (bytes : List UInt8),
      (∃ part, decodeInteger W bytes 0 = .input part) ↔ ¬ Terminated bytes := by
  intro h
  obtain ⟨part, hpart⟩ := (h .w32 [255, 255, 255, 255, 255]).2 (by decide)
  have hover : decodeInteger .w32 [255, 255, 255, 255, 255] 0 = .overflow 268435455 [] := by rfl
  rw [hover] at hpart
  cases hpart

end Xdelta
