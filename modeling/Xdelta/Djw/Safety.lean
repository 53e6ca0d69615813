import Xdelta.Djw.Lengths

/-!
# Hostile input

Whatever bytes it is given, the Huffman decoder ends without an access outside a table, a use of
an entry that was not set, or a write past the output, as long as a length is used in every vector
of code lengths that the bytes encode. The lengths need not satisfy any equality.
-/
namespace Xdelta.Djw
open Second Attempt

variable {clen : List ℕ} {d : Decoder} {P : ℕ → Prop}

theorem decodeNumbers_matches {nbits n : ℕ} {l : List ℕ} {t : Table ℕ}
    (hroom : l.length + n ≤ t.length) (r : BitReader) :
    (decodeNumbers nbits n l.length (Table.overlay l t) r).Matches
      (fun p q => p = (Table.overlay (l ++ q.1) t, q.2) ∧ q.1.length = n ∧ ∀ v ∈ q.1, v < 2 ^ nbits)
      (readNumbers nbits n r) := by
  induction n generalizing l r with
  | zero =>
    rw [decodeNumbers, readNumbers]
    refine ⟨?_, rfl, fun v hv => absurd hv List.not_mem_nil⟩
    rw [List.append_nil]
  | succ n ih =>
    rw [decodeNumbers, readNumbers]
    refine (decodeBits_lt nbits r).matches.andThen ?_
    rintro p _ ⟨rfl, hp⟩
    have hrest := @ih (l ++ [p.1]) (by rw [List.length_append, List.length_singleton]; omega) p.2
    rw [List.length_append, List.length_singleton] at hrest
    rw [Table.overlay_push (by omega), andThen_done,
      hrest.eq_andThen (f := fun q => (Table.overlay (l ++ [p.1] ++ q.1) t, q.2)) fun _ _ h => h.1]
    refine hrest.always_right.matches.andThen ?_
    rintro q _ ⟨rfl, _, -, hlen, hlt⟩
    refine ⟨?_, congrArg (· + 1) hlen, List.forall_mem_cons.2 ⟨hp, hlt⟩⟩
    rw [List.append_assoc]
    rfl

def DecoderOf (n : ℕ) (d : Decoder) : Prop := ∃ clen : List ℕ, d.Right clen ∧ clen.length ≤ n

/-- A length is used in every vector. -/
def AllUsed (vectors : List (List ℕ)) : Prop := ∀ clen ∈ vectors, ∃ c ∈ clen, c ≠ 0

instance (vectors : List (List ℕ)) : Decidable (AllUsed vectors) :=
  inferInstanceAs (Decidable (∀ clen ∈ vectors, ∃ c ∈ clen, c ≠ 0))

section Vectors
variable {α β γ : Type} {Q : γ → Prop}

theorem allUsed_nil : AllUsed [] := fun _ h => absurd h List.not_mem_nil

theorem orNone_andThen (x : Attempt α) (f : α → Attempt β) (g : β → List (List ℕ)) :
    orNone (x.andThen f) g = orNone x fun a => orNone (f a) g := by
  cases x <;> rfl

/-- What is read first ends alike with and without tables; what comes after is as safe as the
vectors that are left. -/
theorem Always.andThen_iff {x : Attempt α} {y : Attempt β} {S : α → β → Prop}
    (h : x.Matches S y) {f : α → Attempt γ} {g : β → List (List ℕ)}
    (hfg : ∀ a b, S a b → ((f a).Always Q ↔ AllUsed (g b))) :
    (x.andThen f).Always Q ↔ AllUsed (orNone y g) := by
  cases x <;> cases y <;>
    first | exact h.elim | exact iff_of_true trivial allUsed_nil | exact hfg _ _ h

/-- Tables are built for a vector exactly when a length is used in it. -/
theorem buildDecoder_iff {n absMax : ℕ} {inorder base limit : Table ℕ} {f : Decoder → Attempt γ}
    {vectors : List (List ℕ)} (hmax : absMax ≤ maxCodelen)
    (hclen : clen.length = n ∧ ∀ c ∈ clen, c ≤ absMax) (hn : n ≤ 256) (hroom : n ≤ inorder.length)
    (hbase : absMax + 1 < base.length) (hlimit : absMax + 1 < limit.length)
    (hf : ∀ d, d.Right clen → ((f d).Always Q ↔ AllUsed vectors)) :
    ((buildDecoder absMax clen inorder base limit).andThen f).Always Q ↔
      AllUsed (clen :: vectors) := by
  obtain ⟨rfl, hle⟩ := hclen
  unfold AllUsed
  rw [List.forall_mem_cons]
  by_cases hused : ∃ c ∈ clen, c ≠ 0
  · obtain ⟨d, hbuild, hd⟩ := buildDecoder_spec hmax hle hn hused hroom hbase hlimit
    rw [hbuild, andThen_done, hf d hd, and_iff_right hused]
    rfl
  · have hzero : ∀ c ∈ clen, c = 0 := fun c hc => by_contra fun hne => hused ⟨c, hc, hne⟩
    rw [buildDecoder_zero hzero]
    exact iff_of_false id fun h => hused h.1

end Vectors

theorem readClclen_always (r : BitReader) : (readClclen r).Always fun q =>
    q.1.length = totalCodes ∧ ∀ c ∈ q.1, c ≤ maxClclen := by
  have htotal : totalCodes = 22 := rfl
  refine (decodeBits_lt 4 r).andThen fun p hp => ?_
  have hnumbers := @decodeNumbers_matches 4 (p.1 + 7) [] (Table.blank totalCodes)
    (by rw [Table.length_blank, List.length_nil]; omega) p.2
  refine hnumbers.always_right.andThen ?_
  rintro q ⟨_, -, hlen, hlt⟩
  refine ⟨?_, List.forall_mem_append.2 ⟨fun c hc => Nat.le_of_lt_succ (hlt c hc), ?_⟩⟩
  · rw [List.length_append, List.length_replicate, hlen]
    omega
  · intro c hc
    rw [List.eq_of_mem_replicate hc]
    exact Nat.zero_le _

/-- The code length decoder, from the lengths that are read without tables. -/
theorem decodeClclen_eq (r : BitReader) : decodeClclen r = (readClclen r).andThen fun q =>
    (buildDecoder maxClclen q.1 (Table.blank totalCodes) (Table.blank (maxClclen + 2))
      (Table.blank (maxClclen + 2))).andThen fun d =>
        .done (d, Table.overlay clenOrder (Table.blank totalCodes), q.2) := by
  have htotal : totalCodes = 22 := rfl
  rw [decodeClclen, readClclen, andThen_assoc]
  refine andThen_congr (decodeBits_lt 4 r) fun p hp => ?_
  have hnumbers := @decodeNumbers_matches 4 (p.1 + 7) [] (Table.blank totalCodes)
    (by rw [Table.length_blank, List.length_nil]; omega) p.2
  dsimp only
  rw [List.length_nil, Table.overlay_nil] at hnumbers
  rw [hnumbers.eq_andThen (f := fun q => (Table.overlay q.1 (Table.blank totalCodes), q.2))
    fun _ _ h => h.1, andThen_assoc, andThen_assoc]
  refine andThen_congr hnumbers.always_right ?_
  rintro q ⟨_, -, hlen, -⟩
  have hfill := @fill_over (List.replicate (totalCodes - (p.1 + 7)) 0) q.1
    (Table.blank totalCodes) (by rw [Table.length_blank, List.length_replicate]; omega)
  rw [hlen] at hfill
  have hall : (q.1 ++ List.replicate (totalCodes - (p.1 + 7)) 0).length = totalCodes := by
    rw [List.length_append, List.length_replicate]
    omega
  rw [andThen_done, andThen_done, hfill, andThen_done, Table.overlay_slice (by omega), andThen_done,
    List.drop_zero, List.take_of_length_le (by omega)]
  rfl

section Groups
variable {γ : Type} {Q : γ → Prop} {lengths : List ℕ}

theorem buildGroups_iff {values : Table ℕ} {n gp groups : ℕ} {tables : Table Decoder}
    {f : Table Decoder → Attempt γ} {vectors : List (List ℕ)}
    (hlen : lengths.length = alphabetSize * groups) (hle : ∀ c ∈ lengths, c ≤ maxCodelen)
    (hn : gp + n = groups) (htables : tables.Holds gp (DecoderOf alphabetSize))
    (hroom : groups ≤ tables.length)
    (hf : ∀ tables : Table Decoder, tables.Holds groups (DecoderOf alphabetSize) →
      ((f tables).Always Q ↔ AllUsed vectors)) :
    ((buildGroups (Table.overlay lengths values) n gp tables).andThen f).Always Q ↔
      AllUsed ((List.range' gp n).map (groupLengths lengths) ++ vectors) := by
  induction n generalizing gp tables with
  | zero => exact hf tables (hn ▸ htables)
  | succ n ih =>
    have hin : gp * alphabetSize + alphabetSize ≤ lengths.length := by
      rw [hlen, Nat.mul_comm alphabetSize, ← Nat.succ_mul]
      exact Nat.mul_le_mul_right _ (by omega)
    have hgroup : (groupLengths lengths gp).length = alphabetSize := by
      rw [groupLengths, List.length_take, List.length_drop]
      omega
    have hmem : ∀ c ∈ groupLengths lengths gp, c ≤ maxCodelen :=
      fun c hc => hle c (List.mem_of_mem_drop (List.mem_of_mem_take hc))
    rw [buildGroups, Table.overlay_slice hin, andThen_done, andThen_assoc, List.range'_succ,
      List.map_cons, List.cons_append]
    refine buildDecoder_iff le_rfl ⟨hgroup, hmem⟩ (by decide) (by rw [Table.length_blank])
      (by rw [Table.length_blank]; decide) (by rw [Table.length_blank]; decide) fun d hd => ?_
    have hwrite := htables.push (by omega) (v := d) ⟨_, hd, hgroup.le⟩
    rw [Table.write_eq (by omega)] at hwrite ⊢
    rw [andThen_done]
    exact ih (by omega) hwrite.1 (hwrite.2.symm ▸ hroom)

end Groups

/-- The selectors, from lengths that are read without tables: a selector is the number of a group,
since the last entry of the move-to-front state, which is not, is never reached. -/
theorem decodeSelectors_eq {groups : ℕ} (hmax : groups ≤ maxGroups) (sectors : ℕ) (r : BitReader) :
    decodeSelectors groups sectors r = (readNumbers 3 (groups + 1) r).andThen fun q =>
      (buildDecoder maxGbclen q.1 (Table.blank (maxGroups + 2)) (Table.blank (maxGbclen + 2))
        (Table.blank (maxGbclen + 2))).andThen fun d =>
          decode12 d (Table.overlay (List.range groups)
            (Table.overlay (List.range (groups + 1)) (Table.blank (maxGroups + 2)))) sectors 0
              (Table.blank sectors) q.2 := by
  have hgroups : maxGroups = 8 := rfl
  have hnumbers := @decodeNumbers_matches 3 (groups + 1) [] (Table.blank (maxGroups + 1))
    (by rw [Table.length_blank, List.length_nil]; omega) r
  rw [List.length_nil, Table.overlay_nil] at hnumbers
  have hfill := @fill_over (List.range (groups + 1)) [] (Table.blank (maxGroups + 2))
    (by rw [Table.length_blank, List.length_range, List.length_nil]; omega)
  rw [List.length_nil, Table.overlay_nil, List.nil_append] at hfill
  rw [decodeSelectors, hnumbers.eq_andThen
    (f := fun q => (Table.overlay q.1 (Table.blank (maxGroups + 1)), q.2)) fun _ _ h => h.1,
    andThen_assoc]
  refine andThen_congr hnumbers.always_right ?_
  rintro q ⟨_, -, hlen, -⟩
  rw [andThen_done, hfill, andThen_done, Table.overlay_slice (by omega), andThen_done,
    List.drop_zero, List.take_of_length_le (by omega)]
  have hsplit := Table.overlay_append (List.range groups) [groups] (Table.blank (maxGroups + 2))
  rw [← List.range_succ] at hsplit
  rw [← hsplit]

/-- The output up to where it has been written. -/
structure Output.Good (o : Output) (outputBytes : ℕ) : Prop where
  length_eq : o.bytes.length = outputBytes
  written : o.bytes.Holds o.pos (· < 256)

theorem decodeSector_always {n outputBytes : ℕ} {o : Output} (hd : DecoderOf alphabetSize d)
    (ho : o.Good outputBytes) (hpos : 0 < n) (hfits : o.pos + n ≤ outputBytes) :
    (decodeSector d n o).Always fun o' => o'.Good outputBytes ∧ o'.pos = o.pos + n := by
  induction n generalizing o with
  | zero => exact absurd hpos (Nat.lt_irrefl 0)
  | succ n ih =>
    obtain ⟨lengths, hright, hlengths⟩ := hd
    have hlen := ho.length_eq
    rw [decodeSector]
    refine (decodeSymbol_matches hright (by omega) o.reader).always.andThen fun p _ => ?_
    refine (ho.written.push (by omega) (Nat.mod_lt p.1 (by decide))).andThen fun bytes hbytes => ?_
    have hgood : Output.Good ⟨bytes, o.pos + 1, p.2⟩ outputBytes :=
      ⟨hbytes.2.trans hlen, hbytes.1⟩
    dsimp only
    split_ifs with hn
    · exact ⟨hgood, by rw [hn]⟩
    · refine (ih hgood (Nat.pos_of_ne_zero hn) (by dsimp only; omega)).mono fun o' ho' => ?_
      exact ⟨ho'.1, by rw [ho'.2]; dsimp only; omega⟩

/-- Every sector begins inside the output, and its group has tables. -/
theorem decodeSectors_always {tables : Table Decoder} {selGroup : Table ℕ}
    {groups sectorSize outputBytes n c : ℕ} {o : Output} (hgroups : 0 < groups)
    (htables : tables.Holds groups (DecoderOf alphabetSize))
    (hsel : 2 ≤ groups →
      selGroup.Holds (1 + (outputBytes - 1) / sectorSize) (· < groups))
    (hsize : 0 < sectorSize) (hbytes : 0 < outputBytes) (ho : o.Good outputBytes)
    (hn : c + n = 1 + (outputBytes - 1) / sectorSize)
    (hpos : o.pos = min (c * sectorSize) outputBytes) :
    (decodeSectors tables selGroup groups sectorSize outputBytes n c o).Always fun o' =>
      o'.Good outputBytes ∧ o'.pos = outputBytes := by
  induction n generalizing c o with
  | zero =>
    refine ⟨ho, ?_⟩
    have hall : outputBytes ≤ c * sectorSize := by
      have := Nat.lt_mul_div_succ (outputBytes - 1) hsize
      rw [Nat.add_zero] at hn
      rw [hn, Nat.mul_comm, Nat.add_comm 1]
      omega
    rw [hpos, Nat.min_eq_right hall]
  | succ n ih =>
    have hstart : c * sectorSize ≤ outputBytes - 1 :=
      (Nat.le_div_iff_mul_le hsize).1 (by omega)
    have hgroup : (if 2 ≤ groups then
        (selGroup.read c).andThen fun gp => .require (gp < groups) (tables.read gp)
        else tables.read 0).Always (DecoderOf alphabetSize) := by
      split_ifs with htwo
      · refine ((hsel htwo).read (by omega)).andThen fun gp hgp => ?_
        exact always_require hgp (htables.read hgp)
      · exact htables.read hgroups
    rw [decodeSectors]
    refine hgroup.andThen fun d hd => ?_
    rw [if_neg (by omega)]
    refine (decodeSector_always hd ho (by omega) (by omega)).andThen fun o' ho' => ?_
    apply ih ho'.1 (by omega)
    rw [ho'.2, Nat.succ_mul]
    omega

/-- Every input that encodes no vector of zeros, with every length that is asked for, is decoded to
as many bytes as were asked for or refused; any other input goes wrong. -/
theorem decodeHuff_safe_iff (input : List UInt8) (outputBytes : ℕ) (hbytes : 0 < outputBytes)
    (h : outputBytes < usize.modulus) :
    ((decodeHuff input outputBytes).Always fun o => o.Good outputBytes ∧ o.pos = outputBytes) ↔
      AllUsed (encodedLengths input) := by
  have hmodulus : usize.modulus = 2 ^ 64 := rfl
  have htotal : totalCodes = 22 := rfl
  have halpha : alphabetSize = 256 := rfl
  have hmax : maxGroups = 8 := rfl
  rw [decodeHuff, if_neg hbytes.ne', encodedLengths, readGroups, orNone_andThen]
  refine Always.andThen_iff (decodeBits_lt 3 _).matches ?_
  rintro g _ ⟨rfl, hg⟩
  have hgroups : g.1 + 1 ≤ maxGroups := hg
  have hsize : (if 1 < g.1 + 1 then
      (decodeBits 5 g.2).andThen fun p => .done ((p.1 + 1) * 5, p.2)
      else .done (outputBytes, g.2)).Matches
        (fun z q => q = (g.1 + 1, z.2) ∧ 0 < z.1 ∧ (1 < g.1 + 1 → 5 ≤ z.1))
        (if 1 < g.1 + 1 then (decodeBits 5 g.2).andThen fun p => .done (g.1 + 1, p.2)
        else .done (g.1 + 1, g.2)) := by
    split_ifs with hone
    · refine (decodeBits_lt 5 g.2).matches.andThen ?_
      rintro p _ ⟨rfl, -⟩
      refine ⟨rfl, ?_, fun _ => ?_⟩ <;> dsimp only <;> omega
    · exact ⟨rfl, hbytes, fun hyes => absurd hyes hone⟩
  refine Always.andThen_iff hsize ?_
  rintro z _ ⟨rfl, hz, hfive⟩
  dsimp only
  rw [decodeClclen_eq, andThen_assoc]
  refine Always.andThen_iff (readClclen_always z.2).matches ?_
  rintro cl _ ⟨rfl, hclen⟩
  rw [andThen_assoc]
  refine buildDecoder_iff (by decide) hclen (by decide) (by rw [Table.length_blank])
    (by rw [Table.length_blank]; decide) (by rw [Table.length_blank]; decide) fun dcl hdcl => ?_
  have hvalues := @decode12_matches cl.1 dcl (alphabetSize * (g.1 + 1)) (· ≤ maxCodelen)
    (Table.blank totalCodes) (Table.blank (maxGroups * alphabetSize)) hdcl
    (hclen.1.le.trans (Nat.le_succ _)) clenOrder (hclen.1.le.trans (by decide)) (by decide)
    (by decide) (Nat.zero_le _) (by rw [halpha]; omega)
    (by rw [Table.length_blank, halpha]; omega) alphabetSize cl.2
  rw [andThen_done]
  refine Always.andThen_iff hvalues ?_
  rintro _ p ⟨rfl, hlen, hle⟩
  rw [List.range_eq_range']
  refine buildGroups_iff hlen hle (Nat.zero_add _) (Table.holds_zero _ _)
    (by rw [Table.length_blank]; exact hgroups) fun tables htables => ?_
  -- the sectors are safe whatever the selectors
  have hsectors : ∀ (selGroup : Table ℕ) (r : BitReader),
      (2 ≤ g.1 + 1 → selGroup.Holds (1 + (outputBytes - 1) / z.1) (· < g.1 + 1)) →
        (decodeSectors tables selGroup (g.1 + 1) z.1 outputBytes (1 + (outputBytes - 1) / z.1) 0
          ⟨Table.blank outputBytes, 0, r⟩).Always
            fun o => o.Good outputBytes ∧ o.pos = outputBytes := by
    intro selGroup r hsel
    apply decodeSectors_always (Nat.succ_pos _) htables hsel hz hbytes
      ⟨Table.length_blank _, Table.holds_zero _ _⟩ (Nat.zero_add _)
    rw [Nat.zero_mul, Nat.zero_min]
  by_cases hone : 1 < g.1 + 1
  · have hdiv : (outputBytes - 1) / z.1 ≤ (outputBytes - 1) / 5 :=
      Nat.div_le_div_left (hfive hone) (by decide)
    rw [if_pos hone, if_pos hone, decodeSelectors_eq hgroups, andThen_assoc]
    have hnumbers := @decodeNumbers_matches 3 (g.1 + 1 + 1) [] (Table.blank (maxGroups + 1))
      (by rw [Table.length_blank, List.length_nil]; omega) p.2
    refine Always.andThen_iff hnumbers.always_right.matches ?_
    rintro q _ ⟨rfl, _, -, hq, hlt⟩
    rw [andThen_assoc]
    refine buildDecoder_iff (by decide) ⟨hq, fun c hc => Nat.le_of_lt_succ (hlt c hc)⟩ (by omega)
      (by rw [Table.length_blank]; omega) (by rw [Table.length_blank]; decide)
      (by rw [Table.length_blank]; decide) fun d hd => iff_of_true ?_ allUsed_nil
    have hsel := @decode12_matches q.1 d (1 + (outputBytes - 1) / z.1) (· < g.1 + 1)
      (Table.overlay (List.range (g.1 + 1 + 1)) (Table.blank (maxGroups + 2)))
      (Table.blank (1 + (outputBytes - 1) / z.1)) hd (by omega) (List.range (g.1 + 1))
      (by rw [List.length_range, hq]) (by rw [Ne, List.range_eq_nil]; omega)
      (fun v hv => List.mem_range.1 hv) (Nat.succ_pos _) (by omega)
      (by rw [Table.length_blank]) 0 q.2
    refine hsel.always.andThen ?_
    rintro _ ⟨sel, rfl, hlen, hsel⟩
    exact hsectors _ _ fun _ => hlen ▸ Table.overlay_holds hsel
  · rw [if_neg hone, if_neg hone, andThen_done]
    exact iff_of_true (hsectors _ _ fun htwo => absurd htwo hone) allUsed_nil

/-- Two letters, with codes of one bit each, and three of them in one sector. -/
def letters : List UInt8 := [120, 36, 6, 0, 0, 0, 0, 0, 6, 0, 0, 0, 161, 91, 42, 4]

theorem decodeHuff_safe_iff_letters : 0 < 3 ∧ 3 < usize.modulus ∧
    AllUsed (encodedLengths letters) ∧ ∃ o, decodeHuff letters 3 = .done o ∧
      (o.Good 3 ∧ o.pos = 3) ∧ o.bytes = [some 97, some 98, some 97] := by
  have hused : AllUsed (encodedLengths letters) := by decide +kernel
  refine ⟨by decide, by decide, hused, Always.exists_done ?_ (by decide +kernel)⟩
  rw [decodeHuff_safe_iff letters 3 (by decide) (by decide)]
  exact hused

/-- None of the code lengths has a code: `limit[DJW_MAX_CLCLEN + 1]` is made of a count that was
not set. -/
theorem decodeHuff_unset : ¬ ∀ (input : List UInt8) (outputBytes : ℕ), 0 < outputBytes →
    outputBytes < usize.modulus →
      (decodeHuff input outputBytes).Always fun o =>
        o.Good outputBytes ∧ o.pos = outputBytes := by
  intro h
  have hfault : ((decodeHuff [0, 0, 0, 0, 0] 1).andThen fun o => .done o.bytes) = .fault := by
    decide +kernel
  exact not_always_of_fault hfault (h [0, 0, 0, 0, 0] 1 (by decide) (by decide))

end Xdelta.Djw
