import Xdelta.Generator.Copies

/-!
# Generating a delta

`xdp_generate_delta_int` checks the number of sources, which has to fit into the low bits of
an entry, and their sizes. Then it indexes the sources, builds the table and computes the
copies.
-/
namespace Xdelta.Generator

/-- What becomes of `xdp_generate_delta_int`: one of the two events, only an insertion, a source
that could not be indexed, or `compute_copies` with these sources and this table. -/
inductive Generated where
  | tooFewSources
  | tooManySources
  | justOutput
  | failed
  | copies (sources : List Indexed) (table : List ℕ)

/-- `total_from_len`, without the patch data. -/
def totalFromLen (sources : List XdeltaSource) : ℤ :=
  (sources.drop 1).foldl
    (fun total xs => gint (total + (xs.sourceIn.map FileHandle.length).getD 0)) 0

/-- `xdp_generate_delta_int`; `closest` is `g_spaced_primes_closest`, `fresh` memory that is
allocated. -/
def xdpGenerateDeltaInt (g : Setting) (closest : ℤ → ℕ) (fresh : ℕ → XdeltaChecksum)
    (sources : List XdeltaSource) : Generated :=
  if sources.length = 0 then .tooFewSources
  else if g.q.pow - 2 < sources.length then .tooManySources
  else if g.target.length < g.q.pow ∨ totalFromLen sources < g.q.pow then .justOutput
  else
    match checkIndices g.q fresh 0 sources with
    | none => .failed
    | some indexed => .copies indexed (buildTable g.q closest indexed)

theorem length_checkIndices {q : QuerySize} {fresh : ℕ → XdeltaChecksum} {i : ℕ}
    {sources : List XdeltaSource} {indexed : List Indexed}
    (h : checkIndices q fresh i sources = some indexed) : indexed.length = sources.length := by
  induction sources generalizing i indexed with
  | nil =>
    cases h
    rfl
  | cons xs sources ih =>
    obtain ⟨x, -, h⟩ := Option.bind_eq_some_iff.1 h
    obtain ⟨rest, hrest, rfl⟩ := Option.map_eq_some_iff.1 h
    exact congrArg (· + 1) (ih hrest)

theorem xdpGenerateDeltaInt_copies {g : Setting} {closest : ℤ → ℕ} {fresh : ℕ → XdeltaChecksum}
    {sources : List XdeltaSource} {indexed : List Indexed} {table : List ℕ}
    (h : xdpGenerateDeltaInt g closest fresh sources = .copies indexed table) :
    indexed.length = sources.length ∧ indexed.length ≤ g.q.pow - 2 ∧
      table = buildTable g.q closest indexed := by
  unfold xdpGenerateDeltaInt at h
  split_ifs at h with hnone hmany hshort
  cases hcheck : checkIndices g.q fresh 0 sources with
  | none =>
    rw [hcheck] at h
    cases h
  | some found =>
    rw [hcheck] at h
    cases h
    have hlen := length_checkIndices hcheck
    exact ⟨hlen, by omega, rfl⟩

/-- Wherever `compute_copies` looks a checksum up, it is that of the bytes there, and in the table
it is given every entry that is not empty leads to a checksum of one of the sources. -/
theorem generator_right (g : Setting) (gen : Copier) (n : ℕ) (indexed : List Indexed)
    (table : List ℕ) :
    (computeCopies g indexed table gen n).Examined g ∧
      ∀ closest fresh sources,
        xdpGenerateDeltaInt g closest fresh sources = .copies indexed table →
          indexed.length = sources.length ∧ ∀ entry ∈ table, Unpacks g.q indexed entry := by
  refine ⟨(computeCopies_right gen n).examined, fun closest fresh sources h => ?_⟩
  obtain ⟨hlen, hle, rfl⟩ := xdpGenerateDeltaInt_copies h
  exact ⟨hlen, buildTable_unpacks closest hle⟩

def zeros : FileHandle where
  bytes := List.replicate 16 0
  pageSize := 32
  length_lt := by decide
  pageSize_pos := by decide

def zerosSetting : Setting where
  q := .default
  target := zeros
  source _ := zeros
  rounds := 4

theorem generator_right_zeros : ∃ indexed table,
    xdpGenerateDeltaInt zerosSetting (fun _ => 11) (fun _ => ⟨0, 0⟩) [⟨none, none⟩, ⟨some zeros, none⟩]
      = .copies indexed table ∧
    2 ∈ table ∧ (∀ entry ∈ table, Unpacks .default indexed entry) ∧
    (computeCopies zerosSetting indexed table ⟨.init zeros, fun _ => .init zeros, 0, 0⟩ 1).Examined
      zerosSetting := by
  refine ⟨_, _, rfl, by decide, ?_, ?_⟩
  · exact ((generator_right zerosSetting ⟨.init zeros, fun _ => .init zeros, 0, 0⟩ 0 _ _).2
      (fun _ => 11) (fun _ => ⟨0, 0⟩) [⟨none, none⟩, ⟨some zeros, none⟩] rfl).2
  · exact (generator_right zerosSetting _ 1 _ _).1

end Xdelta.Generator
