import Xdelta.Generator.Checksum
import Xdelta.Generator.Pages

/-!
# The table of checksums

The checksums of all sources are entered into one table. An entry is 32 bits wide: the
number of the checksum above, the number of its source, counted from one, below.
-/
namespace Xdelta.Generator

/-- What `xdp_source_check_index` leaves in a source: `ck_count`, and `cksums` as memory. -/
structure Indexed where
  ckCount : ℤ
  cksums : ℕ → XdeltaChecksum

/-- `XdeltaSource`. The patch data has no `source_in`; `indexIn` is what `index_in` holds, where
there is one: the checksums of an index of this file, or nothing that can be read. -/
structure XdeltaSource where
  sourceIn : Option FileHandle
  indexIn : Option (Option (List XdeltaChecksum)) := none

def pageChecksums (q : QuerySize) (page : List UInt8) : List XdeltaChecksum :=
  (List.range (page.length >>> q.log)).map fun k =>
    initQueryChecksum q fun i => page.getD (k * q.pow + i) 0

/-- The loop of `generate_checksums` over the pages. -/
def checksumLoop (q : QuerySize) (fh : FileHandle) : List ℕ → List XdeltaChecksum →
    Option (List XdeltaChecksum)
  | [], result => some result
  | pgno :: pgnos, result =>
    (fh.mapPage pgno).bind fun page =>
      if fh.unmap pgno then checksumLoop q fh pgnos (result ++ pageChecksums q page) else none

/-- `generate_checksums`; `fresh` is the memory that is allocated. -/
def generateChecksums (q : QuerySize) (fresh : ℕ → XdeltaChecksum) (fh : FileHandle) :
    Option Indexed :=
  let total := gint (fh.length / q.pow : ℕ)
  if total = 0 then some ⟨0, fresh⟩
  else
    (checksumLoop q fh (List.range (fh.pages + 1)) []).map fun result =>
      ⟨total, fun j => result.getD j (fresh j)⟩

/-- `xdp_source_check_index` of the `i`th source. -/
def sourceCheckIndex (q : QuerySize) (fresh : ℕ → XdeltaChecksum) (i : ℕ) (xs : XdeltaSource) :
    Option Indexed :=
  if i = 0 then some ⟨0, fresh⟩
  else
    match xs.indexIn, xs.sourceIn with
    | some index, _ =>
      index.map fun index => ⟨gint index.length, fun j => index.getD j (fresh j)⟩
    | none, some fh => generateChecksums q fresh fh
    | none, none => none

/-- The loop that checks the indices, from the `i`th source on. -/
def checkIndices (q : QuerySize) (fresh : ℕ → XdeltaChecksum) :
    ℕ → List XdeltaSource → Option (List Indexed)
  | _, [] => some []
  | i, xs :: sources =>
    (sourceCheckIndex q fresh i xs).bind fun x =>
      (checkIndices q fresh (i + 1) sources).map fun rest => x :: rest

/-- What is stored for checksum `j` of source `i`. -/
def tableEntry (q : QuerySize) (i j : ℕ) : ℕ := ((j <<< q.log) + 1 + i) % 2 ^ 32

def sourceIndex (q : QuerySize) (entry : ℕ) : ℕ := guint.sub (entry &&& q.mask) 1

def sourceOffset (q : QuerySize) (entry : ℕ) : ℕ := entry >>> q.log

/-- The loop over the checksums of source `i` below the `j`th, the last one first. -/
def fillChecksums (q : QuerySize) (prime i : ℕ) (cksums : ℕ → XdeltaChecksum) :
    ℕ → List ℕ → List ℕ
  | 0, table => table
  | j + 1, table =>
    fillChecksums q prime i cksums j (table.set (cHash (cksums j) % prime) (tableEntry q i j))

/-- The loop over the sources from the `i`th on. -/
def fillTable (q : QuerySize) (prime : ℕ) : ℕ → List Indexed → List ℕ → List ℕ
  | _, [], table => table
  | i, xs :: sources, table =>
    fillTable q prime (i + 1) sources
      (fillChecksums q prime i xs.cksums xs.ckCount.toNat table)

/-- The table of these sources; `closest` is `g_spaced_primes_closest`. -/
def buildTable (q : QuerySize) (closest : ℤ → ℕ) (sources : List Indexed) : List ℕ :=
  let prime := closest (sources.foldl (fun total xs => gint (total + xs.ckCount)) 0)
  fillTable q prime 0 sources (List.replicate prime 0)

/-- An entry that is not empty leads to a checksum that exists. -/
def Unpacks (q : QuerySize) (sources : List Indexed) (entry : ℕ) : Prop :=
  entry ≠ 0 → ∃ xs, sources[sourceIndex q entry]? = some xs ∧
    (sourceOffset q entry : ℤ) < xs.ckCount

section
variable {q : QuerySize} {sources : List Indexed} {i j prime : ℕ}

/-- The source number does not run into the checksum number, even where the word overflows. -/
theorem tableEntry_mod (hi : 1 + i < q.pow) : tableEntry q i j % q.pow = 1 + i := by
  have hdvd : q.pow ∣ 2 ^ 32 := Nat.pow_dvd_pow 2 (by have := q.log_lt; omega)
  rw [tableEntry, Nat.mod_mod_of_dvd _ hdvd, Nat.shiftLeft_eq, Nat.add_assoc, QuerySize.pow,
    Nat.mul_add_mod_self_right]
  exact Nat.mod_eq_of_lt hi

theorem sourceIndex_tableEntry (hi : 1 + i < q.pow) : sourceIndex q (tableEntry q i j) = i := by
  have hpow : q.pow < 2 ^ 32 := Nat.pow_lt_pow_right (by decide) (by have := q.log_lt; omega)
  have hmod := @tableEntry_mod q i j hi
  rw [sourceIndex, QuerySize.mask, QuerySize.pow, Nat.and_two_pow_sub_one_eq_mod]
  rw [QuerySize.pow] at hmod hpow hi
  rw [hmod, Width.sub_eq _ (show 1 + i < guint.modulus from hi.trans hpow) (by omega)]
  omega

theorem sourceOffset_tableEntry (hi : 1 + i < q.pow) : sourceOffset q (tableEntry q i j) ≤ j := by
  rw [sourceOffset, tableEntry, Nat.shiftRight_eq_div_pow, Nat.shiftLeft_eq, Nat.add_assoc]
  refine (Nat.div_le_div_right (Nat.mod_le _ _)).trans ?_
  rw [Nat.mul_comm, Nat.mul_add_div (Nat.two_pow_pos _)]
  rw [QuerySize.pow] at hi
  rw [Nat.div_eq_of_lt hi]
  exact le_refl j

theorem unpacks_tableEntry {xs : Indexed} (hi : 1 + i < q.pow) (hxs : sources[i]? = some xs)
    (hj : (j : ℤ) < xs.ckCount) : Unpacks q sources (tableEntry q i j) := by
  intro _
  rw [sourceIndex_tableEntry hi]
  have hle := @sourceOffset_tableEntry q i j hi
  exact ⟨xs, hxs, by omega⟩

theorem fillChecksums_unpacks {xs : Indexed} {table : List ℕ} (hi : 1 + i < q.pow)
    (hxs : sources[i]? = some xs) (j : ℕ) (hj : (j : ℤ) ≤ xs.ckCount)
    (h : ∀ e ∈ table, Unpacks q sources e) :
    ∀ e ∈ fillChecksums q prime i xs.cksums j table, Unpacks q sources e := by
  induction j generalizing table with
  | zero => exact h
  | succ j ih =>
    refine ih (by omega) fun e he => ?_
    rcases List.mem_or_eq_of_mem_set he with hmem | rfl
    · exact h e hmem
    · exact unpacks_tableEntry hi hxs (by omega)

theorem fillTable_unpacks {rest : List Indexed} {table : List ℕ}
    (hsources : ∀ k xs, rest[k]? = some xs → sources[i + k]? = some xs ∧ 1 + (i + k) < q.pow)
    (h : ∀ e ∈ table, Unpacks q sources e) :
    ∀ e ∈ fillTable q prime i rest table, Unpacks q sources e := by
  induction rest generalizing i table with
  | nil => exact h
  | cons xs rest ih =>
    obtain ⟨hxs, hi⟩ := hsources 0 xs rfl
    have hfill : ∀ e ∈ fillChecksums q prime i xs.cksums xs.ckCount.toNat table,
        Unpacks q sources e := by
      rcases Int.lt_or_le xs.ckCount 0 with hneg | hpos
      · rw [Int.toNat_of_nonpos hneg.le]
        exact h
      · exact fillChecksums_unpacks hi hxs _ (Int.toNat_of_nonneg hpos).le h
    refine ih (fun k x hx => ?_) hfill
    have hnext := hsources (k + 1) x hx
    rwa [show i + (k + 1) = i + 1 + k by omega] at hnext

/-- Up to the number of sources that is allowed, every entry can be unpacked. -/
theorem buildTable_unpacks (closest : ℤ → ℕ) (hlen : sources.length ≤ q.pow - 2) :
    ∀ e ∈ buildTable q closest sources, Unpacks q sources e := by
  refine fillTable_unpacks (fun k xs hxs => ?_) (fun e he => ?_)
  · have hk := (List.getElem?_eq_some_iff.1 hxs).1
    rw [Nat.zero_add]
    exact ⟨hxs, by omega⟩
  · rw [List.eq_of_mem_replicate he]
    exact fun hne => absurd rfl hne

end

end Xdelta.Generator
