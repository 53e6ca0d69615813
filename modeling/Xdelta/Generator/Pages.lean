import Xdelta.Integer

/-!
# Pages

The generator reads its files a page at a time, and remembers for each file a position
and the page that is mapped. Numbers are 32-bit: a `guint` wraps, and what is assigned to a
`gint` is taken modulo 2^32.
-/
namespace Xdelta.Generator

abbrev guint : Width := .w32

/-- Conversion to `gint`. -/
def gint (n : ℤ) : ℤ := Int.bmod n (2 ^ 32)

/-- A file that is read, `FileHandle`. Its length is a `guint`; `unmap` says whether
`handle_unmap_page` succeeds. -/
structure FileHandle where
  bytes : List UInt8
  pageSize : ℕ
  unmap : ℕ → Bool := fun _ => true
  length_lt : bytes.length < 2 ^ 32
  pageSize_pos : 0 < pageSize

namespace FileHandle

/-- `handle_length`. -/
def length (fh : FileHandle) : ℕ := fh.bytes.length

/-- `handle_pages`. -/
def pages (fh : FileHandle) : ℕ := fh.length / fh.pageSize

def page (fh : FileHandle) (pgno : ℕ) : List UInt8 :=
  (fh.bytes.drop (pgno * fh.pageSize)).take fh.pageSize

/-- `handle_map_page`, with the number of bytes as a `gint`, negative for a failure. -/
def mapPage (fh : FileHandle) (pgno : ℕ) : Option (List UInt8) :=
  if fh.pages < pgno then none
  else if gint (fh.page pgno).length < 0 then none
  else some (fh.page pgno)

theorem length_page (fh : FileHandle) (pgno : ℕ) :
    (fh.page pgno).length = min fh.pageSize (fh.length - pgno * fh.pageSize) := by
  rw [page, List.length_take, List.length_drop]
  rfl

theorem getD_page (fh : FileHandle) {pgno i : ℕ} (h : i < (fh.page pgno).length) (a b : UInt8) :
    (fh.page pgno).getD i a = fh.bytes.getD (pgno * fh.pageSize + i) b := by
  have hlen := fh.length_page pgno
  have hin : pgno * fh.pageSize + i < fh.bytes.length := by
    change _ < fh.length
    omega
  rw [List.getD_eq_getElem _ _ h, List.getD_eq_getElem _ _ hin]
  simp only [page, List.getElem_take, List.getElem_drop]

theorem mapPage_some {fh : FileHandle} {pgno : ℕ} {mem : List UInt8}
    (h : fh.mapPage pgno = some mem) : mem = fh.page pgno := by
  unfold mapPage at h
  split_ifs at h
  exact (Option.some.inj h).symm

end FileHandle

/-- `XdeltaPos`; a null `mem` is `none`. -/
structure XdeltaPos where
  page : ℕ
  pageSize : ℕ
  off : ℕ
  mem : Option (List UInt8) := none
  memPage : ℕ := 0
  memRem : ℕ := 0

namespace XdeltaPos

def xpos (p : XdeltaPos) : ℕ := (p.page * p.pageSize + p.off) % 2 ^ 32

/-- `init_pos`. -/
def init (fh : FileHandle) : XdeltaPos := { page := 0, pageSize := fh.pageSize, off := 0 }

def seek (p : XdeltaPos) (offset : ℕ) : XdeltaPos :=
  { p with page := offset / p.pageSize, off := offset % p.pageSize }

def flipForward (p : XdeltaPos) : XdeltaPos :=
  if p.off = p.pageSize then { p with page := guint.add p.page 1, off := 0 } else p

/-- `map_page`; nothing for a failure. -/
def mapPage (fh : FileHandle) (p : XdeltaPos) : Option XdeltaPos :=
  if p.mem ≠ none ∧ p.memPage = p.page then some p
  else if p.mem ≠ none ∧ fh.unmap p.memPage = false then none
  else
    (fh.mapPage p.page).map fun mem =>
      { p with mem := some mem, memPage := p.page, memRem := mem.length }

/-- A byte of the page that is mapped; what lies after it is `junk`. -/
def byte (junk : ℕ → UInt8) (p : XdeltaPos) (i : ℕ) : UInt8 := (p.mem.getD []).getD i (junk i)

structure Mapped (fh : FileHandle) (p : XdeltaPos) : Prop where
  pageSize_eq : p.pageSize = fh.pageSize
  mem_eq : ∀ mem, p.mem = some mem → mem = fh.page p.memPage ∧ p.memRem = mem.length

theorem Mapped.init (fh : FileHandle) : Mapped fh (XdeltaPos.init fh) :=
  ⟨rfl, fun _ h => by cases h⟩

theorem Mapped.congr {fh : FileHandle} {p q : XdeltaPos} (h : p.Mapped fh)
    (hsize : q.pageSize = p.pageSize) (hmem : q.mem = p.mem) (hpage : q.memPage = p.memPage)
    (hrem : q.memRem = p.memRem) : q.Mapped fh := by
  refine ⟨hsize.trans h.pageSize_eq, fun mem hq => ?_⟩
  rw [hpage, hrem]
  exact h.mem_eq mem (hmem ▸ hq)

theorem Mapped.mapPage {fh : FileHandle} {p p' : XdeltaPos} (h : p.Mapped fh)
    (hmap : p.mapPage fh = some p') :
    p'.Mapped fh ∧ p'.page = p.page ∧ p'.off = p.off ∧ p'.memPage = p.page ∧
      p'.mem = some (fh.page p.page) := by
  unfold XdeltaPos.mapPage at hmap
  split_ifs at hmap with hsame hfail
  · cases hmap
    obtain ⟨hne, hpage⟩ := hsame
    obtain ⟨mem, hmem⟩ := Option.ne_none_iff_exists'.1 hne
    refine ⟨h, rfl, rfl, hpage, ?_⟩
    rw [hmem, ← hpage, ← (h.mem_eq mem hmem).1]
  · obtain ⟨mem, hmem, rfl⟩ := Option.map_eq_some_iff.1 hmap
    have hpage := FileHandle.mapPage_some hmem
    refine ⟨⟨h.pageSize_eq, fun m hm => ?_⟩, rfl, rfl, rfl, congrArg some hpage⟩
    cases hm
    exact ⟨hpage, rfl⟩

theorem mapPage_same {fh : FileHandle} {p : XdeltaPos} (hmem : p.mem ≠ none)
    (hpage : p.memPage = p.page) : p.mapPage fh = some p := if_pos ⟨hmem, hpage⟩

end XdeltaPos

end Xdelta.Generator
