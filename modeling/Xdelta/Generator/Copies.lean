import Xdelta.Generator.Match

/-!
# Computing the copies

`compute_copies` moves a window over the target, byte by byte on a page, and asks the table
for its checksum, which it keeps up to date. A match or the end of a page makes it begin
again at another place.
-/
namespace Xdelta.Generator

/-- Where `compute_copies` is: at the test of its loop, at a window, at the end of a page, or done
with looking for matches. `segment` and `ptr` are what `segment_pointer` points into, and where. -/
inductive Phase where
  | enter
  | examine (segment : List UInt8) (ptr : ℕ) (cksum : XdeltaChecksum) (segmentIndex : ℕ)
  | nextpage
  | stop

structure Machine where
  copier : Copier
  phase : Phase

section
variable (g : Setting) (sources : List Indexed) (table : List ℕ)

/-- `segment_pointer[i]`. -/
def segmentByte (segment : List UInt8) (ptr i : ℕ) : UInt8 :=
  segment.getD (ptr + i) (g.junk (ptr + i))

def enterPage (c : Copier) : Machine :=
  if (c.xpos.xpos : ℤ) ≤ g.target.length - g.q.pow then
    match c.xpos.mapPage g.target with
    | none => ⟨c, .stop⟩
    | some xpos =>
      let segmentIndex := guint.sub xpos.memRem xpos.off
      if segmentIndex < g.q.pow then ⟨{ c with xpos := xpos }, .nextpage⟩
      else
        let segment := xpos.mem.getD []
        ⟨{ c with xpos := xpos },
          .examine segment xpos.off (initQueryChecksum g.q (segmentByte g segment xpos.off))
            (guint.sub segmentIndex g.q.pow)⟩
  else ⟨c, .stop⟩

def lookup (cksum : XdeltaChecksum) : Option (ℕ × ℕ) :=
  let entry := table.getD (cHash cksum % table.length) 0
  if entry = 0 then none
  else
    (sources[sourceIndex g.q entry]?).bind fun xs =>
      let sourceCksum := xs.cksums (sourceOffset g.q entry)
      if cksum.high = sourceCksum.high ∧ cksum.low = sourceCksum.low then
        some (sourceIndex g.q entry, (sourceOffset g.q entry <<< g.q.log) % 2 ^ 32)
      else none

def advanceWindow (c : Copier) (segment : List UInt8) (ptr : ℕ) (cksum : XdeltaChecksum)
    (segmentIndex : ℕ) : Machine :=
  if segmentIndex = 0 then ⟨c, .nextpage⟩
  else
    let oldC := chew (segmentByte g segment ptr 0)
    let newC := chew (segmentByte g segment ptr g.q.pow)
    ⟨{ c with xpos := { c.xpos with off := guint.add c.xpos.off 1 } },
      .examine segment (ptr + 1) (updateChecksum g.q cksum oldC newC) (segmentIndex - 1)⟩

def examineWindow (c : Copier) (segment : List UInt8) (ptr : ℕ) (cksum : XdeltaChecksum)
    (segmentIndex : ℕ) : Machine :=
  match lookup g sources table cksum with
  | none => advanceWindow g c segment ptr cksum segmentIndex
  | some (i, srcOffset) =>
    match tryMatch g c i srcOffset with
    | none => ⟨c, .stop⟩
    | some (c', true) => ⟨c', .enter⟩
    | some (c', false) =>
      advanceWindow g
        { c' with xpos := { c'.xpos with page := c.xpos.page, off := c.xpos.off } }
        segment ptr cksum segmentIndex

def nextPage (c : Copier) : Machine :=
  if c.xpos.memRem < c.xpos.pageSize then ⟨c, .stop⟩
  else
    let xpos := { c.xpos with page := guint.add c.xpos.page 1, off := 0 }
    let c := { c with xpos := xpos }
    if xpos.page ≠ xpos.memPage then
      match regionInsert g c (guint.sub xpos.xpos c.toOutputPos) with
      | none => ⟨c, .stop⟩
      | some c => ⟨c, .enter⟩
    else ⟨c, .enter⟩

def Machine.step (m : Machine) : Machine :=
  match m.phase with
  | .enter => enterPage g m.copier
  | .examine segment ptr cksum segmentIndex =>
    examineWindow g sources table m.copier segment ptr cksum segmentIndex
  | .nextpage => nextPage g m.copier
  | .stop => m

/-- `compute_copies` after `n` steps; `gen` has the positions of the sources and of the output. -/
def computeCopies (gen : Copier) : ℕ → Machine
  | 0 => ⟨{ gen with xpos := XdeltaPos.init g.target },
      if g.target.length < g.q.pow then .stop else .enter⟩
  | n + 1 => (computeCopies gen n).step g sources table

/-- What holds of the window: it is on the page that is mapped, `segment_index` bytes before its
last place, and the checksum is that of its bytes. -/
structure AtWindow (c : Copier) (segment : List UInt8) (ptr : ℕ) (cksum : XdeltaChecksum)
    (segmentIndex : ℕ) : Prop where
  window : Window g c.xpos
  within : Within g.target c.xpos
  segment_eq : segment = g.target.page c.xpos.page
  ptr_eq : ptr = c.xpos.off
  index_eq : c.xpos.off + g.q.pow + segmentIndex = c.xpos.memRem
  cksum_eq : cksum = initQueryChecksum g.q (segmentByte g segment ptr)

/-- The position is in the target, and a window is as it should be. -/
def Machine.Right (m : Machine) : Prop :=
  match m.phase with
  | .enter => Within g.target m.copier.xpos
  | .examine segment ptr cksum segmentIndex =>
    AtWindow g m.copier segment ptr cksum segmentIndex
  | .nextpage => Within g.target m.copier.xpos ∧
      m.copier.xpos.memRem = (g.target.page m.copier.xpos.page).length
  | .stop => True

end

section
variable {g : Setting} {sources : List Indexed} {table : List ℕ} {c : Copier}
  {segment : List UInt8} {ptr segmentIndex : ℕ} {cksum : XdeltaChecksum}

theorem enterPage_right (h : Within g.target c.xpos) : (enterPage g c).Right g := by
  unfold enterPage
  split_ifs with htest
  · cases hmap : c.xpos.mapPage g.target with
    | none => trivial
    | some xpos =>
      obtain ⟨hmapped, hpage, hoff, hmemPage, hmem⟩ := h.mapped.mapPage hmap
      have hsize : xpos.pageSize = c.xpos.pageSize :=
        hmapped.pageSize_eq.trans h.mapped.pageSize_eq.symm
      have hwithin : Within g.target xpos := by
        refine ⟨hmapped, ?_, ?_⟩
        · rw [hoff, hsize]
          exact h.off_lt
        · rw [hpage, hoff, hsize]
          exact h.le_length
      have hrem := (hmapped.mem_eq _ hmem).2
      rw [← hpage] at hmem hrem hmemPage
      obtain ⟨hle, hend, -⟩ := length_page_of_within hwithin
      rw [← hrem] at hle hend
      have hlt : xpos.memRem < 2 ^ 32 := by
        have hlength : g.target.length < 2 ^ 32 := g.target.length_lt
        omega
      have hindex : guint.sub xpos.memRem xpos.off = xpos.memRem - xpos.off :=
        guint.sub_eq hlt hle
      dsimp only
      rw [hindex]
      split_ifs with hshort
      · exact ⟨hwithin, hrem⟩
      · have hsub : guint.sub (xpos.memRem - xpos.off) g.q.pow = xpos.memRem - xpos.off - g.q.pow :=
          guint.sub_eq (show _ < 2 ^ 32 by omega) (by omega)
        have hroom : xpos.off + g.q.pow ≤ xpos.memRem := by omega
        have hrest : xpos.off + g.q.pow + (xpos.memRem - xpos.off - g.q.pow) = xpos.memRem := by
          omega
        rw [hsub, hmem]
        exact ⟨⟨hmapped, hmem, hmemPage, hroom⟩, hwithin, rfl, rfl, hrest, rfl⟩
  · trivial

theorem segmentByte_succ (i : ℕ) :
    segmentByte g segment ptr (i + 1) = segmentByte g segment (ptr + 1) i := by
  rw [segmentByte, segmentByte, show ptr + (i + 1) = ptr + 1 + i by omega]

theorem advanceWindow_right (h : AtWindow g c segment ptr cksum segmentIndex) :
    (advanceWindow g c segment ptr cksum segmentIndex).Right g := by
  have hrem : c.xpos.memRem = (g.target.page c.xpos.page).length :=
    (h.window.mapped.mem_eq _ h.window.mem_eq).2
  unfold advanceWindow
  split_ifs with hlast
  · exact ⟨h.within, hrem⟩
  · obtain ⟨-, hend, hsize⟩ := length_page_of_within h.within
    have hindex := h.index_eq
    have hpow := g.q.pow_pos
    have hlength : g.target.length < 2 ^ 32 := g.target.length_lt
    have hoff : guint.add c.xpos.off 1 = c.xpos.off + 1 :=
      guint.add_eq (show _ < 2 ^ 32 by omega)
    have hnext : (fun i => segmentByte g segment ptr (i + 1)) = segmentByte g segment (ptr + 1) := by
      funext i
      exact segmentByte_succ i
    have hcksum := updateChecksum_eq g.q (segmentByte g segment ptr)
    rw [← h.cksum_eq, hnext] at hcksum
    dsimp only
    rw [hoff]
    refine ⟨⟨h.window.mapped.congr rfl rfl rfl rfl, h.window.mem_eq, h.window.memPage_eq, ?_⟩,
      ⟨h.within.mapped.congr rfl rfl rfl rfl, ?_, ?_⟩, h.segment_eq, ?_, ?_, hcksum⟩
    · dsimp only
      omega
    · dsimp only
      omega
    · dsimp only
      omega
    · exact congrArg (· + 1) h.ptr_eq
    · dsimp only
      omega

theorem insert_right {p : Prop} [Decidable p] {len : ℕ} (h : Within g.target c.xpos) :
    Machine.Right g (if p then
      match regionInsert g c len with
      | none => ⟨c, .stop⟩
      | some c => ⟨c, .enter⟩
    else ⟨c, .enter⟩) := by
  split_ifs
  · cases hinsert : regionInsert g c len with
    | none => trivial
    | some c' =>
      rw [← regionInsert_xpos hinsert] at h
      exact h
  · exact h

theorem nextPage_right (h : Within g.target c.xpos)
    (hrem : c.xpos.memRem = (g.target.page c.xpos.page).length) : (nextPage g c).Right g := by
  unfold nextPage
  split_ifs with hshort
  · trivial
  · obtain ⟨-, hend, -⟩ := length_page_of_within h
    have hpos : 0 < c.xpos.pageSize := (Nat.zero_le _).trans_lt h.off_lt
    have hlength : g.target.length < 2 ^ 32 := g.target.length_lt
    have hnext : (c.xpos.page + 1) * c.xpos.pageSize ≤ g.target.length := by
      rw [Nat.add_mul, Nat.one_mul]
      omega
    have hpage : c.xpos.page + 1 ≤ g.target.length :=
      (Nat.le_mul_of_pos_right _ hpos).trans hnext
    have hadd : guint.add c.xpos.page 1 = c.xpos.page + 1 :=
      guint.add_eq (show _ < 2 ^ 32 by omega)
    have hwithin : Within g.target { c.xpos with page := c.xpos.page + 1, off := 0 } := by
      refine ⟨h.mapped.congr rfl rfl rfl rfl, hpos, ?_⟩
      rw [Nat.add_zero]
      exact hnext
    rw [hadd]
    exact insert_right hwithin

/-- A match that is not long enough leaves the window where it is. -/
theorem examineWindow_right (h : AtWindow g c segment ptr cksum segmentIndex) :
    (examineWindow g sources table c segment ptr cksum segmentIndex).Right g := by
  unfold examineWindow
  cases lookup g sources table cksum with
  | none => exact advanceWindow_right h
  | some place =>
    obtain ⟨i, srcOffset⟩ := place
    dsimp only
    cases hmatch : tryMatch g c i srcOffset with
    | none => trivial
    | some result =>
      obtain ⟨c', found⟩ := result
      obtain ⟨hwithin, hsame⟩ := tryMatch_spec h.window h.within hmatch
      cases found with
      | true => exact hwithin
      | false =>
        have hpage := hsame rfl
        have hsize : c'.xpos.pageSize = c.xpos.pageSize :=
          hwithin.mapped.pageSize_eq.trans h.within.mapped.pageSize_eq.symm
        have hmapped := h.within.mapped.congr hsize hpage.1 hpage.2 hpage.3
        have hoff := h.within.off_lt
        have hle := h.within.le_length
        have hroom := h.window.room
        rw [← hsize] at hoff hle
        rw [← hpage.memRem_eq] at hroom
        refine advanceWindow_right ⟨⟨hmapped.congr rfl rfl rfl rfl, ?_, ?_, hroom⟩,
          ⟨hmapped.congr rfl rfl rfl rfl, hoff, hle⟩, h.segment_eq, h.ptr_eq, ?_, h.cksum_eq⟩
        · exact hpage.mem_eq.trans h.window.mem_eq
        · exact hpage.memPage_eq.trans h.window.memPage_eq
        · exact h.index_eq.trans hpage.memRem_eq.symm

theorem Machine.Right.step {m : Machine} (h : m.Right g) : (m.step g sources table).Right g := by
  obtain ⟨c, phase⟩ := m
  cases phase with
  | enter => exact enterPage_right h
  | examine segment ptr cksum segmentIndex => exact examineWindow_right h
  | nextpage => exact nextPage_right h.1 h.2
  | stop => trivial

theorem computeCopies_right (gen : Copier) (n : ℕ) : (computeCopies g sources table gen n).Right g := by
  induction n with
  | zero =>
    rw [computeCopies]
    split_ifs
    · trivial
    · refine ⟨XdeltaPos.Mapped.init g.target, g.target.pageSize_pos, ?_⟩
      rw [XdeltaPos.init, Nat.zero_mul]
      exact Nat.zero_le _
  | succ n ih => exact ih.step

def FileHandle.at (fh : FileHandle) (offset k : ℕ) : UInt8 := fh.bytes.getD (offset + k) 0

/-- Where a window is looked up, it is in the target, and its checksum is that of the bytes
there. -/
def Machine.Examined (g : Setting) (m : Machine) : Prop :=
  ∀ segment ptr cksum segmentIndex, m.phase = .examine segment ptr cksum segmentIndex →
    m.copier.xpos.xpos + g.q.pow ≤ g.target.length ∧
      cksum = initQueryChecksum g.q (g.target.at m.copier.xpos.xpos)

theorem AtWindow.byte (h : AtWindow g c segment ptr cksum segmentIndex) {k : ℕ}
    (hk : k < g.q.pow) : segmentByte g segment ptr k = g.target.at c.xpos.xpos k := by
  have hrem : c.xpos.memRem = (g.target.page c.xpos.page).length :=
    (h.window.mapped.mem_eq _ h.window.mem_eq).2
  have hroom := h.window.room
  obtain ⟨-, hend, hsize⟩ := length_page_of_within h.within
  have hin : c.xpos.off + k < (g.target.page c.xpos.page).length := by omega
  have hbyte := g.target.getD_page hin (g.junk (c.xpos.off + k)) 0
  rw [← h.within.mapped.pageSize_eq, ← Nat.add_assoc] at hbyte
  rw [segmentByte, FileHandle.at, h.segment_eq, h.ptr_eq, h.within.xpos_eq]
  exact hbyte

theorem Machine.Right.examined {m : Machine} (h : m.Right g) : m.Examined g := by
  obtain ⟨c, phase⟩ := m
  intro segment ptr cksum segmentIndex hphase
  cases hphase
  have hat : AtWindow g c segment ptr cksum segmentIndex := h
  have hrem : c.xpos.memRem = (g.target.page c.xpos.page).length :=
    (hat.window.mapped.mem_eq _ hat.window.mem_eq).2
  have hroom := hat.window.room
  obtain ⟨-, hend, -⟩ := length_page_of_within hat.within
  refine ⟨?_, ?_⟩
  · dsimp only
    rw [hat.within.xpos_eq]
    omega
  · rw [hat.cksum_eq]
    exact initQueryChecksum_congr g.q fun k hk => hat.byte hk

end

end Xdelta.Generator
