import Xdelta.Generator.Table

/-!
# Trying a match

`try_match` extends a match backwards on the mapped page of the target and forwards over
the pages of both files. As long as it does not come to the end of that page, the page
stays mapped.
-/
namespace Xdelta.Generator

/-- How many of the next `n` bytes agree. -/
def agree (x y : ℕ → UInt8) : ℕ → ℕ → ℕ → ℕ
  | 0, _, _ => 0
  | n + 1, i, j => if x i = y j then agree x y n (i + 1) (j + 1) + 1 else 0

/-- How many of the next `n` words of four bytes agree. -/
def agreeWords (x y : ℕ → UInt8) : ℕ → ℕ → ℕ → ℕ
  | 0, _, _ => 0
  | n + 1, i, j =>
    if agree x y 4 i j = 4 then agreeWords x y n (i + 4) (j + 4) + 1 else 0

/-- How many of the next `rem` bytes agree, by words where the places are aligned alike. -/
def compareRegion (x y : ℕ → UInt8) (rem i j : ℕ) : ℕ :=
  if 4 * 4 < rem ∧ i % 4 = j % 4 then
    let align := (4 - i % 4) % 4
    let head := agree x y align i j
    if head < align then head
    else
      let words := agreeWords x y ((rem - align) / 4) (i + align) (j + align)
      let done := align + words * 4
      done + agree x y (rem - done) (i + done) (j + done)
  else agree x y rem i j

/-- How many of the `n` bytes before agree. -/
def agreeBack (x y : ℕ → UInt8) : ℕ → ℕ → ℕ → ℕ
  | 0, _, _ => 0
  | n + 1, i, j => if x (i - 1) = y (j - 1) then agreeBack x y n (i - 1) (j - 1) + 1 else 0

theorem agree_le (x y : ℕ → UInt8) (n i j : ℕ) : agree x y n i j ≤ n := by
  induction n generalizing i j with
  | zero => exact Nat.le_refl 0
  | succ n ih =>
    rw [agree]
    split_ifs
    · exact Nat.succ_le_succ (ih _ _)
    · exact Nat.zero_le _

theorem agreeWords_le (x y : ℕ → UInt8) (n i j : ℕ) : agreeWords x y n i j ≤ n := by
  induction n generalizing i j with
  | zero => exact Nat.le_refl 0
  | succ n ih =>
    rw [agreeWords]
    split_ifs
    · exact Nat.succ_le_succ (ih _ _)
    · exact Nat.zero_le _

theorem compareRegion_le (x y : ℕ → UInt8) (rem i j : ℕ) : compareRegion x y rem i j ≤ rem := by
  have halign := agree_le x y ((4 - i % 4) % 4) i j
  have hwords := agreeWords_le x y ((rem - (4 - i % 4) % 4) / 4) (i + (4 - i % 4) % 4)
    (j + (4 - i % 4) % 4)
  unfold compareRegion
  dsimp only
  split_ifs with haligned hhead
  · omega
  · have htail := agree_le x y
      (rem - ((4 - i % 4) % 4 + agreeWords x y ((rem - (4 - i % 4) % 4) / 4)
        (i + (4 - i % 4) % 4) (j + (4 - i % 4) % 4) * 4))
      (i + ((4 - i % 4) % 4 + agreeWords x y ((rem - (4 - i % 4) % 4) / 4)
        (i + (4 - i % 4) % 4) (j + (4 - i % 4) % 4) * 4))
      (j + ((4 - i % 4) % 4 + agreeWords x y ((rem - (4 - i % 4) % 4) / 4)
        (i + (4 - i % 4) % 4) (j + (4 - i % 4) % 4) * 4))
    omega
  · exact agree_le x y rem i j

/-- The files and sizes that do not change. `write` says whether `handle_write` succeeds for what
is written from `data_output_pos` on, `junk` is what lies in memory after a page, and no match
takes more than `rounds` rounds over the pages. -/
structure Setting where
  q : QuerySize
  target : FileHandle
  source : ℕ → FileHandle
  rounds : ℕ
  write : ℕ → Bool := fun _ => true
  junk : ℕ → UInt8 := fun _ => 0

/-- What changes: the position in the target, those in the sources, and how much is written. -/
structure Copier where
  xpos : XdeltaPos
  sourcePos : ℕ → XdeltaPos
  toOutputPos : ℕ := 0
  dataOutputPos : ℕ := 0

/-- `region_insert`, as far as the positions go. -/
def regionInsert (g : Setting) (c : Copier) (len : ℕ) : Option Copier :=
  if len = 0 then some c
  else if g.write c.dataOutputPos then
    some { c with
      toOutputPos := guint.add c.toOutputPos len
      dataOutputPos := guint.add c.dataOutputPos len }
  else none

theorem regionInsert_xpos {g : Setting} {c c' : Copier} {len : ℕ}
    (h : regionInsert g c len = some c') : c'.xpos = c.xpos := by
  unfold regionInsert at h
  split_ifs at h <;> cases h <;> rfl

/-- The loop backwards: how many bytes agree before the place in the target and in the source.
Only the offset of the target moves, and it is set again afterwards. -/
def matchBackward (g : Setting) (xpos : XdeltaPos) (src : FileHandle) (backMax : ℤ) :
    ℕ → ℕ → XdeltaPos → Option (ℕ × XdeltaPos)
  | 0, _, _ => none
  | rounds + 1, back, ypos =>
    if (back : ℤ) < backMax then
      let ypos :=
        if ypos.off = 0 then { ypos with off := ypos.pageSize, page := guint.sub ypos.page 1 }
        else ypos
      (ypos.mapPage src).bind fun ypos =>
        let off := xpos.off - back
        let rem := (min (backMax - back) (gint (min off ypos.off : ℕ))).toNat
        let k := agreeBack (xpos.byte g.junk) (ypos.byte g.junk) rem off ypos.off
        let ypos := { ypos with off := ypos.off - k }
        if k < rem then some (back + k, ypos)
        else matchBackward g xpos src backMax rounds (back + k) ypos
    else some (back, ypos)

structure Forward where
  copier : Copier
  ypos : XdeltaPos
  matched : ℕ := 0
  oneInsert : Bool := false

def Forward.round (g : Setting) (src : FileHandle) (toOffset back : ℕ) (max : ℤ) (f : Forward) :
    Option (Forward × Bool) :=
  (f.ypos.mapPage src).bind fun ypos =>
    (if f.oneInsert = false ∧ f.copier.xpos.page ≠ f.copier.xpos.memPage then
      (regionInsert g f.copier
        (guint.sub (guint.sub toOffset back) f.copier.toOutputPos)).map fun c => (c, true)
    else some (f.copier, f.oneInsert)).bind fun r =>
      (r.1.xpos.mapPage g.target).map fun xpos =>
        let rem := (min (max - f.matched)
          (gint (min (guint.sub xpos.memRem xpos.off) (guint.sub ypos.memRem ypos.off) : ℕ))).toNat
        let k := compareRegion (xpos.byte g.junk) (ypos.byte g.junk) rem xpos.off ypos.off
        let xpos := { xpos with off := xpos.off + k }
        let ypos := { ypos with off := ypos.off + k }
        if k < rem then (⟨{ r.1 with xpos := xpos }, ypos, f.matched + k, r.2⟩, true)
        else (⟨{ r.1 with xpos := xpos.flipForward }, ypos.flipForward, f.matched + k, r.2⟩, false)

def matchForward (g : Setting) (src : FileHandle) (toOffset back : ℕ) (max : ℤ) :
    ℕ → Forward → Option Forward
  | 0, _ => none
  | rounds + 1, f =>
    if (f.matched : ℤ) < max then
      (f.round g src toOffset back max).bind fun r =>
        if r.2 then some r.1 else matchForward g src toOffset back max rounds r.1
    else some f

/-- `try_match` of a place in the `i`th source; whether the match is long enough. -/
def tryMatch (g : Setting) (c : Copier) (i srcOffset : ℕ) : Option (Copier × Bool) :=
  let src := g.source i
  let toOffset := c.xpos.xpos
  let forwardMax := gint (min (g.target.length - toOffset : ℤ) (src.length - srcOffset : ℤ))
  let backMax :=
    min (gint (min srcOffset (guint.sub toOffset c.toOutputPos) : ℕ)) (gint c.xpos.off)
  (matchBackward g c.xpos src backMax g.rounds 0 ((c.sourcePos i).seek srcOffset)).bind fun b =>
    (matchForward g src toOffset b.1 forwardMax g.rounds
      { copier := { c with xpos := c.xpos.seek toOffset }, ypos := b.2.seek srcOffset }).bind
        fun f =>
          let done := { f.copier with sourcePos := Function.update c.sourcePos i f.ypos }
          if g.q.pow ≤ f.matched + b.1 then
            (if f.oneInsert then some done
            else regionInsert g done
              (guint.sub (guint.sub toOffset b.1) done.toOutputPos)).map fun c =>
                ({ c with toOutputPos := guint.add c.toOutputPos (f.matched + b.1) }, true)
          else some (done, false)

theorem gint_le (n : ℕ) : gint n ≤ n := by
  rw [gint, Int.bmod]
  split_ifs <;> omega

structure SamePage (p p' : XdeltaPos) : Prop where
  mem_eq : p'.mem = p.mem
  memPage_eq : p'.memPage = p.memPage
  memRem_eq : p'.memRem = p.memRem

/-- A position with a window of the page after it. -/
structure Window (g : Setting) (p : XdeltaPos) : Prop where
  mapped : p.Mapped g.target
  mem_eq : p.mem = some (g.target.page p.page)
  memPage_eq : p.memPage = p.page
  room : p.off + g.q.pow ≤ p.memRem

structure Within (fh : FileHandle) (p : XdeltaPos) : Prop where
  mapped : p.Mapped fh
  off_lt : p.off < p.pageSize
  le_length : p.page * p.pageSize + p.off ≤ fh.length

theorem length_page_of_within {fh : FileHandle} {p : XdeltaPos} (h : Within fh p) :
    p.off ≤ (fh.page p.page).length ∧
      p.page * p.pageSize + (fh.page p.page).length ≤ fh.length ∧
      (fh.page p.page).length ≤ p.pageSize := by
  have hlen := fh.length_page p.page
  have hoff := h.off_lt
  have hle := h.le_length
  rw [h.mapped.pageSize_eq] at hoff hle ⊢
  rw [hlen]
  omega

/-- Moving on within the page, or to the next one from its end. -/
theorem Within.advance {fh : FileHandle} {p : XdeltaPos} {k : ℕ} (h : Within fh p)
    (hk : p.off + k ≤ (fh.page p.page).length) :
    Within fh ({ p with off := p.off + k } : XdeltaPos).flipForward ∧
      let p' := ({ p with off := p.off + k } : XdeltaPos).flipForward
      p'.page * p'.pageSize + p'.off = p.page * p.pageSize + p.off + k ∧
        SamePage p p' ∧ (p'.page = p.page ∨ p.off + k = p.pageSize) := by
  obtain ⟨-, hend, hsize⟩ := length_page_of_within h
  have hmapped : ∀ q : XdeltaPos, q.pageSize = p.pageSize → SamePage p q → q.Mapped fh :=
    fun q hq hsame => h.mapped.congr hq hsame.1 hsame.2 hsame.3
  by_cases hflip : p.off + k = p.pageSize
  · have hpos := fh.pageSize_pos
    have hlt := fh.length_lt
    rw [← h.mapped.pageSize_eq] at hpos
    have hnext : (p.page + 1) * p.pageSize ≤ fh.length := by
      rw [Nat.add_mul, Nat.one_mul]
      omega
    have hpage : p.page + 1 ≤ fh.length := le_trans (Nat.le_mul_of_pos_right _ hpos) hnext
    have hadd : guint.add p.page 1 = p.page + 1 := guint.add_eq (hpage.trans_lt hlt)
    have hflipped : ({ p with off := p.off + k } : XdeltaPos).flipForward =
        { p with page := p.page + 1, off := 0 } := by
      rw [XdeltaPos.flipForward, if_pos hflip]
      dsimp only
      rw [hadd]
    rw [hflipped]
    refine ⟨⟨hmapped _ rfl ⟨rfl, rfl, rfl⟩, hpos, ?_⟩, ?_, ⟨rfl, rfl, rfl⟩, .inr hflip⟩
    · dsimp only
      omega
    · dsimp only
      rw [Nat.add_mul, Nat.one_mul]
      omega
  · have hkept : ({ p with off := p.off + k } : XdeltaPos).flipForward =
        { p with off := p.off + k } := if_neg hflip
    rw [hkept]
    refine ⟨⟨hmapped _ rfl ⟨rfl, rfl, rfl⟩, ?_, ?_⟩, ?_, ⟨rfl, rfl, rfl⟩, .inl rfl⟩
    · dsimp only
      omega
    · dsimp only
      omega
    · dsimp only
      omega

/-- The position has moved on by the bytes matched; until these are enough for a match, it is on
the page of the window, which is still mapped. -/
structure Forward.Kept (g : Setting) (p₀ : XdeltaPos) (f : Forward) : Prop where
  within : Within g.target f.copier.xpos
  place : f.copier.xpos.page * f.copier.xpos.pageSize + f.copier.xpos.off =
    p₀.page * p₀.pageSize + p₀.off + f.matched
  page : f.oneInsert = false ∧ f.copier.xpos.page = p₀.page ∧ SamePage p₀ f.copier.xpos ∨
    g.q.pow ≤ f.matched

section
variable {g : Setting} {src : FileHandle} {p₀ : XdeltaPos} {f f' : Forward} {toOffset back : ℕ}
  {max : ℤ} {b : Bool}

/-- What is mapped for the comparison, and how much may be compared of it. -/
theorem Forward.Kept.mapped (hp : Window g p₀) (hf : f.Kept g p₀) {c : Copier} {ins : Bool}
    {xpos : XdeltaPos} (hc : c.xpos = f.copier.xpos)
    (hins : f.oneInsert = false ∧ f.copier.xpos.page = p₀.page ∧ SamePage p₀ f.copier.xpos →
      ins = false)
    (hmap : c.xpos.mapPage g.target = some xpos) :
    Forward.Kept g p₀ ⟨{ c with xpos := xpos }, f.ypos, f.matched, ins⟩ ∧
      xpos.memRem = (g.target.page xpos.page).length := by
  rw [hc] at hmap
  obtain ⟨hmapped, hpage, hoff, hmem, hbytes⟩ := hf.within.mapped.mapPage hmap
  have hsize : xpos.pageSize = f.copier.xpos.pageSize :=
    hmapped.pageSize_eq.trans hf.within.mapped.pageSize_eq.symm
  have hoff_lt := hf.within.off_lt
  have hle := hf.within.le_length
  have hplace := hf.place
  rw [← hpage, ← hoff, ← hsize] at hle hplace
  rw [← hoff, ← hsize] at hoff_lt
  refine ⟨⟨⟨hmapped, hoff_lt, hle⟩, hplace, ?_⟩, ?_⟩
  · refine hf.page.imp_left fun hstay => ⟨hins hstay, hpage.trans hstay.2.1, ?_⟩
    have hsame : f.copier.xpos.mapPage g.target = some f.copier.xpos := by
      apply XdeltaPos.mapPage_same
      · rw [hstay.2.2.mem_eq, hp.mem_eq]
        exact Option.some_ne_none _
      · rw [hstay.2.2.memPage_eq, hp.memPage_eq, hstay.2.1]
    rw [hsame] at hmap
    cases hmap
    exact hstay.2.2
  · rw [hpage]
    exact (hmapped.mem_eq _ hbytes).2

theorem Forward.Kept.moved (hp : Window g p₀) (hf : f.Kept g p₀) {k : ℕ} {ypos : XdeltaPos}
    (hk : f.copier.xpos.off + k ≤ (g.target.page f.copier.xpos.page).length) :
    Forward.Kept g p₀ ⟨{ f.copier with
      xpos := ({ f.copier.xpos with off := f.copier.xpos.off + k } : XdeltaPos).flipForward },
        ypos, f.matched + k, f.oneInsert⟩ := by
  obtain ⟨hwithin, hplace, hsame, hflip⟩ := hf.within.advance hk
  have hroom := hp.room
  have hstart := hf.place
  refine ⟨hwithin, by rw [hplace, hstart, Nat.add_assoc], ?_⟩
  rcases hf.page with ⟨hins, hpage, hstay⟩ | hlong
  · rcases hflip with hkeep | hend
    · refine .inl ⟨hins, hkeep.trans hpage, ?_, ?_, ?_⟩
      · exact hsame.mem_eq.trans hstay.mem_eq
      · exact hsame.memPage_eq.trans hstay.memPage_eq
      · exact hsame.memRem_eq.trans hstay.memRem_eq
    · -- the end of the page is at least a window away from the start
      refine .inr ?_
      have hrem := (hp.mapped.mem_eq _ hp.mem_eq).2
      have hpagelen := g.target.length_page p₀.page
      have hsize : f.copier.xpos.pageSize = g.target.pageSize := hf.within.mapped.pageSize_eq
      have hsize₀ : p₀.pageSize = g.target.pageSize := hp.mapped.pageSize_eq
      rw [hpage, hsize, hsize₀] at hstart
      rw [hsize] at hend
      dsimp only
      omega
  · exact .inr (Nat.le_trans hlong (Nat.le_add_right _ _))

/-- An insertion is written only before another page is mapped. -/
theorem Forward.Kept.inserted (hp : Window g p₀) {c : Copier} {ins : Bool} {len : ℕ}
    (h : (if f.oneInsert = false ∧ f.copier.xpos.page ≠ f.copier.xpos.memPage then
      (regionInsert g f.copier len).map fun c => (c, true)
    else some (f.copier, f.oneInsert)) = some (c, ins)) :
    c.xpos = f.copier.xpos ∧
      (f.oneInsert = false ∧ f.copier.xpos.page = p₀.page ∧ SamePage p₀ f.copier.xpos →
        ins = false) := by
  split_ifs at h with hcond
  · obtain ⟨c', hc', heq⟩ := Option.map_eq_some_iff.1 h
    cases heq
    refine ⟨regionInsert_xpos hc', fun hstay => absurd ?_ hcond.2⟩
    rw [hstay.2.1, hstay.2.2.memPage_eq, hp.memPage_eq]
  · cases h
    exact ⟨rfl, fun hstay => hstay.1⟩

/-- The number of bytes to compare is at most what is left of the page. -/
theorem rem_le {memRem off other : ℕ} {bound : ℤ} (hoff : off ≤ memRem) (hlt : memRem < 2 ^ 32) :
    (min bound (gint (min (guint.sub memRem off) other : ℕ))).toNat ≤ memRem - off := by
  have hsub : guint.sub memRem off = memRem - off := guint.sub_eq hlt hoff
  have hgint := gint_le (min (guint.sub memRem off) other)
  rw [hsub] at hgint ⊢
  omega

theorem Forward.Kept.round (hp : Window g p₀) (hf : f.Kept g p₀)
    (h : f.round g src toOffset back max = some (f', b)) : f'.Kept g p₀ := by
  obtain ⟨ypos, -, h⟩ := Option.bind_eq_some_iff.1 h
  obtain ⟨⟨c, ins⟩, hinsert, h⟩ := Option.bind_eq_some_iff.1 h
  obtain ⟨xpos, hmap, h⟩ := Option.map_eq_some_iff.1 h
  obtain ⟨hc, hins⟩ := Forward.Kept.inserted hp hinsert
  obtain ⟨hkept, hrem⟩ := hf.mapped hp hc hins hmap
  obtain ⟨hoff, hend, hsize⟩ := length_page_of_within hkept.within
  have hlt := g.target.length_lt
  dsimp only at h hoff hend hsize
  rw [← hrem] at hoff hend hsize
  have hle := @rem_le xpos.memRem xpos.off (guint.sub ypos.memRem ypos.off) (max - f.matched) hoff
    (by change _ ≤ g.target.bytes.length at hend; omega)
  generalize (min (max - f.matched)
    (gint (min (guint.sub xpos.memRem xpos.off) (guint.sub ypos.memRem ypos.off) : ℕ))).toNat =
      rem at h hle
  have hk := compareRegion_le (xpos.byte g.junk) (ypos.byte g.junk) rem xpos.off ypos.off
  generalize compareRegion (xpos.byte g.junk) (ypos.byte g.junk) rem xpos.off ypos.off = k at h hk
  split_ifs at h with hdiff
  · have hkept' : xpos.off + k ≠ xpos.pageSize := by omega
    have hmoved := @Forward.Kept.moved g p₀ _ hp hkept k { ypos with off := ypos.off + k }
      (by dsimp only; rw [← hrem]; omega)
    cases h
    have hflip : ({ xpos with off := xpos.off + k } : XdeltaPos).flipForward =
        { xpos with off := xpos.off + k } := if_neg hkept'
    dsimp only at hmoved
    rwa [hflip] at hmoved
  · cases h
    exact hkept.moved hp (by dsimp only; rw [← hrem]; omega)

theorem Forward.Kept.loop (hp : Window g p₀) (rounds : ℕ) (hf : f.Kept g p₀)
    (h : matchForward g src toOffset back max rounds f = some f') : f'.Kept g p₀ := by
  induction rounds generalizing f with
  | zero => cases h
  | succ rounds ih =>
    rw [matchForward] at h
    split_ifs at h with hmore
    · obtain ⟨⟨f₁, b⟩, hround, h⟩ := Option.bind_eq_some_iff.1 h
      have hkept := hf.round hp hround
      dsimp only at h
      split_ifs at h
      · cases h
        exact hkept
      · exact ih hkept h
    · cases h
      exact hf

end

theorem Within.xpos_eq {fh : FileHandle} {p : XdeltaPos} (h : Within fh p) :
    p.xpos = p.page * p.pageSize + p.off :=
  Nat.mod_eq_of_lt (h.le_length.trans_lt fh.length_lt)

theorem Within.seek_xpos {fh : FileHandle} {p : XdeltaPos} (h : Within fh p) :
    p.seek p.xpos = p := by
  have hpos : 0 < p.pageSize := (Nat.zero_le _).trans_lt h.off_lt
  have hpage : (p.page * p.pageSize + p.off) / p.pageSize = p.page := by
    rw [Nat.mul_comm, Nat.mul_add_div hpos, Nat.div_eq_of_lt h.off_lt, Nat.add_zero]
  have hoff : (p.page * p.pageSize + p.off) % p.pageSize = p.off := by
    rw [Nat.mul_comm, Nat.mul_add_mod, Nat.mod_eq_of_lt h.off_lt]
  rw [XdeltaPos.seek, h.xpos_eq, hpage, hoff]

/-- A match that is found leaves a position in the target; one that is not leaves the page. -/
theorem tryMatch_spec {g : Setting} {c c' : Copier} {i srcOffset : ℕ} {found : Bool}
    (hp : Window g c.xpos) (hin : Within g.target c.xpos)
    (h : tryMatch g c i srcOffset = some (c', found)) :
    Within g.target c'.xpos ∧ (found = false → SamePage c.xpos c'.xpos) := by
  obtain ⟨⟨back, ypos⟩, -, h⟩ := Option.bind_eq_some_iff.1 h
  obtain ⟨f, hloop, h⟩ := Option.bind_eq_some_iff.1 h
  rw [hin.seek_xpos] at hloop
  have hstart : Forward.Kept g c.xpos { copier := c, ypos := ypos.seek srcOffset } :=
    ⟨hin, rfl, .inl ⟨rfl, rfl, rfl, rfl, rfl⟩⟩
  have hkept := hstart.loop hp _ hloop
  dsimp only at h
  split_ifs at h with hfound hins
  · cases h
    exact ⟨hkept.within, fun hf => by cases hf⟩
  · obtain ⟨c₁, hinsert, heq⟩ := Option.map_eq_some_iff.1 h
    cases heq
    have hxpos := regionInsert_xpos hinsert
    exact ⟨hxpos ▸ hkept.within, fun hf => by cases hf⟩
  · cases h
    refine ⟨hkept.within, fun _ => ?_⟩
    rcases hkept.page with hstay | hlong
    · exact hstay.2.2
    · omega

end Xdelta.Generator
