import Xdelta.Decoder.HeaderChain

/-!
# Reading the sections

The decoder without staging buffers: each section is filled from whatever input
there is. The decoder proper takes a section in place when all of the window is
there and copies it otherwise; it computes the same, and never writes past an
allocation or reads past the input.
-/
namespace Xdelta
open Chunked

variable {σ : Type}

def fillSection (k : Sect) (nstate : DecState) : Dec σ Unit := fun s =>
  let sect := s.core.win.sect k
  if sect.pos < sect.size then
    if s.inp.nextIn.length = 0 then .starved s
    else closeSection k nstate
      (takeSection k (min (sect.size - sect.pos) s.inp.nextIn.length) s)
  else closeSection k nstate s

theorem fillSection_apply (k : Sect) (nstate : DecState) (s : Reader σ) :
    fillSection k nstate s =
      if (s.core.win.sect k).pos < (s.core.win.sect k).size then
        if s.inp.nextIn.length = 0 then .starved s
        else closeSection k nstate (takeSection k
          (min ((s.core.win.sect k).size - (s.core.win.sect k).pos) s.inp.nextIn.length) s)
      else closeSection k nstate s := rfl

def fillFromAddr : Dec σ Unit := fillSection .addr .emit
def fillFromInst : Dec σ Unit := fillSection .inst .addr >>= fun _ => fillFromAddr
def fillFromData : Dec σ Unit := fillSection .data .inst >>= fun _ => fillFromInst

def fillSections : Dec σ Unit := fun s =>
  match s.core.decState with
  | .data => fillFromData s
  | .inst => fillFromInst s
  | .addr => fillFromAddr s
  | _ => fail .invalidInput "internal error" s

def Window.need (w : Window) : ℕ :=
  usize.add (usize.add w.instSect.size w.addrSect.size) w.dataSect.size

/-- Pass over `n` bytes of the sections. -/
def passOver (n : ℕ) (s : Reader σ) : Reader σ :=
  { s with
    inp := s.inp.consume n
    core := { s.core with decWinbytes := usize.add s.core.decWinbytes n } }

def skipSections : Dec σ Unit := fun s =>
  let more := usize.sub s.core.win.need s.core.decWinbytes
  let take := min more s.inp.nextIn.length
  if take ≠ more then .starved (passOver take s) else onCore decodeFinishWindow (passOver take s)

/-- The sections' lengths add up within `usize_t`. -/
def Window.fits (w : Window) : Bool :=
  !usize.overflow w.instSect.size w.addrSect.size &&
    !usize.overflow (usize.add w.instSect.size w.addrSect.size) w.dataSect.size

def plainSections : Dec σ Unit := fun s =>
  let w := s.core.win
  if w.flags.justHdr then onCore decodeFinishWindow s
  else if w.fits = false then fail .internal "decoder section size overflow" s
  else if w.flags.skipWindow then skipSections s
  else (fillSections s).andThen fun _ => onCore afterSections

def plainInput (env : Env σ) : Dec σ Unit := fun s =>
  match s.core.decState with
  | .data | .inst | .addr => (plainSections s).andThen fun _ => onCore (decEmit env)
  | .emit => onCore (decEmit env) s
  | .finish => onCore decFinish s
  | _ => decodeHeader env s

def Sect.state : Sect → DecState
  | data => .data
  | inst => .inst
  | addr => .addr

def Window.before (w : Window) : DecState → ℕ
  | .inst => w.dataSect.size
  | .addr => w.dataSect.size + w.instSect.size
  | _ => 0

structure Reading (c : Core σ) : Prop where
  state : c.decState = .data ∨ c.decState = .inst ∨ c.decState = .addr
  size : ∀ k, (c.win.sect k).size < usize.modulus
  pos_le : ∀ k, (c.win.sect k).pos ≤ (c.win.sect k).size
  pos_zero : ∀ k, Sect.state k ≠ c.decState → (c.win.sect k).pos = 0
  fits : c.decState ≠ .data ∨ c.decWinbytes ≠ 0 → c.win.fits = true
  skipped : c.win.flags.skipWindow = true →
    c.decState = .data ∧ c.decWinbytes ≤ c.win.need ∧ c.win.dataSect.pos = 0
  bytes : c.win.flags.skipWindow = false →
    c.decWinbytes = c.win.before c.decState +
      (c.win.dataSect.pos + c.win.instSect.pos + c.win.addrSect.pos)

def Adequate (s : Stream σ) : Prop :=
  ∀ k, 0 < (s.core.win.sect k).pos →
    ∃ a, s.staging.get k = some a ∧ (s.core.win.sect k).size ≤ a

theorem le_decodeAllocate (size : ℕ) (alloc : Option ℕ) : size ≤ decodeAllocate size alloc := by
  unfold decodeAllocate
  split
  · exact le_roundBlksize _ _
  · split
    · exact le_roundBlksize _ _
    · omega

theorem closeSection_starved {k : Sect} {nstate : DecState} {s : Reader σ}
    (h : (s.core.win.sect k).pos < (s.core.win.sect k).size) :
    closeSection k nstate s = .starved s := if_pos h

def closed (k : Sect) (nstate : DecState) (c : Core σ) : Core σ :=
  let sect := c.win.sect k
  { c with
    decState := nstate
    win := c.win.setSect k
      { sect with bufMax := if sect.size ≠ 0 then sect.buf + sect.size else sect.buf, pos := 0 } }

theorem closeSection_ok {k : Sect} {nstate : DecState} {s : Reader σ}
    (h : ¬(s.core.win.sect k).pos < (s.core.win.sect k).size) :
    closeSection k nstate s = .ok () { s with core := closed k nstate s.core } := if_neg h

/-- One section: in place or by copying, the section is filled. -/
theorem decodeSection_eq_fill (k : Sect) (nstate : DecState) (copy : Bool) (s : Stream σ)
    (ha : Adequate s)
    (hcopy : copy = false →
      (s.core.win.sect k).size - (s.core.win.sect k).pos ≤ s.inp.nextIn.length) :
    (decodeSection k nstate copy s).mapState Stream.toReader = fillSection k nstate s.toReader := by
  unfold decodeSection fillSection
  dsimp only
  by_cases hlt : (s.core.win.sect k).pos < (s.core.win.sect k).size
  · rw [if_pos hlt, if_pos hlt]
    by_cases h0 : s.inp.nextIn.length = 0
    · rw [if_pos h0, if_pos h0]
      rfl
    · rw [if_neg h0, if_neg h0]
      by_cases hz : copy = false ∧ (s.core.win.sect k).pos = 0
      · have hle := hcopy hz.1
        rw [if_pos hz, if_neg (by omega), onReader, Routine.zoom_apply, hz.2, Nat.sub_zero,
          Nat.min_eq_left (by omega)]
        cases closeSection k nstate (takeSection k (s.core.win.sect k).size s.toReader) <;> rfl
      · rw [if_neg hz]
        by_cases hp : (s.core.win.sect k).pos = 0
        · have hal := le_decodeAllocate (s.core.win.sect k).size (s.staging.get k)
          rw [if_pos hp]
          dsimp only
          rw [if_neg (by omega), onReader, Routine.zoom_apply]
          cases closeSection k nstate (takeSection k
            (min ((s.core.win.sect k).size - (s.core.win.sect k).pos) s.inp.nextIn.length)
            s.toReader) <;> rfl
        · obtain ⟨a, hget, hle⟩ := ha k (by omega)
          rw [if_neg hp, hget]
          dsimp only
          rw [if_neg (by omega), onReader, Routine.zoom_apply]
          cases closeSection k nstate (takeSection k
            (min ((s.core.win.sect k).size - (s.core.win.sect k).pos) s.inp.nextIn.length)
            s.toReader) <;> rfl
  · rw [if_neg hlt, if_neg hlt, onReader, Routine.zoom_apply]
    cases closeSection k nstate s.toReader <;> rfl

theorem decodeSection_adequate (k : Sect) (nstate : DecState) (copy : Bool) (s : Stream σ)
    (ha : Adequate s) {s' : Stream σ} (h : decodeSection k nstate copy s = .starved s') :
    Adequate s' := by
  have hclose : ∀ t : Stream σ, Adequate t →
      onReader (closeSection k nstate) t = .starved s' → Adequate s' := by
    intro t ht hc
    rw [onReader, Routine.zoom_apply] at hc
    by_cases hlt : (t.core.win.sect k).pos < (t.core.win.sect k).size
    · rw [closeSection_starved hlt] at hc
      cases hc
      exact ht
    · rw [closeSection_ok hlt] at hc
      cases hc
  unfold decodeSection at h
  dsimp only at h
  split at h
  · split at h
    · cases h
      exact ha
    · split at h
      · rename_i hz
        split at h
        · cases h
        · -- the section is complete, so that it cannot starve
          rw [onReader, Routine.zoom_apply, closeSection_ok (by simp [takeSection, hz.2])] at h
          cases h
      · split at h
        · cases h
        · rename_i a hal
          split at h
          · cases h
          · refine hclose _ (fun j hj => ?_) h
            by_cases hjk : j = k
            · subst hjk
              refine ⟨a, ?_, ?_⟩
              · rw [← hal]
                exact Staging.get_set _ _ _
              · simp only [takeSection, Window.sect_setSect]
                by_cases hp : (s.core.win.sect j).pos = 0
                · rw [if_pos hp] at hal
                  cases hal
                  exact le_decodeAllocate _ _
                · obtain ⟨b, hget, hle⟩ := ha j (by omega)
                  rw [if_neg hp, hget] at hal
                  cases hal
                  exact hle
            · simp only [takeSection, Window.sect_setSect_of_ne _ hjk] at hj ⊢
              rw [Staging.get_set_of_ne _ hjk]
              exact ha j hj
  · exact hclose s ha h

def Sect.next : Sect → DecState
  | data => .inst
  | inst => .addr
  | addr => .emit

theorem Window.need_eq {w : Window} (hs : ∀ k, (w.sect k).size < usize.modulus)
    (h : w.fits = true) : w.need = w.instSect.size + w.addrSect.size + w.dataSect.size ∧
      w.instSect.size + w.addrSect.size + w.dataSect.size < usize.modulus := by
  have h1 : w.instSect.size < usize.modulus := hs .inst
  simp only [fits, Bool.and_eq_true, Bool.not_eq_true', ← Bool.not_eq_true] at h
  obtain ⟨ha, hb⟩ := h
  rw [usize.overflow_iff h1] at ha
  have hadd : usize.add w.instSect.size w.addrSect.size = w.instSect.size + w.addrSect.size :=
    usize.add_eq (Nat.lt_of_not_le ha)
  rw [hadd, usize.overflow_iff (Nat.lt_of_not_le ha)] at hb
  rw [need, hadd, usize.add_eq (Nat.lt_of_not_le hb)]
  exact ⟨rfl, Nat.lt_of_not_le hb⟩

theorem Window.fits_congr {w w' : Window} (h : ∀ k, (w'.sect k).size = (w.sect k).size) :
    w'.fits = w.fits := by
  have h1 := h .inst
  have h2 := h .addr
  have h3 := h .data
  simp only [sect] at h1 h2 h3
  simp only [fits, h1, h2, h3]

theorem Window.need_congr {w w' : Window} (h : ∀ k, (w'.sect k).size = (w.sect k).size) :
    w'.need = w.need := by
  have h1 := h .inst
  have h2 := h .addr
  have h3 := h .data
  simp only [sect] at h1 h2 h3
  simp only [need, h1, h2, h3]

/-- Reading section `k` of a window that is neither skipped nor too long. -/
structure Filling (k : Sect) (c : Core σ) : Prop extends Reading c where
  state_eq : c.decState = k.state
  header : c.win.flags.justHdr = false
  window : c.win.flags.skipWindow = false
  total : c.win.fits = true

/-- What is not read yet of section `k` does not exceed what is left of the window. -/
theorem Filling.left {k : Sect} {c : Core σ} (h : Filling k c) :
    c.win.need < usize.modulus ∧
      c.decWinbytes + ((c.win.sect k).size - (c.win.sect k).pos) ≤ c.win.need := by
  obtain ⟨hneed, hlt⟩ := Window.need_eq h.size h.total
  have hb := h.bytes h.window
  have hz : ∀ j, Sect.state j ≠ k.state → (c.win.sect j).pos = 0 := h.state_eq ▸ h.pos_zero
  have hle := h.pos_le k
  rw [h.state_eq] at hb
  refine ⟨hneed ▸ hlt, ?_⟩
  cases k with
  | data =>
    have h1 := hz .inst (by decide)
    have h2 := hz .addr (by decide)
    simp only [Window.sect, Sect.state, Window.before] at *
    omega
  | inst =>
    have h1 := hz .data (by decide)
    have h2 := hz .addr (by decide)
    simp only [Window.sect, Sect.state, Window.before] at *
    omega
  | addr =>
    have h1 := hz .data (by decide)
    have h2 := hz .inst (by decide)
    simp only [Window.sect, Sect.state, Window.before] at *
    omega

theorem Filling.take {k : Sect} {s : Reader σ} (h : Filling k s.core) {n : ℕ}
    (hn : n ≤ (s.core.win.sect k).size - (s.core.win.sect k).pos) :
    Filling k (takeSection k n s).core := by
  have hleft := h.left
  have hadd : usize.add s.core.decWinbytes n = s.core.decWinbytes + n := usize.add_eq (by omega)
  have hsize : ∀ j, ((takeSection k n s).core.win.sect j).size = (s.core.win.sect j).size := by
    intro j
    by_cases hjk : j = k
    · subst hjk
      simp [takeSection]
    · simp [takeSection, Window.sect_setSect_of_ne _ hjk]
  have hpos : ∀ j, j ≠ k →
      ((takeSection k n s).core.win.sect j).pos = (s.core.win.sect j).pos := by
    intro j hjk
    simp [takeSection, Window.sect_setSect_of_ne _ hjk]
  have hposk : ((takeSection k n s).core.win.sect k).pos = (s.core.win.sect k).pos + n := by
    simp [takeSection]
  have hstate : (takeSection k n s).core.decState = s.core.decState := rfl
  have hflags : (takeSection k n s).core.win.flags = s.core.win.flags := by
    simp [takeSection]
  have hfits := Window.fits_congr hsize
  constructor
  · constructor
    · exact h.state
    · exact fun j => hsize j ▸ h.size j
    · intro j
      rw [hsize]
      by_cases hjk : j = k
      · subst hjk
        have := h.pos_le j
        omega
      · rw [hpos j hjk]
        exact h.pos_le j
    · intro j hj
      have hjk : j ≠ k := by
        rintro rfl
        exact hj (hstate ▸ h.state_eq).symm
      rw [hpos j hjk]
      exact h.pos_zero j hj
    · exact fun _ => hfits ▸ h.total
    · intro hsk
      rw [hflags, h.window] at hsk
      cases hsk
    · intro _
      have hb := h.bytes h.window
      have h1 := hsize .data
      have h2 := hsize .inst
      have hk := h.state_eq
      have hw : (takeSection k n s).core.decWinbytes = s.core.decWinbytes + n := hadd
      rw [hw, hb]
      cases k with
      | data =>
        have h3 := hpos .inst (by decide)
        have h4 := hpos .addr (by decide)
        simp only [Window.sect] at h1 h2 h3 h4 hposk
        simp only [hstate, hk, Window.before, Sect.state, h3, h4, hposk]
        omega
      | inst =>
        have h3 := hpos .data (by decide)
        have h4 := hpos .addr (by decide)
        simp only [Window.sect] at h1 h2 h3 h4 hposk
        simp only [hstate, hk, Window.before, Sect.state, h1, h3, h4, hposk]
        omega
      | addr =>
        have h3 := hpos .data (by decide)
        have h4 := hpos .inst (by decide)
        simp only [Window.sect] at h1 h2 h3 h4 hposk
        simp only [hstate, hk, Window.before, Sect.state, h1, h2, h3, h4, hposk]
        omega
  · exact h.state_eq
  · exact hflags ▸ h.header
  · exact hflags ▸ h.window
  · exact hfits ▸ h.total

theorem Filling.close {k k' : Sect} {c : Core σ} (hk : k.next = k'.state) (h : Filling k c)
    (hfull : (c.win.sect k).pos = (c.win.sect k).size) :
    Filling k' (closed k k.next c) ∧ ∀ j, ((closed k k.next c).win.sect j).pos = 0 := by
  have hsize : ∀ j, ((closed k k.next c).win.sect j).size = (c.win.sect j).size := by
    intro j
    by_cases hjk : j = k
    · subst hjk
      simp [closed]
    · simp [closed, Window.sect_setSect_of_ne _ hjk]
  have hpos : ∀ j, ((closed k k.next c).win.sect j).pos = 0 := by
    intro j
    by_cases hjk : j = k
    · subst hjk
      simp [closed]
    · have hz := h.pos_zero j (by rw [h.state_eq]; cases j <;> cases k <;> simp_all [Sect.state])
      simpa [closed, Window.sect_setSect_of_ne _ hjk] using hz
  have hstate : (closed k k.next c).decState = k'.state := hk
  have hflags : (closed k k.next c).win.flags = c.win.flags := by simp [closed]
  have hfits := Window.fits_congr hsize
  refine ⟨⟨⟨?_, ?_, ?_, ?_, ?_, ?_, ?_⟩, hstate, ?_, ?_, ?_⟩, hpos⟩
  · rw [hstate]
    cases k' <;> simp [Sect.state]
  · exact fun j => hsize j ▸ h.size j
  · intro j
    rw [hpos j]
    exact Nat.zero_le _
  · exact fun j _ => hpos j
  · exact fun _ => hfits ▸ h.total
  · intro hsk
    rw [hflags, h.window] at hsk
    cases hsk
  · intro _
    have hb := h.bytes h.window
    have h1 := hsize .data
    have h2 := hsize .inst
    have h3 := hpos .data
    have h4 := hpos .inst
    have h5 := hpos .addr
    have hw : (closed k k.next c).decWinbytes = c.decWinbytes := rfl
    have hz : ∀ j, Sect.state j ≠ k.state → (c.win.sect j).pos = 0 := h.state_eq ▸ h.pos_zero
    rw [hw, hb, hstate, h.state_eq]
    simp only [Window.sect] at h1 h2 h3 h4 h5
    cases k with
    | data =>
      have h6 := hz .inst (by decide)
      have h7 := hz .addr (by decide)
      cases k' with
      | inst =>
        simp only [Window.sect] at h6 h7 hfull
        simp only [Window.before, Sect.state, h1, h3, h4, h5, h6, h7, hfull]
        omega
      | data | addr => cases hk
    | inst =>
      have h6 := hz .data (by decide)
      have h7 := hz .addr (by decide)
      cases k' with
      | addr =>
        simp only [Window.sect] at h6 h7 hfull
        simp only [Window.before, Sect.state, h1, h2, h3, h4, h5, h6, h7, hfull]
        omega
      | data | inst => cases hk
    | addr => cases k' <;> cases hk
  · exact hflags ▸ h.header
  · exact hflags ▸ h.window
  · exact hfits ▸ h.total

/-- What a filled section leaves: the section complete, and the input consumed counted. -/
structure Filled (k : Sect) (s s' : Reader σ) where
  reader : Reader σ
  holds : Holds (Filling k) reader
  full : (reader.core.win.sect k).pos = (reader.core.win.sect k).size
  eq : s' = { reader with core := closed k k.next reader.core }
  need : reader.core.win.need = s.core.win.need
  count : reader.core.decWinbytes + reader.inp.nextIn.length =
    s.core.decWinbytes + s.inp.nextIn.length

theorem fillSection_ends {k : Sect} {s : Reader σ} (h : Holds (Filling k) s) :
    (fillSection k k.next s).Ends (fun _ s' => Nonempty (Filled k s s')) (Starved (Filling k))
      (fun _ _ => False) := by
  have hle := h.1.pos_le k
  unfold fillSection
  dsimp only
  by_cases hlt : (s.core.win.sect k).pos < (s.core.win.sect k).size
  · rw [if_pos hlt]
    by_cases h0 : s.inp.nextIn.length = 0
    · rw [if_pos h0]
      exact ⟨h, List.eq_nil_of_length_eq_zero h0⟩
    · rw [if_neg h0]
      generalize hn : min ((s.core.win.sect k).size - (s.core.win.sect k).pos)
        s.inp.nextIn.length = n
      have hleft := h.1.left
      have hf := h.1.take (n := n) (by omega)
      have hpos : ((takeSection k n s).core.win.sect k).pos = (s.core.win.sect k).pos + n := by
        simp [takeSection]
      have hsize : ((takeSection k n s).core.win.sect k).size = (s.core.win.sect k).size := by
        simp [takeSection]
      by_cases hfull : (s.core.win.sect k).pos + n < (s.core.win.sect k).size
      · rw [closeSection_starved (by rw [hpos, hsize]; exact hfull)]
        refine ⟨⟨hf, h.2⟩, ?_⟩
        have hall : n = s.inp.nextIn.length := by omega
        simp [takeSection, Input.consume, hall]
      · rw [closeSection_ok (by rw [hpos, hsize]; exact hfull)]
        refine ⟨⟨takeSection k n s, ⟨hf, h.2⟩, by rw [hpos, hsize]; omega, rfl, ?_, ?_⟩⟩
        · refine Window.need_congr fun j => ?_
          by_cases hjk : j = k
          · subst hjk
            simp [takeSection]
          · simp [takeSection, Window.sect_setSect_of_ne _ hjk]
        · have hadd : (takeSection k n s).core.decWinbytes = s.core.decWinbytes + n :=
            usize.add_eq (by omega)
          have hlen : (takeSection k n s).inp.nextIn.length = s.inp.nextIn.length - n := by
            simp [takeSection, Input.consume]
          omega
  · rw [if_neg hlt, closeSection_ok hlt]
    exact ⟨⟨s, h, by omega, rfl, rfl, rfl⟩⟩

theorem takeSection_more (k : Sect) {n : ℕ} (s : Reader σ) (b : List UInt8)
    (hn : n ≤ s.inp.nextIn.length) :
    takeSection k n (s.more b) = (takeSection k n s).more b := by
  simp only [takeSection, Reader.more, Input.more, Input.consume,
    List.take_append_of_le_length hn, List.drop_append_of_le_length hn]
  rfl

theorem passOver_more {n : ℕ} (s : Reader σ) (b : List UInt8) (hn : n ≤ s.inp.nextIn.length) :
    passOver n (s.more b) = (passOver n s).more b := by
  simp only [passOver, Reader.more, Input.more, Input.consume, List.drop_append_of_le_length hn]

theorem Width.add_add (W : Width) (a b c : ℕ) : W.add (W.add a b) c = W.add a (b + c) := by
  simp only [Width.add, Nat.mod_add_mod, Nat.add_assoc]

/-- Taking all of the input and then some of what follows it is taking both at once. -/
theorem takeSection_add (k : Sect) (m : ℕ) (s : Reader σ) (b : List UInt8)
    (h : s.inp.nextIn.length ≠ 0) :
    takeSection k (s.inp.nextIn.length + m) (s.more b) =
      takeSection k m ((takeSection k s.inp.nextIn.length s).more b) := by
  have hx : List.drop (s.inp.nextIn.length + m) s.inp.nextIn = [] :=
    List.drop_of_length_le (Nat.le_add_right _ _)
  have hy : List.take (s.inp.nextIn.length + m) s.inp.nextIn = s.inp.nextIn :=
    List.take_of_length_le (Nat.le_add_right _ _)
  have hz : (s.core.win.sect k).pos + s.inp.nextIn.length ≠ 0 := by omega
  simp only [takeSection, Reader.more, Input.more, Input.consume, Window.sect_setSect,
    Window.setSect_setSect, Width.add_add, List.take_append, List.drop_append, hx, hy, hz,
    if_false, Nat.add_sub_cancel_left, List.take_length, List.drop_length, List.nil_append,
    Nat.add_assoc]
  by_cases hp : (s.core.win.sect k).pos = 0
  · simp only [hp, if_true]
  · simp only [hp, if_false, List.append_assoc]

theorem passOver_add (m : ℕ) (s : Reader σ) (b : List UInt8) :
    passOver (s.inp.nextIn.length + m) (s.more b) =
      passOver m ((passOver s.inp.nextIn.length s).more b) := by
  have hx : List.drop (s.inp.nextIn.length + m) s.inp.nextIn = [] :=
    List.drop_of_length_le (Nat.le_add_right _ _)
  simp only [passOver, Reader.more, Input.more, Input.consume, Width.add_add, List.drop_append, hx,
    Nat.add_sub_cancel_left, List.drop_length, List.nil_append, Nat.add_assoc]

theorem fillSection_resumes (k : Sect) (nstate : DecState) :
    Resumes Reader.more (fun _ : Reader σ => True) (fillSection k nstate)
      (fillSection k nstate) := by
  intro s _ b
  rw [fillSection_apply k nstate s, fillSection_apply k nstate (s.more b), Reader.more_core,
    Reader.more_inp, Input.more_nextIn, List.length_append]
  by_cases hlt : (s.core.win.sect k).pos < (s.core.win.sect k).size
  · rw [if_pos hlt, if_pos hlt]
    by_cases h0 : s.inp.nextIn.length = 0
    · rw [if_pos h0, Outcome.feed_starved, fillSection_apply, Reader.more_core,
        if_pos hlt, Reader.more_inp, Input.more_nextIn, List.length_append]
    · rw [if_neg h0, if_neg (by omega)]
      by_cases hall : (s.core.win.sect k).size - (s.core.win.sect k).pos ≤ s.inp.nextIn.length
      · -- the section is complete without `b`
        have hfull : ¬((takeSection k ((s.core.win.sect k).size - (s.core.win.sect k).pos)
            s).core.win.sect k).pos < ((takeSection k ((s.core.win.sect k).size -
              (s.core.win.sect k).pos) s).core.win.sect k).size := by
          simp only [takeSection, Window.sect_setSect]
          omega
        rw [Nat.min_eq_left (by omega), Nat.min_eq_left hall, takeSection_more k s b hall,
          closeSection_ok hfull, closeSection_ok (s := (takeSection k _ s).more b) hfull]
        rfl
      · have hpos : ((takeSection k s.inp.nextIn.length s).core.win.sect k).pos <
            ((takeSection k s.inp.nextIn.length s).core.win.sect k).size := by
          simp only [takeSection, Window.sect_setSect]
          omega
        have hnil : (takeSection k s.inp.nextIn.length s).inp.nextIn = [] := List.drop_length
        rw [Nat.min_eq_right (by omega : s.inp.nextIn.length ≤ _), closeSection_starved hpos,
          Outcome.feed_starved, fillSection_apply, Reader.more_core, if_pos hpos,
          Reader.more_inp, Input.more_nextIn, hnil, List.nil_append]
        by_cases hb : b.length = 0
        · have hb' : b = [] := List.eq_nil_of_length_eq_zero hb
          subst hb'
          rw [if_pos hb, List.length_nil, Nat.add_zero, Nat.min_eq_right (by omega),
            takeSection_more k s [] le_rfl,
            closeSection_starved (s := (takeSection k s.inp.nextIn.length s).more []) hpos]
        · rw [if_neg hb]
          have hmin : min ((s.core.win.sect k).size - (s.core.win.sect k).pos)
              (s.inp.nextIn.length + b.length) = s.inp.nextIn.length +
                min (((takeSection k s.inp.nextIn.length s).core.win.sect k).size -
                  ((takeSection k s.inp.nextIn.length s).core.win.sect k).pos) b.length := by
            simp only [takeSection, Window.sect_setSect]
            omega
          rw [hmin, takeSection_add k _ s b h0]
  · rw [if_neg hlt, if_neg hlt, closeSection_ok (s := s) hlt, closeSection_ok (s := s.more b) hlt]
    rfl

end Xdelta
