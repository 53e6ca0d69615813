import Xdelta.Decoder.Meaning

/-!
# Executing a window delivers what it means

The loops of the decoder carry out the halves the parser reads. Execution may pause at
a block that is refused; what is then left means what the window meant before.
-/
namespace Xdelta
open Chunked Delta

section Loops
variable {file : List UInt8} {app : Option GetblkFunc} {P : Source → Prop} {F : ℕ → Prop}

theorem decodeOutputHalfinst_carries (hd : Delivers file app P F) {w : Window}
    (hw : w.Sound file) (hp : w.Placed P) {h : Half} (ht : (w.half h).type ≠ .noop)
    (hord : h = .second → w.decCurrent1.type = .noop) :
    CarriesAt file app P F h w (decodeOutputHalfinst app h) := by
  have hlt : w.out.length < usize.modulus := by
    have := hw.room
    have := hw.space
    have : hardMaxWinsize + allocSize < usize.modulus := by decide
    omega
  unfold CarriesAt decodeOutputHalfinst
  dsimp only
  split
  · rename_i hov
    refine .inr ⟨rfl, fun _ is => delivered_too_large ht ?_ is⟩
    have := hp.room
    have := hw.room
    rw [usize.overflow_iff hlt] at hov
    by_cases hsum : w.out.length + (w.half h).size < usize.modulus
    · rw [usize.add_eq hsum] at hov
      omega
    · have := hp.below
      omega
  · rename_i hov
    rw [not_or, usize.overflow_iff hlt] at hov
    have hroom : w.out.length + (w.half h).size ≤ w.spaceOut := by
      have := hov.2
      rw [usize.add_eq (by omega)] at this
      omega
    split
    · rename_i hn
      exact absurd hn ht
    · rename_i hrun
      exact outputRun_carries hw hp ht hroom hrun
    · rename_i hadd
      exact outputAdd_carries hw hp ht hroom hadd
    · rename_i m hm
      split
      · rename_i haddr
        rw [hw.target]
        exact outputSourceCopy_carries hd hw hp hroom hm haddr
      · rename_i haddr
        exact outputTargetCopy_carries hw hp ht hroom hm hord (Nat.le_of_not_lt haddr)

theorem Carries.refl {w : Window} (hp : w.Placed P) (h : Half) : Carries file P h w w :=
  ⟨hp, rfl, rfl, fun _ => rfl, fun _ hi => .inr hi⟩

theorem Window.extent_of_unwritten {w w' : Window} (h : w'.unwritten = w.unwritten) :
    w'.extent = w.extent := by
  have h1 : w'.decCpylen = w.decCpylen :=
    (congrArg Window.decCpylen h : w'.unwritten.decCpylen = w.unwritten.decCpylen)
  have h2 : w'.decCpyoff = w.decCpyoff :=
    (congrArg Window.decCpyoff h : w'.unwritten.decCpyoff = w.unwritten.decCpyoff)
  have h3 : w'.decTgtlen = w.decTgtlen :=
    (congrArg Window.decTgtlen h : w'.unwritten.decTgtlen = w.unwritten.decTgtlen)
  rw [extent, extent, h1, h2, h3]

theorem Carries.trans {h : Half} {w w' w'' : Window} (h1 : Carries file P h w w')
    (h2 : Carries file P h w' w'') : Carries file P h w w'' where
  placed := h2.placed
  frame := h2.frame.trans h1.frame
  other := h2.other.trans h1.other
  delivered is := by
    rw [h1.delivered is]
    have := h2.delivered is
    rwa [Window.extent_of_unwritten h1.frame] at this
  left i hi := (h2.left i hi).elim .inl (h1.left i)

theorem Window.effort_remaining {w : Window} {h : Half} (ht : (w.half h).type ≠ .noop) :
    effort (w.remaining h) = (w.half h).size + 1 := by
  rw [remaining_of_ne ht]
  exact congrArg (· + 1) (Hinst.norm_size _)

theorem Outputs.effort_lt {h : Half} {w w' : Window} (ho : Outputs file h w w')
    (ht : (w.half h).type ≠ .noop) : effort (w'.remaining h) < effort (w.remaining h) := by
  rw [Window.effort_remaining ht]
  rcases ho.less with hn | ⟨-, hlt⟩
  · rw [Window.remaining_noop hn, effort_nil]
    exact Nat.succ_pos _
  · by_cases hn : (w'.half h).type = .noop
    · rw [Window.remaining_noop hn, effort_nil]
      exact Nat.succ_pos _
    · rw [Window.effort_remaining hn]
      exact Nat.succ_lt_succ hlt

/-- The output of a half, to its end or to a refused block. -/
theorem outputHalf_carries (happ : ServesBlocks file app) (hd : Delivers file app P F) (h : Half)
    (fuel : ℕ) {w : Window} (hw : w.Sound file) (hp : w.Placed P)
    (hord : h = .second → w.decCurrent1.type = .noop)
    (hfuel : ((w.half h).type = .noop ∧ 0 < fuel) ∨ (w.half h).size + 2 ≤ fuel) :
    (outputHalf app h fuel w).Ends
      (fun _ w' => Carries file P h w w' ∧
        (w' = w ∨ effort (w'.remaining h) < effort (w.remaining h)))
      (fun _ => False)
      (fun e w' => (Interrupts file P F h w w' ∧ Requests app h e w w') ∨
        (e.ret.ordinary = false ∧ ((w.half h).Covered file w.extent →
          ∀ is, delivered file w.extent (w.remaining h ++ is) w.spot = none))) := by
  induction fuel generalizing w with
  | zero => omega
  | succ fuel ih =>
    unfold outputHalf
    split
    · exact ⟨.refl hp h, .inl rfl⟩
    · rename_i hne
      have hsize := hfuel.resolve_left fun h => hne h.1
      refine (((decodeOutputHalfinst_ends happ hw hne hord).and
        (decodeOutputHalfinst_carries hd hw hp hne hord)).mono (fun _ _ h => h) (fun _ h => h.1)
        (fun _ _ h => h.2)).andThen fun _ w' hw' => ?_
      obtain ⟨hout, hc, hpos⟩ := hw'
      have hord' : h = .second → w'.decCurrent1.type = .noop := by
        rintro rfl
        exact (congrArg Hinst.type hout.other).trans (hord rfl)
      have hfuel' : ((w'.half h).type = .noop ∧ 0 < fuel) ∨ (w'.half h).size + 2 ≤ fuel := by
        rcases hout.less with hn | ⟨-, hlt⟩
        · exact .inl ⟨hn, by omega⟩
        · exact .inr (by omega)
      have he := Window.extent_of_unwritten hc.frame
      have hless := hout.effort_lt hne
      by_cases hdone : (w'.half h).type = .noop
      · have hend : outputHalf app h fuel w' = .ok () w' := by
          obtain ⟨fuel, rfl⟩ : ∃ n, fuel = n + 1 := ⟨fuel - 1, by omega⟩
          rw [outputHalf]
          exact if_pos hdone
        rw [hend]
        exact ⟨hc, .inr hless⟩
      · have hsize' := hpos hdone
        refine (ih hout.sound hc.placed hord' hfuel').mono (fun _ w'' h => ⟨hc.trans h.1, .inr ?_⟩)
          (fun _ h => h) (fun e w'' h => ?_)
        · rcases h.2 with heq | hlt
          · rw [heq]
            exact hless
          · exact hlt.trans hless
        rcases h with ⟨hint, hreq⟩ | ⟨hcode, hnone⟩
        · refine .inl ⟨⟨hc.trans hint.toCarries, ?_⟩, ⟨hreq.ret, hreq.wants,
            fun _ => .inl (hreq.less.trans_lt hless), hreq.less.trans hless.le⟩⟩
          obtain ⟨s, blkno, hP, hF, hlt⟩ := hint.refused
          refine ⟨s, blkno, hP, hF, fun _ hlost => hlt hsize' ?_⟩
          obtain ⟨is, out, hdel⟩ := hlost
          refine ⟨is, out, ?_⟩
          rw [he, ← hc.delivered is]
          exact hdel
        · refine .inr ⟨hcode, fun _ is => ?_⟩
          rw [hc.delivered is, ← he]
          exact hnone (.inl hsize') is

end Loops

namespace Window

def rest (w : Window) : List Hinst :=
  w.remaining .first ++ (w.remaining .second ++ (w.script.read w.extent).1)

/-- The target window that executing the rest of the window delivers, if every
instruction can be read and the address section is used up. -/
def meaning (file : List UInt8) (w : Window) : Option (List UInt8) :=
  if (w.script.read w.extent).2 = some [] then delivered file w.extent w.rest w.spot else none

def announced (w : Window) : Window := w.unparsed.unwritten

/-- The checksum is to be verified and is not that of `out`. -/
def Mismatch (w : Window) (out : List UInt8) : Prop :=
  hasBits w.decWinInd vcdAdler32 = true ∧ (!w.flags.adler32Nover) = true ∧
    adler32 1 out ≠ w.decAdler32

theorem announced_of_unparsed {w w' : Window} (h : w'.unparsed = w.unparsed) :
    w'.announced = w.announced := congrArg unwritten h

theorem announced_of_unwritten {w w' : Window} (h : w'.unwritten = w.unwritten) :
    w'.announced = w.announced := congrArg unparsed h

theorem script_of_unwritten {w w' : Window} (h : w'.unwritten = w.unwritten) :
    w'.script = w.script := by
  have h1 : w'.instSect = w.instSect :=
    (congrArg Window.instSect h : w'.unwritten.instSect = w.unwritten.instSect)
  have h2 : w'.addrSect = w.addrSect :=
    (congrArg Window.addrSect h : w'.unwritten.addrSect = w.unwritten.addrSect)
  have h3 : w'.acache = w.acache :=
    (congrArg Window.acache h : w'.unwritten.acache = w.unwritten.acache)
  have h4 : w'.decPosition = w.decPosition :=
    (congrArg Window.decPosition h : w'.unwritten.decPosition = w.unwritten.decPosition)
  rw [script, script, h1, h2, h3, h4]

theorem extent_of_announced {w w' : Window} (h : w'.announced = w.announced) :
    w'.extent = w.extent :=
  (congrArg Window.extent h : w'.announced.extent = w.announced.extent)

theorem spot_of_unparsed {w w' : Window} (h : w'.unparsed = w.unparsed) : w'.spot = w.spot :=
  (congrArg Window.spot h : w'.unparsed.spot = w.unparsed.spot)

theorem Placed.instructed {P : Source → Prop} {w w' : Window} (hp : w.Placed P)
    (h : Instructed w w') : w'.Placed P := by
  have hu := h.unparsed
  have hmaxpos : w'.decMaxpos = w.decMaxpos :=
    (congrArg Window.decMaxpos hu : w'.unparsed.decMaxpos = w.unparsed.decMaxpos)
  have hcpylen : w'.decCpylen = w.decCpylen :=
    (congrArg Window.decCpylen hu : w'.unparsed.decCpylen = w.unparsed.decCpylen)
  have hcpyoff : w'.decCpyoff = w.decCpyoff :=
    (congrArg Window.decCpyoff hu : w'.unparsed.decCpyoff = w.unparsed.decCpyoff)
  have htgtlen : w'.decTgtlen = w.decTgtlen :=
    (congrArg Window.decTgtlen hu : w'.unparsed.decTgtlen = w.unparsed.decTgtlen)
  have hspace : w'.spaceOut = w.spaceOut :=
    (congrArg Window.spaceOut hu : w'.unparsed.spaceOut = w.unparsed.spaceOut)
  have hsrc : w'.src = w.src := (congrArg Window.src hu : w'.unparsed.src = w.unparsed.src)
  refine ⟨?_, ?_, ?_, ?_, ?_, ?_, ?_⟩
  · rw [hmaxpos, hcpylen, htgtlen]
    exact hp.maxpos
  · rw [hcpylen, htgtlen]
    exact hp.below
  · rw [hcpyoff, hcpylen]
    exact hp.offset
  · rw [htgtlen, hspace]
    exact hp.room
  · rw [hsrc]
    exact hp.serves
  · rw [hsrc, hcpylen, hcpyoff]
    exact hp.located
  · intro k m hm ha
    rw [hcpylen] at ha ⊢
    cases k with
    | first => exact (h.first m hm).2 ha
    | second => exact (h.second m hm).2 ha

theorem rest_settled {w : Window} (h : w.Settled) : w.rest = (w.script.read w.extent).1 := by
  rw [rest, remaining_noop (h := .first) h.1, remaining_noop (h := .second) h.2]
  rfl

theorem spot_data_nil {w : Window} (hw : w.Cursors) :
    w.spot.data = [] ↔ w.dataSect.buf = w.dataSect.bufMax := by
  have hlen : w.dataSect.bytes.length = w.dataSect.bufMax := Desect.length_bytes (hw.max_le .data)
  have hle : w.dataSect.buf ≤ w.dataSect.bufMax := hw.buf_le .data
  change w.dataSect.bytes.drop w.dataSect.buf = [] ↔ _
  rw [List.drop_eq_nil_iff]
  omega

theorem script_addr_nil {w : Window} (hw : w.Cursors) :
    w.script.addr = [] ↔ w.addrSect.buf = w.addrSect.bufMax := by
  have hlen : w.addrSect.bytes.length = w.addrSect.bufMax := Desect.length_bytes (hw.max_le .addr)
  have hle : w.addrSect.buf ≤ w.addrSect.bufMax := hw.buf_le .addr
  change w.addrSect.bytes.drop w.addrSect.buf = [] ↔ _
  rw [List.drop_eq_nil_iff]
  omega

end Window

def Window.load (w : Window) : ℕ := effort w.rest

def Window.Armed (w : Window) : Prop :=
  ∃ h, (h = .second → w.decCurrent1.type = .noop) ∧ (w.half h).type ≠ .noop ∧ w.Held h

def Window.Asking (w : Window) : Prop :=
  ∃ h, (h = .second → w.decCurrent1.type = .noop) ∧ w.Wants h

/-- The load becomes less, or nothing has been output and no block has been lost. -/
def Eases (w w' : Window) : Prop := w'.load < w.load ∨ (w'.load = w.load ∧ (w.Armed → w'.Armed))

theorem Eases.trans {w w' w'' : Window} (h1 : Eases w w') (h2 : Eases w' w'') : Eases w w'' := by
  rcases h1 with h1 | ⟨h1, ha1⟩
  · rcases h2 with h2 | ⟨h2, -⟩
    · exact .inl (h2.trans h1)
    · exact .inl (h2 ▸ h1)
  · rcases h2 with h2 | ⟨h2, ha2⟩
    · exact .inl (h1 ▸ h2)
    · exact .inr ⟨h2.trans h1, ha2 ∘ ha1⟩

/-- A stretch of execution that leaves the meaning of the window as it was. -/
structure Advances (file : List UInt8) (P : Source → Prop) (w w' : Window) : Prop where
  placed : w'.Placed P
  announced : w'.announced = w.announced
  meaning : w'.meaning file = w.meaning file
  left : ∀ i ∈ w'.rest, i.size ≠ 0 ∨ i ∈ w.rest
  last : w'.script.last w.extent = w.script.last w.extent

/-- Execution pauses at a refused block, which is needed if the window means anything. -/
structure Pauses (file : List UInt8) (P : Source → Prop) (F : ℕ → Prop) (w w' : Window) : Prop
    extends Advances file P w w' where
  refused : ∃ s blkno, P s ∧ F blkno ∧ ((∀ i ∈ w.rest, i.size ≠ 0) →
    (w.meaning file).isSome = true → blkno * s.blksize < file.length)

/-- Without a function of the application a block is asked for, and not for want of the one
that is held. -/
structure Asks (app : Option GetblkFunc) (e : Stop) (w w' : Window) : Prop where
  ret : app = none → e.ret = .getsrcblk
  asking : app = none → w'.Asking
  fresh : app = none → w'.load < w.load ∨ ¬w.Armed
  less : w'.load ≤ w.load

theorem Asks.after {app : Option GetblkFunc} {e : Stop} {w w' w'' : Window} (h1 : Eases w w')
    (h2 : Asks app e w' w'') : Asks app e w w'' where
  ret := h2.ret
  asking := h2.asking
  fresh happ := by
    rcases h1 with h1 | ⟨h1, ha⟩
    · exact .inl (h2.less.trans_lt h1)
    · exact (h2.fresh happ).imp (h1 ▸ ·) fun hn h => hn (ha h)
  less := by
    rcases h1 with h1 | ⟨h1, -⟩
    · exact h2.less.trans h1.le
    · exact h1 ▸ h2.less

/-- How execution may stop before the end: for a block, or because the window means nothing. -/
def PausesOrFails (file : List UInt8) (app : Option GetblkFunc) (P : Source → Prop)
    (F : ℕ → Prop) (e : Stop) (w w' : Window) : Prop :=
  (Pauses file P F w w' ∧ Asks app e w w') ∨ (e.ret.ordinary = false ∧
    ((∀ i ∈ w.rest, i.Covered file w.extent) → w.meaning file = none))

section Whole
variable {file : List UInt8} {app : Option GetblkFunc} {P : Source → Prop} {F : ℕ → Prop}

theorem Advances.refl {w : Window} (hp : w.Placed P) : Advances file P w w :=
  ⟨hp, rfl, rfl, fun _ hi => .inr hi, rfl⟩

theorem Advances.trans {w w' w'' : Window} (h1 : Advances file P w w')
    (h2 : Advances file P w' w'') : Advances file P w w'' where
  placed := h2.placed
  announced := h2.announced.trans h1.announced
  meaning := h2.meaning.trans h1.meaning
  left i hi := (h2.left i hi).elim .inl (h1.left i)
  last := (Window.extent_of_announced h1.announced ▸ h2.last).trans h1.last

theorem PausesOrFails.after {e : Stop} {w w' w'' : Window} (h1 : Advances file P w w')
    (he1 : Eases w w') (h2 : PausesOrFails file app P F e w' w'') :
    PausesOrFails file app P F e w w'' := by
  have he := Window.extent_of_announced h1.announced
  rcases h2 with ⟨hp, hask⟩ | ⟨hcode, hn⟩
  · refine .inl ⟨⟨h1.trans hp.toAdvances, ?_⟩, hask.after he1⟩
    obtain ⟨s, blkno, hP, hF, hlt⟩ := hp.refused
    refine ⟨s, blkno, hP, hF, fun hpos hsome => hlt (fun i hi => ?_) ?_⟩
    · exact (h1.left i hi).elim id (hpos i)
    · rw [h1.meaning]
      exact hsome
  · refine .inr ⟨hcode, fun hcov => ?_⟩
    rw [← h1.meaning]
    refine hn fun i hi => ?_
    rw [he]
    exact (h1.left i hi).elim .inl (hcov i)

private theorem rest_eq (w : Window) {h : Half} (hord : h = .second → w.decCurrent1.type = .noop) :
    w.rest = w.remaining h ++
      ((if h = .first then w.remaining .second else []) ++ (w.script.read w.extent).1) := by
  cases h with
  | first => rfl
  | second =>
    rw [Window.rest, Window.remaining_noop (h := .first) (hord rfl)]
    rfl

/-- What comes after half `h` is not touched by its output. -/
private theorem Carries.later {h : Half} {w w' : Window} (hc : Carries file P h w w') :
    (if h = .first then w'.remaining .second else []) =
      if h = .first then w.remaining .second else [] := by
  cases h with
  | first =>
    rw [if_pos rfl, if_pos rfl]
    unfold Window.remaining
    rw [show w'.half .second = w.half .second from hc.other]
  | second => rfl

private theorem Carries.ordered {h : Half} {w w' : Window} (hc : Carries file P h w w')
    (hord : h = .second → w.decCurrent1.type = .noop) :
    h = .second → w'.decCurrent1.type = .noop := by
  rintro rfl
  exact (congrArg Hinst.type hc.other).trans (hord rfl)

theorem Carries.advances {h : Half} {w w' : Window} (hc : Carries file P h w w')
    (hord : h = .second → w.decCurrent1.type = .noop) : Advances file P w w' := by
  have he := Window.extent_of_unwritten hc.frame
  have hs := Window.script_of_unwritten hc.frame
  have hlater := hc.later
  refine ⟨hc.placed, Window.announced_of_unwritten hc.frame, ?_, fun i hi => ?_, by rw [hs]⟩
  · rw [Window.meaning, Window.meaning, rest_eq w hord, rest_eq w' (hc.ordered hord), hc.delivered,
      he, hs, hlater]
  · rw [rest_eq w' (hc.ordered hord), he, hs, hlater, List.mem_append] at hi
    rw [rest_eq w hord, List.mem_append]
    rcases hi with hi | hi
    · exact (hc.left i hi).imp_right .inl
    · exact .inr (.inr hi)

private theorem Carries.load {h : Half} {w w' : Window} (hc : Carries file P h w w')
    (hord : h = .second → w.decCurrent1.type = .noop) :
    w'.load + effort (w.remaining h) = w.load + effort (w'.remaining h) := by
  have he := Window.extent_of_unwritten hc.frame
  have hs := Window.script_of_unwritten hc.frame
  rw [Window.load, Window.load, rest_eq w hord, rest_eq w' (hc.ordered hord), he, hs, hc.later]
  simp only [effort_append]
  omega

theorem outputHalf_advances (happ : ServesBlocks file app) (hd : Delivers file app P F) (h : Half)
    (fuel : ℕ) {w : Window} (hw : w.Sound file) (hp : w.Placed P)
    (hord : h = .second → w.decCurrent1.type = .noop)
    (hfuel : ((w.half h).type = .noop ∧ 0 < fuel) ∨ (w.half h).size + 2 ≤ fuel) :
    (outputHalf app h fuel w).Ends (fun _ w' => Advances file P w w' ∧ Eases w w')
      (fun _ => False) (fun e w' => PausesOrFails file app P F e w w') := by
  by_cases hn : (w.half h).type = .noop
  · obtain ⟨n, rfl⟩ : ∃ n, fuel = n + 1 := ⟨fuel - 1, by omega⟩
    have hend : outputHalf app h (n + 1) w = .ok () w := by
      rw [outputHalf]
      exact if_pos hn
    rw [hend]
    exact ⟨.refl hp, .inr ⟨rfl, id⟩⟩
  · have hmem : (w.half h).norm ∈ w.rest := by
      rw [rest_eq w hord, Window.remaining_of_ne hn]
      exact List.mem_cons_self
    refine (outputHalf_carries happ hd h fuel hw hp hord hfuel).mono
      (fun _ w' ⟨hc, hless⟩ => ⟨hc.advances hord, ?_⟩) (fun _ h => h) (fun _ w' hstop => ?_)
    · rcases hless with rfl | hlt
      · exact .inr ⟨rfl, id⟩
      · have := hc.load hord
        exact .inl (by omega)
    rcases hstop with ⟨hint, hreq⟩ | ⟨hcode, hnone⟩
    · have hload := hint.toCarries.load hord
      have hless := hreq.less
      refine .inl ⟨⟨hint.toCarries.advances hord, ?_⟩, hreq.ret, fun happ => ?_, fun happ => ?_,
        by omega⟩
      · obtain ⟨s, blkno, hP, hF, hlt⟩ := hint.refused
        refine ⟨s, blkno, hP, hF, fun hpos hsome => ?_⟩
        have hsize := hpos _ hmem
        rw [Hinst.norm_size] at hsize
        refine hlt hsize ?_
        obtain ⟨out, hout⟩ := Option.isSome_iff_exists.mp hsome
        rw [Window.meaning, rest_eq w hord] at hout
        split at hout
        · exact ⟨_, _, hout⟩
        · cases hout
      · exact ⟨h, hint.toCarries.ordered hord, hreq.wants happ⟩
      · refine (hreq.fresh happ).imp (fun hlt => by omega) fun hnot ⟨k, hk, hne, hheld⟩ => hnot ?_
        -- the half to be output next is `h`
        have hkh : k = h := by
          cases k <;> cases h <;> first
            | rfl
            | exact absurd (hord rfl) hne
            | exact absurd (hk rfl) hn
        exact hkh ▸ hheld
    · refine .inr ⟨hcode, fun hcov => ?_⟩
      have hc := hcov _ hmem
      rw [Hinst.Covered, Hinst.norm_size] at hc
      rw [Window.meaning, rest_eq w hord, hnone hc]
      split <;> rfl

/-- Parsing an instruction leaves the meaning as it was; one that cannot be parsed has none. -/
theorem decodeInstruction_advances {w : Window} (hw : w.Cursors) (hp : w.Placed P)
    (hset : w.Settled) (hmore : w.instSect.buf ≠ w.instSect.bufMax) :
    (decodeInstruction w).Ends (fun _ w' => Advances file P w w' ∧ Eases w w') (fun _ => False)
      (fun _ _ => w.meaning file = none) := by
  refine ((decodeInstruction_ends hw).and (decodeInstruction_script hw hp.maxpos)).mono
    (fun _ w' ⟨hi, hs⟩ => ?_) (fun _ h => h.1) (fun _ w' ⟨_, hn⟩ => ?_)
  · have he := Window.extent_of_unparsed hi.unparsed
    have hread := Script.read_some hs
    have hrest : w'.rest = w.rest := by
      rw [Window.rest_settled hset, hread, Window.rest, he, List.append_assoc]
    refine ⟨⟨hp.instructed hi, Window.announced_of_unparsed hi.unparsed, ?_, fun i h => .inr ?_,
      (Script.last_some hs).symm⟩, .inr ⟨?_, fun ⟨h, hh, hne, _⟩ => ?_⟩⟩
    · rw [Window.meaning, Window.meaning, hrest, he, hread, Window.spot_of_unparsed hi.unparsed]
    · rwa [hrest] at h
    · rw [Window.load, hrest]
      rfl
    · cases h <;> [exact absurd hset.1 hne; exact absurd hset.2 hne]
  · have hne : w.script.inst ≠ [] := mt (Window.script_inst_nil hw).mp hmore
    rw [Window.meaning, Script.read_none hne hn]
    rfl

theorem emitRound_advances (happ : ServesBlocks file app) (hd : Delivers file app P F)
    {w : Window} (hw : w.Sound file) (hp : w.Placed P)
    (hmore : w.Settled → w.instSect.buf ≠ w.instSect.bufMax) :
    (emitRound app w).Ends (fun _ w' => Advances file P w w' ∧ Eases w w') (fun _ => False)
      (fun e w' => PausesOrFails file app P F e w w') := by
  unfold emitRound
  refine Outcome.Ends.andThen
    (Q := fun _ w' => w'.Sound file ∧ Advances file P w w' ∧ Eases w w') ?_
    fun _ w1 ⟨hw1, h1, he1⟩ => ?_
  · split
    · rename_i hset
      refine ((decodeInstruction_ends hw.toCursors).and
        (decodeInstruction_advances hw.toCursors hp hset (hmore hset))).mono
        (fun _ w' h => ⟨hw.instructed hset h.1, h.2⟩) (fun _ h => h.1) (fun _ _ h => ?_)
      exact .inr ⟨h.1, fun _ => h.2⟩
    · exact ⟨hw, .refl hp, .inr ⟨rfl, id⟩⟩
  · refine (((outputHalf_ends happ .first _ hw1 (fun h => nomatch h) (.inr le_rfl)).and
      (outputHalf_advances happ hd .first _ hw1 h1.placed (fun h => nomatch h)
        (.inr le_rfl))).mono (fun _ _ h => h) (fun _ h => h.1)
      (fun _ _ h => h.2.after h1 he1)).andThen fun _ w2 ⟨⟨hw2, _, _, hn2⟩, h2, he2⟩ => ?_
    exact (outputHalf_advances happ hd .second _ hw2 h2.placed (fun _ => hn2) (.inr le_rfl)).mono
      (fun _ _ h => ⟨(h1.trans h2).trans h.1, (he1.trans he2).trans h.2⟩) (fun _ h => h)
      (fun _ _ h => h.after (h1.trans h2) (he1.trans he2))

theorem emitLoop_advances (happ : ServesBlocks file app) (hd : Delivers file app P F) (fuel : ℕ)
    {w : Window} (hw : w.Sound file) (hp : w.Placed P)
    (hfuel : w.instSect.bufMax - w.instSect.buf + 1 < fuel ∨
      (w.Settled ∧ w.instSect.bufMax - w.instSect.buf < fuel)) :
    (emitLoop app fuel w).Ends
      (fun _ w' => Advances file P w w' ∧ w'.instSect.buf = w'.instSect.bufMax)
      (fun _ => False) (fun e w' => PausesOrFails file app P F e w w') := by
  induction fuel generalizing w with
  | zero => omega
  | succ fuel ih =>
    unfold emitLoop
    split
    · rename_i hmore
      have hmore' : w.Settled → w.instSect.buf ≠ w.instSect.bufMax := by
        intro hset
        rcases hmore with h | h | h
        · exact h
        · exact absurd hset.1 h
        · exact absurd hset.2 h
      refine (((emitRound_ends happ hw).and (emitRound_advances happ hd hw hp hmore')).mono
        (fun _ _ h => h) (fun _ h => h.1) (fun _ _ h => h.2)).andThen
        fun _ w' hround => ?_
      obtain ⟨⟨hw', hset, hmax, hle, hlt⟩, ha, he⟩ := hround
      refine (ih hw' ha.placed (.inr ⟨hset, ?_⟩)).mono (fun _ _ h => ⟨ha.trans h.1, h.2⟩)
        (fun _ h => h) (fun _ _ h => h.after ha he)
      have hin := hw.buf_le .inst
      have hin' := hw'.buf_le .inst
      simp only [Window.sect] at hin hin'
      rw [hmax] at hin' ⊢
      rcases hfuel with hf | ⟨hs, hf⟩
      · omega
      · have := hlt hs
        omega
    · rename_i hdone
      simp only [not_or, not_not] at hdone
      exact ⟨.refl hp, hdone.1⟩

/-- The meaning of a window all of whose instructions have been carried out. -/
theorem Window.meaning_done (file : List UInt8) {w : Window} (hw : w.Cursors) (hset : w.Settled)
    (hend : w.instSect.buf = w.instSect.bufMax) :
    w.meaning file = if w.addrSect.buf = w.addrSect.bufMax ∧ w.out.length = w.decTgtlen ∧
      w.dataSect.buf = w.dataSect.bufMax then some w.out else none := by
  have hread := Script.read_nil (e := w.extent) ((Window.script_inst_nil hw).mpr hend)
  have hsome : some w.script.addr = some [] ↔ w.addrSect.buf = w.addrSect.bufMax := by
    rw [Option.some.injEq]
    exact script_addr_nil hw
  rw [meaning, rest_settled hset, hread, delivered]
  dsimp only
  by_cases ha : w.addrSect.buf = w.addrSect.bufMax
  · rw [if_pos (hsome.mpr ha)]
    by_cases hd : w.out.length = w.decTgtlen ∧ w.dataSect.buf = w.dataSect.bufMax
    · have hspot : w.spot.out.length = w.extent.tgtlen ∧ w.spot.data = [] :=
        ⟨hd.1, (spot_data_nil hw).mpr hd.2⟩
      rw [if_pos hspot, if_pos ⟨ha, hd⟩]
      rfl
    · have hspot : ¬(w.spot.out.length = w.extent.tgtlen ∧ w.spot.data = []) :=
        fun h => hd ⟨h.1, (spot_data_nil hw).mp h.2⟩
      rw [if_neg hspot, if_neg fun h => hd h.2]
  · rw [if_neg (mt hsome.mp ha), if_neg fun h => ha h.1]

/-- Executing a window delivers what it means, unless a block is refused or the checksum
does not match. -/
theorem decodeEmit_means (happ : ServesBlocks file app) (hd : Delivers file app P F)
    {w : Window} (hw : w.Sound file) (hp : w.Placed P) :
    (decodeEmit app w).Ends
      (fun _ w' => w.meaning file = some w'.out ∧ w'.announced = w.announced ∧
        (∀ k, (w'.sect k).buf = (w'.sect k).bufMax) ∧ ¬w.Mismatch w'.out ∧
        w'.script = w.script.last w.extent)
      (fun _ => False)
      (fun e w' => PausesOrFails file app P F e w w' ∨
        (e.ret.ordinary = false ∧ ∃ out, w.meaning file = some out ∧ w.Mismatch out)) := by
  unfold decodeEmit
  refine (((emitLoop_ends happ _ hw (.inl (by omega))).and
    (emitLoop_advances happ hd _ hw hp (.inl (by omega)))).mono (fun _ _ h => h) (fun _ h => h.1)
    (fun _ _ h => .inl h.2)).andThen fun _ w' ⟨⟨hw', hset⟩, ha, hend⟩ => ?_
  have hmeans := Window.meaning_done file hw'.toCursors hset hend
  rw [ha.meaning] at hmeans
  have hlast : w'.script = w.script.last w.extent := by
    rw [← ha.last]
    exact (Script.last_nil ((Window.script_inst_nil hw'.toCursors).mpr hend)).symm
  have hmis : ∀ out, w'.Mismatch out ↔ w.Mismatch out := by
    intro out
    have h1 : w'.decWinInd = w.decWinInd := (congrArg Window.decWinInd ha.announced :
      w'.announced.decWinInd = w.announced.decWinInd)
    have h2 : w'.flags = w.flags := (congrArg Window.flags ha.announced :
      w'.announced.flags = w.announced.flags)
    have h3 : w'.decAdler32 = w.decAdler32 := (congrArg Window.decAdler32 ha.announced :
      w'.announced.decAdler32 = w.announced.decAdler32)
    rw [Window.Mismatch, Window.Mismatch, h1, h2, h3]
  unfold checkWindow
  split
  · rename_i hlen
    rw [if_neg fun h => hlen h.2.1] at hmeans
    exact .inl (.inr ⟨rfl, fun _ => hmeans⟩)
  · rename_i hlen
    split
    · rename_i hdata
      rw [if_neg fun h => hdata h.2.2] at hmeans
      exact .inl (.inr ⟨rfl, fun _ => hmeans⟩)
    · rename_i hdata
      split
      · rename_i haddr
        rw [if_neg fun h => haddr h.1] at hmeans
        exact .inl (.inr ⟨rfl, fun _ => hmeans⟩)
      · rename_i haddr
        rw [not_not] at hlen hdata haddr
        rw [if_pos ⟨haddr, hlen, hdata⟩] at hmeans
        split
        · rename_i hbad
          exact .inr ⟨rfl, _, hmeans, (hmis _).mp hbad⟩
        · rename_i hgood
          refine ⟨hmeans, ha.announced, fun k => ?_, fun h => hgood ((hmis _).mpr h), hlast⟩
          cases k <;> [exact hdata; exact hend; exact haddr]

end Whole

end Xdelta
