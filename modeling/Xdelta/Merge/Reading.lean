import Xdelta.Merge.Chain

/-!
# Reading the deltas of a merge

The decoder skips the execution of a window, and `main_merge_func` appends its instructions to a
whole delta. What is read of a delta denotes the file that decoding it would give.
-/
namespace Xdelta
open Chunked Chunked.Driver Delta

structure Winst.Placed (winstart tgtlen mode : ℕ) (j : Winst) : Prop where
  size : j.size ≠ 0
  starts : winstart ≤ j.position
  ends : j.position + j.size ≤ winstart + tgtlen
  target : ∀ m, j.type = .cpy m → j.mode = 0 → winstart ≤ j.addr
  kind : j.mode = 0 ∨ j.mode = mode

section Append
variable {file : List UInt8} {winstart mode : ℕ} {e : Extent} {i : Hinst}
  {data rest b : List UInt8}

theorem Hinst.winst_placed (he : e.Fits winstart mode) (hne : i.type ≠ .noop) (hpos : i.size ≠ 0)
    {p : ℕ} (haddr : ∀ m, i.type = .cpy m → i.addr < p) (hle : e.cpylen ≤ p)
    (hp : p + i.size ≤ e.cpylen + e.tgtlen) (addslen : ℕ) :
    (i.winst winstart mode e addslen (winstart + (p - e.cpylen))).Placed winstart e.tgtlen
      mode := by
  have hbelow := he.below
  have hstart := he.start
  have hxoff : xoff.modulus = usize.modulus := rfl
  refine ⟨?_, ?_, ?_, fun m ht hm => ?_, ?_⟩
  · rw [winst_size]
    exact hpos
  · rw [winst_position]
    exact Nat.le_add_right _ _
  · rw [winst_position, winst_size]
    omega
  · cases hi : i.type with
    | noop => exact absurd hi hne
    | run =>
      rw [winst_run hi] at ht
      exact RType.noConfusion ht
    | add =>
      rw [winst_add hi] at ht
      exact RType.noConfusion ht
    | cpy m' =>
      have hlt := haddr m' hi
      rw [winst_cpy hi] at hm ⊢
      by_cases hin : i.addr < e.cpylen
      · rw [if_pos hin] at hm
        exact absurd hm (he.mode.resolve_left (by omega))
      · rw [if_neg hin, xoff.sub_add_eq (by omega) (by omega) (by omega)]
        dsimp only
        omega
  · unfold winst
    split
    · exact .inl rfl
    · exact .inl rfl
    · split
      · exact .inr rfl
      · exact .inl rfl

theorem Hinst.winst_own (hne : i.type ≠ .noop) (hb : i.bytes data = some (b, rest))
    (addslen position : ℕ) : b.length = (i.winst winstart mode e addslen position).own := by
  cases hi : i.type with
  | noop => exact absurd hi hne
  | run =>
    rw [winst_run hi]
    cases data with
    | nil =>
      rw [bytes_run_nil hi] at hb
      cases hb
    | cons c data =>
      rw [bytes_run_cons hi] at hb
      cases hb
      rfl
  | add =>
    rw [winst_add hi]
    rw [bytes_add hi] at hb
    split at hb
    · rename_i hle
      cases hb
      exact List.length_take_of_le hle
    · cases hb
  | cpy m =>
    rw [winst_cpy hi]
    rw [bytes_cpy hi] at hb
    cases hb
    split <;> rfl

theorem appendAll_placed (he : e.Fits winstart mode) {is : List Hinst} {p : ℕ}
    (href : Refers e p is) (hpos : ∀ i ∈ is, i.size ≠ 0) (hle : e.cpylen ≤ p)
    (hp : p + sizes is ≤ e.cpylen + e.tgtlen) {st st' : WholeState}
    (hlen : st.length = winstart + (p - e.cpylen))
    (h : appendAll winstart mode e is (st, data) = some (st', rest)) :
    ∃ new, st'.inst = st.inst ++ new ∧
      st'.adds.length = st.adds.length + (new.map Winst.own).sum ∧
      ∀ j ∈ new, j.Placed winstart e.tgtlen mode := by
  induction is generalizing p st data with
  | nil =>
    cases h
    exact ⟨[], (List.append_nil _).symm, rfl, fun _ h => absurd h List.not_mem_nil⟩
  | cons i is ih =>
    obtain ⟨hne, hcpy, href'⟩ := href
    obtain ⟨s1, hs1, h⟩ := Option.bind_eq_some_iff.mp h
    obtain ⟨⟨b, rest1⟩, hb, rfl⟩ := Option.map_eq_some_iff.mp hs1
    have hsizes : sizes (i :: is) = i.size + sizes is := rfl
    have hstart := he.start
    rw [hsizes] at hp
    have hsum : xoff.add st.length i.size = st.length + i.size := xoff.add_eq (by omega)
    obtain ⟨new, hinst, hadds, hplaced⟩ := ih href' (fun j hj => hpos j (.tail _ hj)) (by omega)
      (by omega) (by
        change xoff.add st.length i.size = _
        rw [hsum]
        omega) h
    refine ⟨i.winst winstart mode e st.adds.length st.length :: new, ?_, ?_,
      List.forall_mem_cons.mpr ⟨?_, hplaced⟩⟩
    · rw [hinst]
      exact List.append_assoc _ _ _
    · rw [hadds]
      change (st.adds ++ b).length + _ = _
      rw [List.length_append, List.map_cons, List.sum_cons, Hinst.winst_own hne hb, Nat.add_assoc]
    · rw [hlen]
      exact i.winst_placed he hne (hpos i List.mem_cons_self) (fun m hm => (hcpy m hm).1) hle
        (by omega) _

theorem Hinst.carry_uses {s s' : Spot} (h : i.carry file e s = some s') :
    i.uses + s'.data.length = s.data.length := by
  obtain ⟨⟨o, left⟩, ho, h⟩ := Option.bind_eq_some_iff.mp h
  obtain ⟨out, -, rfl⟩ := Option.map_eq_some_iff.mp h
  unfold op at ho
  unfold uses
  cases hi : i.type with
  | noop =>
    rw [hi] at ho
    cases ho
  | run =>
    rw [hi] at ho
    cases hd : s.data with
    | nil =>
      rw [hd] at ho
      cases ho
    | cons c more =>
      rw [hd] at ho
      cases ho
      exact Nat.add_comm _ _
  | add =>
    rw [hi] at ho
    dsimp only at ho ⊢
    split at ho
    · cases ho
      rw [List.length_drop]
      omega
    · cases ho
  | cpy m =>
    rw [hi] at ho
    cases ho
    exact Nat.zero_add _

theorem carryAll_uses {is : List Hinst} {s s' : Spot} (h : carryAll file e is s = some s') :
    dataUsed is + s'.data.length = s.data.length ∧ s'.out.length = s.out.length + sizes is := by
  induction is generalizing s with
  | nil =>
    cases h
    exact ⟨Nat.zero_add _, rfl⟩
  | cons i is ih =>
    obtain ⟨mid, hmid, h⟩ := Option.bind_eq_some_iff.mp h
    obtain ⟨hused, hlen⟩ := ih h
    have huses := Hinst.carry_uses hmid
    have hsize : mid.out.length = s.out.length + i.size := Hinst.carry_length hmid
    have hdata : dataUsed (i :: is) = i.uses + dataUsed is := rfl
    have hsizes : sizes (i :: is) = i.size + sizes is := rfl
    omega

end Append

/-- What has been read of a delta: windows that make `word` of the file. Their checksums are right
if all are there (`checked`). -/
structure Gathered (checked : Bool) (file word : List UInt8) (whole : WholeState) : Prop
    extends whole.Mergeable, whole.Windowed where
  tiles : Tiles 0 whole.wininfo whole.length
  own : whole.adds.length = (whole.inst.map Winst.own).sum
  denotes : whole.interp file = some word
  sums : checked = true → ∀ info ∈ whole.wininfo,
    info.adler32 = adler32 1 (segment word info.offset info.length)

theorem Gathered.nil (checked : Bool) (file : List UInt8) : Gathered checked file [] {} where
  laid := trivial
  length_eq := rfl
  below := xoff.modulus_pos
  sound _ h := absurd h List.not_mem_nil
  pos _ h := absurd h List.not_mem_nil
  modes _ h := absurd h List.not_mem_nil
  hard _ h := absurd h List.not_mem_nil
  stays _ h := absurd h List.not_mem_nil
  tiles := rfl
  own := rfl
  denotes := rfl
  sums _ _ h := absurd h List.not_mem_nil

theorem Tiles.append {lo mid : ℕ} {infos : List Wininfo} (h : Tiles lo infos mid) {info : Wininfo}
    (hoff : info.offset = mid) : Tiles lo (infos ++ [info]) (mid + info.length) := by
  induction infos generalizing lo with
  | nil =>
    obtain rfl : lo = mid := h
    exact ⟨hoff, rfl⟩
  | cons i infos ih => exact ⟨h.1, ih h.2⟩

theorem Tiles.ends {lo hi : ℕ} {infos : List Wininfo} (h : Tiles lo infos hi) {info : Wininfo}
    (hmem : info ∈ infos) : info.offset + info.length ≤ hi := by
  induction infos generalizing lo with
  | nil => exact absurd hmem List.not_mem_nil
  | cons i infos ih =>
    rcases List.mem_cons.mp hmem with rfl | hmem
    · have := Tiles.le h.2
      have := h.1
      omega
    · exact ih h.2 hmem

theorem Laid.ends {p : ℕ} {is : List Winst} (h : Laid p is) {i : Winst} (hmem : i ∈ is) :
    i.position + i.size ≤ p + lengths is := by
  induction is generalizing p with
  | nil => exact absurd hmem List.not_mem_nil
  | cons j is ih =>
    rw [lengths_cons]
    rcases List.mem_cons.mp hmem with rfl | hmem
    · have := h.1
      omega
    · have := ih h.2 hmem
      omega

/-- A window that is not marked as one of the target file is not copied from it. -/
theorem copyMode_ne_target {winInd : ℕ} (h : hasBits winInd vcdTarget = false) :
    copyMode winInd ≠ vcdTarget := by
  unfold copyMode
  split
  · decide
  · split
    · rename_i htarget
      have hbits : winInd &&& vcdTarget = vcdTarget := by
        have hmask : (3 &&& vcdTarget) = vcdTarget := by decide
        rw [← hmask, ← Nat.land_assoc, htarget]
        decide
      unfold hasBits at h
      rw [hbits] at h
      exact absurd h (by decide)
    · decide

section Gather
variable {checked : Bool} {file word window : List UInt8} {whole : WholeState} {v : Window}
  {w : EncodedWindow}

/-- A window all of whose instructions can be read is appended. -/
theorem wholeAppendWindow_reads (hv : v.Ready) (winstart : ℕ) (st : WholeState) {is : List Hinst}
    (hread : v.script.read v.extent = (is, some []))
    (hdata : dataUsed is ≤ v.dataSect.left.length) :
    ∃ g left, wholeAppendWindow winstart ⟨v, st⟩ = .ok () g ∧
      appendAll winstart (copyMode v.decWinInd) v.extent is ({ st with
        wininfo := st.wininfo ++ [⟨winstart, v.decTgtlen, v.decAdler32⟩] }, v.dataSect.left) =
        some (g.whole, left) := by
  have hloop : (wholeAppendWindow winstart ⟨v, st⟩).Decides _ _ _ _ :=
    appendLoop_decides hv.toCursors hv.maxpos (Nat.lt_succ_self _)
  dsimp only at hloop
  rw [hread] at hloop
  cases hr : wholeAppendWindow winstart ⟨v, st⟩ with
  | fault =>
    rw [hr] at hloop
    exact absurd ((appendAll_uses _ _).1.mp hloop) (Nat.not_lt.mpr hdata)
  | starved g =>
    rw [hr] at hloop
    exact hloop.elim
  | stop e g =>
    rw [hr] at hloop
    cases hloop.1
  | ok a g =>
    rw [hr] at hloop
    exact ⟨g, _, rfl, hloop.2.1⟩

/-- The halves of a window, none of them empty, are carried out to the bytes that it stands for. -/
theorem EncodedWindow.StandsFor.carried (hw : w.StandsFor file window) : ∃ is s,
    Script.read w.hdr.extent ⟨w.inst, w.addr, .rfc3284, w.hdr.srclen⟩ = (is, some []) ∧
      (∀ i ∈ is, i.size ≠ 0) ∧
      carryAll file w.hdr.extent is ⟨[], w.data⟩ = some s ∧ s.out = window ∧ s.data = [] := by
  obtain ⟨is, c, p, hreads, hsizes, hmeans⟩ := hw.reads
  have hread := hreads.read rfl
  have hall : ∀ i ∈ is, i.Inside w.hdr.extent ∨ w.hdr.extent.tgtlen < i.size := by
    intro i hi
    have hmem : i ∈ (Script.read w.hdr.extent ⟨w.inst, w.addr, .rfc3284, w.hdr.srclen⟩).1 := by
      rw [hread]
      exact hi
    exact Hinst.Checked.inside (Script.read_checked _ i hmem) hw.target
  have hdelivered := interpretAll_of_each hmeans hw.tgtLen.symm
  rw [interpretAll_eq hall, delivered_eq] at hdelivered
  obtain ⟨s, hs, hend⟩ := Option.bind_eq_some_iff.mp hdelivered
  split at hend
  · rename_i hdone
    cases hend
    exact ⟨is, s, hread, hsizes, hs, rfl, hdone.2⟩
  · cases hend

theorem Gathered.length_eq_word (h : Gathered checked file word whole) :
    word.length = whole.length := by
  rw [length_interpFrom h.denotes, h.length_eq, List.length_nil, Nat.zero_add]

/-- Instructions placed in a further window, which write its bytes after the file, are gathered
with those before. -/
theorem Gathered.extend (h : Gathered checked file word whole) {whole' : WholeState}
    {new : List Winst} {info : Wininfo} {mode : ℕ} (hwf : whole'.Wf)
    (hinsts : whole'.inst = whole.inst ++ new) (hinfo : whole'.wininfo = whole.wininfo ++ [info])
    (hlength : whole'.length = whole.length + window.length) (hoff : info.offset = word.length)
    (hlen : info.length = window.length) (hhard : window.length ≤ hardMaxWinsize)
    (hplaced : ∀ j ∈ new, j.Placed word.length window.length mode) (hmode : mode ≠ vcdTarget)
    (hown : whole'.adds.length = whole.adds.length + (new.map Winst.own).sum)
    (hdenotes : whole'.interp file = some (word ++ window))
    (hsum : checked = true → info.adler32 = adler32 1 window) :
    Gathered checked file (word ++ window) whole' := by
  have hword := h.length_eq_word
  refine ⟨⟨⟨hwf, ?_⟩, ?_⟩, ⟨?_, ?_⟩, ?_, ?_, hdenotes, ?_⟩
  · rw [hinsts]
    exact List.forall_mem_append.mpr ⟨h.pos, fun j hj => (hplaced j hj).size⟩
  · rw [hinsts]
    refine List.forall_mem_append.mpr ⟨h.modes, fun j hj hfrom => ?_⟩
    rw [(hplaced j hj).kind.resolve_left hfrom.2.2]
    exact hmode
  · rw [hinfo]
    exact List.forall_mem_append.mpr ⟨h.hard, List.forall_mem_singleton.mpr (hlen ▸ hhard)⟩
  · rw [hinsts, hinfo]
    refine List.forall_mem_append.mpr ⟨fun i hi m ht hm => ?_, fun i hi m ht hm => ?_⟩
    · refine List.forall_mem_append.mpr ⟨h.stays i hi m ht hm,
        List.forall_mem_singleton.mpr fun hfrom => ?_⟩
      have := Laid.ends h.laid hi
      have := h.pos i hi
      have := h.length_eq
      omega
    · have hplace := hplaced i hi
      have hstarts := hplace.starts
      refine List.forall_mem_append.mpr ⟨fun info' hmem hfrom hupto => ?_,
        List.forall_mem_singleton.mpr fun _ _ => ⟨hoff ▸ hplace.target m ht hm, ?_⟩⟩
      · have := h.tiles.ends hmem
        omega
      · rw [hoff, hlen]
        exact hplace.ends
  · rw [hinfo, hlength, ← hlen]
    exact h.tiles.append (hoff.trans hword)
  · rw [hown, hinsts, List.map_append, List.sum_append, h.own]
  · rw [hinfo]
    intro hc
    refine List.forall_mem_append.mpr ⟨fun info' hmem => ?_, List.forall_mem_singleton.mpr ?_⟩
    · have hin := h.tiles.ends hmem
      have hsame : segment (word ++ window) info'.offset info'.length =
          segment word info'.offset info'.length := by
        unfold segment
        rw [List.drop_append_of_le_length (by omega),
          List.take_append_of_le_length (by rw [List.length_drop]; omega)]
      rw [hsame]
      exact h.sums hc info' hmem
    · have hsame : segment (word ++ window) info.offset info.length = window := by
        unfold segment
        rw [hoff, hlen, List.drop_left, List.take_length]
      rw [hsame]
      exact hsum hc

/-- A window is appended as the bytes that it stands for. -/
theorem EncodedWindow.StandsFor.gathered (hw : w.StandsFor file window)
    (hv : v.Ready) (hext : v.extent = w.hdr.extent)
    (hinst : v.instSect.left = w.inst) (haddr : v.addrSect.left = w.addr)
    (hdata : v.dataSect.left = w.data) (hcache : v.acache = .rfc3284)
    (hind : v.decWinInd = w.hdr.winInd) (hadler : ∀ a, w.hdr.adler32 = some a → v.decAdler32 = a)
    (hchecked : checked = true → w.hdr.adler32.isSome = true)
    (h : Gathered checked file word whole) (hstart : word.length + window.length < xoff.modulus) :
    ∃ g, wholeAppendWindow word.length ⟨v, whole⟩ = .ok () g ∧
      Gathered checked file (word ++ window) g.whole ∧ g.whole.wininfo ≠ [] := by
  obtain ⟨is, s, hread, hsizes, hs, hout, hleft⟩ := hw.carried
  have hused : dataUsed is = w.data.length := by
    have := (carryAll_uses hs).1
    rwa [hleft] at this
  have hsum : sizes is = window.length := by
    have := (carryAll_uses hs).2
    rw [hout, List.length_nil, Nat.zero_add] at this
    exact this.symm
  have hcpylen : v.decCpylen = w.hdr.srclen := congrArg Extent.cpylen hext
  have htgtlen : v.decTgtlen = window.length := (congrArg Extent.tgtlen hext).trans hw.tgtLen
  have hscript : v.script = ⟨w.inst, w.addr, .rfc3284, w.hdr.srclen⟩ := by
    unfold Window.script
    rw [hinst, haddr, hcache, hv.position, hcpylen]
  obtain ⟨g, left, hok, happ⟩ := wholeAppendWindow_reads hv word.length whole
    (show v.script.read v.extent = (is, some []) by rw [hscript, hext, hread])
    (by rw [hdata]; exact hused.le)
  rw [hext, hdata] at happ
  have hlen := h.length_eq_word
  have hfits : w.hdr.extent.Fits word.length (copyMode v.decWinInd) :=
    hext ▸ hv.fits (by rw [htgtlen]; exact hstart)
  have hbelow := hw.target
  have hextlen : w.hdr.extent.tgtlen = window.length := hw.tgtLen
  have hsrclen : w.hdr.extent.cpylen = w.hdr.srclen := rfl
  have hfull : w.hdr.extent.cpylen + sizes is ≤ w.hdr.extent.cpylen + w.hdr.extent.tgtlen := by
    rw [hsum, hextlen]
  have hrefs : Refers w.hdr.extent w.hdr.extent.cpylen is := by
    have hrefers := Script.read_refers (e := w.hdr.extent)
      (r := ⟨w.inst, w.addr, .rfc3284, w.hdr.srclen⟩) (by
        rw [hread]
        dsimp only
        rw [hsum, ← hw.tgtLen]
        exact hbelow)
    rwa [hread] at hrefers
  -- what has been appended, where it is placed, and what it does
  obtain ⟨bytes, new, hadds, hinsts, hinfo, -, hmean⟩ := appendAll_interp happ
  obtain ⟨new', hinsts', hown, hplaced⟩ := appendAll_placed hfits hrefs hsizes le_rfl hfull
    (by rw [Nat.sub_self, Nat.add_zero]; exact hlen.symm) happ
  obtain rfl : new = new' := List.append_cancel_left (hinsts.symm.trans hinsts')
  have hwf : ({ whole with
      wininfo := whole.wininfo ++ [⟨word.length, v.decTgtlen, v.decAdler32⟩] } : WholeState).Wf :=
    ⟨h.laid, h.length_eq, h.below, h.sound⟩
  obtain ⟨hwf', hlength⟩ := appendAll_wf hfits hrefs le_rfl hfull hwf
    (by rw [Nat.sub_self, Nat.add_zero]; exact hlen.symm) happ
  dsimp only at hadds hinsts hinfo hown hlength
  have hdenotes : g.whole.interp file = some (word ++ window) := by
    have hnew := (hmean _ hrefs hfull hfits file word [] rfl).1
    rw [hs, Option.map_some, hout, List.append_nil] at hnew
    unfold WholeState.interp
    rw [hinsts, hadds, interpFrom_append, interpFrom_append_adds h.sound]
    change (whole.interp file).bind _ = _
    rw [h.denotes, Option.bind_some]
    exact hnew
  have hmode : copyMode v.decWinInd ≠ vcdTarget := by
    rw [hind]
    exact copyMode_ne_target w.hdr.hasBits_winInd_target
  rw [hextlen] at hplaced
  refine ⟨g, hok, h.extend hwf' hinsts hinfo (hlength.trans (by rw [hsum])) rfl htgtlen
    (htgtlen ▸ hv.tgtlen) hplaced hmode hown hdenotes fun hc => ?_, ?_⟩
  · obtain ⟨a, ha⟩ := Option.isSome_iff_exists.mp (hchecked hc)
    dsimp only
    rw [hadler a ha]
    exact hw.adler32 a ha
  · rw [hinfo]
    exact List.append_ne_nil_of_right_ne_nil _ (List.cons_ne_nil _ _)

end Gather

/-- `main_input` on a delta that is merged: `main_merge_func` is called on each window the decoder
returns. The cursors that it moves are set again before the decoder reads them. -/
def appendWindows {σ : Type} : List (Event σ) → Merge
  | [] => pure ()
  | .closed _ :: tr => appendWindows tr
  | .returned e c _ :: tr => fun whole =>
    if e.ret = .output then
      match wholeAppendWindow c.decWinstart ⟨c.win, whole⟩ with
      | .ok _ g => appendWindows tr g.whole
      | .starved g => .starved g.whole
      | .stop e g => .stop e g.whole
      | .fault => .fault
    else appendWindows tr whole

structure Flags.Reads (f : Flags) : Prop where
  header : f.justHdr = false
  window : f.skipWindow = false
  emit : f.skipEmit = true

section Events
variable {σ : Type} {whole whole' : WholeState}

theorem appendWindows_append (tr tr' : List (Event σ)) (whole : WholeState) :
    appendWindows (tr ++ tr') whole =
      (appendWindows tr whole).andThen fun _ => appendWindows tr' := by
  induction tr generalizing whole with
  | nil => rfl
  | cons e tr ih =>
    cases e with
    | closed r => exact ih whole
    | returned e c n =>
      rw [List.cons_append, appendWindows, appendWindows]
      dsimp only
      split
      · cases wholeAppendWindow c.decWinstart ⟨c.win, whole⟩ with
        | ok a g => exact ih g.whole
        | starved g => rfl
        | stop e g => rfl
        | fault => rfl
      · exact ih whole

theorem Desect.load_pos (d : Desect) (bytes : List UInt8) :
    { d.load bytes with pos := 0 } = d.load bytes := by
  unfold Desect.load
  split <;> rfl

end Events

section Skips
variable {σ : Type} {file : List UInt8}

/-- The call that finds all sections of a window returns it as it is. -/
theorem Kept.skips {k : Flags × Bool} {c : Core σ} {data inst addr rest : List UInt8} {n : ℕ}
    (h : Kept file k ⟨⟨data ++ (inst ++ (addr ++ rest)), n, 0⟩, c⟩) (env : Env σ)
    (hst : c.decState = .data) (hreads : k.1.Reads) (hfits : c.win.fits = true)
    (hpos : ∀ k, (c.win.sect k).pos = 0) (hdata : c.win.dataSect.size = data.length)
    (hinst : c.win.instSect.size = inst.length) (haddr : c.win.addrSect.size = addr.length) :
    ∃ (c' : Core σ) (n' : ℕ), plainInput env ⟨⟨data ++ (inst ++ (addr ++ rest)), n, 0⟩, c⟩ =
        .stop ⟨.output, none⟩ ⟨⟨rest, n', 0⟩, c'⟩ ∧
      c'.decState = .finish ∧ c'.win.Ready ∧ c'.win.kit = k ∧ c'.win.out = [] ∧
      c'.decWinstart = c.decWinstart ∧ c'.win = { c.win with
        dataSect := c.win.dataSect.load data
        instSect := c.win.instSect.load inst
        addrSect := c.win.addrSect.load addr } := by
  have hread : Reading c := inv_reading h.holds.1 (.inl hst)
  have hload := loading_of_safe h.safe (.inl hst)
  have hflags : c.win.flags = k.1 := congrArg Prod.fst h.kit
  have hreads' : c.win.flags.Reads := hflags ▸ hreads
  have hfill : Filling .data c := ⟨hread, hst, hreads'.header, hreads'.window, hfits⟩
  obtain ⟨wb, n', hsect⟩ := fillSections_load hst hpos hdata hinst haddr rest n 0
  have hends := fillSections_ends (k := .data) ⟨hfill, h.holds.2⟩ hload
  rw [hsect] at hends
  obtain ⟨hstate, hload', -⟩ := hends
  have hpass : ∀ k, Sect.passed k DecState.emit = true := by
    intro k
    cases k <;> decide
  have hcur := fun k => hload'.passed k (hstate ▸ hpass k)
  have hhead := hload'.headed
  have hidle := hload'.idle
  dsimp only at hcur hhead hidle
  have hplain : plainSections ⟨⟨data ++ (inst ++ (addr ++ rest)), n, 0⟩, c⟩ =
      .stop ⟨.output, none⟩ ⟨⟨rest, n', 0⟩, { c with
        decWinbytes := 0
        decState := .finish
        win := { c.win with
          dataSect := c.win.dataSect.load data
          instSect := c.win.instSect.load inst
          addrSect := c.win.addrSect.load addr } }⟩ := by
    unfold plainSections
    dsimp only
    rw [if_neg (by rw [hreads'.header]; exact Bool.false_ne_true), hfits,
      if_neg Bool.true_eq_false.mp, if_neg (by rw [hreads'.window]; exact Bool.false_ne_true), hsect,
      Outcome.andThen_ok, onCore, Routine.zoom_apply]
    unfold afterSections
    rw [decodeSecondarySections_none hload'.delind, Outcome.andThen_ok, if_pos hreads'.emit]
    unfold decodeFinishWindow
    dsimp only
    rw [Desect.load_pos, Desect.load_pos, Desect.load_pos]
    rfl
  refine ⟨{ c with
    decWinbytes := 0
    decState := .finish
    win := { c.win with
      dataSect := c.win.dataSect.load data
      instSect := c.win.instSect.load inst
      addrSect := c.win.addrSect.load addr } }, n', ?_, rfl, ?_, h.kit, hidle.out, rfl, rfl⟩
  · rw [plainInput_reading env hread, hplain, Outcome.andThen_stop]
  · exact ⟨⟨fun k => (hcur k).1, fun k => (hcur k).2, hhead.near, hhead.same⟩, hidle.settled,
      hhead.position, hhead.maxpos, hhead.below, hhead.offset, hhead.indicated, hhead.tgtlen⟩

section Windows
variable {env : Env σ} {app : AppSource} {k : Flags × Bool} (hsec : ∀ id, env.secondary id = none)
  (hd : Delivery file env.getblk app) (hnone : ∀ ret, app ret none = none) (he : k.1.Reads)
include hsec hd hnone he

theorem EncodedWindow.StandsFor.appends {w : EncodedWindow} {window word : List UInt8}
    (hw : w.StandsFor file window) {checked : Bool}
    (hchecked : checked = true → w.hdr.adler32.isSome = true)
    {whole : WholeState} (hg : Gathered checked file word whole)
    (hstart : word.length + window.length < xoff.modulus) {s : Reader σ} (hs : Kept file k s)
    (hrank : s.core.decState.rank ≤ 18) {c : Core σ} (hc : Before word.length c)
    (hkit : c.win.kit = k) {rest : List UInt8} {t : ℕ}
    (hread : decodeHeader env s = fromWinind ⟨⟨w.bytes ++ rest, t, 0⟩, c⟩) :
    ∃ tr s' n whole', (plainDriver env app).Leads s tr s' ∧
      appendWindows tr whole = .ok () whole' ∧ Gathered checked file (word ++ window) whole' ∧
      whole'.wininfo ≠ [] ∧ Kept file k s' ∧ s'.core.decState = .winind ∧ s'.inp = ⟨rest, n, 0⟩ ∧
      Before (word ++ window).length s'.core := by
  have hbytes : w.bytes ++ rest =
      w.hdr.bytes ++ (w.data ++ (w.inst ++ (w.addr ++ rest))) := by
    unfold EncodedWindow.bytes EncodedWindow.sections
    simp only [List.append_assoc]
  rw [hbytes] at hread
  have hbelow : word.length < xoff.modulus := by omega
  rcases w.hdr.reported_or_refused w.fits hw.plain hw.copy hw.target hc
      (w.data ++ (w.inst ++ (w.addr ++ rest))) t with ⟨-, t', hstop⟩ | ⟨hnot, -⟩
  swap
  · exact absurd ⟨hbelow, hw.tgtLen ▸ hw.hard⟩ hnot
  have hcall : plainInput env s = _ := (plainInput_waiting env hrank).trans (hread.trans hstop)
  have hret : ∀ p : Prop, [Decidable p] →
      (if p then Ret.gotheader else Ret.winstart).ordinary = true := by
    intro p _
    split <;> rfl
  have hnot : ∀ p : Prop, [Decidable p] →
      (if p then Ret.gotheader else Ret.winstart) ≠ Ret.output := by
    intro p _
    split <;> exact Ret.noConfusion
  have hpos : ∀ j, ((w.hdr.decoded c).win.sect j).pos = 0 := by
    obtain ⟨F, hF, hwait⟩ := waiting_of_inv hs.holds.1 hrank
    have hends := (from_decodeHeader env F (hF.secondary env)).ends s ⟨hwait, hs.holds.2⟩
    rw [hread, hstop] at hends
    exact (hends (hret _)).1.1.2.pos_zero hF
  obtain ⟨hleads1, hs1⟩ := hs.returns hsec hd hnone hcall (hret _) hkit
  have hload := loading_of_safe hs1.safe (.inl rfl)
  obtain ⟨c2, n2, hcall2, hfin, hready, hkit2, hout2, hwinstart2, hwin2⟩ := hs1.skips env rfl he
    (need_sections w.dataLen w.instLen w.addrLen).1 (fun j => by
      have := hpos j
      cases j <;> exact this) w.dataLen w.instLen w.addrLen
  obtain ⟨hleads2, hs2⟩ := hs1.returns hsec hd hnone hcall2 rfl hkit2
  have hcall3 : ∀ r : Reader σ, r.core.decState = .finish →
      plainInput env r = onCore decFinish r := by
    intro r hr
    unfold plainInput
    rw [hr]
  obtain ⟨hleads3, hs3⟩ := hs2.returns hsec hd hnone (hcall3 _ hfin) rfl
    ((rotate_kit _).trans hs2.kit)
  have hnext := hc.decoded hbelow w.hdr
  have hdecoded : (w.hdr.decoded c).decWinstart = word.length := by
    have hsum := hnext.sum
    change (w.hdr.decoded c).decWinstart + w.hdr.tgtLen = word.length + w.hdr.tgtLen at hsum
    omega
  have hwinstart : c2.decWinstart = word.length := hwinstart2.trans hdecoded
  have htgtlen : c2.win.decTgtlen = w.hdr.tgtLen := by
    rw [hwin2]
    rfl
  obtain ⟨g, hok, hgathered, hinfo⟩ := hw.gathered (v := c2.win) hready
    (by rw [hwin2]; rfl) (by rw [hwin2]; exact Desect.left_load _ _)
    (by rw [hwin2]; exact Desect.left_load _ _) (by rw [hwin2]; exact Desect.left_load _ _)
    (by
      rw [hwin2]
      exact AddrCache.init_rfc3284 hload.headed.near hload.headed.same)
    (by rw [hwin2]; rfl)
    (fun a ha => by
      rw [hwin2]
      change (w.hdr.decoded c).win.decAdler32 = a
      unfold WinHdr.decoded
      dsimp only
      rw [ha, Option.getD_some]) hchecked hg hstart
  refine ⟨_, _, n2, g.whole, hleads1.trans (hleads2.trans hleads3), ?_, hgathered, hinfo, hs3, rfl,
    rfl, ?_⟩
  · rw [appendWindows_append]
    have hfirst : appendWindows [Reader.event
        ⟨if (w.hdr.decoded c).currentWindow = 0 then .gotheader else .winstart, none⟩
        ⟨⟨w.data ++ (w.inst ++ (w.addr ++ rest)), t', 0⟩,
          w.hdr.decoded c⟩] whole = .ok () whole := if_neg (hnot _)
    have hsecond : appendWindows
        [Reader.event ⟨.output, none⟩ (⟨⟨rest, n2, 0⟩, c2⟩ : Reader σ)] whole = .ok () g.whole := by
      unfold Reader.event appendWindows
      dsimp only
      rw [if_pos rfl, hwinstart, hok]
      rfl
    refine (congrArg (fun o => Outcome.andThen o _) hfirst).trans ?_
    rw [Outcome.andThen_ok, appendWindows_append]
    refine (congrArg (fun o => Outcome.andThen o _) hsecond).trans ?_
    rw [Outcome.andThen_ok]
    rfl
  · have hrotate : ∀ v : Window, v.rotate.decTgtlen = v.decTgtlen := by
      intro v
      unfold Window.rotate
      split_ifs <;> rfl
    refine ⟨hwinstart.trans_lt hbelow, ?_⟩
    dsimp only
    rw [hwinstart, hrotate, List.length_append, ← hw.tgtLen]
    exact congrArg (word.length + ·) htgtlen

theorem StandFor.appends {windows : List (List UInt8)} {ws : List EncodedWindow}
    (h : StandFor file windows ws) {checked : Bool}
    (hchecked : checked = true → ∀ w ∈ ws, w.hdr.adler32.isSome = true) {word : List UInt8}
    (hbelow : (word ++ windows.flatten).length < xoff.modulus) {whole : WholeState}
    (hg : Gathered checked file word whole) (hinfo : whole.wininfo ≠ []) {s : Reader σ}
    (hs : Kept file k s) (hst : s.core.decState = .winind) (hc : Before word.length s.core) {n : ℕ}
    (hinp : s.inp = ⟨(ws.map EncodedWindow.bytes).flatten, n, 0⟩) :
    ∃ tr whole', (plainDriver env app).Run s [] (tr ++ [.closed none]) ∧
      appendWindows tr whole = .ok () whole' ∧
      Gathered checked file (word ++ windows.flatten) whole' ∧ whole'.wininfo ≠ [] := by
  have hrank : s.core.decState.rank ≤ 18 := by
    rw [hst]
    decide
  induction h generalizing word whole s n with
  | nil =>
    have hcall : plainInput env s = .starved s := by
      obtain ⟨inp, c⟩ := s
      cases hinp
      rw [plainInput_winind env hst]
      rfl
    have hclose : s.closeEvent = .closed none := by
      unfold Reader.closeEvent closeStream
      rw [hst]
    refine ⟨[], whole, ?_, rfl, ?_, hinfo⟩
    · rw [List.nil_append, ← hclose]
      exact .finish hcall
    · rw [List.flatten_nil, List.append_nil]
      exact hg
  | @cons window w windows ws hw _ ih =>
    rw [List.flatten_cons, ← List.append_assoc] at hbelow
    have hstart : word.length + window.length < xoff.modulus := by
      rw [List.length_append, List.length_append] at hbelow
      omega
    obtain ⟨inp, c⟩ := s
    cases hinp
    have hread : decodeHeader env (⟨⟨(List.map EncodedWindow.bytes (w :: ws)).flatten, n, 0⟩, c⟩ :
        Reader σ) = fromWinind ⟨⟨w.bytes ++ (ws.map EncodedWindow.bytes).flatten, n, 0⟩, c⟩ :=
      (plainInput_waiting env hrank).symm.trans (plainInput_winind env hst)
    obtain ⟨tr, s', n', whole₁, hleads, happ, hg₁, hinfo₁, hs', hst', hinp', hc'⟩ := hw.appends hsec
      hd hnone he (fun h => hchecked h w List.mem_cons_self) hg hstart hs hrank hc hs.kit hread
    obtain ⟨tr', whole₂, hrun, happ', hg₂, hinfo₂⟩ := ih
      (fun h w hw => hchecked h w (.tail _ hw)) hbelow hg₁ hinfo₁ hs' hst' hc' hinp' (by
        rw [hst']
        decide)
    refine ⟨tr ++ tr', whole₂, ?_, ?_, ?_, hinfo₂⟩
    · rw [List.append_assoc]
      exact hleads _ _ hrun
    · rw [appendWindows_append, happ, Outcome.andThen_ok, happ']
    · rw [List.flatten_cons, ← List.append_assoc]
      exact hg₂

end Windows

/-- A delta that is read for a merge, however it is cut into chunks: it is read to its end, and its
windows denote the file that they stand for. -/
theorem StandFor.gathers {env : Env σ} {app : AppSource} (hsec : ∀ id, env.secondary id = none)
    (hd : Delivery file env.getblk app) (hnone : ∀ ret, app ret none = none) {flags : Flags}
    (hflags : flags.Reads) {src : Option Source} (hsrc : ∀ s, src = some s → s.Faithful file)
    {fileHdr : FileHdr} (hfits : fileHdr.Fits) (hplain : fileHdr.secId = none)
    {windows : List (List UInt8)} {ws : List EncodedWindow} (h : StandFor file windows ws)
    (hne : windows ≠ []) {checked : Bool}
    (hchecked : checked = true → ∀ w ∈ ws, w.hdr.adler32.isSome = true)
    (hbelow : windows.flatten.length < xoff.modulus) :
    ∃ whole, Gathered checked file windows.flatten whole ∧ whole.wininfo ≠ [] ∧
      ∀ cs : List (List UInt8),
        cs.flatten = fileHdr.bytes ++ (ws.map EncodedWindow.bytes).flatten →
        ∃ tr : List (Event σ),
          (decodeDriver env app).Run (initStream flags src) cs (tr ++ [.closed none]) ∧
          appendWindows tr {} = .ok () whole := by
  have hstream : StreamInv (initStream flags src : Stream σ) := streamInv_initStream flags src
  suffices hrun : ∃ tr whole, Gathered checked file windows.flatten whole ∧ whole.wininfo ≠ [] ∧
      (plainDriver env app).Run ((initStream flags src : Stream σ).toReader.more
        (fileHdr.bytes ++ (ws.map EncodedWindow.bytes).flatten)) [] (tr ++ [.closed none]) ∧
      appendWindows tr {} = .ok () whole by
    obtain ⟨tr, whole, hg, hinfo, hrun, happ⟩ := hrun
    refine ⟨whole, hg, hinfo, fun cs hcs => ⟨tr, ?_, happ⟩⟩
    refine ((decodeDriver_projects env app).run_iff hstream cs _).mpr ?_
    exact ((plainDriver_lawful env app).run_flatten hstream.1 cs _).mpr (hcs ▸ hrun)
  cases h with
  | nil => exact absurd rfl hne
  | @cons window w windows ws hw hlater =>
    have hkept : Kept file (flags, src.isSome) ((initStream flags src : Stream σ).toReader.more
        (fileHdr.bytes ++ (w.bytes ++ (ws.map EncodedWindow.bytes).flatten))) :=
      ⟨hstream.1.more _, safe_initStream flags hsrc, rfl⟩
    rw [List.flatten_cons] at hbelow ⊢
    rcases fileHdr.decodes hfits env (c := (initStream flags src : Stream σ).core) rfl rfl 0
      with ⟨⟨t, hfile⟩, -⟩ | ⟨-, id, hid, -⟩
    · obtain ⟨tr, s', n, whole₁, hleads, happ, hg₁, hinfo₁, hs', hst', hinp', hc'⟩ := hw.appends
        hsec hd hnone hflags (fun h => hchecked h w List.mem_cons_self) (Gathered.nil checked file)
        (by
          rw [List.length_append] at hbelow
          rw [List.length_nil]
          omega) hkept (Nat.zero_le _)
        (c := fileHdr.decoded env (initStream flags src : Stream σ).core t)
        ⟨xoff.modulus_pos, rfl⟩ rfl (hfile _)
      obtain ⟨tr', whole₂, hrun, happ', hg₂, hinfo₂⟩ := StandFor.appends hsec hd hnone hflags hlater
        (fun h w hw => hchecked h w (.tail _ hw)) hbelow hg₁ hinfo₁ hs' hst' hc' hinp'
      refine ⟨tr ++ tr', whole₂, hg₂, hinfo₂, ?_, ?_⟩
      · rw [List.append_assoc]
        exact hleads _ _ hrun
      · rw [appendWindows_append, happ, Outcome.andThen_ok, happ']
    · cases hplain.symm.trans hid

end Skips

end Xdelta
