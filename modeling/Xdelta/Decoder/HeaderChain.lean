import Xdelta.Decoder.Header

/-!
# The header states in sequence

What is known of the fields at each state, and from it one theorem about the
header states together: from any of them, a call that starves can be resumed, and
one that reports the header has established the bounds instruction decoding needs.
-/
namespace Xdelta
open Chunked

variable {σ : Type}

def Window.kept (w : Window) : Window :=
  { w with
    decWinInd := 0, decCpylen := 0, decCpyoff := 0, decTgtlen := 0, decAdler32 := 0
    decPosition := 0, decMaxpos := 0
    dataSect := { w.dataSect with size := 0 }
    instSect := { w.instSect with size := 0 }
    addrSect := { w.addrSect with size := 0 }
    acache := ⟨0, 0, 0, fun _ => 0, fun _ => 0⟩ }

/-- What the header states leave alone: the rest of the window, and the numbers of
address modes once they are set. `plain` says that there is no secondary compressor. -/
structure Frame where
  win : Window
  near : ℕ
  same : ℕ
  plain : Bool

def Sect.rank : Sect → ℕ
  | data => 15
  | inst => 16
  | addr => 17

/-- What holds of the fields when the states below `r` have been passed. -/
structure Facts (F : Frame) (r : ℕ) (c : Core σ) : Prop where
  winbytes : c.decWinbytes = 0
  kept : c.win.kept = F.win
  sec : F.plain = true → c.secType = none
  default : r < 7 → F.near = 4 ∧ F.same = 3
  cache : 7 ≤ r → c.win.acache.sNear = F.near ∧ c.win.acache.sSame = F.same
  cpylen : 10 ≤ r → c.win.decCpylen < usize.modulus ∧
    (c.win.decCpylen = 0 ∨ srcortgt c.win.decWinInd = true)
  position : 11 ≤ r → c.win.decPosition = c.win.decCpylen
  target : 14 ≤ r → c.win.decCpylen + c.win.decTgtlen < usize.modulus ∧
    c.win.decTgtlen ≤ hardMaxWinsize ∧ c.win.decMaxpos = c.win.decCpylen + c.win.decTgtlen
  delind : 15 ≤ r → F.plain = true → c.decDelInd = 0
  size : ∀ k, Sect.rank k < r → (c.win.sect k).size < usize.modulus
  offset : 10 ≤ r → c.win.decCpyoff < xoff.modulus ∧
    (12 ≤ r → c.win.decCpyoff + c.win.decCpylen < xoff.modulus)

/-- The fields are those of a stream waiting in state `k`. -/
def At (F : Frame) (k : DecState) (c : Core σ) : Prop := c.decState = k ∧ Facts F k.rank c

section Steps
variable {F : Frame}

private theorem Facts.low {r q : ℕ} {c c' : Core σ} (h : Facts F r c) (hr : r < 7)
    (hq : q < 7) (hkept : c'.win.kept = c.win.kept) (hbytes : c'.decWinbytes = c.decWinbytes)
    (hsec : c'.secType = c.secType) : Facts F q c' where
  winbytes := hbytes.trans h.winbytes
  kept := hkept.trans h.kept
  sec hp := hsec.trans (h.sec hp)
  default _ := h.default hr
  cache _ := by omega
  cpylen _ := by omega
  position _ := by omega
  target _ := by omega
  delind _ := by omega
  size k hk := by cases k <;> simp only [Sect.rank] at hk <;> omega
  offset _ := by omega

/-- No bound below is established between `r` and `r'`. -/
private def Level (r r' : ℕ) : Prop :=
  7 ≤ r ∧ r ≤ r' ∧ (r' < 10 ∨ 10 ≤ r) ∧ (r' < 11 ∨ 11 ≤ r) ∧ (r' < 12 ∨ 12 ≤ r) ∧
    (r' < 14 ∨ 14 ≤ r) ∧ (r' < 15 ∨ 18 ≤ r)

private instance (r r' : ℕ) : Decidable (Level r r') := by unfold Level; infer_instance

private theorem Facts.same {r r' : ℕ} {c c' : Core σ} (h : Facts F r c) (hl : Level r r')
    (hwin : c'.win = c.win) (hbytes : c'.decWinbytes = c.decWinbytes)
    (hsec : c'.secType = c.secType) (hdel : c'.decDelInd = c.decDelInd) : Facts F r' c' where
  winbytes := hbytes.trans h.winbytes
  kept := hwin ▸ h.kept
  sec hp := hsec.trans (h.sec hp)
  default hlt := by have := hl.1; have := hl.2.1; omega
  cache _ := hwin ▸ h.cache hl.1
  cpylen hle := hwin ▸ h.cpylen (by have := hl.2.2; omega)
  position hle := hwin ▸ h.position (by have := hl.2.2; omega)
  target hle := hwin ▸ h.target (by have := hl.2.2; omega)
  delind hle hp := hdel.trans (h.delind (by have := hl.2.2; omega) hp)
  size k hk := by
    have := hl.2.2
    rw [hwin]
    refine h.size k ?_
    cases k <;> simp only [Sect.rank] at hk ⊢ <;> omega
  offset hle := by
    have hlow := hl.2.2
    have ho := h.offset (by omega)
    rw [hwin]
    exact ⟨ho.1, fun h12 => ho.2 (by omega)⟩

theorem stepAt_decVchead : StepAt (At F .vchead) (At F .hdrind) (decVchead : Dec σ Unit) := by
  refine StepAt.check (Q := At F .vchead) ?_ ?_
  · refine StepAt.decodeBytes (fun _ _ => rfl) (fun _ _ _ => rfl) (fun _ _ => rfl) ?_ ?_ <;>
      exact fun c b hc => ⟨hc.1, hc.2.low (by decide) (by decide) rfl rfl rfl⟩
  · intro c hc
    split
    · exact rfl
    · split
      · exact rfl
      · exact ⟨rfl, hc.2.low (by decide) (by decide) rfl rfl rfl⟩

theorem stepAt_decHdrind : StepAt (At F .hdrind) (At F .secondid) (decHdrind : Dec σ Unit) := by
  refine StepAt.read reads_decodeByte fun c v hc _ => ?_
  dsimp only
  split
  · exact rfl
  · exact ⟨rfl, hc.2.low (by decide) (by decide) rfl rfl rfl⟩

/-- Without a secondary compressor the code table length is reached in the state
that decodes the compressor's identifier, and that is where a starved call re-enters. -/
def AtTablen (F : Frame) (c : Core σ) : Prop :=
  At F .tablen c ∨ (At F .secondid c ∧ hasBits c.decHdrInd vcdSecondary = false)

theorem stepAt_decSecondid (env : Env σ)
    (hplain : F.plain = true → ∀ id, env.secondary id = none) :
    StepAt (At F .secondid) (AtTablen F) (decSecondid env) := by
  refine StepAt.ite (e := fun c => hasBits c.decHdrInd vcdSecondary) (fun s => rfl)
    (f := fieldCase decodeByte (fun _ => true) (fun c v => { c with decSecondid := v }) .tablen >>=
      fun _ => onCore (selectSecondary env)) (g := pure ()) ?_ ?_
  · refine StepAt.check (Q := At F .tablen) (.fieldCase reads_decodeByte ?_ ?_) ?_
    · exact fun c v hc _ _ => ⟨rfl, hc.1.2.low (by decide) (by decide) rfl rfl rfl⟩
    · exact fun c hc he => absurd he (by decide)
    · intro c hc
      unfold selectSecondary
      split
      · exact rfl
      · split
        · exact rfl
        · rename_i ht
          refine .inl ⟨hc.1, { hc.2 with sec := fun hp => ?_ }⟩
          rw [hplain hp] at ht
          cases ht
  · exact .skip fun c hc => .inr hc

theorem stepAt_decTablen : StepAt (AtTablen F) (At F .near) (decTablen : Dec σ Unit) := by
  have hlow : ∀ c : Core σ, AtTablen F c → ∀ c' : Core σ, c'.win.kept = c.win.kept →
      c'.decWinbytes = c.decWinbytes → c'.secType = c.secType →
        Facts F (DecState.rank .near) c' := by
    rintro c (hc | hc) c' hk hb hs
    · exact hc.2.low (by decide) (by decide) hk hb hs
    · exact hc.1.2.low (by decide) (by decide) hk hb hs
  refine StepAt.check (Q := At F .near) (.fieldCase reads_decodeSize ?_ ?_) ?_
  · exact fun c v hc _ _ => ⟨rfl, hlow c hc _ rfl rfl rfl⟩
  · exact fun c hc _ => ⟨rfl, hlow c hc _ rfl rfl rfl⟩
  · intro c hc
    split
    · split
      · exact rfl
      · exact ⟨hc.1, hc.2.low (by decide) (by decide) rfl rfl rfl⟩
    · exact hc

theorem stepAt_decNear : StepAt (At F .near) (At F .same) (decNear : Dec σ Unit) :=
  .fieldCase reads_decodeByte
    (fun c v hc _ _ => ⟨rfl, hc.2.low (by decide) (by decide) rfl rfl rfl⟩)
    (fun c hc _ => ⟨rfl, hc.2.low (by decide) (by decide) rfl rfl rfl⟩)

theorem stepAt_decSame : StepAt (At F .same) (At F .tabdat) (decSame : Dec σ Unit) :=
  .fieldCase reads_decodeByte
    (fun c v hc _ _ => ⟨rfl, hc.2.low (by decide) (by decide) rfl rfl rfl⟩)
    (fun c hc _ => ⟨rfl, hc.2.low (by decide) (by decide) rfl rfl rfl⟩)

theorem stepAt_decTabdat : StepAt (At F .tabdat) (At F .applen) (decTabdat : Dec σ Unit) := by
  refine .core fun c hc => ?_
  split
  · exact rfl
  · have hd := hc.2.default (by decide)
    exact ⟨rfl, { hc.2.low (q := 6) (by decide) (by decide) rfl rfl rfl with
      default := fun h => absurd h (by decide)
      cache := fun _ => ⟨hd.1.symm, hd.2.symm⟩
      cpylen := fun h => absurd h (by decide)
      position := fun h => absurd h (by decide)
      target := fun h => absurd h (by decide)
      delind := fun h => absurd h (by decide)
      size := fun k hk => by cases k <;> exact absurd hk (by decide)
      offset := fun h => absurd h (by decide) }⟩

theorem stepAt_decApplen : StepAt (At F .applen) (At F .appdat) (decApplen : Dec σ Unit) :=
  .fieldCase reads_decodeSize
    (fun c v hc _ _ => ⟨rfl, hc.2.same (by decide) rfl rfl rfl rfl⟩)
    (fun c hc _ => ⟨rfl, hc.2.same (by decide) rfl rfl rfl rfl⟩)

theorem stepAt_noteHdrsize : StepAt (At F .appdat) (At F .winind) (noteHdrsize : Dec σ Unit) where
  resumes _ _ _ := rfl
  ends _ hs := ⟨⟨rfl, hs.1.2.same (by decide) rfl rfl rfl rfl⟩, hs.2⟩

theorem stepAt_decAppdat : StepAt (At F .appdat) (At F .winind) (decAppdat : Dec σ Unit) := by
  refine StepAt.seq (Q := At F .appdat) (f := fun s =>
    if hasAppheader s.core then
      if usize.overflow s.core.decAppheadsz 1 then
        fail .invalidInput "exceptional appheader size" s
      else
        decodeBytes (·.decAppheader) (fun c b => { c with decAppheader := b }) (·.decAppheadsz) s
    else .ok () s) ?_ stepAt_noteHdrsize (fun _ _ _ h => nomatch h)
  refine .ite (e := hasAppheader) (fun _ => rfl) (g := pure ()) ?_ (.skip fun c hc => hc.1)
  refine .ite (e := fun c => usize.overflow c.decAppheadsz 1) (fun _ => rfl)
    (f := onCore (fail .invalidInput "exceptional appheader size")) (.core fun _ _ => rfl) ?_
  refine .decodeBytes (fun _ _ => rfl) (fun _ _ _ => rfl) (fun _ _ => rfl) ?_ ?_
  · exact fun c b hc => ⟨⟨⟨hc.1.1.1, hc.1.1.2.same (by decide) rfl rfl rfl rfl⟩, hc.1.2⟩, hc.2⟩
  · exact fun c b hc => ⟨hc.1.1.1, hc.1.1.2.same (by decide) rfl rfl rfl rfl⟩

theorem stepAt_decWinind : StepAt (At F .winind) (At F .cpylen) (decWinind : Dec σ Unit) := by
  refine StepAt.read reads_decodeByte fun c v hc _ => ?_
  dsimp only
  split
  · exact rfl
  · split
    · exact rfl
    · exact ⟨rfl, {
        winbytes := hc.2.winbytes
        kept := hc.2.kept
        sec := hc.2.sec
        default := fun h => absurd h (by decide)
        cache := fun _ => hc.2.cache (by decide)
        cpylen := fun _ => ⟨usize.modulus_pos, .inl rfl⟩
        position := fun h => absurd h (by decide)
        target := fun h => absurd h (by decide)
        delind := fun h => absurd h (by decide)
        size := fun k hk => by cases k <;> exact absurd hk (by decide)
        offset := fun _ => ⟨xoff.modulus_pos, fun h => absurd h (by decide)⟩ }⟩

theorem stepAt_decCpylen : StepAt (At F .cpylen) (At F .cpyoff) (decCpylen : Dec σ Unit) := by
  refine StepAt.check (Q := fun c => c.decState = .cpyoff ∧ Facts F 10 c)
    (.fieldCase reads_decodeSize ?_ ?_) ?_
  · intro c v hc he hv
    exact ⟨rfl, { hc.2 with
      cpylen := fun _ => ⟨hv, .inr he⟩
      position := fun h => absurd h (by decide)
      target := fun h => absurd h (by decide)
      delind := fun h => absurd h (by decide)
      size := fun k hk => by cases k <;> exact absurd hk (by decide)
      offset := fun _ => ⟨(hc.2.offset (by decide)).1, fun h => absurd h (by decide)⟩ }⟩
  · exact fun c hc _ => ⟨rfl, hc.2.same (by decide) rfl rfl rfl rfl⟩
  · exact fun c hc => ⟨hc.1, { hc.2 with
      default := fun h => absurd h (by decide)
      cache := fun _ => hc.2.cache (by decide)
      cpylen := fun _ => hc.2.cpylen (by decide)
      position := fun _ => rfl
      target := fun h => absurd h (by decide)
      delind := fun h => absurd h (by decide)
      size := fun k hk => by cases k <;> exact absurd hk (by decide)
      offset := fun _ => ⟨(hc.2.offset (by decide)).1, fun h => absurd h (by decide)⟩ }⟩

theorem stepAt_decCpyoff : StepAt (At F .cpyoff) (At F .enclen) (decCpyoff : Dec σ Unit) := by
  refine StepAt.check (Q := fun c => c.decState = .enclen ∧ Facts F 11 c)
    (.fieldCase reads_decodeSize ?_ ?_) ?_
  · exact fun c v hc _ hv => ⟨rfl, { hc.2 with
      target := fun h => absurd h (by decide)
      delind := fun h => absurd h (by decide)
      size := fun k hk => by cases k <;> exact absurd hk (by decide)
      offset := fun _ => ⟨hv, fun h => absurd h (by decide)⟩ }⟩
  · exact fun c hc _ => ⟨rfl, hc.2.same (by decide) rfl rfl rfl rfl⟩
  · intro c hc
    obtain ⟨hoff, -⟩ := hc.2.offset (by decide)
    split
    · exact rfl
    · rename_i hov
      rw [xoff.overflow_iff hoff] at hov
      split
      · exact rfl
      · exact ⟨hc.1, { hc.2 with
          default := fun h => absurd h (by decide)
          cache := fun _ => hc.2.cache (by decide)
          cpylen := fun _ => hc.2.cpylen (by decide)
          position := fun _ => hc.2.position (by decide)
          target := fun h => absurd h (by decide)
          delind := fun h => absurd h (by decide)
          size := fun k hk => by cases k <;> exact absurd hk (by decide)
          offset := fun _ => ⟨hoff, fun _ => Nat.lt_of_not_le hov⟩ }⟩

theorem stepAt_decEnclen : StepAt (At F .enclen) (At F .tgtlen) (decEnclen : Dec σ Unit) :=
  .fieldCase reads_decodeSize
    (fun c v hc _ _ => ⟨rfl, hc.2.same (by decide) rfl rfl rfl rfl⟩)
    (fun c hc he => absurd he (by decide))

theorem stepAt_decTgtlen : StepAt (At F .tgtlen) (At F .delind) (decTgtlen : Dec σ Unit) := by
  refine StepAt.check (Q := fun c => c.decState = .delind ∧ Facts F 13 c)
    (.fieldCase reads_decodeSize ?_ ?_) ?_
  · exact fun c v hc _ _ => ⟨rfl, { hc.2 with
      target := fun h => absurd h (by decide)
      delind := fun h => absurd h (by decide)
      size := fun k hk => by cases k <;> exact absurd hk (by decide) }⟩
  · exact fun c hc he => absurd he (by decide)
  · intro c hc
    refine Outcome.Ends.mapState ?_
    have hlt := (hc.2.cpylen (by decide)).1
    beta_reduce
    split
    · exact rfl
    · rename_i hov
      rw [usize.overflow_iff hlt] at hov
      split
      · exact rfl
      · rename_i hmax
        have hsum : c.win.decCpylen + c.win.decTgtlen < usize.modulus := Nat.lt_of_not_le hov
        exact ⟨hc.1, { hc.2 with
          default := fun h => absurd h (by decide)
          cache := fun _ => hc.2.cache (by decide)
          cpylen := fun _ => hc.2.cpylen (by decide)
          position := fun _ => hc.2.position (by decide)
          target := fun _ => ⟨hsum, Nat.le_of_not_lt hmax, usize.add_eq hsum⟩
          delind := fun h => absurd h (by decide)
          size := fun k hk => by cases k <;> exact absurd hk (by decide)
          offset := fun _ => ⟨(hc.2.offset (by decide)).1,
            fun _ => (hc.2.offset (by decide)).2 (by decide)⟩ }⟩

theorem stepAt_decDelind : StepAt (At F .delind) (At F .datalen) (decDelind : Dec σ Unit) := by
  refine StepAt.check (Q := fun c => c.decState = .datalen ∧ Facts F 14 c)
    (.fieldCase reads_decodeByte ?_ ?_) ?_
  · exact fun c v hc _ _ => ⟨rfl, { hc.2 with delind := fun h => absurd h (by decide) }⟩
  · exact fun c hc he => absurd he (by decide)
  · intro c hc
    split
    · exact rfl
    · split
      · exact rfl
      · rename_i hdel
        refine ⟨hc.1, { hc.2 with
          default := fun h => absurd h (by decide)
          cache := fun _ => hc.2.cache (by decide)
          cpylen := fun _ => hc.2.cpylen (by decide)
          position := fun _ => hc.2.position (by decide)
          target := fun _ => hc.2.target (by decide)
          delind := fun _ hp => ?_
          size := fun k hk => by cases k <;> exact absurd hk (by decide)
          offset := fun _ => ⟨(hc.2.offset (by decide)).1,
            fun _ => (hc.2.offset (by decide)).2 (by decide)⟩ }⟩
        -- the indicator bits need the compressor that the header names
        by_contra hne
        exact hdel ⟨hne, by rw [hc.2.sec hp]; rfl⟩

/-- The three section lengths are one step each, the lengths below being known. -/
theorem stepAt_decSectlen {k : Sect} {state next : DecState} (hk : state.rank = Sect.rank k)
    (hn : next.rank = Sect.rank k + 1) :
    StepAt (At F state) (At F next) (decSectlen k next : Dec σ Unit) := by
  have h15 : 15 ≤ Sect.rank k := by cases k <;> decide
  refine .fieldCase reads_decodeSize ?_ ?_
  · intro c v hc _ hv
    refine ⟨rfl, ⟨hc.2.winbytes, ?_, hc.2.sec, fun h => by omega, ?_, ?_, ?_, ?_,
      fun _ => hc.2.delind (by omega), ?_, ?_⟩⟩
    · have := hc.2.kept
      cases k <;> exact this
    · have := hc.2.cache (by omega)
      intro _
      cases k <;> exact this
    · have := hc.2.cpylen (by omega)
      intro _
      cases k <;> exact this
    · have := hc.2.position (by omega)
      intro _
      cases k <;> exact this
    · have := hc.2.target (by omega)
      intro _
      cases k <;> exact this
    · intro j hj
      by_cases hjk : j = k
      · subst hjk
        cases j <;> exact hv
      · have hlt : Sect.rank j < state.rank := by
          have hne : Sect.rank j ≠ Sect.rank k := by
            cases j <;> cases k <;> first | exact absurd rfl hjk | decide
          omega
        have := hc.2.size j hlt
        cases j <;> cases k <;> first | exact absurd rfl hjk | exact this
    · obtain ⟨h10, h12⟩ := hc.2.offset (by omega)
      have h12' := h12 (by omega)
      intro _
      cases k <;> exact ⟨h10, fun _ => h12'⟩
  · exact fun c hc he => absurd he (by decide)

theorem stepAt_readCksum : StepAt (At F .cksum) (At F .cksum) (readCksum : Dec σ Unit) := by
  refine .ite (e := hasAdler32) (fun _ => rfl) (g := pure ())
    (f := decodeBytes (·.decCksum) (fun c b => { c with decCksum := b }) (fun _ => 4) >>= fun _ =>
      onCore (Routine.modify fun c =>
        { c with win := { c.win with decAdler32 := shiftCksum c.win.decAdler32 c.decCksum } }))
    ?_ (.skip fun c hc => hc.1)
  refine StepAt.check (Q := At F .cksum) ?_ ?_
  · refine .decodeBytes (fun _ _ => rfl) (fun _ _ _ => rfl) (fun _ _ => rfl) ?_ ?_
    · exact fun c b hc => ⟨⟨hc.1.1, hc.1.2.same (by decide) rfl rfl rfl rfl⟩, hc.2⟩
    · exact fun c b hc => ⟨hc.1.1, hc.1.2.same (by decide) rfl rfl rfl rfl⟩
  · exact fun c hc => ⟨hc.1, { hc.2 with }⟩

end Steps

def Waiting (F : Frame) (c : Core σ) : Prop :=
  c.decState.rank ≤ 18 ∧ Facts F c.decState.rank c

/-- The states from `f` on: a starved call is resumed by the switch, and the only
ordinary return is the report of a complete header. -/
structure From (env : Env σ) (F : Frame) (P : Core σ → Prop) (f : Dec σ Unit) : Prop where
  resumes : Resumes Reader.more (Holds P) (decodeHeader env) f
  ends : ∀ s, Holds P s → (f s).Ends (fun _ _ => False) (Starved (Waiting F))
    (fun e s => e.ret.ordinary = true → Holds (At F .data) s ∧
      (e.ret = .gotheader ∨ e.ret = .winstart))

theorem From.step {env : Env σ} {F : Frame} {P Q : Core σ → Prop} {f next : Dec σ Unit}
    (hnext : From env F Q next) (hf : StepAt P Q f) (hP : ∀ c, P c → Waiting F c)
    (hd : ∀ s : Reader σ, P s.core → decodeHeader env s = (f >>= fun _ => next) s) :
    From env F P (f >>= fun _ => next) where
  resumes := by
    refine Resumes.seq (Q := fun _ => Holds Q) hf.resumes ?_ (fun _ => hnext.resumes) ?_
    · intro s hs a s' h
      have he := hf.ends s hs
      rw [h] at he
      exact he
    · intro s hs s' h b
      have he := hf.ends s hs
      rw [h] at he
      exact hd (s'.more b) he.1.1
  ends s hs := by
    refine Outcome.Ends.andThen (Q := fun _ => Holds Q) ?_ fun _ => hnext.ends
    exact (hf.ends s hs).mono (fun _ _ h => h) (fun _ h => ⟨⟨hP _ h.1.1, h.1.2⟩, h.2⟩)
      (fun e _ h ho => by rw [h] at ho; cases ho)

section Chain
variable (env : Env σ) (F : Frame)

private theorem waiting_at {F : Frame} {k : DecState} (hk : k.rank ≤ 18) {c : Core σ}
    (h : At F k c) : Waiting F c := by
  obtain ⟨rfl, h⟩ := h
  exact ⟨hk, h⟩

private theorem dispatch {k : DecState} {F : Frame} {f : Dec σ Unit}
    (hf : ∀ s : Reader σ, s.core.decState = k → decodeHeader env s = f s) (s : Reader σ)
    (h : At F k s.core) : decodeHeader env s = f s := hf s h.1

theorem from_fromCksum : From env F (At F .cksum) (fromCksum : Dec σ Unit) where
  resumes := by
    have hstep : Resumes Reader.more (Holds (At F .cksum)) (decodeHeader env)
        (readCksum >>= fun _ => onCore reportHeader) := by
      refine Resumes.seq (Q := fun _ => Holds (At F .cksum)) stepAt_readCksum.resumes ?_ ?_ ?_
      · intro s hs a s' h
        have he := stepAt_readCksum.ends s hs
        rw [h] at he
        exact he
      · intro _ s _ b
        rw [onCore, Routine.zoom_apply, Routine.zoom_apply, Reader.more_core]
        unfold reportHeader
        dsimp only
        split
        · rfl
        · split <;> rfl
      · intro s hs s' h b
        have he := stepAt_readCksum.ends s hs
        rw [h] at he
        exact dispatch env (fun s h => by rw [decodeHeader, h]; rfl) (s'.more b) he.1.1
    exact hstep
  ends s hs := by
    have he : ((readCksum >>= fun _ => onCore reportHeader) s).Ends (fun _ _ => False)
        (Starved (Waiting F)) (fun e s => e.ret.ordinary = true → Holds (At F .data) s ∧
          (e.ret = .gotheader ∨ e.ret = .winstart)) := by
      refine Outcome.Ends.andThen (Q := fun _ => Holds (At F .cksum)) ?_ fun _ s' hs' => ?_
      · exact (stepAt_readCksum.ends s hs).mono (fun _ _ h => h)
          (fun _ h => ⟨⟨waiting_at (by decide) h.1.1, h.1.2⟩, h.2⟩)
          (fun e _ h ho => by rw [h] at ho; cases ho)
      · have hdata : Facts F (DecState.rank .data) s'.core := { hs'.1.2 with
          default := fun h => absurd h (by decide)
          cache := fun _ => hs'.1.2.cache (by decide)
          cpylen := fun _ => hs'.1.2.cpylen (by decide)
          position := fun _ => hs'.1.2.position (by decide)
          target := fun _ => hs'.1.2.target (by decide)
          delind := fun _ => hs'.1.2.delind (by decide)
          size := fun k _ => hs'.1.2.size k (by cases k <;> decide)
          offset := fun _ => ⟨(hs'.1.2.offset (by decide)).1,
            fun _ => (hs'.1.2.offset (by decide)).2 (by decide)⟩ }
        rw [onCore, Routine.zoom_apply]
        unfold reportHeader
        dsimp only
        split
        · exact fun h => absurd h (by decide)
        · split
          · exact fun _ => ⟨⟨⟨rfl, { hdata with }⟩, hs'.2⟩, .inl rfl⟩
          · exact fun _ => ⟨⟨⟨rfl, { hdata with }⟩, hs'.2⟩, .inr rfl⟩
    exact he

theorem from_fromAddrlen : From env F (At F .addrlen) (fromAddrlen : Dec σ Unit) :=
  (from_fromCksum env F).step (stepAt_decSectlen rfl rfl) (fun _ => waiting_at (by decide))
    (dispatch env fun s h => by rw [decodeHeader, h]; rfl)

theorem from_fromInstlen : From env F (At F .instlen) (fromInstlen : Dec σ Unit) :=
  (from_fromAddrlen env F).step (stepAt_decSectlen rfl rfl) (fun _ => waiting_at (by decide))
    (dispatch env fun s h => by rw [decodeHeader, h]; rfl)

theorem from_fromDatalen : From env F (At F .datalen) (fromDatalen : Dec σ Unit) :=
  (from_fromInstlen env F).step (stepAt_decSectlen rfl rfl) (fun _ => waiting_at (by decide))
    (dispatch env fun s h => by rw [decodeHeader, h]; rfl)

theorem from_fromDelind : From env F (At F .delind) (fromDelind : Dec σ Unit) :=
  (from_fromDatalen env F).step stepAt_decDelind (fun _ => waiting_at (by decide))
    (dispatch env fun s h => by rw [decodeHeader, h]; rfl)

theorem from_fromTgtlen : From env F (At F .tgtlen) (fromTgtlen : Dec σ Unit) :=
  (from_fromDelind env F).step stepAt_decTgtlen (fun _ => waiting_at (by decide))
    (dispatch env fun s h => by rw [decodeHeader, h]; rfl)

theorem from_fromEnclen : From env F (At F .enclen) (fromEnclen : Dec σ Unit) :=
  (from_fromTgtlen env F).step stepAt_decEnclen (fun _ => waiting_at (by decide))
    (dispatch env fun s h => by rw [decodeHeader, h]; rfl)

theorem from_fromCpyoff : From env F (At F .cpyoff) (fromCpyoff : Dec σ Unit) :=
  (from_fromEnclen env F).step stepAt_decCpyoff (fun _ => waiting_at (by decide))
    (dispatch env fun s h => by rw [decodeHeader, h]; rfl)

theorem from_fromCpylen : From env F (At F .cpylen) (fromCpylen : Dec σ Unit) :=
  (from_fromCpyoff env F).step stepAt_decCpylen (fun _ => waiting_at (by decide))
    (dispatch env fun s h => by rw [decodeHeader, h]; rfl)

theorem from_fromWinind : From env F (At F .winind) (fromWinind : Dec σ Unit) :=
  (from_fromCpylen env F).step stepAt_decWinind (fun _ => waiting_at (by decide))
    (dispatch env fun s h => by rw [decodeHeader, h]; rfl)

theorem from_fromAppdat : From env F (At F .appdat) (fromAppdat : Dec σ Unit) :=
  (from_fromWinind env F).step stepAt_decAppdat (fun _ => waiting_at (by decide))
    (dispatch env fun s h => by rw [decodeHeader, h]; rfl)

theorem from_fromApplen : From env F (At F .applen) (fromApplen : Dec σ Unit) :=
  (from_fromAppdat env F).step stepAt_decApplen (fun _ => waiting_at (by decide))
    (dispatch env fun s h => by rw [decodeHeader, h]; rfl)

theorem from_fromTabdat : From env F (At F .tabdat) (fromTabdat : Dec σ Unit) :=
  (from_fromApplen env F).step stepAt_decTabdat (fun _ => waiting_at (by decide))
    (dispatch env fun s h => by rw [decodeHeader, h]; rfl)

theorem from_fromSame : From env F (At F .same) (fromSame : Dec σ Unit) :=
  (from_fromTabdat env F).step stepAt_decSame (fun _ => waiting_at (by decide))
    (dispatch env fun s h => by rw [decodeHeader, h]; rfl)

theorem from_fromNear : From env F (At F .near) (fromNear : Dec σ Unit) :=
  (from_fromSame env F).step stepAt_decNear (fun _ => waiting_at (by decide))
    (dispatch env fun s h => by rw [decodeHeader, h]; rfl)

theorem from_fromTablen : From env F (AtTablen F) (fromTablen : Dec σ Unit) := by
  refine (from_fromNear env F).step stepAt_decTablen ?_ ?_
  · rintro c (hc | hc)
    · exact waiting_at (by decide) hc
    · exact waiting_at (by decide) hc.1
  · rintro s (hc | hc)
    · rw [decodeHeader, hc.1]
      dsimp only
      rw [fromTablen]
    · -- the state of the identifier does nothing without a secondary compressor
      have hskip : decSecondid env s = .ok () s := by
        rw [decSecondid, hc.2]
        rfl
      rw [decodeHeader, hc.1.1]
      dsimp only
      rw [fromSecondid, Routine.bind_apply, hskip, Outcome.andThen_ok, fromTablen]

section Secondary
variable (hplain : F.plain = true → ∀ id, env.secondary id = none)
include hplain

theorem from_fromSecondid : From env F (At F .secondid) (fromSecondid env) :=
  (from_fromTablen env F).step (stepAt_decSecondid env hplain) (fun _ => waiting_at (by decide))
    (dispatch env fun s h => by rw [decodeHeader, h]; rfl)

theorem from_fromHdrind : From env F (At F .hdrind) (fromHdrind env) :=
  (from_fromSecondid env F hplain).step stepAt_decHdrind (fun _ => waiting_at (by decide))
    (dispatch env fun s h => by rw [decodeHeader, h]; rfl)

theorem from_fromVchead : From env F (At F .vchead) (fromVchead env) :=
  (from_fromHdrind env F hplain).step stepAt_decVchead (fun _ => waiting_at (by decide))
    (dispatch env fun s h => by rw [decodeHeader, h]; rfl)

/-- Some suffix of the chain is what the switch runs in a given header state. -/
private theorem exists_from {k : DecState} (hk : k.rank ≤ 18) :
    ∃ f : Dec σ Unit, From env F (At F k) f ∧
      ∀ s : Reader σ, s.core.decState = k → decodeHeader env s = f s := by
  cases k with
  | vchead => exact ⟨_, from_fromVchead env F hplain, fun s h => by rw [decodeHeader, h]⟩
  | hdrind => exact ⟨_, from_fromHdrind env F hplain, fun s h => by rw [decodeHeader, h]⟩
  | secondid => exact ⟨_, from_fromSecondid env F hplain, fun s h => by rw [decodeHeader, h]⟩
  | tablen =>
    refine ⟨_, ⟨?_, ?_⟩, fun s h => by rw [decodeHeader, h]⟩
    · exact fun s hs b => (from_fromTablen env F).resumes s ⟨.inl hs.1, hs.2⟩ b
    · exact fun s hs => (from_fromTablen env F).ends s ⟨.inl hs.1, hs.2⟩
  | near => exact ⟨_, from_fromNear env F, fun s h => by rw [decodeHeader, h]⟩
  | same => exact ⟨_, from_fromSame env F, fun s h => by rw [decodeHeader, h]⟩
  | tabdat => exact ⟨_, from_fromTabdat env F, fun s h => by rw [decodeHeader, h]⟩
  | applen => exact ⟨_, from_fromApplen env F, fun s h => by rw [decodeHeader, h]⟩
  | appdat => exact ⟨_, from_fromAppdat env F, fun s h => by rw [decodeHeader, h]⟩
  | winind => exact ⟨_, from_fromWinind env F, fun s h => by rw [decodeHeader, h]⟩
  | cpylen => exact ⟨_, from_fromCpylen env F, fun s h => by rw [decodeHeader, h]⟩
  | cpyoff => exact ⟨_, from_fromCpyoff env F, fun s h => by rw [decodeHeader, h]⟩
  | enclen => exact ⟨_, from_fromEnclen env F, fun s h => by rw [decodeHeader, h]⟩
  | tgtlen => exact ⟨_, from_fromTgtlen env F, fun s h => by rw [decodeHeader, h]⟩
  | delind => exact ⟨_, from_fromDelind env F, fun s h => by rw [decodeHeader, h]⟩
  | datalen => exact ⟨_, from_fromDatalen env F, fun s h => by rw [decodeHeader, h]⟩
  | instlen => exact ⟨_, from_fromInstlen env F, fun s h => by rw [decodeHeader, h]⟩
  | addrlen => exact ⟨_, from_fromAddrlen env F, fun s h => by rw [decodeHeader, h]⟩
  | cksum => exact ⟨_, from_fromCksum env F, fun s h => by rw [decodeHeader, h]⟩
  | data | inst | addr | emit | finish | aborted => exact absurd hk (by decide)

theorem from_decodeHeader : From env F (Waiting F) (decodeHeader env) where
  resumes s hs b := by
    obtain ⟨f, hf, hd⟩ := exists_from env F hplain hs.1.1
    rw [hd s rfl, hd (s.more b) rfl]
    exact hf.resumes s ⟨⟨rfl, hs.1.2⟩, hs.2⟩ b
  ends s hs := by
    obtain ⟨f, hf, hd⟩ := exists_from env F hplain hs.1.1
    rw [hd s rfl]
    exact hf.ends s ⟨⟨rfl, hs.1.2⟩, hs.2⟩

end Secondary

end Chain

end Xdelta
