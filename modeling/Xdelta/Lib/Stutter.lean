import Xdelta.Lib.Chunked

/-!
# Drivers that follow a reference

A driver may return to its application where the reference it is compared with goes on:
such a return is hidden. If hidden returns cannot follow each other for ever, the two have
the same runs but for these returns. A driver may also give up where the reference goes
on, unless a condition holds that the observations establish.
-/
namespace Chunked.Driver
open Chunked

variable {σ τ ε ε₀ β ω ω₀ : Type}

/-- How the two drivers are compared: states are projected by `proj`, observations seen
through `view`; `inv` is kept, `cond` follows from observations of `good`, `lost` are the
observations of giving up, and `closer` is where a hidden return leads. -/
structure Comparison (σ τ ω ω₀ : Type) where
  proj : σ → τ
  view : ω → Option ω₀
  inv : σ → Prop
  cond : σ → Prop
  good : ω₀ → Prop
  lost : ω₀ → Prop
  closer : σ → σ → Prop

variable (D : Driver σ ε β ω) (D₀ : Driver τ ε₀ β ω₀) (R : Comparison σ τ ω ω₀)

structure Hides (s : σ) (e : ε) (s' s'' : σ) : Prop where
  react : D.react e s' = some s''
  view : R.view (D.observe e s') = none
  call : D₀.call (R.proj s'') = D₀.call (R.proj s)
  inv : R.inv s''
  cond : R.cond s → R.cond s''
  less : R.closer s'' s

structure Shows (s : σ) (e : ε) (s' : σ) (e₀ : ε₀) (t : τ) : Prop where
  call : D₀.call (R.proj s) = .stop e₀ t
  view : R.view (D.observe e s') = some (D₀.observe e₀ t)
  react : D₀.react e₀ t = (D.react e s').map R.proj
  inv : ∀ s'', D.react e s' = some s'' → R.inv s''
  cond : ∀ s'', D.react e s' = some s'' → R.good (D₀.observe e₀ t) → R.cond s''

structure Loses (s : σ) (e : ε) (s' : σ) (x : ω₀) : Prop where
  react : D.react e s' = none
  view : R.view (D.observe e s') = some x
  lost : R.lost x
  cond : ¬R.cond s

structure Starves (s s' : σ) : Prop where
  call : D₀.call (R.proj s) = .starved (R.proj s')
  close : R.view (D.close s') = some (D₀.close (R.proj s'))
  supply : ∀ c, R.proj (D.supply s' c) = D₀.supply (R.proj s') c
  inv : ∀ c, R.inv (D.supply s' c)
  cond : ∀ c, R.cond s → R.cond (D.supply s' c)

/-- The call from `s` is one of the reference, or part of one. -/
def FollowsAt (s : σ) : Prop :=
  (D.call s).Ends (fun _ _ => False) (Starves D D₀ R s)
    (fun e s' => (∃ s'', Hides D D₀ R s e s' s'') ∨ (∃ e₀ t, Shows D D₀ R s e s' e₀ t) ∨
      ∃ x, Loses D R s e s' x)

def Follows : Prop := ∀ s, R.inv s → FollowsAt D D₀ R s

variable {D D₀ R}

theorem Follows.hides_or (h : Follows D D₀ R) {s s' : σ} {e : ε} (hI : R.inv s)
    (hc : D.call s = .stop e s') :
    (∃ s'', Hides D D₀ R s e s' s'') ∨ (∃ e₀ t, Shows D D₀ R s e s' e₀ t) ∨
      ∃ x, Loses D R s e s' x := by
  have hs : (D.call s).Ends _ _ _ := h s hI
  rw [hc] at hs
  exact hs

theorem Follows.starves (h : Follows D D₀ R) {s s' : σ} (hI : R.inv s)
    (hc : D.call s = .starved s') : Starves D D₀ R s s' := by
  have hs : (D.call s).Ends _ _ _ := h s hI
  rw [hc] at hs
  exact hs

/-- Every run is one of the reference, unless the driver gives up at its end. -/
theorem Follows.run (h : Follows D D₀ R) {s : σ} {cs : List (List β)} {tr : List ω}
    (hr : D.Run s cs tr) (hI : R.inv s) :
    ∃ tr₀, D₀.Run (R.proj s) cs tr₀ ∧ (tr.filterMap R.view = tr₀ ∨
      ((∃ x, R.lost x ∧ tr.filterMap R.view = tr₀ ++ [x]) ∧
        ¬(R.cond s ∧ ∀ y ∈ tr₀, R.good y))) := by
  induction hr with
  | pause => exact ⟨[], .pause, .inl rfl⟩
  | finish hc =>
    have hs := h.starves hI hc
    refine ⟨_, .finish hs.call, .inl ?_⟩
    rw [List.filterMap_cons_some hs.close]
    rfl
  | supply hc _ ih =>
    have hs := h.starves hI hc
    obtain ⟨tr₀, hr₀, htr⟩ := ih (hs.inv _)
    refine ⟨tr₀, .supply hs.call (hs.supply _ ▸ hr₀), htr.imp_right ?_⟩
    exact fun hl => ⟨hl.1, fun hk => hl.2 ⟨hs.cond _ hk.1, hk.2⟩⟩
  | @step s e s' s'' cs tr hc ha _ ih =>
    rcases h.hides_or hI hc with ⟨t, hh⟩ | ⟨e₀, t, hh⟩ | ⟨x, hh⟩
    · have heq : t = s'' := Option.some.inj (hh.react.symm.trans ha)
      subst heq
      obtain ⟨tr₀, hr₀, htr⟩ := ih hh.inv
      refine ⟨tr₀, hr₀.congr D₀ hh.call, ?_⟩
      rw [List.filterMap_cons_none hh.view]
      exact htr.imp_right fun hl => ⟨hl.1, fun hk => hl.2 ⟨hh.cond hk.1, hk.2⟩⟩
    · obtain ⟨tr₀, hr₀, htr⟩ := ih (hh.inv _ ha)
      have hreact : D₀.react e₀ t = some (R.proj s'') := by
        rw [hh.react, ha]
        rfl
      refine ⟨D₀.observe e₀ t :: tr₀, .step hh.call hreact hr₀, ?_⟩
      rw [List.filterMap_cons_some hh.view]
      rcases htr with htr | ⟨⟨x, hx, htr⟩, hnot⟩
      · exact .inl (congrArg _ htr)
      · refine .inr ⟨⟨x, hx, congrArg _ htr⟩, fun hk => hnot ⟨?_, fun y hy => ?_⟩⟩
        · exact hh.cond _ ha (hk.2 _ List.mem_cons_self)
        · exact hk.2 y (List.mem_cons_of_mem _ hy)
    · rw [hh.react] at ha
      cases ha
  | @halt s e s' cs hc ha =>
    rcases h.hides_or hI hc with ⟨t, hh⟩ | ⟨e₀, t, hh⟩ | ⟨x, hh⟩
    · rw [hh.react] at ha
      cases ha
    · have hreact : D₀.react e₀ t = none := by
        rw [hh.react, ha]
        rfl
      refine ⟨_, .halt hh.call hreact, .inl ?_⟩
      rw [List.filterMap_cons_some hh.view]
      rfl
    · refine ⟨[], .pause, .inr ⟨⟨x, hh.lost, ?_⟩, fun hk => hh.cond hk.1⟩⟩
      rw [List.filterMap_cons_some hh.view]
      rfl

def Open (D : Driver σ ε β ω) (D₀ : Driver τ ε₀ β ω₀) (R : Comparison σ τ ω ω₀) (s : σ) : Prop :=
  (∃ s', D.call s = .starved s' ∧ Starves D D₀ R s s') ∨
    ∃ e s' e₀ t, D.call s = .stop e s' ∧ Shows D D₀ R s e s' e₀ t

/-- After finitely many hidden returns nothing is hidden. -/
theorem Follows.settles (h : Follows D D₀ R) (hwf : WellFounded R.closer) {s : σ} (hI : R.inv s)
    (hK : R.cond s) :
    ∃ s₁, R.inv s₁ ∧ R.cond s₁ ∧ D₀.call (R.proj s₁) = D₀.call (R.proj s) ∧ Open D D₀ R s₁ ∧
      ∀ cs tr, D.Run s₁ cs tr →
        ∃ tr', D.Run s cs tr' ∧ tr'.filterMap R.view = tr.filterMap R.view := by
  induction s using hwf.induction with
  | _ s ih =>
    have hs : (D.call s).Ends _ _ _ := h s hI
    cases hc : D.call s with
    | ok a s' =>
      rw [hc] at hs
      exact hs.elim
    | fault =>
      rw [hc] at hs
      exact hs.elim
    | starved s' =>
      rw [hc] at hs
      exact ⟨s, hI, hK, rfl, .inl ⟨s', hc, hs⟩, fun cs tr hr => ⟨tr, hr, rfl⟩⟩
    | stop e s' =>
      rcases h.hides_or hI hc with ⟨t, hh⟩ | ⟨e₀, t, hh⟩ | ⟨x, hh⟩
      · obtain ⟨s₁, hI₁, hK₁, hcall, hopen, hrun⟩ :=
          ih _ hh.less hh.inv (hh.cond hK)
        refine ⟨s₁, hI₁, hK₁, hcall.trans hh.call, hopen, fun cs tr hr => ?_⟩
        obtain ⟨tr', hr', htr⟩ := hrun cs tr hr
        refine ⟨_, .step hc hh.react hr', ?_⟩
        rw [List.filterMap_cons_none hh.view, htr]
      · exact ⟨s, hI, hK, rfl, .inr ⟨e, s', e₀, t, hc, hh⟩, fun cs tr hr => ⟨tr, hr, rfl⟩⟩
      · exact absurd hK hh.cond

/-- Every run of the reference is what a run of the driver shows. -/
theorem Follows.run_of_reference (h : Follows D D₀ R) (hwf : WellFounded R.closer) {t : τ}
    {cs : List (List β)} {tr₀ : List ω₀} (hr : D₀.Run t cs tr₀) {s : σ}
    (ht : D₀.call (R.proj s) = D₀.call t) (hI : R.inv s) (hK : R.cond s)
    (hC : ∀ y ∈ tr₀, R.good y) : ∃ tr, D.Run s cs tr ∧ tr.filterMap R.view = tr₀ := by
  induction hr generalizing s with
  | pause => exact ⟨[], .pause, rfl⟩
  | @finish t t' hc =>
    obtain ⟨s₁, -, -, hcall, hopen, hrun⟩ := h.settles hwf hI hK
    rw [ht, hc] at hcall
    rcases hopen with ⟨s', hd, hh⟩ | ⟨e, s', e₀, u, hd, hh⟩
    · obtain ⟨tr', hr', htr⟩ := hrun _ _ (.finish hd)
      refine ⟨tr', hr', ?_⟩
      have heq := hcall.symm.trans hh.call
      rw [Outcome.starved.injEq] at heq
      rw [htr, List.filterMap_cons_some hh.close, heq]
      rfl
    · cases hcall.symm.trans hh.call
  | @supply t t' c cs tr₀ hc _ ih =>
    obtain ⟨s₁, hI₁, hK₁, hcall, hopen, hrun⟩ := h.settles hwf hI hK
    rw [ht, hc] at hcall
    rcases hopen with ⟨s', hd, hh⟩ | ⟨e, s', e₀, u, hd, hh⟩
    · have heq := hcall.symm.trans hh.call
      rw [Outcome.starved.injEq] at heq
      have hnext : D₀.call (R.proj (D.supply s' c)) = D₀.call (D₀.supply t' c) := by
        rw [hh.supply, heq]
      obtain ⟨tr, hr, htr⟩ := ih hnext (hh.inv c) (hh.cond c hK₁) hC
      obtain ⟨tr', hr', htr'⟩ := hrun _ _ (.supply hd hr)
      exact ⟨tr', hr', htr'.trans htr⟩
    · cases hcall.symm.trans hh.call
  | @step t e₀ t' t'' cs tr₀ hc ha _ ih =>
    obtain ⟨s₁, hI₁, hK₁, hcall, hopen, hrun⟩ := h.settles hwf hI hK
    rw [ht, hc] at hcall
    rcases hopen with ⟨s', hd, hh⟩ | ⟨e, s', e₁, u, hd, hh⟩
    · cases hcall.symm.trans hh.call
    · have heq := hcall.symm.trans hh.call
      rw [Outcome.stop.injEq] at heq
      obtain ⟨rfl, rfl⟩ := heq
      have hreact := hh.react
      rw [ha] at hreact
      obtain ⟨s'', hs'', hproj⟩ := Option.map_eq_some_iff.mp hreact.symm
      obtain ⟨tr, hr, htr⟩ := ih (by rw [hproj]) (hh.inv _ hs'')
        (hh.cond _ hs'' (hC _ List.mem_cons_self)) fun y hy => hC y (List.mem_cons_of_mem _ hy)
      obtain ⟨tr', hr', htr'⟩ := hrun _ _ (.step hd hs'' hr)
      refine ⟨tr', hr', ?_⟩
      rw [htr', List.filterMap_cons_some hh.view, htr]
  | @halt t e₀ t' cs hc ha =>
    obtain ⟨s₁, hI₁, hK₁, hcall, hopen, hrun⟩ := h.settles hwf hI hK
    rw [ht, hc] at hcall
    rcases hopen with ⟨s', hd, hh⟩ | ⟨e, s', e₁, u, hd, hh⟩
    · cases hcall.symm.trans hh.call
    · have heq := hcall.symm.trans hh.call
      rw [Outcome.stop.injEq] at heq
      obtain ⟨rfl, rfl⟩ := heq
      have hreact := hh.react
      rw [ha] at hreact
      have hnone := Option.map_eq_none_iff.mp hreact.symm
      obtain ⟨tr', hr', htr'⟩ := hrun cs _ (.halt hd hnone)
      refine ⟨tr', hr', ?_⟩
      rw [htr', List.filterMap_cons_some hh.view]
      rfl

/-- As long as the condition can be seen to hold, the reference makes exactly the runs that
the driver shows. -/
theorem Follows.run_iff (h : Follows D D₀ R) (hwf : WellFounded R.closer) {s : σ} (hI : R.inv s)
    (hK : R.cond s) {cs : List (List β)} {tr₀ : List ω₀} (hC : ∀ y ∈ tr₀, R.good y) :
    D₀.Run (R.proj s) cs tr₀ ↔ ∃ tr, D.Run s cs tr ∧ tr.filterMap R.view = tr₀ := by
  constructor
  · exact fun hr => h.run_of_reference hwf hr rfl hI hK hC
  · rintro ⟨tr, hr, rfl⟩
    obtain ⟨tr₀, hr₀, htr | ⟨⟨x, -, htr⟩, hnot⟩⟩ := h.run hr hI
    · rw [htr]
      exact hr₀
    · rw [htr] at hC
      exact absurd ⟨hK, fun y hy => hC y (List.mem_append_left _ hy)⟩ hnot

/-- From `s` the application observes `tr`, and goes on from `s'` with the input that is left. -/
def Leads (D : Driver σ ε β ω) (s : σ) (tr : List ω) (s' : σ) : Prop :=
  ∀ cs tr', D.Run s' cs tr' → D.Run s cs (tr ++ tr')

theorem Leads.trans {s s' s'' : σ} {tr tr' : List ω} (h : D.Leads s tr s')
    (h' : D.Leads s' tr' s'') : D.Leads s (tr ++ tr') s'' := by
  intro cs tr'' hr
  rw [List.append_assoc]
  exact h _ _ (h' _ _ hr)

theorem Leads.call {s s' s'' : σ} {e : ε} (hc : D.call s = .stop e s')
    (ha : D.react e s' = some s'') : D.Leads s [D.observe e s'] s'' :=
  fun _ _ hr => .step hc ha hr

end Chunked.Driver
