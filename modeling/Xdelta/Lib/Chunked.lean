import Mathlib.Tactic.Common

/-!
# Resumable routines over an input that arrives in chunks

A routine works on a state holding the input supplied so far. It returns a
value, stops with a code for the application, starves because the input is
exhausted, or faults on an illegal access. A routine that can be resumed from
the state in which it starved behaves, on a longer input, as the starved run
continued on the rest. From that single law a driver that calls the routine
again and again observes the same events however the input was cut.
-/
namespace Chunked

inductive Outcome (σ ε α : Type) where
  | ok (a : α) (s : σ)
  | starved (s : σ)
  | stop (e : ε) (s : σ)
  | fault

abbrev Routine (σ ε α : Type) := σ → Outcome σ ε α

namespace Outcome
variable {σ τ ε α γ : Type}

def faults : Outcome σ ε α → Bool
  | .fault => true
  | _ => false

def returns (p : σ → Bool) : Outcome σ ε α → Bool
  | .ok _ s => p s
  | _ => false

theorem returns_iff {p : σ → Bool} {o : Outcome σ ε α} :
    o.returns p = true ↔ ∃ a s, o = .ok a s ∧ p s = true := by
  cases o <;> simp [returns]

theorem faults_iff {o : Outcome σ ε α} : o.faults = true ↔ o = .fault := by
  cases o <;> simp [faults]

def andThen : Outcome σ ε α → (α → Routine σ ε γ) → Outcome σ ε γ
  | .ok a s, k => k a s
  | .starved s, _ => .starved s
  | .stop e s, _ => .stop e s
  | .fault, _ => .fault

def mapState (f : σ → τ) : Outcome σ ε α → Outcome τ ε α
  | .ok a s => .ok a (f s)
  | .starved s => .starved (f s)
  | .stop e s => .stop e (f s)
  | .fault => .fault

theorem andThen_assoc {δ : Type} (o : Outcome σ ε α) (k : α → Routine σ ε γ)
    (l : γ → Routine σ ε δ) :
    (o.andThen k).andThen l = o.andThen fun a s => (k a s).andThen l := by
  cases o <;> rfl

def Ends (Q : α → σ → Prop) (S : σ → Prop) (E : ε → σ → Prop) : Outcome σ ε α → Prop
  | .ok a s => Q a s
  | .starved s => S s
  | .stop e s => E e s
  | .fault => False

@[simp] theorem andThen_ok (a : α) (s : σ) (k : α → Routine σ ε γ) :
    (Outcome.ok a s).andThen k = k a s := rfl
@[simp] theorem andThen_starved (s : σ) (k : α → Routine σ ε γ) :
    (Outcome.starved s).andThen k = .starved s := rfl
@[simp] theorem andThen_stop (e : ε) (s : σ) (k : α → Routine σ ε γ) :
    (Outcome.stop e s).andThen k = .stop e s := rfl
@[simp] theorem andThen_fault (k : α → Routine σ ε γ) :
    (Outcome.fault : Outcome σ ε α).andThen k = .fault := rfl

@[simp] theorem mapState_ok (f : σ → τ) (a : α) (s : σ) :
    (Outcome.ok a s : Outcome σ ε α).mapState f = .ok a (f s) := rfl
@[simp] theorem mapState_starved (f : σ → τ) (s : σ) :
    (Outcome.starved s : Outcome σ ε α).mapState f = .starved (f s) := rfl
@[simp] theorem mapState_stop (f : σ → τ) (e : ε) (s : σ) :
    (Outcome.stop e s : Outcome σ ε α).mapState f = .stop e (f s) := rfl
@[simp] theorem mapState_fault (f : σ → τ) :
    (Outcome.fault : Outcome σ ε α).mapState f = .fault := rfl

theorem Ends.mono {Q R : α → σ → Prop} {S T : σ → Prop} {E F : ε → σ → Prop}
    {o : Outcome σ ε α} (ho : o.Ends Q S E) (hQ : ∀ a s, Q a s → R a s) (hS : ∀ s, S s → T s)
    (hE : ∀ e s, E e s → F e s) : o.Ends R T F := by
  cases o with
  | ok a s => exact hQ a s ho
  | starved s => exact hS s ho
  | stop e s => exact hE e s ho
  | fault => exact ho

def Goes (Q : α → σ → Prop) (S : σ → Prop) (E : ε → σ → Prop) : Outcome σ ε α → Prop
  | .ok a s => Q a s
  | .starved s => S s
  | .stop e s => E e s
  | .fault => True

abbrev Keeps (P : σ → Prop) : Outcome σ ε α → Prop := Goes (fun _ => P) P (fun _ => P)

theorem Goes.mono {Q R : α → σ → Prop} {S T : σ → Prop} {E F : ε → σ → Prop}
    {o : Outcome σ ε α} (ho : o.Goes Q S E) (hQ : ∀ a s, Q a s → R a s) (hS : ∀ s, S s → T s)
    (hE : ∀ e s, E e s → F e s) : o.Goes R T F := by
  cases o with
  | ok a s => exact hQ a s ho
  | starved s => exact hS s ho
  | stop e s => exact hE e s ho
  | fault => trivial

theorem Goes.andThen {Q : α → σ → Prop} {Q' : γ → σ → Prop} {S : σ → Prop} {E : ε → σ → Prop}
    {o : Outcome σ ε α} {k : α → Routine σ ε γ} (ho : o.Goes Q S E)
    (hk : ∀ a s, Q a s → (k a s).Goes Q' S E) : (o.andThen k).Goes Q' S E := by
  cases o with
  | ok a s => exact hk a s ho
  | starved s => exact ho
  | stop e s => exact ho
  | fault => trivial

theorem Goes.mapState {f : σ → τ} {Q : α → τ → Prop} {S : τ → Prop} {E : ε → τ → Prop}
    {o : Outcome σ ε α} (ho : o.Goes (fun a s => Q a (f s)) (fun s => S (f s))
      (fun e s => E e (f s))) : (o.mapState f).Goes Q S E := by
  cases o <;> exact ho

theorem goes_of_forall {Q : α → σ → Prop} {S : σ → Prop} {E : ε → σ → Prop}
    (hQ : ∀ a s, Q a s) (hS : ∀ s, S s) (hE : ∀ e s, E e s) (o : Outcome σ ε α) :
    o.Goes Q S E := by
  cases o with
  | ok a s => exact hQ a s
  | starved s => exact hS s
  | stop e s => exact hE e s
  | fault => trivial

def Prompt : Outcome σ ε α → Prop
  | .starved _ => False
  | _ => True

theorem Prompt.andThen {o : Outcome σ ε α} {k : α → Routine σ ε γ} (ho : o.Prompt)
    (hk : ∀ a s, (k a s).Prompt) : (o.andThen k).Prompt := by
  cases o with
  | ok a s => exact hk a s
  | starved s => exact ho
  | stop e s => trivial
  | fault => trivial

theorem Prompt.mapState {o : Outcome σ ε α} (ho : o.Prompt) (f : σ → τ) :
    (o.mapState f).Prompt := by
  cases o with
  | starved s => exact ho
  | ok a s => trivial
  | stop e s => trivial
  | fault => trivial

theorem Ends.andThen {Q : α → σ → Prop} {Q' : γ → σ → Prop} {S : σ → Prop} {E : ε → σ → Prop}
    {o : Outcome σ ε α} {k : α → Routine σ ε γ} (ho : o.Ends Q S E)
    (hk : ∀ a s, Q a s → (k a s).Ends Q' S E) : (o.andThen k).Ends Q' S E := by
  cases o with
  | ok a s => exact hk a s ho
  | starved s => exact ho
  | stop e s => exact ho
  | fault => exact ho

theorem Ends.goes {Q : α → σ → Prop} {S : σ → Prop} {E : ε → σ → Prop} {o : Outcome σ ε α}
    (ho : o.Ends Q S E) : o.Goes Q S E := by
  cases o with
  | fault => trivial
  | ok a s => exact ho
  | starved s => exact ho
  | stop e s => exact ho

theorem Ends.and {Q Q' : α → σ → Prop} {S S' : σ → Prop} {E E' : ε → σ → Prop}
    {o : Outcome σ ε α} (h : o.Ends Q S E) (h' : o.Ends Q' S' E') :
    o.Ends (fun a s => Q a s ∧ Q' a s) (fun s => S s ∧ S' s) (fun e s => E e s ∧ E' e s) := by
  cases o with
  | ok a s => exact ⟨h, h'⟩
  | starved s => exact ⟨h, h'⟩
  | stop e s => exact ⟨h, h'⟩
  | fault => exact h

def Decides (F : Prop) (Q : α → σ → Prop) (S : σ → Prop) (E : ε → σ → Prop) :
    Outcome σ ε α → Prop
  | .ok a s => Q a s
  | .starved s => S s
  | .stop e s => E e s
  | .fault => F

theorem Decides.mono {F G : Prop} {Q R : α → σ → Prop} {S T : σ → Prop} {E E' : ε → σ → Prop}
    {o : Outcome σ ε α} (ho : o.Decides F Q S E) (hF : F → G) (hQ : ∀ a s, Q a s → R a s)
    (hS : ∀ s, S s → T s) (hE : ∀ e s, E e s → E' e s) : o.Decides G R T E' := by
  cases o with
  | ok a s => exact hQ a s ho
  | starved s => exact hS s ho
  | stop e s => exact hE e s ho
  | fault => exact hF ho

theorem Decides.andThen {F : Prop} {Q : α → σ → Prop} {Q' : γ → σ → Prop} {S : σ → Prop}
    {E : ε → σ → Prop} {o : Outcome σ ε α} {k : α → Routine σ ε γ} (ho : o.Decides F Q S E)
    (hk : ∀ a s, Q a s → (k a s).Decides F Q' S E) : (o.andThen k).Decides F Q' S E := by
  cases o with
  | ok a s => exact hk a s ho
  | starved s => exact ho
  | stop e s => exact ho
  | fault => exact ho

theorem Ends.decides {F : Prop} {Q : α → σ → Prop} {S : σ → Prop} {E : ε → σ → Prop}
    {o : Outcome σ ε α} (ho : o.Ends Q S E) : o.Decides F Q S E := by
  cases o with
  | fault => exact ho.elim
  | ok a s => exact ho
  | starved s => exact ho
  | stop e s => exact ho

/-- What agrees up to faults still agrees in sequence: the rule for more fuel. -/
theorem andThen_of_ne_fault {o o' : Outcome σ ε α} {k k' : α → Routine σ ε γ}
    (ho : o ≠ .fault → o' = o) (hk : ∀ a s, k a s ≠ .fault → k' a s = k a s)
    (h : o.andThen k ≠ .fault) : o'.andThen k' = o.andThen k := by
  cases o with
  | ok a s =>
    rw [ho nofun]
    exact hk a s h
  | starved s => rw [ho nofun, andThen_starved, andThen_starved]
  | stop e s => rw [ho nofun, andThen_stop, andThen_stop]
  | fault => exact absurd rfl h

theorem Ends.mapState {f : σ → τ} {Q : α → τ → Prop} {S : τ → Prop} {E : ε → τ → Prop}
    {o : Outcome σ ε α} (ho : o.Ends (fun a s => Q a (f s)) (fun s => S (f s))
      (fun e s => E e (f s))) : (o.mapState f).Ends Q S E := by
  cases o with
  | ok a s => exact ho
  | starved s => exact ho
  | stop e s => exact ho
  | fault => exact ho

end Outcome

namespace Routine
variable {σ τ ε α γ : Type}

instance : Monad (Routine σ ε) where
  pure a := fun s => .ok a s
  bind f k := fun s => (f s).andThen k

def get : Routine σ ε σ := fun s => .ok s s
def set (s : σ) : Routine σ ε Unit := fun _ => .ok () s
def modify (f : σ → σ) : Routine σ ε Unit := fun s => .ok () (f s)
def stop (e : ε) : Routine σ ε α := fun s => .stop e s
def starve : Routine σ ε α := fun s => .starved s
def fault : Routine σ ε α := fun _ => .fault

def zoom (view : σ → τ) (put : σ → τ → σ) (f : Routine τ ε α) : Routine σ ε α :=
  fun s => (f (view s)).mapState (put s)

@[simp] theorem pure_apply (a : α) (s : σ) : (pure a : Routine σ ε α) s = .ok a s := rfl
@[simp] theorem bind_apply (f : Routine σ ε α) (k : α → Routine σ ε γ) (s : σ) :
    (f >>= k) s = (f s).andThen k := rfl
@[simp] theorem get_apply (s : σ) : (get : Routine σ ε σ) s = .ok s s := rfl
@[simp] theorem set_apply (s t : σ) : (set t : Routine σ ε Unit) s = .ok () t := rfl
@[simp] theorem modify_apply (f : σ → σ) (s : σ) :
    (modify f : Routine σ ε Unit) s = .ok () (f s) := rfl
@[simp] theorem stop_apply (e : ε) (s : σ) : (stop e : Routine σ ε α) s = .stop e s := rfl
@[simp] theorem starve_apply (s : σ) : (starve : Routine σ ε α) s = .starved s := rfl
@[simp] theorem fault_apply (s : σ) : (fault : Routine σ ε α) s = .fault := rfl
@[simp] theorem zoom_apply (view : σ → τ) (put : σ → τ → σ) (f : Routine τ ε α) (s : σ) :
    zoom view put f s = (f (view s)).mapState (put s) := rfl
@[simp] theorem ite_apply (c : Prop) [Decidable c] (f g : Routine σ ε α) (s : σ) :
    (if c then f else g) s = if c then f s else g s := by
  split <;> rfl

end Routine

section Resume
variable {σ ε α γ β : Type} (more : σ → List β → σ)

/-- A finished call seen again after `b` has been appended to the input: a call
that had starved is continued by `r`. -/
def Outcome.feed (b : List β) (r : Routine σ ε α) : Outcome σ ε α → Outcome σ ε α
  | .ok a s => .ok a (more s b)
  | .starved s => r (more s b)
  | .stop e s => .stop e (more s b)
  | .fault => .fault

@[simp] theorem Outcome.feed_ok (b : List β) (r : Routine σ ε α) (a : α) (s : σ) :
    (Outcome.ok a s).feed more b r = .ok a (more s b) := rfl
@[simp] theorem Outcome.feed_starved (b : List β) (r : Routine σ ε α) (s : σ) :
    (Outcome.starved s).feed more b r = r (more s b) := rfl
@[simp] theorem Outcome.feed_stop (b : List β) (r : Routine σ ε α) (e : ε) (s : σ) :
    (Outcome.stop e s).feed more b r = .stop e (more s b) := rfl
@[simp] theorem Outcome.feed_fault (b : List β) (r : Routine σ ε α) :
    (Outcome.fault).feed more b r = .fault := rfl

/-- From every state of `P`, `f` can be resumed by `r`. -/
def Resumes (P : σ → Prop) (r f : Routine σ ε α) : Prop :=
  ∀ s, P s → ∀ b, f (more s b) = (f s).feed more b r

variable {more}

/-- Sequencing. The first routine resumes by itself, the rest by `r`, and `r`
re-enters the sequence at the state where the first routine starved. -/
theorem Resumes.seq {P : σ → Prop} {Q : α → σ → Prop} {r : Routine σ ε γ}
    {f : Routine σ ε α} {k : α → Routine σ ε γ} (hf : Resumes more P f f)
    (hQ : ∀ s, P s → ∀ a s', f s = .ok a s' → Q a s') (hk : ∀ a, Resumes more (Q a) r (k a))
    (hr : ∀ s, P s → ∀ s', f s = .starved s' → ∀ b, r (more s' b) = (f >>= k) (more s' b)) :
    Resumes more P r (f >>= k) := by
  intro s hP b
  rw [Routine.bind_apply, Routine.bind_apply, hf s hP b]
  cases h : f s with
  | ok a s' => simpa using hk a s' (hQ s hP a s' h) b
  | starved s' => simpa using (hr s hP s' h b).symm
  | stop e s' => simp
  | fault => simp

/-- The routine that re-enters may be exchanged for one that agrees with it where it is used. -/
theorem Resumes.retarget {P : σ → Prop} {r r' f : Routine σ ε α} (h : Resumes more P r f)
    (hr : ∀ s, P s → ∀ s', f s = .starved s' → ∀ b, r' (more s' b) = r (more s' b)) :
    Resumes more P r' f := by
  intro s hP b
  rw [h s hP b]
  cases hf : f s with
  | ok a s' => rfl
  | starved s' => rw [Outcome.feed_starved, Outcome.feed_starved, hr s hP s' hf b]
  | stop e s' => rfl
  | fault => rfl

end Resume

/-- The application around a routine: how it supplies a chunk once the routine
has starved, how it reacts to a code, what it observes, and what it reads off
the state when no input is left. -/
structure Driver (σ ε β ω : Type) where
  call : Routine σ ε Unit
  supply : σ → List β → σ
  react : ε → σ → Option σ
  observe : ε → σ → ω
  close : σ → ω

namespace Driver
variable {σ ε β ω : Type} (D : Driver σ ε β ω)

/-- `Run s cs tr`: called from `s` with the chunks `cs` still to come, the
application observes `tr`. A run may be cut anywhere, so that a run without end is
the set of its finite beginnings. -/
inductive Run : σ → List (List β) → List ω → Prop
  | pause {s cs} : Run s cs []
  | finish {s s'} : D.call s = .starved s' → Run s [] [D.close s']
  | supply {s s' c cs tr} : D.call s = .starved s' → Run (D.supply s' c) cs tr → Run s (c :: cs) tr
  | step {s e s' s'' cs tr} : D.call s = .stop e s' → D.react e s' = some s'' → Run s'' cs tr →
      Run s cs (D.observe e s' :: tr)
  | halt {s e s' cs} : D.call s = .stop e s' → D.react e s' = none → Run s cs [D.observe e s']

/-- The run, cut after `n` calls. -/
def trace : ℕ → σ → List (List β) → List ω
  | 0, _, _ => []
  | n + 1, s, cs =>
    match D.call s with
    | .starved s' =>
      match cs with
      | [] => [D.close s']
      | c :: cs => trace n (D.supply s' c) cs
    | .stop e s' =>
      match D.react e s' with
      | some s'' => D.observe e s' :: trace n s'' cs
      | none => [D.observe e s']
    | _ => []

theorem run_trace (n : ℕ) (s : σ) (cs : List (List β)) : D.Run s cs (D.trace n s cs) := by
  induction n generalizing s cs with
  | zero => exact .pause
  | succ n ih =>
    rw [trace]
    split
    · rename_i s' hc
      split
      · exact .finish hc
      · exact .supply hc (ih _ _)
    · rename_i e s' hc
      split
      · rename_i s'' ha
        exact .step hc ha (ih _ _)
      · rename_i ha
        exact .halt hc ha
    · exact .pause

theorem Run.congr {s t : σ} {cs tr} (h : D.Run s cs tr) (hc : D.call s = D.call t) :
    D.Run t cs tr := by
  cases h with
  | pause => exact .pause
  | finish h => exact .finish (hc ▸ h)
  | supply h hr => exact .supply (hc ▸ h) hr
  | step h ha hr => exact .step (hc ▸ h) ha hr
  | halt h ha => exact .halt (hc ▸ h) ha

/-- The states in which the application calls the routine, whatever it supplies. -/
inductive Reaches (s₀ : σ) : σ → Prop
  | start : Reaches s₀ s₀
  | supply {s s'} : Reaches s₀ s → D.call s = .starved s' → ∀ c, Reaches s₀ (D.supply s' c)
  | step {s e s' s''} : Reaches s₀ s → D.call s = .stop e s' → D.react e s' = some s'' →
      Reaches s₀ s''

/-- The same for an application that may also act between calls, as `A` allows, in runs all
of whose calls are made in states of `P`. -/
inductive Visits (A : σ → σ → Prop) (P : σ → Prop) (s₀ : σ) : σ → Prop
  | start : Visits A P s₀ s₀
  | act {s t} : Visits A P s₀ s → A s t → Visits A P s₀ t
  | supply {s s'} : Visits A P s₀ s → P s → D.call s = .starved s' → ∀ c,
      Visits A P s₀ (D.supply s' c)
  | step {s e s' s''} : Visits A P s₀ s → P s → D.call s = .stop e s' →
      D.react e s' = some s'' → Visits A P s₀ s''

theorem Visits.invariant {D : Driver σ ε β ω} {A : σ → σ → Prop} {P I : σ → Prop} {s₀ s : σ}
    (h : D.Visits A P s₀ s) (h₀ : I s₀) (hact : ∀ s t, I s → A s t → I t)
    (hsupply : ∀ s s', I s → P s → D.call s = .starved s' → ∀ c, I (D.supply s' c))
    (hreact : ∀ s e s' s'', I s → P s → D.call s = .stop e s' → D.react e s' = some s'' →
      I s'') : I s := by
  induction h with
  | start => exact h₀
  | act _ ha ih => exact hact _ _ ih ha
  | supply _ hp hc c ih => exact hsupply _ _ ih hp hc c
  | step _ hp hc ha ih => exact hreact _ _ _ _ ih hp hc ha

theorem Reaches.visits {D : Driver σ ε β ω} {A : σ → σ → Prop} {s₀ s : σ}
    (h : D.Reaches s₀ s) : D.Visits A (fun _ => True) s₀ s := by
  induction h with
  | start => exact .start
  | supply _ hc c ih => exact .supply ih trivial hc c
  | step _ hc ha ih => exact .step ih trivial hc ha

structure Lawful (more : σ → List β → σ) (P : σ → Prop) : Prop where
  more_append : ∀ s a b, more (more s a) b = more s (a ++ b)
  more_nil : ∀ s, more s [] = s
  resumes : Resumes more P D.call D.call
  supply_eq : ∀ s s', P s → D.call s = .starved s' → ∀ c, D.supply s' c = more s' c
  react_more : ∀ e s b, D.react e (more s b) = (D.react e s).map (more · b)
  observe_more : ∀ e s b, D.observe e (more s b) = D.observe e s
  inv_more : ∀ s b, P s → P (more s b)
  inv_starved : ∀ s s', P s → D.call s = .starved s' → P s'
  inv_react : ∀ s e s' s'', P s → D.call s = .stop e s' → D.react e s' = some s'' → P s''

variable {D} {more : σ → List β → σ} {P : σ → Prop}

/-- A chunk still to come may be appended to the input at once. -/
theorem Lawful.run_append (L : D.Lawful more P) {s : σ} (hP : P s) {b cs tr}
    (h : D.Run s (b :: cs) tr) : D.Run (more s b) cs tr := by
  generalize hx : b :: cs = x at h
  induction h with
  | pause => exact .pause
  | finish => cases hx
  | supply hc hr =>
    cases hx
    rw [L.supply_eq _ _ hP hc] at hr
    refine hr.congr D ?_
    rw [L.resumes _ hP, hc, Outcome.feed_starved]
  | step hc ha _ ih =>
    have h1 := L.resumes _ hP b
    rw [hc, Outcome.feed_stop] at h1
    rw [← L.observe_more _ _ b]
    refine .step h1 ?_ (ih (L.inv_react _ _ _ _ hP hc ha) hx)
    rw [L.react_more, ha, Option.map_some]
  | halt hc ha =>
    have h1 := L.resumes _ hP b
    rw [hc, Outcome.feed_stop] at h1
    rw [← L.observe_more _ _ b]
    refine .halt h1 ?_
    rw [L.react_more, ha, Option.map_none]

/-- Conversely, the end of the input may be withheld until the routine starves. -/
theorem Lawful.run_withhold (L : D.Lawful more P) {s : σ} (hP : P s) {b cs tr}
    (h : D.Run (more s b) cs tr) : D.Run s (b :: cs) tr := by
  generalize hx : more s b = x at h
  induction h generalizing s with
  | pause => exact .pause
  | finish hc =>
    have h1 := L.resumes _ hP b
    cases hs : D.call s with
    | starved s' =>
      refine .supply hs ((Run.finish hc).congr D ?_)
      rw [L.supply_eq _ _ hP hs, ← hx, h1, hs, Outcome.feed_starved]
    | ok a s' => rw [hx, hs, hc] at h1; cases h1
    | stop e s' => rw [hx, hs, hc] at h1; cases h1
    | fault => rw [hx, hs, hc] at h1; cases h1
  | supply hc hr ih =>
    have h1 := L.resumes _ hP b
    cases hs : D.call s with
    | starved s' =>
      refine .supply hs ((Run.supply hc hr).congr D ?_)
      rw [L.supply_eq _ _ hP hs, ← hx, h1, hs, Outcome.feed_starved]
    | ok a s' => rw [hx, hs, hc] at h1; cases h1
    | stop e s' => rw [hx, hs, hc] at h1; cases h1
    | fault => rw [hx, hs, hc] at h1; cases h1
  | step hc ha hr ih =>
    have h1 := L.resumes _ hP b
    cases hs : D.call s with
    | starved s' =>
      refine .supply hs ((Run.step hc ha hr).congr D ?_)
      rw [L.supply_eq _ _ hP hs, ← hx, h1, hs, Outcome.feed_starved]
    | ok a s' => rw [hx, hs, hc] at h1; cases h1
    | stop e s' =>
      rw [hx, hs, hc, Outcome.feed_stop] at h1
      cases h1
      rw [L.react_more] at ha
      obtain ⟨s'', hs'', rfl⟩ := Option.map_eq_some_iff.mp ha
      rw [L.observe_more]
      exact .step hs hs'' (ih (L.inv_react _ _ _ _ hP hs hs'') rfl)
    | fault => rw [hx, hs, hc] at h1; cases h1
  | halt hc ha =>
    have h1 := L.resumes _ hP b
    cases hs : D.call s with
    | starved s' =>
      refine .supply hs ((Run.halt hc ha).congr D ?_)
      rw [L.supply_eq _ _ hP hs, ← hx, h1, hs, Outcome.feed_starved]
    | ok a s' => rw [hx, hs, hc] at h1; cases h1
    | stop e s' =>
      rw [hx, hs, hc, Outcome.feed_stop] at h1
      cases h1
      rw [L.react_more, Option.map_eq_none_iff] at ha
      rw [L.observe_more]
      exact .halt hs ha
    | fault => rw [hx, hs, hc] at h1; cases h1

/-- The observations depend on the concatenation of the chunks only. -/
theorem Lawful.run_flatten (L : D.Lawful more P) {s : σ} (hP : P s) (cs : List (List β)) (tr : List ω) :
    D.Run s cs tr ↔ D.Run (more s cs.flatten) [] tr := by
  induction cs generalizing s with
  | nil => rw [List.flatten_nil, L.more_nil]
  | cons b cs ih =>
    rw [List.flatten_cons, ← L.more_append, ← ih (L.inv_more s b hP)]
    exact ⟨L.run_append hP, L.run_withhold hP⟩

/-- A driver seen through a projection of its state, from the states of `I`. -/
structure Projects {τ : Type} (D : Driver σ ε β ω) (D₀ : Driver τ ε β ω) (π : σ → τ)
    (I : σ → Prop) : Prop where
  call : ∀ s, I s → (D.call s).mapState π = D₀.call (π s)
  supply : ∀ s c, π (D.supply s c) = D₀.supply (π s) c
  react : ∀ e s, (D.react e s).map π = D₀.react e (π s)
  observe : ∀ e s, D.observe e s = D₀.observe e (π s)
  close : ∀ s, D.close s = D₀.close (π s)
  inv_supply : ∀ s s', I s → D.call s = .starved s' → ∀ c, I (D.supply s' c)
  inv_react : ∀ s e s' s'', I s → D.call s = .stop e s' → D.react e s' = some s'' → I s''

theorem Projects.run_iff {τ : Type} {D : Driver σ ε β ω} {D₀ : Driver τ ε β ω} {π : σ → τ}
    {I : σ → Prop} (h : Projects D D₀ π I) {s : σ} (hI : I s) (cs : List (List β)) (tr : List ω) :
    D.Run s cs tr ↔ D₀.Run (π s) cs tr := by
  constructor
  · intro hr
    induction hr with
    | pause => exact .pause
    | finish hc =>
      have h0 := h.call _ hI
      rw [hc] at h0
      rw [h.close]
      exact .finish h0.symm
    | supply hc _ ih =>
      have h0 := h.call _ hI
      rw [hc] at h0
      refine .supply h0.symm ?_
      rw [← h.supply]
      exact ih (h.inv_supply _ _ hI hc _)
    | step hc ha _ ih =>
      have h0 := h.call _ hI
      rw [hc] at h0
      rw [h.observe]
      refine .step h0.symm ?_ (ih (h.inv_react _ _ _ _ hI hc ha))
      rw [← h.react, ha, Option.map_some]
    | halt hc ha =>
      have h0 := h.call _ hI
      rw [hc] at h0
      rw [h.observe]
      refine .halt h0.symm ?_
      rw [← h.react, ha, Option.map_none]
  · intro hr
    generalize hx : π s = x at hr
    induction hr generalizing s with
    | pause => exact .pause
    | finish hc =>
      have h0 := h.call _ hI
      rw [hx, hc] at h0
      cases hs : D.call s with
      | starved s' =>
        rw [hs] at h0
        cases h0
        rw [← h.close]
        exact .finish hs
      | ok a s' => rw [hs] at h0; cases h0
      | stop e s' => rw [hs] at h0; cases h0
      | fault => rw [hs] at h0; cases h0
    | supply hc _ ih =>
      have h0 := h.call _ hI
      rw [hx, hc] at h0
      cases hs : D.call s with
      | starved s' =>
        rw [hs] at h0
        cases h0
        exact .supply hs (ih (h.inv_supply _ _ hI hs _) (h.supply _ _))
      | ok a s' => rw [hs] at h0; cases h0
      | stop e s' => rw [hs] at h0; cases h0
      | fault => rw [hs] at h0; cases h0
    | step hc ha _ ih =>
      have h0 := h.call _ hI
      rw [hx, hc] at h0
      cases hs : D.call s with
      | stop e s' =>
        rw [hs] at h0
        cases h0
        rw [← h.react] at ha
        obtain ⟨s'', hs'', hπ⟩ := Option.map_eq_some_iff.mp ha
        rw [← h.observe]
        exact .step hs hs'' (ih (h.inv_react _ _ _ _ hI hs hs'') hπ)
      | ok a s' => rw [hs] at h0; cases h0
      | starved s' => rw [hs] at h0; cases h0
      | fault => rw [hs] at h0; cases h0
    | halt hc ha =>
      have h0 := h.call _ hI
      rw [hx, hc] at h0
      cases hs : D.call s with
      | stop e s' =>
        rw [hs] at h0
        cases h0
        rw [← h.react, Option.map_eq_none_iff] at ha
        rw [← h.observe]
        exact .halt hs ha
      | ok a s' => rw [hs] at h0; cases h0
      | starved s' => rw [hs] at h0; cases h0
      | fault => rw [hs] at h0; cases h0

end Driver
end Chunked
