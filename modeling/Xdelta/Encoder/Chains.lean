import Xdelta.Encoder.Search

/-!
# The chains of the target hash

Each bucket of `small_table` leads to the last position entered under it, and `small_prev`,
a ring, to the ones before. The ring keeps links of positions long overwritten and of windows
long past; a walk of `xd3_smatch` follows none of them.
-/
namespace Xdelta
open Chunked

/-- The entry of bucket `b` after the positions of `ins` have been entered, the last one
first. -/
def lastIn (ins : List (ℕ × ℕ)) (b : ℕ) : ℕ :=
  match ins.find? fun e => e.2 == b with
  | some e => e.1 + 1
  | none => 0

theorem lastIn_cons (e : ℕ × ℕ) (ins : List (ℕ × ℕ)) (b : ℕ) :
    lastIn (e :: ins) b = if b = e.2 then e.1 + 1 else lastIn ins b := by
  unfold lastIn
  by_cases h : e.2 = b
  · rw [List.find?_cons_of_pos (by simpa using h), if_pos h.symm]
  · rw [List.find?_cons_of_neg (by simpa using h), if_neg (Ne.symm h)]

/-- An entry leads to the last position entered under its bucket. -/
theorem lastIn_split {ins : List (ℕ × ℕ)} {b p : ℕ} (h : lastIn ins b = p + 1) :
    ∃ newer older, ins = newer ++ (p, b) :: older := by
  unfold lastIn at h
  cases hfind : ins.find? fun e => e.2 == b with
  | none => rw [hfind] at h; cases h
  | some e =>
    rw [hfind] at h
    have hb : e.2 = b := by simpa using List.find?_some hfind
    obtain ⟨newer, older, heq⟩ := List.append_of_mem (List.mem_of_find?_eq_some hfind)
    have hp : e.1 = p := Nat.succ_injective h
    exact ⟨newer, older, by rw [heq, ← hb, ← hp]⟩

/-- The link of every position entered leads to the one before it in its bucket, unless a
later position has taken its place in the ring. -/
def Linked (mask : ℕ) (prev : ℕ → ℕ) (ins : List (ℕ × ℕ)) : Prop :=
  ∀ newer p b older, ins = newer ++ (p, b) :: older →
    (∃ q ∈ newer, q.1 &&& mask = p &&& mask) ∨ prev (p &&& mask) = lastIn older b

theorem Linked.nil (mask : ℕ) (prev : ℕ → ℕ) : Linked mask prev [] := by
  intro newer p b older h
  exact absurd h.symm (List.append_ne_nil_of_right_ne_nil _ (List.cons_ne_nil _ _))

theorem Linked.insert {mask : ℕ} {prev : ℕ → ℕ} {ins : List (ℕ × ℕ)} (h : Linked mask prev ins)
    (pos inx : ℕ) :
    Linked mask (Function.update prev (pos &&& mask) (lastIn ins inx)) ((pos, inx) :: ins) := by
  intro newer p b older heq
  cases newer with
  | nil =>
    cases heq
    exact .inr (Function.update_self _ _ _)
  | cons e newer =>
    obtain ⟨rfl, htail⟩ : e = (pos, inx) ∧ ins = newer ++ (p, b) :: older := by
      simpa [eq_comm] using heq
    by_cases hsame : p &&& mask = pos &&& mask
    · exact .inl ⟨_, List.mem_cons_self, hsame.symm⟩
    · rcases h newer p b older htail with ⟨q, hq, hmask⟩ | hlink
      · exact .inl ⟨q, List.mem_cons_of_mem _ hq, hmask⟩
      · rw [Function.update_of_ne hsame]
        exact .inr hlink

/-- The state of the hash when positions are looked up. -/
structure HashRight (env : EncEnv) (m : Matcher) : Prop where
  sorted : m.search.inserted.Pairwise fun a b => b.1 < a.1
  below : ∀ e ∈ m.search.inserted, e.1 < m.search.inputPosition
  linked : ∀ prev, m.search.smallPrev = some prev → Linked env.sprevmask prev m.search.inserted

structure Walked (m : Matcher) (b : ℕ) (r : Smatched) : Prop where
  decreasing : r.visited.Pairwise (· < ·)
  inserted : ∀ p ∈ r.visited, (p, b) ∈ m.search.inserted ∧ p < m.search.inputPosition
  found : r.length = 0 ∨ r.offset ∈ r.visited ∧ r.length = m.runAt r.offset
  longest : ∀ p ∈ r.visited, m.runAt p ≤ r.length

theorem Walked.compare {m : Matcher} {b base : ℕ} {r : Smatched} (h : Walked m b r)
    (hin : (base, b) ∈ m.search.inserted) (hlt : base < m.search.inputPosition)
    (hold : ∀ p ∈ r.visited, base < p) : Walked m b (r.compare m base) := by
  have hvisited : (r.compare m base).visited = base :: r.visited := by
    unfold Smatched.compare
    split_ifs <;> rfl
  have hlen : (r.compare m base).length = max r.length (m.runAt base) := by
    unfold Smatched.compare
    split_ifs with hmore
    · exact (Nat.max_eq_right hmore.le).symm
    · exact (Nat.max_eq_left (Nat.le_of_not_lt hmore)).symm
  refine ⟨?_, ?_, ?_, ?_⟩
  · rw [hvisited]
    exact List.Pairwise.cons hold h.decreasing
  · rw [hvisited]
    exact List.forall_mem_cons.mpr ⟨⟨hin, hlt⟩, h.inserted⟩
  · unfold Smatched.compare
    split_ifs with hmore
    · exact .inr ⟨List.mem_cons_self, rfl⟩
    · rcases h.found with hzero | ⟨hmem, hrun⟩
      · exact .inl hzero
      · exact .inr ⟨List.mem_cons_of_mem _ hmem, hrun⟩
  · rw [hvisited, hlen]
    exact List.forall_mem_cons.mpr ⟨Nat.le_max_right _ _, fun p hp =>
      (h.longest p hp).trans (Nat.le_max_left _ _)⟩

/-- Two positions in one place of the ring are a ring apart. -/
theorem ring_apart {k p q : ℕ} (h : q &&& (2 ^ k - 1) = p &&& (2 ^ k - 1)) (hlt : p < q) :
    p + 2 ^ k ≤ q := by
  rw [Nat.and_two_pow_sub_one_eq_mod, Nat.and_two_pow_sub_one_eq_mod] at h
  have hdvd : 2 ^ k ∣ q - p := Nat.dvd_of_mod_eq_zero (Nat.sub_mod_eq_zero_of_mod_eq h)
  have hle := Nat.le_of_dvd (by omega) hdvd
  omega

theorem ring_near {k diff : ℕ} (h : ¬ diff - (diff &&& (2 ^ k - 1)) ≠ 0) : diff < 2 ^ k := by
  rw [Nat.and_two_pow_sub_one_eq_mod] at h
  have hmod := Nat.mod_lt diff (Nat.two_pow_pos k)
  omega

/-- The limits of a configuration that never use `small_prev` when it is null. -/
def Smatcher.Chained (sm : Smatcher) : Prop :=
  1 < sm.smallLchain ∨ 1 < sm.smallChain ∨ sm.smallChain ≠ 0 ∧ sm.smallLchain ≠ 0

/-- A walk from a position of the bucket visits older positions of the bucket only. -/
theorem smatchLoop_walked {env : EncEnv} {m : Matcher} {k b : ℕ} (hmask : env.sprevmask = 2 ^ k - 1)
    (h : HashRight env m) (hpos : m.search.inputPosition < usize.modulus) (chain : ℕ)
    (halloc : chain ≤ 1 ∨ m.search.smallPrev ≠ none) {base : ℕ} {r : Smatched}
    {newer older : List (ℕ × ℕ)} (hins : m.search.inserted = newer ++ (base, b) :: older)
    (hr : Walked m b r) (hold : ∀ p ∈ r.visited, base < p) :
    ∃ r', smatchLoop env m chain base r = some r' ∧ Walked m b r' := by
  induction chain generalizing base r newer older with
  | zero => exact ⟨r, rfl, hr⟩
  | succ chain ih =>
    have hmem : (base, b) ∈ m.search.inserted := by
      rw [hins]
      exact List.mem_append_right _ List.mem_cons_self
    have hlt := h.below _ hmem
    have hnext := hr.compare hmem hlt hold
    rw [smatchLoop]
    dsimp only
    by_cases hstop : r.length < m.runAt base ∧ (m.search.inputPosition + m.runAt base =
        m.enc.availIn ∨ env.smatcher.longEnough ≤ m.runAt base)
    · rw [if_pos hstop]
      exact ⟨_, rfl, hnext⟩
    rw [if_neg hstop]
    by_cases hlimit : chain = 0
    · rw [if_pos hlimit]
      exact ⟨_, rfl, hnext⟩
    rw [if_neg hlimit]
    cases hprev : m.search.smallPrev with
    | none => exact absurd hprev (halloc.resolve_left (by omega))
    | some prev =>
      dsimp only
      by_cases hend : prev (base &&& env.sprevmask) = 0 ∨
          base < prev (base &&& env.sprevmask) - 1
      · rw [if_pos hend]
        exact ⟨_, rfl, hnext⟩
      rw [if_neg hend, usize.sub_eq hpos (by omega)]
      by_cases hfar : m.search.inputPosition - (prev (base &&& env.sprevmask) - 1) -
          (m.search.inputPosition - (prev (base &&& env.sprevmask) - 1) &&& env.sprevmask) ≠ 0
      · rw [if_pos hfar]
        exact ⟨_, rfl, hnext⟩
      rw [if_neg hfar]
      have hnear : m.search.inputPosition - (prev (base &&& env.sprevmask) - 1) < 2 ^ k :=
        ring_near (by rw [← hmask]; exact hfar)
      -- a link that has been overwritten is too far back
      rcases h.linked prev hprev newer base b older hins with ⟨q, hq, hsame⟩ | hlink
      · have hqlt : base < q.1 := by
          have hsorted := h.sorted
          rw [hins, List.pairwise_append] at hsorted
          exact hsorted.2.2 q hq _ List.mem_cons_self
        have hqpos : q.1 < m.search.inputPosition :=
          h.below q (by rw [hins]; exact List.mem_append_left _ hq)
        have hring := ring_apart (hmask ▸ hsame) hqlt
        omega
      · rw [hlink] at hend ⊢
        obtain ⟨p, hp⟩ : ∃ p, lastIn older b = p + 1 :=
          ⟨lastIn older b - 1, by omega⟩
        rw [hp, Nat.add_sub_cancel]
        obtain ⟨newer', older', holder⟩ := lastIn_split hp
        have hins' : m.search.inserted = (newer ++ (base, b) :: newer') ++ (p, b) :: older' := by
          rw [hins, holder, List.append_assoc, List.cons_append]
        have hplt : p < base := by
          have hsorted := h.sorted
          rw [hins, List.pairwise_append] at hsorted
          have htail := (List.pairwise_cons.mp hsorted.2.1).1 (p, b)
          rw [holder] at htail
          exact htail (List.mem_append_right _ List.mem_cons_self)
        refine ih (.inr (by rw [hprev]; exact Option.some_ne_none _)) hins' hnext fun q hq => ?_
        have hvisited : (r.compare m base).visited = base :: r.visited := by
          unfold Smatched.compare
          split_ifs <;> rfl
        rw [hvisited] at hq
        rcases List.mem_cons.mp hq with rfl | hq
        · exact hplt
        · exact hplt.trans (hold q hq)

/-- Where the matcher is: between its calls, in its loop before the present position has been
entered, or after. -/
inductive HashPoint where
  | idle | looking | entered
  deriving DecidableEq

structure SameHash (m m' : Matcher) : Prop where
  smallTable : m'.search.smallTable = m.search.smallTable
  smallPrev : m'.search.smallPrev = m.search.smallPrev
  smallReset : m'.search.smallReset = m.search.smallReset
  inserted : m'.search.inserted = m.search.inserted

/-- A new window: `xd3_encode_reset` asks for the table to be cleared, and leaves the ring. -/
structure NextWindow (m m' : Matcher) : Prop where
  smallTable : m'.search.smallTable = m.search.smallTable
  smallPrev : m'.search.smallPrev = m.search.smallPrev
  smallReset : m'.search.smallReset = true
  inserted : m'.search.inserted = []

/-- The states of the target hash over any number of windows. The matcher goes forward through
the window; it enters a position at most once, and may return for a source block before. -/
inductive Hashed (env : EncEnv) : HashPoint → Matcher → Prop
  | start {m} : m.search.smallTable = none → m.search.smallPrev = none →
      m.search.inserted = [] → Hashed env .idle m
  | window {point m m'} : Hashed env point m → NextWindow m m' → Hashed env .idle m'
  | enter {m} : Hashed env .idle m → m.enc.flags.nocompress = false →
      Hashed env .looking (m.stringMatchInit env)
  | forward {point m m'} : Hashed env point m → point ≠ .entered → SameHash m m' →
      m.search.inputPosition ≤ m'.search.inputPosition → Hashed env point m'
  | leave {m} : Hashed env .looking m → Hashed env .idle m
  | insert {m} (inx : ℕ) : Hashed env .looking m → Hashed env .entered
      { m with search := m.search.scksumInsert env inx m.search.inputPosition }
  | advance {m m'} : Hashed env .entered m → SameHash m m' →
      m.search.inputPosition < m'.search.inputPosition → Hashed env .looking m'

structure HashKept (env : EncEnv) (point : HashPoint) (m : Matcher) : Prop where
  sorted : m.search.inserted.Pairwise fun a b => b.1 < a.1
  below : ∀ e ∈ m.search.inserted, e.1 < m.search.inputPosition ∨
    point = .entered ∧ e.1 = m.search.inputPosition
  linked : ∀ prev, m.search.smallPrev = some prev → Linked env.sprevmask prev m.search.inserted
  table : ∀ t, m.search.smallTable = some t → point ≠ .idle ∨ m.search.smallReset = false →
    ∀ b, t b = lastIn m.search.inserted b
  unused : m.search.smallTable = none → point = .idle ∧ m.search.inserted = []
  alloc : m.search.smallTable ≠ none →
    1 < env.smatcher.smallLchain ∨ 1 < env.smatcher.smallChain → m.search.smallPrev ≠ none

section Keeping

variable {env : EncEnv} {point : HashPoint} {m m' : Matcher}

theorem HashKept.window (h : HashKept env point m) (hw : NextWindow m m') :
    HashKept env .idle m' := by
  refine ⟨?_, ?_, fun prev _ => ?_, fun t _ hidle => ?_, fun _ => ⟨rfl, hw.inserted⟩, ?_⟩
  · rw [hw.inserted]
    exact List.Pairwise.nil
  · rw [hw.inserted]
    exact fun e he => absurd he List.not_mem_nil
  · rw [hw.inserted]
    exact Linked.nil _ _
  · rcases hidle with hidle | hreset
    · exact absurd rfl hidle
    · rw [hw.smallReset] at hreset
      cases hreset
  · rw [hw.smallTable, hw.smallPrev]
    exact h.alloc

theorem HashKept.forward (h : HashKept env point m) (hs : SameHash m m')
    (hpos : m.search.inputPosition ≤ m'.search.inputPosition) (hpoint : point ≠ .entered) :
    HashKept env point m' := by
  refine ⟨?_, fun e he => ?_, ?_, ?_, ?_, ?_⟩
  · rw [hs.inserted]
    exact h.sorted
  · rw [hs.inserted] at he
    rcases h.below e he with hlt | ⟨hpt, -⟩
    · exact .inl (hlt.trans_le hpos)
    · exact absurd hpt hpoint
  · rw [hs.smallPrev, hs.inserted]
    exact h.linked
  · rw [hs.smallTable, hs.smallReset, hs.inserted]
    exact h.table
  · rw [hs.smallTable, hs.inserted]
    exact h.unused
  · rw [hs.smallTable, hs.smallPrev]
    exact h.alloc

theorem HashKept.enter (h : HashKept env .idle m) (hflag : m.enc.flags.nocompress = false) :
    HashKept env .looking (m.stringMatchInit env) := by
  rw [Matcher.stringMatchInit, if_neg (by rw [hflag]; exact Bool.false_ne_true)]
  cases htable : m.search.smallTable with
  | some t =>
    dsimp only
    by_cases hreset : m.search.smallReset = true
    · rw [if_pos hreset]
      exact ⟨List.Pairwise.nil, fun e he => absurd he List.not_mem_nil,
        fun prev _ => Linked.nil _ _, fun t ht _ b => by cases ht; rfl, nofun,
        fun _ => h.alloc (by rw [htable]; exact Option.some_ne_none _)⟩
    · rw [if_neg hreset]
      refine ⟨h.sorted, fun e he => ?_, h.linked, fun t ht _ => ?_, fun hnone => ?_, h.alloc⟩
      · rcases h.below e he with hlt | ⟨hpt, -⟩
        · exact .inl hlt
        · cases hpt
      · exact h.table t ht (.inr (Bool.eq_false_of_not_eq_true hreset))
      · rw [htable] at hnone
        cases hnone
  | none =>
    have hempty := (h.unused htable).2
    dsimp only
    refine ⟨h.sorted, fun e he => ?_, fun prev _ => ?_, fun t ht _ b => ?_, nofun,
      fun _ halloc => ?_⟩
    · rw [hempty] at he
      exact absurd he List.not_mem_nil
    · change Linked _ _ m.search.inserted
      rw [hempty]
      exact Linked.nil _ _
    · cases ht
      change 0 = lastIn m.search.inserted b
      rw [hempty]
      rfl
    · change (if 1 < env.smatcher.smallLchain ∨ 1 < env.smatcher.smallChain then some env.stale
        else m.search.smallPrev) ≠ none
      rw [if_pos halloc]
      exact Option.some_ne_none _

theorem HashKept.insert (h : HashKept env .looking m) (inx : ℕ) : HashKept env .entered
    { m with search := m.search.scksumInsert env inx m.search.inputPosition } := by
  obtain ⟨t, ht⟩ : ∃ t, m.search.smallTable = some t := by
    cases htable : m.search.smallTable with
    | none => exact absurd (h.unused htable).1 nofun
    | some t => exact ⟨t, rfl⟩
  have htable := h.table t ht (.inl nofun)
  have hbelow : ∀ e ∈ m.search.inserted, e.1 < m.search.inputPosition := by
    intro e he
    rcases h.below e he with hlt | ⟨hpt, -⟩
    · exact hlt
    · cases hpt
  rw [Search.scksumInsert, ht, Option.getD_some]
  refine ⟨List.Pairwise.cons hbelow h.sorted, fun e he => ?_, fun prev hprev => ?_,
    fun t' ht' _ b => ?_, nofun, fun _ halloc => ?_⟩
  · rcases List.mem_cons.mp he with rfl | he
    · exact .inr ⟨rfl, rfl⟩
    · exact .inl (hbelow e he)
  · cases hold : m.search.smallPrev with
    | none =>
      change m.search.smallPrev.map _ = some prev at hprev
      rw [hold] at hprev
      cases hprev
    | some prev₀ =>
      change m.search.smallPrev.map _ = some prev at hprev
      rw [hold, Option.map_some, Option.some_inj] at hprev
      rw [← hprev, htable]
      exact (h.linked prev₀ hold).insert _ _
  · cases ht'
    change Function.update t inx _ b = lastIn ((m.search.inputPosition, inx) :: _) b
    rw [lastIn_cons]
    by_cases heq : b = inx
    · rw [if_pos heq, heq, Function.update_self]
    · rw [if_neg heq, Function.update_of_ne heq, htable]
  · have hprev := h.alloc (by rw [ht]; exact Option.some_ne_none _) halloc
    change m.search.smallPrev.map _ ≠ none
    rwa [Ne, Option.map_eq_none_iff]

theorem Hashed.kept (h : Hashed env point m) : HashKept env point m := by
  induction h with
  | @start m htable hprev hins =>
    refine ⟨?_, ?_, fun prev hp => ?_, fun t ht => ?_, fun _ => ⟨rfl, hins⟩,
      fun hne => absurd htable hne⟩
    · rw [hins]
      exact List.Pairwise.nil
    · rw [hins]
      exact fun e he => absurd he List.not_mem_nil
    · rw [hprev] at hp
      cases hp
    · rw [htable] at ht
      cases ht
  | window _ hw ih => exact ih.window hw
  | enter _ hflag ih => exact ih.enter hflag
  | forward _ hpoint hs hpos ih => exact ih.forward hs hpos hpoint
  | leave _ ih =>
    refine ⟨ih.sorted, fun e he => ?_, ih.linked, fun t ht _ => ih.table t ht (.inl nofun),
      fun hnone => ⟨rfl, (ih.unused hnone).2⟩, ih.alloc⟩
    rcases ih.below e he with hlt | ⟨hpt, -⟩
    · exact .inl hlt
    · cases hpt
  | insert inx _ ih => exact ih.insert inx
  | advance _ hs hpos ih =>
    refine ⟨?_, fun e he => ?_, ?_, fun t ht _ => ?_, fun hnone => ?_, ?_⟩
    · rw [hs.inserted]
      exact ih.sorted
    · rw [hs.inserted] at he
      rcases ih.below e he with hlt | ⟨-, heq⟩
      · exact .inl (hlt.trans hpos)
      · exact .inl (heq ▸ hpos)
    · rw [hs.smallPrev, hs.inserted]
      exact ih.linked
    · rw [hs.inserted]
      exact ih.table t (hs.smallTable ▸ ht) (.inl nofun)
    · exact absurd (ih.unused (hs.smallTable ▸ hnone)).1 nofun
    · rw [hs.smallTable, hs.smallPrev]
      exact ih.alloc

end Keeping

/-- A look-up ends without a null pointer. The positions it visits, all entered in this window
under the bucket, go strictly back; it finds nothing, or the longest run among them. -/
def SmatchRight (env : EncEnv) (m : Matcher) (base b : ℕ) : Prop :=
  ∃ r, smatch env base m = .ok r m ∧ r.visited.Pairwise (· < ·) ∧
    (∀ p ∈ r.visited, (p, b) ∈ m.search.inserted ∧ p < m.search.inputPosition) ∧
    (r.length = 0 ∨ r.offset ∈ r.visited ∧ r.length = m.runAt r.offset ∧
      ∀ p ∈ r.visited, m.runAt p ≤ r.length)

/-- In every state of the target hash, over any number of windows. -/
theorem smatchRight_of_chained {env : EncEnv} {k : ℕ} (hmask : env.sprevmask = 2 ^ k - 1)
    (hsm : env.smatcher.Chained) {m : Matcher} (h : Hashed env .looking m)
    (hpos : m.search.inputPosition < usize.modulus) {t : ℕ → ℕ} {b : ℕ}
    (ht : m.search.smallTable = some t) (hb : t b ≠ 0) : SmatchRight env m (t b) b := by
  have hk := h.kept
  have hright : HashRight env m := by
    refine ⟨hk.sorted, fun e he => ?_, hk.linked⟩
    rcases hk.below e he with hlt | ⟨hpt, -⟩
    · exact hlt
    · cases hpt
  have hbucket := hk.table t ht (.inl nofun) b
  obtain ⟨p, hp⟩ : ∃ p, t b = p + 1 := ⟨t b - 1, by omega⟩
  obtain ⟨newer, older, hins⟩ := lastIn_split (hbucket.symm.trans hp)
  have halloc : ∀ chain, chain = env.smatcher.smallChain ∨ chain = env.smatcher.smallLchain →
      (if chain = 0 then usize.modulus else chain) ≤ 1 ∨ m.search.smallPrev ≠ none := by
    intro chain hchain
    by_cases hlong : 1 < env.smatcher.smallLchain ∨ 1 < env.smatcher.smallChain
    · exact .inr (hk.alloc (by rw [ht]; exact Option.some_ne_none _) hlong)
    · left
      rcases hsm with hs | hs | hs
      · exact absurd (.inl hs) hlong
      · exact absurd (.inr hs) hlong
      · rw [if_neg (by omega)]
        omega
  rw [SmatchRight, smatch, hp, Nat.add_sub_cancel]
  dsimp only
  generalize hchain : (if m.search.minMatch = minMatch then env.smatcher.smallChain
    else env.smatcher.smallLchain) = chain
  have hlimit : chain = env.smatcher.smallChain ∨ chain = env.smatcher.smallLchain := by
    rw [← hchain]
    split_ifs
    · exact .inl rfl
    · exact .inr rfl
  obtain ⟨r, hres, hr⟩ := smatchLoop_walked hmask hright hpos _ (halloc chain hlimit) hins
    (⟨List.Pairwise.nil, fun q hq => absurd hq List.not_mem_nil, .inl rfl,
      fun q hq => absurd hq List.not_mem_nil⟩ : Walked m b {})
    (fun q hq => absurd hq List.not_mem_nil)
  rw [hres]
  dsimp only
  split_ifs
  · exact ⟨_, rfl, hr.decreasing, hr.inserted, .inl rfl⟩
  · refine ⟨_, rfl, hr.decreasing, hr.inserted, ?_⟩
    rcases hr.found with hzero | ⟨hmem, hrun⟩
    · exact .inl hzero
    · exact .inr ⟨hmem, hrun, hr.longest⟩

def repeatMatcher : Matcher :=
  { enc := { nextIn := [1, 2, 3, 4, 9, 1, 2, 3, 4, 8, 1, 2, 3, 4, 8, 7], availIn := 16 }
    search := { minMatch := minMatch } }

def chainEnv (smallChain smallLchain : ℕ) : EncEnv :=
  { smatcher := ⟨4, 1, 4, smallChain, smallLchain, 0, 6⟩, sprevmask := 2 ^ 18 - 1 }

def repeatLooking (env : EncEnv) : Matcher :=
  { repeatMatcher with search :=
    { (repeatMatcher.stringMatchInit env).search.scksumInsert env 7 0 with inputPosition := 5 } }

theorem repeatLooking_hashed (env : EncEnv) : Hashed env .looking (repeatLooking env) :=
  .advance (.insert 7 (.enter (.start rfl rfl rfl) rfl)) ⟨rfl, rfl, rfl, rfl⟩
    (show 0 < 5 by decide)

def repeatLookingAgain (env : EncEnv) : Matcher :=
  { repeatMatcher with search :=
    { (repeatLooking env).search.scksumInsert env 7 5 with inputPosition := 10 } }

theorem repeatLookingAgain_hashed (env : EncEnv) : Hashed env .looking (repeatLookingAgain env) :=
  .advance (.insert 7 (repeatLooking_hashed env)) ⟨rfl, rfl, rfl, rfl⟩
    (show 5 < 10 by decide)

/-- The walk goes back through the ring from the sixth position to the first, and finds the
five bytes that come at the sixth. -/
theorem smatchRight_of_chained_repeat :
    SmatchRight (chainEnv 2 1) (repeatLookingAgain (chainEnv 2 1)) 6 7 ∧
      smatch (chainEnv 2 1) 6 (repeatLookingAgain (chainEnv 2 1)) =
        .ok ⟨5, 5, [0, 5]⟩ (repeatLookingAgain (chainEnv 2 1)) :=
  ⟨@smatchRight_of_chained (chainEnv 2 1) 18 rfl (.inr (.inl (by decide))) _
    (repeatLookingAgain_hashed _) (by decide) _ 7 rfl (by decide), rfl⟩

/-- With a limit of 0 and no ring, the walk goes on through a null pointer. -/
theorem smatchRight_fails :
    ¬ ∀ (env : EncEnv) (k : ℕ) (m : Matcher) (t : ℕ → ℕ) (b : ℕ), env.sprevmask = 2 ^ k - 1 →
      4 ≤ env.smatcher.largeLook → 1 ≤ env.smatcher.largeStep → 4 ≤ env.smatcher.smallLook →
      Hashed env .looking m → m.search.inputPosition < usize.modulus →
      m.search.smallTable = some t → t b ≠ 0 → SmatchRight env m (t b) b := by
  intro hall
  have hright := hall (chainEnv 0 1) 18 (repeatLooking (chainEnv 0 1)) _ 7 rfl (by decide)
    (by decide) (by decide) (repeatLooking_hashed _) (by decide) rfl (by decide)
  obtain ⟨r, hr, -⟩ := hright
  have hfault : smatch (chainEnv 0 1) 1 (repeatLooking (chainEnv 0 1)) = .fault := rfl
  exact nomatch hfault.symm.trans hr

end Xdelta
