import Xdelta.Main.Appheader
import Mathlib.Data.List.Chain

/-!
# Armored merge chains

A merge reads a chain of deltas. The digests in their headers are checked one
link at a time, and the merged delta is given the digests at the two ends.
-/
namespace Xdelta.Main
open CString

/-- The variables `armor_merge_*`; a digest is there where its `have` flag is set. -/
structure MergeArmor where
  count : ℕ := 0
  all : Bool := true
  broken : Bool := false
  firstSource : Option Str := none
  prevTarget : Option Str := none
  lastTarget : Option Str := none
  deriving DecidableEq

/-- `main_armor_merge_link` after the header has been parsed. -/
def MergeArmor.link (m : MergeArmor) (d : Digests) : MergeArmor where
  count := m.count + 1
  all :=
    if (d.source = none ∨ d.target = none) ∧ (m.count ≠ 0 ∨ d.target = none) then false else m.all
  broken :=
    if m.count = 0 then m.broken
    else match m.prevTarget, d.source with
      | some t, some s => if t ≠ s then true else m.broken
      | _, _ => m.broken
  firstSource := if m.count = 0 ∧ d.source.isSome then d.source else m.firstSource
  prevTarget := d.target
  lastTarget := if d.target.isSome then d.target else m.lastTarget

def armorMergeLink (m : MergeArmor) (apphead : List UInt8) : MergeArmor :=
  m.link (armorParseAppheader apphead)

/-- What `main_merge_output` does about the header. -/
inductive MergeHeader where
  /-- A broken chain: `XD3_INVALID_INPUT`. -/
  | refuse
  /-- This header is written. -/
  | write (apphead : Str)
  /-- The recode stream gets no header. -/
  | plain
  deriving DecidableEq

/-- The header with the digests at the two ends, in a buffer of `2 * XD3_BLAKE3_HEXBUF + 8`. -/
def mergedAppheader (lastTarget firstSource : Str) : Str :=
  snprintf (2 * 65 + 8)
    (str "-#" ++ lastTarget ++ str "//-#" ++ firstSource ++ str "/")

/-- The header in `main_merge_output`. -/
def mergeOutputHeader (useAppheader noArmor : Bool) (user : Option Str) (m : MergeArmor) :
    MergeHeader :=
  match useAppheader, user with
  | false, _ => .plain
  | true, some apphead => .write apphead
  | true, none =>
    if noArmor then .plain
    else if m.broken then .refuse
    else match m.firstSource, m.lastTarget with
      | some source, some target =>
        if 0 < m.count ∧ m.all = true then .write (mergedAppheader target source) else .plain
      | _, _ => .plain

def Agree (a b : Digests) : Prop := ∀ t ∈ a.target, ∀ s ∈ b.source, t = s

structure MergeArmor.Tracks (m : MergeArmor) (links : List Digests) : Prop where
  count_eq : m.count = links.length
  broken_iff : m.broken = false ↔ links.IsChain Agree
  all_iff : m.all = true ↔
    (∀ d ∈ links, d.target.isSome = true) ∧ ∀ d ∈ links.tail, d.source.isSome = true
  first_eq : m.firstSource = links.head?.bind Digests.source
  prev_eq : m.prevTarget = links.getLast?.bind Digests.target
  last_eq : ∀ t ∈ m.prevTarget, m.lastTarget = some t

theorem MergeArmor.Tracks.nil : MergeArmor.Tracks {} [] where
  count_eq := rfl
  broken_iff := ⟨fun _ => List.isChain_nil, fun _ => rfl⟩
  all_iff := by simp
  first_eq := rfl
  prev_eq := rfl
  last_eq := nofun

/-- The chain is broken by a link whose source is not the target before it. -/
theorem MergeArmor.Tracks.broken_link {m : MergeArmor} {links : List Digests}
    (h : m.Tracks links) (d : Digests) :
    (m.link d).broken = false ↔ (links ++ [d]).IsChain Agree := by
  have hlast : (∀ x ∈ links.getLast?, ∀ y ∈ [d].head?, Agree x y) ↔
      ∀ t ∈ m.prevTarget, ∀ s ∈ d.source, t = s := by
    rw [h.prev_eq]
    cases links.getLast? with
    | none => simp
    | some x => simp [Agree]
  rw [List.isChain_append, hlast, ← h.broken_iff, link]
  cases hcount : m.count with
  | zero =>
    have hnil : links = [] := List.length_eq_zero_iff.1 (h.count_eq.symm.trans hcount)
    have hprev : m.prevTarget = none := by rw [h.prev_eq, hnil]; rfl
    simp [hprev]
  | succ n =>
    cases m.prevTarget with
    | none => simp
    | some t =>
      cases d.source with
      | none => simp
      | some s => by_cases hts : t = s <;> simp [hts]

/-- Every link but the first needs both digests, the first its target. -/
theorem MergeArmor.Tracks.all_link {m : MergeArmor} {links : List Digests}
    (h : m.Tracks links) (d : Digests) :
    (m.link d).all = true ↔ (∀ x ∈ links ++ [d], x.target.isSome = true) ∧
      ∀ x ∈ (links ++ [d]).tail, x.source.isSome = true := by
  have hall := h.all_iff
  rw [link]
  cases links with
  | nil =>
    have hcount : m.count = 0 := h.count_eq
    cases htarget : d.target <;> simp_all
  | cons a links =>
    have hcount : m.count = links.length + 1 := h.count_eq
    cases htarget : d.target <;> cases hsource : d.source <;> simp_all [or_imp, forall_and]

theorem MergeArmor.Tracks.link {m : MergeArmor} {links : List Digests} (h : m.Tracks links)
    (d : Digests) : (m.link d).Tracks (links ++ [d]) where
  count_eq := by simp [MergeArmor.link, h.count_eq]
  broken_iff := h.broken_link d
  all_iff := h.all_link d
  first_eq := by
    cases links with
    | nil =>
      have hcount : m.count = 0 := h.count_eq
      have hfirst : m.firstSource = none := h.first_eq
      cases hsource : d.source <;> simp [MergeArmor.link, hcount, hfirst, hsource]
    | cons a links =>
      have hcount : m.count ≠ 0 := by simp [h.count_eq]
      simp [MergeArmor.link, hcount, h.first_eq]
  prev_eq := by simp [MergeArmor.link]
  last_eq := by
    intro t ht
    have htarget : d.target = some t := ht
    simp [MergeArmor.link, htarget]

theorem MergeArmor.Tracks.run (headers : List (List UInt8)) :
    (headers.foldl armorMergeLink {}).Tracks (headers.map armorParseAppheader) := by
  induction headers using List.reverseRecOn with
  | nil => exact Tracks.nil
  | append_singleton headers apphead ih =>
    rw [List.foldl_append, List.map_append]
    exact ih.link _

theorem armorSplit_isHex {name digest : Str} (h : (armorSplit name).2 = some digest) :
    armorIsHex digest = true := by
  unfold armorSplit at h
  cases hcut : strrchr hash name with
  | none =>
    rw [hcut] at h
    cases h
  | some r =>
    rw [hcut] at h
    dsimp only at h
    by_cases hhex : armorIsHex r.2 = true
    · rw [if_pos hhex] at h
      cases h
      exact hhex
    · rw [if_neg hhex] at h
      cases h

theorem armorParse_isHex (apphead : List UInt8) :
    (∀ s ∈ (armorParseAppheader apphead).source, armorIsHex s = true) ∧
      ∀ t ∈ (armorParseAppheader apphead).target, armorIsHex t = true := by
  unfold armorParseAppheader
  split_ifs
  · exact ⟨nofun, nofun⟩
  · split
    · exact ⟨nofun, fun t ht => armorSplit_isHex ht⟩
    · exact ⟨fun s hs => armorSplit_isHex hs, fun t ht => armorSplit_isHex ht⟩
    · exact ⟨nofun, nofun⟩

theorem armorIsHex_spec {s : Str} (h : armorIsHex s = true) :
    s.length = 64 ∧ ∀ c, isHexDigit c = false → c ∉ s := by
  rw [armorIsHex, Bool.and_eq_true, decide_eq_true_iff] at h
  refine ⟨h.1, fun c hc hmem => ?_⟩
  rw [List.all_eq_true.1 h.2 c hmem] at hc
  cases hc

theorem armorSplit_append {name digest : Str} (h : armorIsHex digest = true) :
    armorSplit (name ++ hash :: digest) = (name, some digest) := by
  rw [armorSplit, strrchr_append ((armorIsHex_spec h).2 hash (by decide))]
  exact if_pos h

/-- The merged header is not cut short, and its digests are found again. -/
theorem armorParse_merged {target source : Str} (ht : armorIsHex target = true)
    (hs : armorIsHex source = true) :
    armorParseAppheader (mergedAppheader target source) =
      { source := some source, target := some target } := by
  obtain ⟨htlen, htmem⟩ := armorIsHex_spec ht
  obtain ⟨hslen, hsmem⟩ := armorIsHex_spec hs
  have heq : mergedAppheader target source = (str "-" ++ hash :: target) ++ slash ::
      ([] ++ slash :: ((str "-" ++ hash :: source) ++ slash :: [])) := by
    rw [mergedAppheader, snprintf, List.take_of_length_le]
    · simp [str, hash, slash]
    · simp [str, htlen, hslen]
  have hslash : ∀ {digest : Str}, slash ∉ digest → slash ∉ str "-" ++ hash :: digest := by
    intro digest hmem
    simp [str, hash, slash] at hmem ⊢
    exact hmem
  have hzero : (0 : UInt8) ∉ mergedAppheader target source := by
    rw [heq]
    simp [str, hash, slash, htmem 0 (by decide), hsmem 0 (by decide)]
  have hne : mergedAppheader target source ≠ [] := by rw [heq]; simp
  rw [armorParseAppheader, if_neg hne, cstring_eq hzero, heq,
    fields_succ (hslash (htmem slash (by decide))), fields_succ List.not_mem_nil,
    fields_succ (hslash (hsmem slash (by decide))), fields_last List.not_mem_nil]
  simp only [armorSplit_append ht, armorSplit_append hs]

def BrokenChain (links : List Digests) : Prop :=
  ∃ i t s, links[i]?.bind Digests.target = some t ∧ links[i + 1]?.bind Digests.source = some s ∧
    t ≠ s

/-- Every link has both digests, and each source is the target before it. -/
structure VerifiedChain (links : List Digests) : Prop where
  nonempty : links ≠ []
  source : ∀ d ∈ links, d.source.isSome = true
  target : ∀ d ∈ links, d.target.isSome = true
  joined : ∀ i, i + 1 < links.length →
    links[i + 1]?.bind Digests.source = links[i]?.bind Digests.target

theorem brokenChain_iff {links : List Digests} : BrokenChain links ↔ ¬ links.IsChain Agree := by
  rw [List.isChain_iff_getElem]
  constructor
  · rintro ⟨i, t, s, ht, hs, hne⟩ hchain
    have hlen : i + 1 < links.length := by
      by_contra hlen
      rw [List.getElem?_eq_none (by omega)] at hs
      cases hs
    rw [List.getElem?_eq_getElem (by omega)] at ht
    rw [List.getElem?_eq_getElem hlen] at hs
    exact hne (hchain i hlen t ht s hs)
  · intro hchain
    simp only [Agree, not_forall] at hchain
    obtain ⟨i, hlen, t, ht, s, hs, hne⟩ := hchain
    refine ⟨i, t, s, ?_, ?_, hne⟩
    · rw [List.getElem?_eq_getElem (by omega)]
      exact ht
    · rw [List.getElem?_eq_getElem hlen]
      exact hs

/-- A chain is verified when nothing is missing and nothing differs. -/
theorem verifiedChain_iff {links : List Digests} :
    VerifiedChain links ↔ links ≠ [] ∧ (∀ d ∈ links, d.source.isSome = true) ∧
      (∀ d ∈ links, d.target.isSome = true) ∧ links.IsChain Agree := by
  rw [List.isChain_iff_getElem]
  constructor
  · intro h
    refine ⟨h.nonempty, h.source, h.target, fun i hlen t ht s hs => ?_⟩
    have hjoined := h.joined i hlen
    rw [List.getElem?_eq_getElem hlen, List.getElem?_eq_getElem (by omega)] at hjoined
    exact Option.some.inj (ht.symm.trans (hjoined.symm.trans hs))
  · rintro ⟨hne, hsource, htarget, hchain⟩
    refine ⟨hne, hsource, htarget, fun i hlen => ?_⟩
    rw [List.getElem?_eq_getElem hlen, List.getElem?_eq_getElem (by omega)]
    obtain ⟨t, ht⟩ := Option.isSome_iff_exists.1 (htarget links[i] (List.getElem_mem (by omega)))
    obtain ⟨s, hs⟩ := Option.isSome_iff_exists.1 (hsource links[i + 1] (List.getElem_mem hlen))
    exact hs.trans ((congrArg some (hchain i hlen t ht s hs).symm).trans ht.symm)

/-- What the merged header says of a chain. -/
structure MergeRight (links : List Digests) (verdict : MergeHeader) : Prop where
  refuses : verdict = .refuse ↔ BrokenChain links
  rearms : (∃ apphead, verdict = .write apphead) ↔ VerifiedChain links
  /-- The header written has the first source and the last target. -/
  ends : ∀ apphead, verdict = .write apphead →
    ∃ target source, apphead = mergedAppheader target source ∧
      links.head?.bind Digests.source = some source ∧
      links.getLast?.bind Digests.target = some target ∧
      armorParseAppheader apphead = { source := some source, target := some target }

/-- The first link of a chain that is armored throughout has a source, the last a target. -/
theorem VerifiedChain.ends {links : List Digests} (h : VerifiedChain links) :
    (∃ s, links.head?.bind Digests.source = some s) ∧
      ∃ t, links.getLast?.bind Digests.target = some t := by
  obtain ⟨a, ha⟩ := Option.isSome_iff_exists.1 (List.isSome_head?.2 h.nonempty)
  obtain ⟨b, hb⟩ := Option.isSome_iff_exists.1 (List.getLast?_isSome.2 h.nonempty)
  rw [ha, hb]
  exact ⟨Option.isSome_iff_exists.1 (h.source a (List.mem_of_head? ha)),
    Option.isSome_iff_exists.1 (h.target b (List.mem_of_getLast? hb))⟩

/-- The ends of a tracked chain, as its variables have them. -/
theorem MergeArmor.Tracks.verified_iff {m : MergeArmor} {links : List Digests}
    (h : m.Tracks links) : VerifiedChain links ↔
      m.broken = false ∧ m.firstSource.isSome = true ∧ 0 < m.count ∧ m.all = true := by
  rw [verifiedChain_iff, h.broken_iff, h.first_eq, h.all_iff, h.count_eq]
  cases links with
  | nil => simp
  | cons a links =>
    simp only [List.head?_cons, Option.bind_some, List.tail_cons, List.mem_cons, forall_eq_or_imp,
      List.length_cons]
    constructor
    · rintro ⟨-, ⟨hfirst, hsource⟩, htarget, hchain⟩
      exact ⟨hchain, hfirst, Nat.succ_pos _, htarget, hsource⟩
    · rintro ⟨hchain, hfirst, -, htarget, hsource⟩
      exact ⟨List.cons_ne_nil _ _, ⟨hfirst, hsource⟩, htarget, hchain⟩

theorem MergeArmor.Tracks.header_eq {m : MergeArmor} {links : List Digests} (h : m.Tracks links)
    (hbroken : m.broken = false) :
    (VerifiedChain links ∧ ∃ target source,
      links.head?.bind Digests.source = some source ∧
      links.getLast?.bind Digests.target = some target ∧
      mergeOutputHeader true false none m = .write (mergedAppheader target source)) ∨
    (¬ VerifiedChain links ∧ mergeOutputHeader true false none m = .plain) := by
  have hverdict : mergeOutputHeader true false none m =
      match m.firstSource, m.lastTarget with
      | some source, some target =>
        if 0 < m.count ∧ m.all = true then .write (mergedAppheader target source) else .plain
      | _, _ => .plain := by
    rw [mergeOutputHeader, hbroken]
    rfl
  by_cases hver : VerifiedChain links
  · obtain ⟨⟨source, hsource⟩, target, htarget⟩ := hver.ends
    obtain ⟨-, -, hready⟩ := h.verified_iff.1 hver
    refine Or.inl ⟨hver, target, source, hsource, htarget, ?_⟩
    have hlast := h.last_eq target (h.prev_eq.trans htarget)
    rw [hverdict, h.first_eq.trans hsource, hlast]
    exact if_pos hready
  · refine Or.inr ⟨hver, ?_⟩
    rw [hverdict]
    cases hsource : m.firstSource with
    | none => rfl
    | some source =>
      cases m.lastTarget with
      | none => rfl
      | some target =>
        refine if_neg fun hready => hver (h.verified_iff.2 ⟨hbroken, ?_, hready⟩)
        rw [hsource]
        rfl

/-- The merge is refused exactly for a broken chain, and re-armed, with the digests at its two
ends, exactly for a verified one. -/
theorem mergeChain_right (headers : List (List UInt8)) :
    MergeRight (headers.map armorParseAppheader)
      (mergeOutputHeader true false none (headers.foldl armorMergeLink {})) := by
  have h := MergeArmor.Tracks.run headers
  generalize hm : headers.foldl armorMergeLink {} = m at h ⊢
  cases hbroken : m.broken with
  | true =>
    have hrefuse : mergeOutputHeader true false none m = .refuse := by
      rw [mergeOutputHeader, hbroken]
      rfl
    have hchain : BrokenChain (headers.map armorParseAppheader) := by
      rw [brokenChain_iff, ← h.broken_iff, hbroken]
      exact Bool.noConfusion
    rw [hrefuse]
    refine ⟨⟨fun _ => hchain, fun _ => rfl⟩, ⟨nofun, fun hver => ?_⟩, nofun⟩
    rw [h.verified_iff, hbroken] at hver
    exact Bool.noConfusion hver.1
  | false =>
    have hnot : ¬ BrokenChain (headers.map armorParseAppheader) := by
      rw [brokenChain_iff, ← h.broken_iff]
      exact not_not_intro hbroken
    rcases h.header_eq hbroken with ⟨hver, target, source, hsource, htarget, heq⟩ | ⟨hver, heq⟩
    · rw [heq]
      refine ⟨⟨nofun, fun hyes => absurd hyes hnot⟩, ⟨fun _ => hver, fun _ => ⟨_, rfl⟩⟩, ?_⟩
      rintro apphead ⟨⟩
      -- the digests of the ends were found in headers, so they are hexadecimal
      obtain ⟨a, ha, hasource⟩ := Option.bind_eq_some_iff.1 hsource
      obtain ⟨b, hb, hbtarget⟩ := Option.bind_eq_some_iff.1 htarget
      obtain ⟨first, -, rfl⟩ := List.mem_map.1 (List.mem_of_head? ha)
      obtain ⟨last, -, rfl⟩ := List.mem_map.1 (List.mem_of_getLast? hb)
      exact ⟨target, source, rfl, hsource, htarget,
        armorParse_merged ((armorParse_isHex last).2 target hbtarget)
          ((armorParse_isHex first).1 source hasource)⟩
    · rw [heq]
      exact ⟨⟨nofun, fun hyes => absurd hyes hnot⟩, ⟨nofun, fun hyes => absurd hyes hver⟩, nofun⟩

end Xdelta.Main
