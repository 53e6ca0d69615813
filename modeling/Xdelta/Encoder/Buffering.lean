import Xdelta.Source

/-!
# Buffering the encoder's input

A chunk of input is used where it lies when nothing is held back and it fills a
window. Otherwise input is gathered in a buffer of `winsize` bytes, and what does
not fit is left over for the next window. A chunk more than one window longer
than the room in the buffer leaves more than the buffer holds.
-/
namespace Xdelta
open Chunked

/-- The input fields of `xd3_stream`. `nextIn` is the content of `next_in[0 .. avail_in)`,
null before the first chunk; `bufIn` is the content of `buf_in[0 .. buf_avail)`. -/
structure EncInput where
  nextIn : Option (List UInt8) := none
  bufIn : List UInt8 := []
  bufLeftover : Option (List UInt8) := none
  deriving DecidableEq

namespace EncInput

/-- `next_in[0 .. avail_in)`. -/
def window (s : EncInput) : List UInt8 := s.nextIn.getD []

end EncInput

/-- Routines of the input states; `starved` is `XD3_INPUT`, and a copy past `winsize` bytes
of `buf_in` faults. -/
abbrev Buffered (α : Type) := Routine EncInput Stop α

def availInput (s : EncInput) (idata : List UInt8) : EncInput := { s with nextIn := some idata }

def takeLeftover (winsize : ℕ) : Buffered Unit := fun s =>
  match s.bufLeftover with
  | none => .ok () s
  | some left =>
    if left.length ≤ winsize then .ok () { s with bufIn := left, bufLeftover := none } else .fault

def fillBuffer (winsize : ℕ) (flush : Bool) : Buffered Unit := fun s =>
  let room := usize.sub winsize s.bufIn.length
  let take := min room s.window.length
  let bufIn := s.bufIn ++ s.window.take take
  if winsize < s.bufIn.length + take then .fault
  else if take < s.window.length then
    .ok () { nextIn := some bufIn, bufIn := [], bufLeftover := some (s.window.drop take) }
  else if bufIn.length < winsize ∧ flush = false then .starved { s with bufIn := bufIn }
  else .ok () { s with nextIn := some bufIn, bufIn := [] }

def encodeBufferLeftover (winsize : ℕ) (flush : Bool) : Buffered Unit := fun s =>
  (takeLeftover winsize s).andThen fun _ => fillBuffer winsize flush

/-- `enc_flush`, up to `XD3_WINSTART`. -/
def encFlush (winsize : ℕ) (flush : Bool) : Buffered Unit := fun s =>
  if s.bufLeftover.isSome ∨ s.bufIn ≠ [] ∨ (s.window.length < winsize ∧ flush = false) then
    encodeBufferLeftover winsize flush s
  else .ok () s

/-- `xd3_encode_input` in `ENC_INPUT`. -/
def encInput (winsize : ℕ) (flush : Bool) : Buffered Unit := fun s =>
  match s.nextIn with
  | none => .starved s
  | some _ => encFlush winsize flush s

/-- `xd3_encode_input` in `ENC_POSTWIN`, after `xd3_encode_reset` has cleared `avail_in`. -/
def encPostwin (winsize : ℕ) (flush : Bool) : Buffered Unit := fun s =>
  let s := { s with nextIn := s.nextIn.map fun _ => [] }
  if s.bufLeftover.isSome then encFlush winsize flush s else .starved s

def windowsFrom (winsize : ℕ) (flush : Bool) :
    ℕ → Outcome EncInput Stop Unit → Option (List (List UInt8) × EncInput)
  | _, .starved s => some ([], s)
  | fuel + 1, .ok () s =>
    (windowsFrom winsize flush fuel (encPostwin winsize flush s)).map fun r => (s.window :: r.1, r.2)
  | _, _ => none

/-- The windows made of one chunk, with what the input fields are afterwards. -/
def encodeChunk (winsize : ℕ) (flush : Bool) (chunk : List UInt8) (s : EncInput) :
    Option (List (List UInt8) × EncInput) :=
  windowsFrom winsize flush (chunk.length + 2) (encInput winsize flush (availInput s chunk))

/-- The windows made of all chunks, `XD3_FLUSH` being set before the last. -/
def encodeChunks (winsize : ℕ) : List (List UInt8) → EncInput → Option (List (List UInt8))
  | [], _ => some []
  | [chunk], s => (encodeChunk winsize true chunk s).map (·.1)
  | chunk :: chunks, s =>
    (encodeChunk winsize false chunk s).bind fun r =>
      (encodeChunks winsize chunks r.2).map (r.1 ++ ·)

/-- No copy leaves the buffer, and the windows hold the chunks, in order. -/
def BuffersRight (winsize : ℕ) (chunks : List (List UInt8)) : Prop :=
  ∃ windows, encodeChunks winsize chunks {} = some windows ∧ windows.flatten = chunks.flatten

/-- `buf_avail` after a chunk of `n` bytes without flush, from `held` before it. -/
def heldAfter (winsize held n : ℕ) : ℕ :=
  if held = 0 ∧ winsize ≤ n then 0
  else if held + n < winsize then held + n
  else if held + n < 2 * winsize then held + n - winsize else 0

/-- No chunk arriving while input is held brings more than two windows in all. -/
def Gathers (winsize : ℕ) : ℕ → List (List UInt8) → Prop
  | _, [] => True
  | held, chunk :: chunks =>
    (held ≠ 0 → held + chunk.length ≤ 2 * winsize) ∧
      Gathers winsize (heldAfter winsize held chunk.length) chunks

instance (winsize : ℕ) : (held : ℕ) → (chunks : List (List UInt8)) →
    Decidable (Gathers winsize held chunks)
  | _, [] => .isTrue trivial
  | held, chunk :: chunks =>
    have := instDecidableGathers winsize (heldAfter winsize held chunk.length) chunks
    inferInstanceAs (Decidable ((held ≠ 0 → _) ∧ _))

section Chunk

variable {winsize : ℕ} {flush : Bool} {s : EncInput} {chunk : List UInt8}

/-- Nothing is copied past the buffer once it holds at most `winsize` bytes. -/
theorem fillBuffer_eq (hw : winsize < usize.modulus) (hb : s.bufIn.length ≤ winsize) :
    fillBuffer winsize flush s =
      if winsize - s.bufIn.length < s.window.length then
        .ok () { nextIn := some (s.bufIn ++ s.window.take (winsize - s.bufIn.length)), bufIn := [],
                 bufLeftover := some (s.window.drop (winsize - s.bufIn.length)) }
      else if s.bufIn.length + s.window.length < winsize ∧ flush = false then
        .starved { s with bufIn := s.bufIn ++ s.window }
      else .ok () { s with nextIn := some (s.bufIn ++ s.window), bufIn := [] } := by
  have hroom : usize.sub winsize s.bufIn.length = winsize - s.bufIn.length :=
    Width.sub_eq usize hw hb
  unfold fillBuffer
  dsimp only
  rw [hroom, if_neg (by omega)]
  by_cases hlong : winsize - s.bufIn.length < s.window.length
  · rw [min_eq_left hlong.le, if_pos hlong, if_pos hlong]
  · have hmin : min (winsize - s.bufIn.length) s.window.length = s.window.length := by omega
    rw [hmin, if_neg (lt_irrefl _), if_neg hlong, List.take_length, List.length_append]

theorem windowsFrom_starved (fuel : ℕ) :
    windowsFrom winsize flush fuel (.starved s) = some ([], s) := by
  cases fuel <;> rfl

/-- A window after which nothing is left over is the last of its chunk. -/
theorem windowsFrom_last (fuel : ℕ) (hnone : s.bufLeftover = none) :
    windowsFrom winsize flush (fuel + 1) (.ok () s) =
      some ([s.window], { s with nextIn := s.nextIn.map fun _ => [] }) := by
  have hpost : encPostwin winsize flush s = .starved { s with nextIn := s.nextIn.map fun _ => [] } := by
    simp [encPostwin, hnone]
  rw [windowsFrom, hpost, windowsFrom_starved]
  rfl

theorem encodeBufferLeftover_none (hnone : s.bufLeftover = none) :
    encodeBufferLeftover winsize flush s = fillBuffer winsize flush s := by
  unfold encodeBufferLeftover takeLeftover
  rw [hnone]
  dsimp only
  rw [Outcome.andThen_ok]

theorem encodeBufferLeftover_some {left : List UInt8} (hleft : s.bufLeftover = some left)
    (hfits : left.length ≤ winsize) :
    encodeBufferLeftover winsize flush s =
      fillBuffer winsize flush { s with bufIn := left, bufLeftover := none } := by
  unfold encodeBufferLeftover takeLeftover
  rw [hleft]
  dsimp only
  rw [if_pos hfits, Outcome.andThen_ok]

theorem encodeBufferLeftover_overrun {left : List UInt8} (hleft : s.bufLeftover = some left)
    (hover : ¬ left.length ≤ winsize) : encodeBufferLeftover winsize flush s = .fault := by
  unfold encodeBufferLeftover takeLeftover
  rw [hleft]
  dsimp only
  rw [if_neg hover, Outcome.andThen_fault]

theorem encFlush_gathers
    (hheld : s.bufLeftover.isSome ∨ s.bufIn ≠ [] ∨ (s.window.length < winsize ∧ flush = false)) :
    encFlush winsize flush s = encodeBufferLeftover winsize flush s := by
  rw [encFlush]
  rw [if_pos hheld]

theorem encFlush_direct (hnone : s.bufLeftover = none) (hempty : s.bufIn = [])
    (hlong : winsize ≤ s.window.length ∨ flush = true) : encFlush winsize flush s = .ok () s := by
  have hstay : ¬ (s.bufLeftover.isSome ∨ s.bufIn ≠ [] ∨
      (s.window.length < winsize ∧ flush = false)) := by
    rw [hnone, hempty]
    rcases hlong with hlong | hflush
    · simp [Nat.not_lt.2 hlong]
    · simp [hflush]
  rw [encFlush]
  rw [if_neg hstay]

theorem encPostwin_eq {left window : List UInt8} (hleft : s.bufLeftover = some left)
    (hnext : s.nextIn = some window) :
    encPostwin winsize flush s =
      encodeBufferLeftover winsize flush { s with nextIn := some [] } := by
  have hgo : ({ s with nextIn := some [] } : EncInput).bufLeftover.isSome = true := by
    simp only [hleft, Option.isSome_some]
  unfold encPostwin
  dsimp only
  rw [hnext, Option.map_some]
  rw [if_pos hgo, encFlush_gathers (Or.inl hgo)]

/-- The leftover goes through the buffer, where it fits there. -/
theorem encPostwin_leftover {left window : List UInt8} (hw : winsize < usize.modulus)
    (hfits : left.length ≤ winsize) :
    encPostwin winsize flush ⟨some window, [], some left⟩ =
      if left.length < winsize ∧ flush = false then .starved ⟨some [], left, none⟩
      else .ok () ⟨some left, [], none⟩ := by
  have hfill := @fillBuffer_eq winsize flush ⟨some [], left, none⟩ hw hfits
  have hshort : ¬ winsize - left.length < (EncInput.mk (some []) left none).window.length :=
    Nat.not_lt_zero _
  rw [if_neg hshort] at hfill
  rw [@encPostwin_eq winsize flush ⟨some window, [], some left⟩ left window rfl rfl, encodeBufferLeftover_some rfl hfits, hfill]
  simp only [EncInput.window, Option.getD_some, List.length_nil, Nat.add_zero, List.append_nil]

theorem encPostwin_overrun {left window : List UInt8} (hover : winsize < left.length) :
    encPostwin winsize flush ⟨some window, [], some left⟩ = .fault := by
  rw [@encPostwin_eq winsize flush ⟨some window, [], some left⟩ left window rfl rfl,
    encodeBufferLeftover_overrun rfl (Nat.not_le.2 hover)]

end Chunk

section Chunks

variable {winsize : ℕ} {flush : Bool} {next : Option (List UInt8)} {held chunk : List UInt8}

/-- A chunk that fills a window alone, or is flushed alone, is used where it lies. -/
theorem encodeChunk_direct (hlong : winsize ≤ chunk.length ∨ flush = true) :
    encodeChunk winsize flush chunk ⟨next, [], none⟩ = some ([chunk], ⟨some [], [], none⟩) := by
  have hcall : encInput winsize flush (availInput ⟨next, [], none⟩ chunk) =
      .ok () ⟨some chunk, [], none⟩ :=
    encFlush_direct  rfl rfl hlong
  rw [encodeChunk, hcall, windowsFrom_last _ rfl]
  rfl

theorem encInput_gathers (hheld : held ≠ [] ∨ (chunk.length < winsize ∧ flush = false)) :
    encInput winsize flush (availInput ⟨next, held, none⟩ chunk) =
      fillBuffer winsize flush ⟨some chunk, held, none⟩ := by
  have hgo := @encFlush_gathers winsize flush ⟨some chunk, held, none⟩ (Or.inr hheld)
  rw [encodeBufferLeftover_none rfl] at hgo
  exact hgo

theorem encodeChunk_gathers (hw : winsize < usize.modulus) (hroom : held.length ≤ winsize)
    (hheld : held ≠ [] ∨ (chunk.length < winsize ∧ flush = false)) :
    encodeChunk winsize flush chunk ⟨next, held, none⟩ =
      if winsize - held.length < chunk.length then
        windowsFrom winsize flush (chunk.length + 2)
          (.ok () ⟨some (held ++ chunk.take (winsize - held.length)), [],
            some (chunk.drop (winsize - held.length))⟩)
      else if held.length + chunk.length < winsize ∧ flush = false then
        some ([], ⟨some chunk, held ++ chunk, none⟩)
      else some ([held ++ chunk], ⟨some [], [], none⟩) := by
  have hfill := @fillBuffer_eq winsize flush ⟨some chunk, held, none⟩ hw hroom
  have hwindow : (EncInput.mk (some chunk) held none).window = chunk := rfl
  rw [encodeChunk, encInput_gathers hheld, hfill]
  simp only [hwindow]
  split_ifs with hlong hshort
  · rfl
  · exact windowsFrom_starved _
  · exact windowsFrom_last _ rfl

/-- The window filled up from the chunk, and what is left over where that fits the buffer. -/
theorem windowsFrom_spill {window left : List UInt8} (hw : winsize < usize.modulus) (fuel : ℕ)
    (hfits : left.length ≤ winsize) :
    windowsFrom winsize flush (fuel + 2) (.ok () ⟨some window, [], some left⟩) =
      if left.length < winsize ∧ flush = false then some ([window], ⟨some [], left, none⟩)
      else some ([window, left], ⟨some [], [], none⟩) := by
  rw [windowsFrom, encPostwin_leftover hw hfits]
  split_ifs with hshort
  · rw [windowsFrom_starved]
    rfl
  · rw [windowsFrom_last _ rfl]
    rfl

theorem windowsFrom_overrun {window left : List UInt8} (fuel : ℕ) (hover : winsize < left.length) :
    windowsFrom winsize flush (fuel + 2) (.ok () ⟨some window, [], some left⟩) = none := by
  rw [windowsFrom, encPostwin_overrun hover]
  rfl

theorem heldAfter_room (w b n : ℕ) : heldAfter w b n = 0 ∨ heldAfter w b n < w := by
  unfold heldAfter
  split_ifs <;> omega

/-- A chunk that brings no more than two windows with what is held: the windows and what is
held afterwards are the bytes that were there, in order. -/
theorem encodeChunk_keeps (hw : winsize < usize.modulus)
    (hroom : held = [] ∨ held.length < winsize)
    (hfits : held ≠ [] → held.length + chunk.length ≤ 2 * winsize) :
    ∃ windows next' held',
      encodeChunk winsize flush chunk ⟨next, held, none⟩ = some (windows, ⟨next', held', none⟩) ∧
      windows.flatten ++ held' = held ++ chunk ∧
      (flush = true → held' = []) ∧
      (flush = false → held'.length = heldAfter winsize held.length chunk.length) := by
  by_cases hdirect : held = [] ∧ (winsize ≤ chunk.length ∨ flush = true)
  · obtain ⟨rfl, hlong⟩ := hdirect
    refine ⟨[chunk], some [], [], encodeChunk_direct hlong, by simp, fun _ => rfl, ?_⟩
    intro hflush
    have hle : winsize ≤ chunk.length := by simpa [hflush] using hlong
    simp [heldAfter, hle]
  · have hheld : held ≠ [] ∨ (chunk.length < winsize ∧ flush = false) := by
      by_cases hempty : held = []
      · right
        simpa [hempty] using hdirect
      · exact Or.inl hempty
    have hle : held.length ≤ winsize := by
      rcases hroom with rfl | hlt
      · exact Nat.zero_le _
      · exact hlt.le
    have hfull : ¬ (held.length = 0 ∧ winsize ≤ chunk.length) ∨ flush = true := by
      rcases hheld with hne | ⟨hlt, -⟩
      · exact Or.inl fun h => hne (List.length_eq_zero_iff.1 h.1)
      · exact Or.inl fun h => absurd h.2 (by omega)
    have hrun := @encodeChunk_gathers winsize flush next held chunk hw hle hheld
    by_cases hlong : winsize - held.length < chunk.length
    · -- the window is filled and the rest goes through the buffer
      have hne : held ≠ [] := by
        rintro rfl
        rcases hheld with hne | ⟨hlt, -⟩
        · exact hne rfl
        · simp only [List.length_nil] at hlong
          omega
      have hpos : 0 < held.length := List.length_pos_iff.2 hne
      have htwo := hfits hne
      have hleft : (chunk.drop (winsize - held.length)).length =
          held.length + chunk.length - winsize := by
        rw [List.length_drop]
        omega
      rw [if_pos hlong, windowsFrom_spill hw _ (by omega)] at hrun
      by_cases hshort : (chunk.drop (winsize - held.length)).length < winsize ∧ flush = false
      · rw [if_pos hshort] at hrun
        refine ⟨_, _, _, hrun, by simp, fun hflush => ?_, fun _ => ?_⟩
        · exact absurd hshort.2 (by simp [hflush])
        · unfold heldAfter
          rw [if_neg (by omega), if_neg (by omega), if_pos (by omega), hleft]
      · rw [if_neg hshort] at hrun
        refine ⟨_, _, _, hrun, by simp, fun _ => rfl, fun hflush => ?_⟩
        have hfull : ¬ (chunk.drop (winsize - held.length)).length < winsize :=
          fun h => hshort ⟨h, hflush⟩
        unfold heldAfter
        rw [if_neg (by omega), if_neg (by omega), if_neg (by omega)]
        rfl
    · rw [if_neg hlong] at hrun
      by_cases hshort : held.length + chunk.length < winsize ∧ flush = false
      · rw [if_pos hshort] at hrun
        refine ⟨_, _, _, hrun, by simp, fun hflush => ?_, fun _ => ?_⟩
        · exact absurd hshort.2 (by simp [hflush])
        · unfold heldAfter
          rw [if_neg (by omega), if_pos hshort.1, List.length_append]
      · rw [if_neg hshort] at hrun
        refine ⟨_, _, _, hrun, by simp, fun _ => rfl, fun hflush => ?_⟩
        have hfull : ¬ held.length + chunk.length < winsize := fun h => hshort ⟨h, hflush⟩
        unfold heldAfter
        split_ifs
        all_goals simp only [List.length_nil]
        omega

theorem encodeChunk_overruns (hw : winsize < usize.modulus) (hroom : held.length ≤ winsize)
    (hne : held ≠ []) (hlong : 2 * winsize < held.length + chunk.length) :
    encodeChunk winsize flush chunk ⟨next, held, none⟩ = none := by
  have hleft : winsize < (chunk.drop (winsize - held.length)).length := by
    rw [List.length_drop]
    omega
  rw [encodeChunk_gathers hw hroom (Or.inl hne), if_pos (by omega), windowsFrom_overrun _ hleft]

end Chunks

theorem encodeChunks_right {winsize : ℕ} (hw : winsize < usize.modulus) (chunks : List (List UInt8))
    (next : Option (List UInt8)) (held : List UInt8)
    (hroom : held = [] ∨ held.length < winsize) (hsome : chunks ≠ [])
    (hgathers : Gathers winsize held.length chunks) :
    ∃ windows, encodeChunks winsize chunks ⟨next, held, none⟩ = some windows ∧
      windows.flatten = held ++ chunks.flatten := by
  induction chunks generalizing next held with
  | nil => exact absurd rfl hsome
  | cons chunk chunks ih =>
    obtain ⟨hfits, hrest⟩ := hgathers
    have hfits' : held ≠ [] → held.length + chunk.length ≤ 2 * winsize := fun hne =>
      hfits fun h => hne (List.length_eq_zero_iff.1 h)
    cases chunks with
    | nil =>
      obtain ⟨windows, next', held', hrun, hbytes, hflushed, -⟩ :=
        @encodeChunk_keeps winsize true next held chunk hw hroom hfits'
      rw [hflushed rfl, List.append_nil] at hbytes
      refine ⟨windows, ?_, by simpa using hbytes⟩
      rw [encodeChunks, hrun]
      rfl
    | cons second chunks =>
      obtain ⟨windows, next', held', hrun, hbytes, -, hheld⟩ :=
        @encodeChunk_keeps winsize false next held chunk hw hroom hfits'
      rw [← hheld rfl] at hrest
      have hroom' : held' = [] ∨ held'.length < winsize := by
        rcases heldAfter_room winsize held.length chunk.length with h | h
        · exact Or.inl (List.length_eq_zero_iff.1 ((hheld rfl).trans h))
        · exact Or.inr ((hheld rfl).trans_lt h)
      obtain ⟨windows', hrun', hbytes'⟩ := ih next' held' hroom' (by simp) hrest
      refine ⟨windows ++ windows', ?_, ?_⟩
      · rw [encodeChunks, hrun, Option.bind_some, hrun', Option.map_some]
        simp
      · rw [List.flatten_append, hbytes', ← List.append_assoc, hbytes, List.append_assoc]
        rfl

theorem encodeChunks_overruns {winsize : ℕ} (hw : winsize < usize.modulus)
    (chunks : List (List UInt8)) (next : Option (List UInt8)) (held : List UInt8)
    (hroom : held = [] ∨ held.length < winsize) (hnot : ¬ Gathers winsize held.length chunks) :
    encodeChunks winsize chunks ⟨next, held, none⟩ = none := by
  induction chunks generalizing next held with
  | nil => exact absurd trivial hnot
  | cons chunk chunks ih =>
    by_cases hfits : held ≠ [] → held.length + chunk.length ≤ 2 * winsize
    · have hrest : ¬ Gathers winsize (heldAfter winsize held.length chunk.length) chunks :=
        fun h => hnot ⟨fun hne => hfits fun h0 => hne (by rw [h0]; rfl), h⟩
      cases chunks with
      | nil => exact absurd trivial hrest
      | cons second chunks =>
        obtain ⟨windows, next', held', hrun, -, -, hheld⟩ :=
          @encodeChunk_keeps winsize false next held chunk hw hroom hfits
        rw [← hheld rfl] at hrest
        have hroom' : held' = [] ∨ held'.length < winsize := by
          rcases heldAfter_room winsize held.length chunk.length with h | h
          · exact Or.inl (List.length_eq_zero_iff.1 ((hheld rfl).trans h))
          · exact Or.inr ((hheld rfl).trans_lt h)
        rw [encodeChunks, hrun, Option.bind_some, ih next' held' hroom' hrest]
        · rfl
        · simp
    · obtain ⟨hne, hlong⟩ := Classical.not_imp.1 hfits
      have hle : held.length ≤ winsize := by
        rcases hroom with rfl | hlt
        · exact absurd rfl hne
        · exact hlt.le
      have hover : ∀ flush, encodeChunk winsize flush chunk ⟨next, held, none⟩ = none := fun _ =>
        encodeChunk_overruns hw hle hne (by omega)
      cases chunks with
      | nil =>
        rw [encodeChunks, hover]
        rfl
      | cons second chunks =>
        rw [encodeChunks, hover]
        · rfl
        · simp

/-- The windows hold the chunks and no copy leaves the buffer exactly when no chunk arriving
while input is held brings more than two windows with it. -/
theorem buffersRight_iff_gathers (winsize : ℕ) (chunks : List (List UInt8))
    (hw : winsize < usize.modulus) : BuffersRight winsize chunks ↔ Gathers winsize 0 chunks := by
  constructor
  · rintro ⟨windows, hrun, -⟩
    by_contra hnot
    have hnone := encodeChunks_overruns hw chunks none [] (Or.inl rfl) hnot
    rw [show ({} : EncInput) = ⟨none, [], none⟩ from rfl, hnone] at hrun
    exact absurd hrun (by simp)
  · intro hgathers
    cases chunks with
    | nil => exact ⟨[], rfl, rfl⟩
    | cons chunk chunks =>
      exact encodeChunks_right hw (chunk :: chunks) none [] (Or.inl rfl) (by simp) hgathers

/-- A byte held, a chunk two windows longer than the room, a flush with nothing more. -/
theorem buffersRight_gathered :
    (4 : ℕ) < usize.modulus ∧ BuffersRight 4 [[1], [2, 3, 4, 5, 6, 7, 8], []] :=
  have hw : 4 < usize.modulus := by decide
  ⟨hw, (buffersRight_iff_gathers 4 [[1], [2, 3, 4, 5, 6, 7, 8], []] hw).2 (by decide)⟩

/-- With one byte held and windows of two, a chunk of four leaves three for a buffer of two. -/
theorem buffersRight_fails : ¬ BuffersRight 2 [[1], [2, 3, 4, 5]] := by
  have hnone : encodeChunks 2 [[1], [2, 3, 4, 5]] {} = none := by decide +kernel
  rintro ⟨windows, hrun, -⟩
  rw [hnone] at hrun
  cases hrun

end Xdelta
