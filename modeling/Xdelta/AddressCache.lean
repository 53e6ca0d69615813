import Xdelta.Integer
import Mathlib.Logic.Function.Basic

/-!
# The address cache

Copy addresses are coded relative to the four most recent addresses, to a hash
table of addresses by their low bits, to the start of the window or to the
current position. Encoder and decoder update the same cache in step.
-/
namespace Xdelta

/-- `xd3_addr_cache`. The arrays are total functions; their sizes are `sNear`
and `sSame * 256`, and an index at or beyond them is outside the allocation. -/
structure AddrCache where
  sNear : ℕ
  sSame : ℕ
  nextSlot : ℕ
  nearArray : ℕ → ℕ
  sameArray : ℕ → ℕ

namespace AddrCache

/-- `xd3_init_cache`. -/
def init (c : AddrCache) : AddrCache :=
  { c with
    nearArray := if 0 < c.sNear then fun _ => 0 else c.nearArray
    nextSlot := if 0 < c.sNear then 0 else c.nextSlot
    sameArray := if 0 < c.sSame then fun _ => 0 else c.sameArray }

/-- `xd3_update_cache`. -/
def update (c : AddrCache) (addr : ℕ) : AddrCache :=
  { c with
    nearArray := if 0 < c.sNear then Function.update c.nearArray c.nextSlot addr else c.nearArray
    nextSlot := if 0 < c.sNear then (c.nextSlot + 1) % c.sNear else c.nextSlot
    sameArray :=
      if 0 < c.sSame then Function.update c.sameArray (addr % (c.sSame * 256)) addr
      else c.sameArray }

def rfc3284 : AddrCache :=
  { sNear := 4, sSame := 3, nextSlot := 0, nearArray := fun _ => 0, sameArray := fun _ => 0 }

@[simp] theorem init_sNear (c : AddrCache) : c.init.sNear = c.sNear := rfl
@[simp] theorem init_sSame (c : AddrCache) : c.init.sSame = c.sSame := rfl
@[simp] theorem update_sNear (c : AddrCache) (addr : ℕ) : (c.update addr).sNear = c.sNear := rfl
@[simp] theorem update_sSame (c : AddrCache) (addr : ℕ) : (c.update addr).sSame = c.sSame := rfl

end AddrCache

/-- `SMALLEST_INT`: the mask `~127U` has 32 bits whatever the width of the value. -/
def smallestInt (x : ℕ) : Bool := (x &&& 0xffffff80) == 0

/-- The candidate found by the mode search; `good` is the early exit. -/
inductive Candidate where
  | good (bestd bestm : ℕ)
  | best (bestd bestm : ℕ)
  deriving DecidableEq

/-- The loop over the NEAR slots from slot `i` on, `n` slots remaining. -/
def searchNear (c : AddrCache) (addr : ℕ) : ℕ → ℕ → ℕ → ℕ → Candidate
  | 0, _, bestd, bestm => .best bestd bestm
  | n + 1, i, bestd, bestm =>
    if c.nearArray i ≤ addr then
      let d := addr - c.nearArray i
      if d < bestd then
        if smallestInt d then .good d (i + 2) else searchNear c addr n (i + 1) d (i + 2)
      else searchNear c addr n (i + 1) bestd bestm
    else searchNear c addr n (i + 1) bestd bestm

def searchMode (c : AddrCache) (addr here : ℕ) : Candidate :=
  if smallestInt addr then .good addr 0
  else if here - addr < addr then
    if smallestInt (here - addr) then .good (here - addr) 1
    else searchNear c addr c.sNear 0 (here - addr) 1
  else searchNear c addr c.sNear 0 addr 0

/-- `xd3_encode_address`: the bytes for the address section, the mode and the updated cache. -/
def encodeAddress (c : AddrCache) (addr here : ℕ) : List UInt8 × ℕ × AddrCache :=
  match searchMode c addr here with
  | .good bestd bestm => (emitInteger bestd, bestm, c.update addr)
  | .best bestd bestm =>
    let d := addr % (c.sSame * 256)
    if 0 < c.sSame ∧ c.sameArray d = addr then
      ([UInt8.ofNat (d % 256)], c.sNear + 2 + d / 256, c.update addr)
    else (emitInteger bestd, bestm, c.update addr)

/-- How `xd3_decode_address` ends; `fault` is a read outside the section or the cache arrays. -/
inductive DecodedAddress where
  | value (addr inp : ℕ) (c : AddrCache)
  | error (msg : String)
  | fault

/-- `xd3_decode_address` at position `inp` of the section `mem`. -/
def decodeAddress (W : Width) (c : AddrCache) (here mode : ℕ) (mem : List UInt8)
    (inp maxp : ℕ) : DecodedAddress :=
  let sameStart := 2 + c.sNear
  if mode < sameStart then
    match readInteger W mem inp maxp with
    | .fault => .fault
    | .error msg => .error msg
    | .value val inp =>
      match mode with
      | 0 => .value val inp (c.update val)
      | 1 => .value (W.sub here val) inp (c.update (W.sub here val))
      | slot + 2 =>
        .value (W.add val (c.nearArray slot)) inp (c.update (W.add val (c.nearArray slot)))
  else if inp = maxp then .error "address underflow"
  else
    match mem[inp]? with
    | none => .fault
    | some b =>
      let i := (mode - sameStart) * 256 + b.toNat
      if i < c.sSame * 256 then .value (c.sameArray i) (inp + 1) (c.update (c.sameArray i))
      else .fault

/-- What the mode search may return for an address below `here`. -/
inductive ModeOk (c : AddrCache) (addr here : ℕ) : ℕ → ℕ → Prop
  | self : ModeOk c addr here addr 0
  | here : ModeOk c addr here (here - addr) 1
  | near {i} : i < c.sNear → c.nearArray i ≤ addr → ModeOk c addr here (addr - c.nearArray i) (i + 2)

def Candidate.All (P : ℕ → ℕ → Prop) : Candidate → Prop
  | .good d m => P d m
  | .best d m => P d m

private theorem searchNear_ok (c : AddrCache) (addr here : ℕ) :
    ∀ n i bestd bestm, i + n = c.sNear → ModeOk c addr here bestd bestm →
      (searchNear c addr n i bestd bestm).All (ModeOk c addr here)
  | 0, i, bestd, bestm, _, h => h
  | n + 1, i, bestd, bestm, hn, h => by
    have hrec := searchNear_ok c addr here n (i + 1)
    rw [searchNear]
    by_cases hle : c.nearArray i ≤ addr
    · have hnear : ModeOk c addr here (addr - c.nearArray i) (i + 2) := .near (by omega) hle
      rw [if_pos hle]
      dsimp only
      split
      · split
        · exact hnear
        · exact hrec _ _ (by omega) hnear
      · exact hrec _ _ (by omega) h
    · rw [if_neg hle]
      exact hrec _ _ (by omega) h

theorem searchMode_ok (c : AddrCache) (addr here : ℕ) :
    (searchMode c addr here).All (ModeOk c addr here) := by
  rw [searchMode]
  split
  · exact .self
  · split
    · split
      · exact .here
      · exact searchNear_ok c addr here _ _ _ _ (Nat.zero_add _) .here
    · exact searchNear_ok c addr here _ _ _ _ (Nat.zero_add _) .self

private theorem decodeAddress_integer (W : Width) (c : AddrCache) {addr here d m : ℕ}
    (hok : ModeOk c addr here d m) (hlt : addr < here) (hhere : here < W.modulus)
    (pre rest : List UInt8) {maxp : ℕ} (hm : pre.length + (emitInteger d).length ≤ maxp) :
    decodeAddress W c here m (pre ++ (emitInteger d ++ rest)) pre.length maxp =
      .value addr (pre.length + (emitInteger d).length) (c.update addr) := by
  have hd : d < W.modulus := by cases hok <;> omega
  rw [decodeAddress, readInteger_emitInteger W d pre rest hd hm]
  cases hok with
  | self => rw [if_pos (by omega)]
  | here =>
    rw [if_pos (by omega)]
    dsimp only
    rw [W.sub_eq hhere (by omega), show here - (here - addr) = addr by omega]
  | near hi hle =>
    rw [if_pos (by omega)]
    dsimp only
    rw [W.add_eq (by omega), Nat.sub_add_cancel hle]

/-- The decoder reads back an encoded address, consumes exactly its bytes and
leaves the cache the encoder left. -/
theorem decodeAddress_encodeAddress (W : Width) (c : AddrCache) {addr here : ℕ}
    (hlt : addr < here) (hhere : here < W.modulus) (pre rest : List UInt8) {maxp : ℕ}
    (hm : pre.length + (encodeAddress c addr here).1.length ≤ maxp) :
    decodeAddress W c here (encodeAddress c addr here).2.1
        (pre ++ ((encodeAddress c addr here).1 ++ rest)) pre.length maxp =
      .value addr (pre.length + (encodeAddress c addr here).1.length)
        (encodeAddress c addr here).2.2 := by
  have hok := searchMode_ok c addr here
  unfold encodeAddress at *
  cases hs : searchMode c addr here with
  | good d m =>
    rw [hs] at hok
    simp only [hs] at hm ⊢
    exact decodeAddress_integer W c hok hlt hhere pre rest hm
  | best d m =>
    rw [hs] at hok
    simp only [hs] at hm ⊢
    by_cases hsame : 0 < c.sSame ∧ c.sameArray (addr % (c.sSame * 256)) = addr
    · rw [if_pos hsame] at hm ⊢
      have hidx : addr % (c.sSame * 256) < c.sSame * 256 := Nat.mod_lt _ (by omega)
      generalize hx : addr % (c.sSame * 256) = x at hm hsame hidx ⊢
      simp only [List.length_singleton] at hm
      rw [decodeAddress, List.getElem?_append_right (le_refl _), Nat.sub_self]
      simp only [List.singleton_append, List.getElem?_cons_zero, List.length_singleton,
        UInt8.toNat_ofNat']
      rw [if_neg (by omega)]
      rw [if_neg (by omega),
        show (c.sNear + 2 + x / 256 - (2 + c.sNear)) * 256 + x % 256 % 2 ^ 8 = x by omega,
        if_pos hidx, hsame.2]
    · rw [if_neg hsame] at hm ⊢
      exact decodeAddress_integer W c hok hlt hhere pre rest hm

theorem encodeAddress_cache (c : AddrCache) (addr here : ℕ) :
    (encodeAddress c addr here).2.2 = c.update addr := by
  unfold encodeAddress
  split
  · rfl
  · dsimp only
    split <;> rfl

theorem encodeAddress_mode_lt (c : AddrCache) (addr here : ℕ) :
    (encodeAddress c addr here).2.1 < 2 + c.sNear + c.sSame := by
  have hmode : ∀ d m, ModeOk c addr here d m → m < 2 + c.sNear + c.sSame := by
    intro d m hok
    cases hok <;> omega
  have hok := searchMode_ok c addr here
  unfold encodeAddress
  cases hs : searchMode c addr here with
  | good d m => exact hmode d m (by rwa [hs] at hok)
  | best d m =>
    dsimp only
    split
    · rename_i h
      have hidx : addr % (c.sSame * 256) < c.sSame * 256 := Nat.mod_lt _ (by omega)
      have := Nat.div_lt_of_lt_mul (by omega : addr % (c.sSame * 256) < 256 * c.sSame)
      dsimp only
      omega
    · exact hmode d m (by rwa [hs] at hok)

/-- The decoder touches neither the section nor the cache arrays out of bounds. -/
theorem decodeAddress_bounds (W : Width) (c : AddrCache) (here mode : ℕ) (mem : List UInt8)
    (inp maxp : ℕ) (hb : maxp ≤ mem.length) (hi : inp ≤ maxp)
    (hmode : mode < 2 + c.sNear + c.sSame) :
    decodeAddress W c here mode mem inp maxp ≠ .fault ∧
      ∀ a i c', decodeAddress W c here mode mem inp maxp = .value a i c' →
        i ≤ maxp ∧ c' = c.update a := by
  rw [decodeAddress]
  obtain ⟨hf, hv⟩ := readInteger_bounds W mem inp maxp hb hi
  by_cases hm : mode < 2 + c.sNear
  · rw [if_pos hm]
    cases hr : readInteger W mem inp maxp with
    | fault => exact absurd hr hf
    | error msg => simp
    | value val j =>
      have hj := (hv val j hr).2.2
      match mode with
      | 0 => simp [hj]
      | 1 => simp [hj]
      | slot + 2 => simp [hj]
  · rw [if_neg hm]
    by_cases he : inp = maxp
    · simp [he]
    · have hlt : inp < mem.length := by omega
      have hbyte := mem[inp].toNat_lt
      rw [if_neg he, List.getElem?_eq_getElem hlt]
      dsimp only
      rw [if_pos (by
        have : (mode - (2 + c.sNear) + 1) * 256 ≤ c.sSame * 256 :=
          Nat.mul_le_mul_right _ (by omega)
        omega)]
      simp
      omega

end Xdelta
