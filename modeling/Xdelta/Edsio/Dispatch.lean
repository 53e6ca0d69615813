import Mathlib.Data.List.Sort
import Mathlib.Data.Nat.Bitwise
import Mathlib.Tactic.Common

/-!
# Types registered and read

Objects of the first xdelta are read by a type code: its low byte is a library,
the bits above it the type. The entry of a code is looked for in the sorted array
of the registered types; a caller then asks whether the type is one it accepts.
-/
namespace Xdelta.Edsio

/-- A 32-bit value as a `gint`. -/
def gint (n : ℕ) : ℤ := if n % 2 ^ 32 < 2 ^ 31 then (n % 2 ^ 32 : ℕ) else (n % 2 ^ 32 : ℕ) - 2 ^ 32

/-- `EDSIO_LIBRARY_OFFSET_MASK`. -/
def libraryMask : ℕ := 0xff

def libraryOf (code : ℕ) : ℕ := code &&& libraryMask

/-- The bits of a code above its library, `code & ~EDSIO_LIBRARY_OFFSET_MASK`. -/
def typeBits (code : ℕ) : ℕ := code &&& 0xffffff00

/-- The type is one of those whose bits are in `accept`. -/
def Accepted (type accept : ℕ) : Prop :=
  libraryOf type = libraryOf accept ∧ typeBits type ≠ 0 ∧
    typeBits type &&& typeBits accept = typeBits type

instance (type accept : ℕ) : Decidable (Accepted type accept) :=
  inferInstanceAs (Decidable (_ ∧ _ ∧ _))

section Search

variable {serArray : List SerEntry} {type : ℤ}

end Search

section Entry

variable {known : ℕ → Bool} {registered : List SerEntry} {type : ℤ}

end Entry

section Acceptance

variable {known : ℕ → Bool} {registered : List SerEntry} {unserialize : ℕ → Bool} {type accept : ℕ}

end Acceptance

end Xdelta.Edsio
