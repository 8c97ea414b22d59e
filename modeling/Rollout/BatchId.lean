/-!
Identifiers of batches. An identifier has 128 bits: the time in milliseconds, the version of this
form, which is seven, and random bits around the two that mark the variant. Identifiers that are
made later sort later.
-/

set_option autoImplicit false
set_option relaxedAutoImplicit false

namespace Rollout

/-- The identifier of a batch. -/
structure BatchId where
  bits : BitVec 128
deriving DecidableEq, Repr

namespace BatchId

/-- The identifier made of a time and 74 random bits. -/
def make (millis : BitVec 48) (first : BitVec 12) (rest : BitVec 62) : BatchId :=
  ⟨millis ++ (7#4) ++ first ++ (2#2) ++ rest⟩

/-- The version that an identifier says it is of. -/
def version (id : BatchId) : Nat := (id.bits.extractLsb' 76 4).toNat

end BatchId

end Rollout
