import EventReadout.Error

/-!
Full timestamps from a 24-bit fine value and the last two coarse broadcasts.

Bits 21 and 22 of both values are a match code. A fine value belongs to a coarse period whose code
equals its own or precedes it by one; the comparison does not wrap from 3 to 0.
-/
namespace EventReadout.Timestamp

def matchCode (timestamp : UInt64) : Nat := ((timestamp >>> 21) &&& 3).toNat

/-- Coarse bits above the 24 that a fine timestamp carries. -/
def highMask : UInt64 := 0x000FFFFFFF000000

/-- One step of the match code. -/
def period : UInt64 := 0x200000

/-- The fine value is in the period of the coarse one, or in the next. -/
def Matches (fine coarse : UInt64) : Prop :=
  matchCode fine = matchCode coarse ∨ matchCode fine = matchCode coarse + 1

instance (fine coarse : UInt64) : Decidable (Matches fine coarse) :=
  inferInstanceAs (Decidable (_ ∨ _))

/-- The current coarse value is tried before the previous one. -/
def full (fine previous current : UInt64) : Except TimestampMismatch UInt64 :=
  if Matches fine current then .ok ((current &&& highMask) + fine)
  else if Matches fine previous then .ok ((previous &&& highMask) + fine)
  else .error ⟨fine, current, previous⟩

end EventReadout.Timestamp
