/-! Time slices: a wrap generation and a buffer index inside it. -/
namespace EventReadout

structure TimeSlice where
  wrap : Nat := 0
  buffer : Nat := 0
  deriving DecidableEq, Repr, Inhabited

namespace TimeSlice

def id (s : TimeSlice) : Nat := (s.wrap <<< 8) ||| s.buffer

/-- Generations first, then buffers. -/
def Le (s t : TimeSlice) : Prop := s.wrap < t.wrap ∨ s.wrap = t.wrap ∧ s.buffer ≤ t.buffer

instance : LE TimeSlice := ⟨Le⟩

instance (s t : TimeSlice) : Decidable (s ≤ t) := inferInstanceAs (Decidable (_ ∨ _))

end TimeSlice
end EventReadout
