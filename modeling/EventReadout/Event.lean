/-! Decoded events and their columns. -/
namespace EventReadout

structure Event where
  timestamp : UInt64
  id : UInt32
  energy : UInt32
  deriving DecidableEq, Repr, Inhabited

/-- Events in the order of decoding, read out column by column. -/
structure EventBatch where
  events : Array Event := #[]
  deriving DecidableEq, Repr, Inhabited

namespace EventBatch

def push (b : EventBatch) (e : Event) : EventBatch := ⟨b.events.push e⟩

def clear (_ : EventBatch) : EventBatch := {}

def size (b : EventBatch) : Nat := b.events.size

def isEmpty (b : EventBatch) : Bool := b.events.isEmpty

def timestamps (b : EventBatch) : Array UInt64 := b.events.map (·.timestamp)

def ids (b : EventBatch) : Array UInt32 := b.events.map (·.id)

def energies (b : EventBatch) : Array UInt32 := b.events.map (·.energy)

@[simp] theorem size_mk (events : Array Event) : (⟨events⟩ : EventBatch).size = events.size := rfl

@[simp] theorem events_push (b : EventBatch) (e : Event) :
    (b.push e).events = b.events.push e := rfl

@[simp] theorem size_push (b : EventBatch) (e : Event) : (b.push e).size = b.size + 1 :=
  Array.size_push e

@[simp] theorem push_mk (events : Array Event) (e : Event) :
    (⟨events⟩ : EventBatch).push e = ⟨events.push e⟩ := rfl

end EventBatch
end EventReadout
