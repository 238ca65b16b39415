import EventReadout.Slice.Generation

/-! Items filed by time slice, drained in ascending order of generation and buffer. -/
namespace EventReadout

structure SliceStore (α : Type) where
  /-- Buckets of every generation. -/
  buffers : Nat
  /-- Resident generations in ascending order. -/
  residents : List (Nat × Generation α) := []
  deriving DecidableEq, Repr

namespace SliceStore

variable {α : Type}

def wraps (s : SliceStore α) : List Nat := s.residents.map (·.1)

def contains (s : SliceStore α) (wrap : Nat) : Bool := s.wraps.contains wrap

def generation? (s : SliceStore α) (wrap : Nat) : Option (Generation α) := s.residents.lookup wrap

/-- All items in the order of their slices, and in order of arrival inside a slice. -/
def toList (s : SliceStore α) : List α := s.residents.flatMap (·.2.toList)

def count (s : SliceStore α) : Nat := s.toList.length

/-- Keeps the generations ascending; a generation that is already there is replaced. -/
def insert (wrap : Nat) (g : Generation α) : List (Nat × Generation α) → List (Nat × Generation α)
  | [] => [(wrap, g)]
  | (w, h) :: rest =>
    if wrap < w then (wrap, g) :: (w, h) :: rest
    else if wrap = w then (wrap, g) :: rest
    else (w, h) :: insert wrap g rest

/-- Makes the generation resident, empty if it was not. -/
def openWrap (s : SliceStore α) (wrap : Nat) : SliceStore α :=
  if s.contains wrap then s
  else { s with residents := insert wrap (.empty s.buffers) s.residents }

/-- Only a resident generation takes items, and only for a buffer it has. -/
def add? (s : SliceStore α) (slice : TimeSlice) (x : α) : Option (SliceStore α) := do
  let g ← (← s.generation? slice.wrap).add? slice.buffer x
  return { s with residents := insert slice.wrap g s.residents }

/-- Removes all generations before `wrap`. -/
def drainOlder (s : SliceStore α) (wrap : Nat) : List α × SliceStore α :=
  let (older, newer) := s.residents.partition (·.1 < wrap)
  (older.flatMap (·.2.toList), { s with residents := newer })

/-- Empties one buffer; its generation stays resident. -/
def drainBuffer (s : SliceStore α) (slice : TimeSlice) : List α × SliceStore α :=
  match s.generation? slice.wrap with
  | none => ([], s)
  | some g =>
    let (items, g) := g.takeBuffer slice.buffer
    (items, { s with residents := insert slice.wrap g s.residents })

def drainAll (s : SliceStore α) : List α × SliceStore α :=
  (s.toList, { s with residents := [] })

end SliceStore
end EventReadout
