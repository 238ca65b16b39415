import EventReadout.Slice.Store

/-!
Reassembly of items that arrive out of order.

The mark is the newest slice seen. Buffer `b` of the generation before it is final once the mark
has reached buffer `b`; older generations are final at once.
-/
namespace EventReadout

inductive Verdict
  | accepted
  | stale
  | outOfRange
  deriving DecidableEq, Repr

structure Reassembly (α : Type) where
  store : SliceStore α
  mark : TimeSlice := {}
  deriving DecidableEq, Repr

namespace Reassembly

variable {α : Type}

/-- Items for a buffer that the generation lacks are turned away. -/
def deposit (r : Reassembly α) (slice : TimeSlice) (x : α) : Verdict × Reassembly α :=
  match r.store.add? slice x with
  | some store => (.accepted, { r with store })
  | none => (.outOfRange, r)

/--
A resident generation takes the item, and the mark advances inside its own generation. Any other
generation is opened, and becomes the mark, unless it is more than one before the mark.
-/
def file (r : Reassembly α) (slice : TimeSlice) (x : α) : Verdict × Reassembly α :=
  if r.store.buffers ≤ slice.buffer then (.outOfRange, r)
  else if r.store.contains slice.wrap then
    let mark :=
      if slice.wrap = r.mark.wrap ∧ r.mark.buffer < slice.buffer then slice else r.mark
    { r with mark }.deposit slice x
  else if r.mark.wrap - 1 ≤ slice.wrap then
    { store := r.store.openWrap slice.wrap, mark := slice : Reassembly α }.deposit slice x
  else (.stale, r)

/-- Removes what no later item can precede. -/
def drainFinal (r : Reassembly α) : List α × Reassembly α :=
  if r.mark.wrap = 0 then ([], r)
  else
    let (older, store) := r.store.drainOlder (r.mark.wrap - 1)
    let (slice, store) := store.drainBuffer ⟨r.mark.wrap - 1, r.mark.buffer⟩
    (older ++ slice, { r with store })

/-- Removes everything and forgets the mark. -/
def finish (r : Reassembly α) : List α × Reassembly α :=
  let (items, store) := r.store.drainAll
  (items, { store })

end Reassembly
end EventReadout
