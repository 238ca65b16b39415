import EventReadout.Channel.Basic
import EventReadout.Host

/-!
Accumulators that cut a channel's values into frames of fixed capacity.

With `n` processes, the process of rank `r` numbers its frames `r`, `r + n`, `r + 2n` and so on.
-/
namespace EventReadout

/-- Values that a channel can carry. -/
class ChannelElement (α : Type) where
  toData : Array α → ChannelData

instance : ChannelElement UInt32 := ⟨.u32⟩

instance : ChannelElement UInt64 := ⟨.u64⟩

/-- Bytes of one value in memory. -/
def ChannelElement.bytes (α : Type) [ChannelElement α] : Nat :=
  (toData (#[] : Array α)).elementType.bytes

structure ChannelBuffer (α : Type) where
  channel : Channel
  /-- Values in a full frame. -/
  capacity : Nat
  pending : Array α := #[]
  /-- Number of the next frame. -/
  next : Nat := 0
  processes : Nat := 1
  rank : Nat := 0
  deriving DecidableEq, Repr

namespace ChannelBuffer

variable {α : Type} [ChannelElement α]

/-- A capacity of zero counts as one. -/
def ofCapacity (channel : Channel) (capacity : Nat) : ChannelBuffer α :=
  { channel, capacity := max capacity 1 }

/-- Numbering restarts at the rank. -/
def configure (b : ChannelBuffer α) (processes rank : Nat) : ChannelBuffer α :=
  { b with processes, rank, next := rank }

def restart (b : ChannelBuffer α) : ChannelBuffer α := { b with next := b.rank }

/-- All pending values leave in one frame. -/
def emit (b : ChannelBuffer α) : OutputFrame × ChannelBuffer α :=
  (⟨b.channel, b.next, ChannelElement.toData b.pending, []⟩,
    { b with pending := #[], next := b.next + b.processes })

/-- A value that fills the frame sends it off. -/
def push (b : ChannelBuffer α) (frames : Array OutputFrame) (value : α) :
    Array OutputFrame × ChannelBuffer α :=
  let ⟨channel, capacity, pending, next, processes, rank⟩ := b
  let b : ChannelBuffer α := ⟨channel, capacity, pending.push value, next, processes, rank⟩
  if b.pending.size < capacity then (frames, b)
  else
    let (frame, b) := b.emit
    (frames.push frame, b)

def append (b : ChannelBuffer α) (values : Array α) : List OutputFrame × ChannelBuffer α :=
  let (frames, b) := values.foldl (fun (frames, b) value => b.push frames value) (#[], b)
  (frames.toList, b)

/-- The partly filled frame, if any values are pending. -/
def flush (b : ChannelBuffer α) : List OutputFrame × ChannelBuffer α :=
  if b.pending.isEmpty then ([], b)
  else
    let (frame, b) := b.emit
    ([frame], b)

section Hosted

variable (h : Host)

def ofCapacityOn (channel : Channel) (capacity : Nat) : Except Halt (ChannelBuffer α) :=
  h.carryOut [.block (capacity * ChannelElement.bytes α)] (.ofCapacity channel capacity)

/-- A frame that leaves takes its memory along, and the number of the next one is counted up. -/
def emitOn (b : ChannelBuffer α) : Except Halt (OutputFrame × ChannelBuffer α) :=
  h.carryOut [.block (b.capacity * ChannelElement.bytes α), .word (b.next + b.processes)] b.emit

def pushOn (b : ChannelBuffer α) (frames : Array OutputFrame) (value : α) :
    Except Halt (Array OutputFrame × ChannelBuffer α) := do
  let b := { b with pending := b.pending.push value }
  if b.pending.size < b.capacity then return (frames, b)
  let (frame, b) ← b.emitOn h
  return (frames.push frame, b)

def appendOn (b : ChannelBuffer α) (values : Array α) :
    Except Halt (List OutputFrame × ChannelBuffer α) := do
  let (frames, b) ← values.foldlM (fun (frames, b) value => b.pushOn h frames value) (#[], b)
  return (frames.toList, b)

def flushOn (b : ChannelBuffer α) : Except Halt (List OutputFrame × ChannelBuffer α) := do
  if b.pending.isEmpty then return ([], b)
  let (frame, b) ← b.emitOn h
  return ([frame], b)

end Hosted

end ChannelBuffer
end EventReadout
