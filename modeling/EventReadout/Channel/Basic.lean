/-! Output channels and the frames emitted on them. -/
namespace EventReadout

/-- Width of the values a frame holds. -/
inductive ElementType
  | uint32
  | uint64
  deriving DecidableEq, Repr

/-- Type codes of the downstream writer. -/
def ElementType.code : ElementType → Nat
  | uint32 => 2
  | uint64 => 3

def ElementType.bytes : ElementType → Nat
  | uint32 => 4
  | uint64 => 8

inductive Channel
  | timeOffset
  | id
  | energy
  deriving DecidableEq, Repr

namespace Channel

/-- In the order in which a job's frames are emitted. -/
def all : List Channel := [timeOffset, id, energy]

def dataset : Channel → String
  | timeOffset => "event_time_offset"
  | id => "event_id"
  | energy => "event_energy"

def elementType : Channel → ElementType
  | timeOffset => .uint64
  | id | energy => .uint32

end Channel

inductive ChannelData
  | u32 (values : Array UInt32)
  | u64 (values : Array UInt64)
  deriving DecidableEq, Repr

namespace ChannelData

def size : ChannelData → Nat
  | u32 values => values.size
  | u64 values => values.size

def elementType : ChannelData → ElementType
  | u32 _ => .uint32
  | u64 _ => .uint64

def u32? : ChannelData → Option (Array UInt32)
  | u32 values => some values
  | u64 _ => none

def u64? : ChannelData → Option (Array UInt64)
  | u32 _ => none
  | u64 values => some values

end ChannelData

/-- A frame carries one scalar per element, so it has no dimensions of its own. -/
structure OutputFrame where
  channel : Channel
  number : Nat
  data : ChannelData
  dimensions : List Nat := []
  deriving DecidableEq, Repr

namespace OutputFrame

def dataset (f : OutputFrame) : String := f.channel.dataset

def elementType (f : OutputFrame) : ElementType := f.data.elementType

def size (f : OutputFrame) : Nat := f.data.size

def isEmpty (f : OutputFrame) : Bool := f.size == 0

end OutputFrame
end EventReadout
