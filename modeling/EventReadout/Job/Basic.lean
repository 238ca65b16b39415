import EventReadout.Event
import EventReadout.Packet.Header
import EventReadout.Word.Data

/-! Jobs: one primary packet's payload together with what was decoded from it. -/
namespace EventReadout

/-- A control word and the number of events decoded before it. -/
structure ControlMark where
  word : DataWord
  index : Nat
  deriving DecidableEq, Repr

structure DecodedWords where
  events : EventBatch := {}
  controls : Array ControlMark := #[]
  /-- Events dropped because no coarse timestamp explains them. -/
  mismatches : Array TimestampMismatch := #[]
  /-- The payload did not open with an extended timestamp. -/
  malformedStart : Bool := false
  deriving DecidableEq, Repr, Inhabited

structure Job where
  slot : Nat := 0
  packetNumber : Nat := 0
  slice : TimeSlice := {}
  words : List DataWord := []
  decoded : DecodedWords := {}
  deriving DecidableEq, Repr, Inhabited

namespace Job

/-- A job that belongs to no packet yet. -/
def blank : Job := {}

def assign (j : Job) (slot : Nat) (header : PacketHeader) : Job :=
  { j with slot, packetNumber := header.packetNumber.toNat, slice := header.slice }

def appendWords (j : Job) (words : List UInt64) : Job :=
  { j with words := j.words ++ words.map DataWord.mk }

def clearResults (j : Job) : Job := { j with decoded := { events := j.decoded.events.clear } }

def reset (j : Job) : Job :=
  { j.clearResults with slot := 0, packetNumber := 0, slice := {}, words := [] }

theorem reset_eq_blank (j : Job) : j.reset = blank := rfl

end Job
end EventReadout
