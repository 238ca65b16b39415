import EventReadout.Frame.Draft
import EventReadout.Timestamp.Full
import EventReadout.Word.Data

/-!
Synthetic acquisitions: frame `f` carries time slice `f`, one coarse period after the frame before,
and an idle frame ends the dump.
-/
namespace EventReadout

structure Simulation where
  /-- Standard frames before the closing idle frame. -/
  frames : Nat
  eventsPerPacket : Nat
  /-- Slots left out at the end of every frame. -/
  droppedSlots : Nat
  deriving DecidableEq, Repr

namespace Simulation

/-- Its match code is zero, so that the events of a frame share one period. -/
def coarseBase : UInt64 := 0x100000000

def coarse (frame : Nat) : UInt64 := coarseBase + UInt64.ofNat frame * Timestamp.period

def packets (s : Simulation) (c : Config) : Nat := c.packetSlots - s.droppedSlots

/-- Event `k` of a slot; offsets never leave the period. -/
def eventWord (s : Simulation) (coarse : UInt64) (slot k : Nat) : DataWord :=
  let offset := UInt64.ofNat ((slot * s.eventsPerPacket + k) * 8) % Timestamp.period
  .event (UInt32.ofNat (slot * 1000 + k)) ((coarse &&& ~~~Timestamp.highMask) + offset)
    (UInt16.ofNat (k % 0x3FFF))

def payload (s : Simulation) (coarse : UInt64) (slot : Nat) : List UInt64 :=
  (DataWord.extendedTimestamp coarse).raw ::
    (List.range s.eventsPerPacket).map fun k => (s.eventWord coarse slot k).raw

/-- Numbers beyond 32 bits stay at the largest. -/
def header (c : Config) (frame slot : Nat) : PacketHeader where
  packetNumber := UInt32.ofNat (min (frame * c.packetSlots + slot) 0xFFFFFFFF)
  wrap := UInt32.ofNat (min (frame / c.sliceBuffers) 0xFFFFFFFF)
  buffer := UInt32.ofNat (frame % c.sliceBuffers)

def draft (s : Simulation) (c : Config) (frame : Nat) : FrameDraft :=
  (List.range (s.packets c)).foldl
    (fun d slot => d.fill slot (header c frame slot) (s.payload (coarse frame) slot))
    { number := UInt64.ofNat frame }

/-- The idle frame at the end. -/
def closing (s : Simulation) : FrameDraft := { number := UInt64.ofNat s.frames, idle := true }

/-- The frames written so far and the events in them. -/
structure Written where
  frames : Array Bytes := #[]
  events : UInt64 := 0

def encodeFrame (c : Config) (d : FrameDraft) : Except CommandError Bytes :=
  (d.encode c).mapError .decode

/-- The events of a frame are counted packet by packet. -/
def writeFrame (s : Simulation) (c : Config) (w : Written) (frame : Nat) :
    Except CommandError Written := do
  let bytes ← encodeFrame c (s.draft c frame)
  let events := (List.range (s.packets c)).foldl
    (fun events _ => events + UInt64.ofNat s.eventsPerPacket) w.events
  return { frames := w.frames.push bytes, events }

/-- The whole dump and its events, provided these and their timestamp word fit a packet. -/
def encode (s : Simulation) (c : Config) : Except CommandError (Bytes × UInt64) := do
  let capacity := c.payloadWords - 1
  if capacity < s.eventsPerPacket then
    throw (.fault (.config (.tooManyEvents s.eventsPerPacket capacity)))
  let w ← (List.range s.frames).foldlM (s.writeFrame c) {}
  let closing ← encodeFrame c s.closing
  return (w.frames.toList.flatten ++ closing, w.events)

end Simulation
end EventReadout
