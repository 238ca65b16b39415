import EventReadout.Config.Basic
import EventReadout.Packet.Basic

/-!
Inbound frames: frame number in bytes 0 to 7, idle flag in byte 8, one validity byte per slot from
byte 16 on, padding to a whole word, then one primary packet per slot.
-/
namespace EventReadout

structure Frame where
  number : UInt64
  /-- An idle frame closes an acquisition and carries no packets. -/
  idle : Bool
  /-- One flag per slot; a dropped slot has none. -/
  validity : List Bool
  packets : List (Option Packet)
  deriving DecidableEq, Repr

namespace Frame

def idleOffset : Nat := 8

def validityOffset : Nat := 16

/-- One packet per valid slot. -/
def cutPackets (c : Config) : List Bool → Bytes → List (Option Packet)
  | [], _ => []
  | valid :: rest, bytes =>
    let packet : Packet := ⟨bytes.take c.packetBytes, c.byteOrder, c.headerWords⟩
    (if valid then some packet else none) :: cutPackets c rest (bytes.drop c.packetBytes)

def idleFlag (bytes : Bytes) : Bool := bytes.getD idleOffset 0 != 0

/-- Idle frames need a whole header, standard frames every slot as well. -/
def parse (c : Config) (bytes : Bytes) : Except DecodeError Frame :=
  let length := bytes.length
  if length < c.headerBytes then .error (.fault (.shortFrame c.headerBytes length))
  else
    let idle := idleFlag bytes
    if !idle && length < c.frameBytes then .error (.fault (.shortFrame c.frameBytes length))
    else
      let validity := ((bytes.drop validityOffset).take c.packetSlots).map (· != 0)
      .ok {
        number := c.byteOrder.decode (bytes.take wordBytes)
        idle
        validity
        packets :=
          if idle then validity.map fun _ => none
          else cutPackets c validity (bytes.drop c.headerBytes) }

def slots (f : Frame) : Nat := f.validity.length

def isValid (f : Frame) (slot : Nat) : Bool := f.validity.getD slot false

def validCount (f : Frame) : Nat := f.validity.count true

def packet? (f : Frame) (slot : Nat) : Option Packet := f.packets[slot]?.join

end Frame
end EventReadout
