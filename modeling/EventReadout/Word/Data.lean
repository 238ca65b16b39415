import EventReadout.Error

/-!
Payload words: bit 63 separates control words from event words.

* control: type in bits 58 to 63, payload in bits 0 to 57
* event: position in bits 39 to 62, fine timestamp in bits 14 to 37, energy in bits 0 to 13
-/
namespace EventReadout

/-- Type field of a control word; 0x20 announces a coarse timestamp. -/
inductive ControlType
  | extendedTimestamp
  | other (raw : UInt8)
  deriving DecidableEq, Repr

namespace ControlType

def ofRaw (raw : UInt8) : ControlType :=
  if raw = 0x20 then extendedTimestamp else other raw

def raw : ControlType → UInt8
  | extendedTimestamp => 0x20
  | other raw => raw

end ControlType

/-- A payload word as the decoder dispatches on it. -/
inductive WordClass
  | extendedTimestamp (coarse : UInt64)
  | control (word : UInt64)
  | event (fine : UInt64) (id : UInt32) (energy : UInt16)
  deriving DecidableEq, Repr

structure DataWord where
  raw : UInt64
  deriving DecidableEq, Repr, Inhabited

namespace DataWord

def controlFlag : UInt64 := 0x8000000000000000

def typeMask : UInt64 := 0x3F

/-- Bits below the type field. -/
def payloadMask : UInt64 := 0x03FFFFFFFFFFFFFF

/-- Coarse timestamps have 52 bits and no resolution below 8. -/
def coarseMask : UInt64 := 0x000FFFFFFFFFFFF8

def fineMask : UInt64 := 0xFFFFFF

def positionMask : UInt64 := 0xFFFFFF

def energyMask : UInt64 := 0x3FFF

/-- The control flag is also the top bit of the type field. -/
def control (type : ControlType) (payload : UInt64) : DataWord :=
  ⟨controlFlag ||| ((type.raw.toUInt64 &&& typeMask) <<< 58) ||| (payload &&& payloadMask)⟩

def extendedTimestamp (coarse : UInt64) : DataWord :=
  control .extendedTimestamp (coarse &&& coarseMask)

/-- Each field is cut to its width. -/
def event (position : UInt32) (fine : UInt64) (energy : UInt16) : DataWord :=
  ⟨((position.toUInt64 &&& positionMask) <<< 39) ||| ((fine &&& fineMask) <<< 14) |||
    (energy.toUInt64 &&& energyMask)⟩

def isControl (w : DataWord) : Bool := w.raw &&& controlFlag != 0

def isEvent (w : DataWord) : Bool := !w.isControl

def kind (w : DataWord) : WordKind := if w.isControl then .control else .event

def controlType? (w : DataWord) : Option ControlType :=
  if w.isControl then some (.ofRaw ((w.raw >>> 58) &&& typeMask).toUInt8) else none

def isExtendedTimestamp (w : DataWord) : Bool := w.controlType? = some .extendedTimestamp

/-- An accessor answers only on words of its own class. -/
def require (w : DataWord) (expected : WordKind) : Except DecodeError Unit :=
  if w.kind = expected then .ok () else .error (.wordKind expected w.raw)

def coarse (w : DataWord) : Except DecodeError UInt64 := do
  w.require .control
  return w.raw &&& coarseMask

def fine (w : DataWord) : Except DecodeError UInt64 := do
  w.require .event
  return (w.raw >>> 14) &&& fineMask

def position (w : DataWord) : Except DecodeError UInt32 := do
  w.require .event
  return ((w.raw >>> 39) &&& positionMask).toUInt32

def energy (w : DataWord) : Except DecodeError UInt16 := do
  w.require .event
  return (w.raw &&& energyMask).toUInt16

def classify (w : DataWord) : WordClass :=
  match w.controlType? with
  | some .extendedTimestamp => .extendedTimestamp (w.raw &&& coarseMask)
  | some (.other _) => .control w.raw
  | none =>
    .event ((w.raw >>> 14) &&& fineMask) ((w.raw >>> 39) &&& positionMask).toUInt32
      (w.raw &&& energyMask).toUInt16

end DataWord
end EventReadout
