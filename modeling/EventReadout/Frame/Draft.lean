import EventReadout.Frame.Basic
import EventReadout.Host

/-! Frames under construction and their encoding. -/
namespace EventReadout

structure Filling where
  slot : Nat
  header : PacketHeader
  payload : List UInt64
  deriving DecidableEq, Repr

/-- A frame whose slots are filled one by one; the latest filling of a slot counts. -/
structure FrameDraft where
  number : UInt64 := 0
  idle : Bool := false
  /-- Latest first. -/
  fillings : List Filling := []
  deriving DecidableEq, Repr, Inhabited

namespace FrameDraft

def fill (d : FrameDraft) (slot : Nat) (header : PacketHeader) (payload : List UInt64) :
    FrameDraft :=
  { d with fillings := ⟨slot, header, payload⟩ :: d.fillings }

def filling? (d : FrameDraft) (slot : Nat) : Option Filling :=
  d.fillings.find? (·.slot == slot)

/-- The highest slot filled, zero if there is none. -/
def lastSlot (d : FrameDraft) : Nat := (d.fillings.map (·.slot)).foldl max 0

/-- The packet's words fit the slot, and its header counts them. -/
def sealFilling (c : Config) (f : Filling) : Except DecodeError Filling :=
  if c.payloadWords < f.payload.length then
    .error (.fault (.config (.payloadTooLong f.slot f.payload.length c.payloadWords)))
  else
    let wordCount := f.payload.length + c.headerWords - 1
    if wordCount < 65536 then .ok { f with header.wordCount := UInt16.ofNat wordCount }
    else .error (.fault (.config (.wordCountTooLarge f.slot wordCount)))

def sealSlot (c : Config) (d : FrameDraft) (slot : Nat) : Except DecodeError (Option Filling) :=
  match d.filling? slot with
  | none => .ok none
  | some f => some <$> sealFilling c f

/-- Writes `bytes` at `offset`, with zeros where `base` does not reach. -/
def place (offset : Nat) (bytes base : Bytes) : Bytes :=
  base.take offset ++ Bytes.zeros (offset - base.length) ++ bytes ++
    base.drop (offset + bytes.length)

def headerBlock (order : ByteOrder) (h : PacketHeader) : Bytes :=
  order.encode h.encode.1 ++ order.encode h.encode.2

/-- The header words follow the transport's; the payload follows all header words. -/
def slotImage (c : Config) (base : Bytes) : Option Filling → Bytes
  | none => base
  | some f =>
    place (c.headerWords * wordBytes) (c.byteOrder.encodeAll f.payload)
      (place wordBytes (headerBlock c.byteOrder f.header) base)

/-- Slots back to back; what does not fit a slot runs on into the next one. -/
def layOut (c : Config) : (carry : Bytes) → List (Option Filling) → Bytes
  | _, [] => []
  | carry, slot :: rest =>
    let image := slotImage c (carry ++ Bytes.zeros (c.packetBytes - carry.length)) slot
    image.take c.packetBytes ++ layOut c (image.drop c.packetBytes) rest

/-- Number, idle flag and validity bytes, padded to the size of a frame header. -/
def headerImage (c : Config) (number : UInt64) (idle : Bool) (validity : List Bool) : Bytes :=
  let bytes := c.byteOrder.encode number ++ (if idle then 1 else 0) :: Bytes.zeros 7 ++
    validity.map fun valid => if valid then 1 else 0
  bytes ++ Bytes.zeros (c.headerBytes - bytes.length)

/-- A slot beyond the geometry is refused first; slots are then checked in order. -/
def encode (d : FrameDraft) (c : Config) : Except DecodeError Bytes := do
  if d.fillings.any (c.packetSlots ≤ ·.slot) then
    throw (.fault (.config (.slotBeyond d.lastSlot c.packetSlots)))
  if d.idle then
    return headerImage c d.number true [] ++ Bytes.zeros (c.packetSlots * c.packetBytes)
  let slots ← (List.range c.packetSlots).mapM (sealSlot c d)
  return headerImage c d.number false (slots.map Option.isSome) ++ layOut c [] slots

/-- A place for every slot that exists or is filled. -/
def slotTable (d : FrameDraft) (c : Config) : Nat :=
  (d.fillings.map (·.slot + 1)).foldl max c.packetSlots

/-- The bytes of the frame are asked for once no slot is beyond the geometry. -/
def demands (d : FrameDraft) (c : Config) : List Demand :=
  .table (d.slotTable c) ::
    if d.slotTable c ≤ c.packetSlots then [.block c.frameBytes] else []

/-- Encoding on a machine that may lack the memory for the frame. -/
def build (h : Host) (d : FrameDraft) (c : Config) : Except Halt (Except DecodeError Bytes) :=
  h.carryOut (d.demands c) (d.encode c)

end FrameDraft
end EventReadout
