import EventReadout.Slice.Basic

/-!
Primary packet headers in two words.

* first word: packet number in bits 32 to 63, word count in bits 0 to 15
* second word: time-slice buffer in bits 32 to 39, wrap in bits 0 to 31
-/
namespace EventReadout

structure PacketHeader where
  /-- Words in the packet, counted from the first header word. -/
  wordCount : UInt16 := 0
  packetNumber : UInt32 := 0
  wrap : UInt32 := 0
  buffer : UInt32 := 0
  deriving DecidableEq, Repr, Inhabited

namespace PacketHeader

def decode (first second : UInt64) : PacketHeader where
  wordCount := (first &&& 0xFFFF).toUInt16
  packetNumber := (first >>> 32).toUInt32
  wrap := (second &&& 0xFFFFFFFF).toUInt32
  buffer := ((second >>> 32) &&& 0xFF).toUInt32

/-- Only the low eight bits of the buffer index are kept. -/
def encode (h : PacketHeader) : UInt64 × UInt64 :=
  ((h.packetNumber.toUInt64 <<< 32) ||| h.wordCount.toUInt64,
    ((h.buffer.toUInt64 &&& 0xFF) <<< 32) ||| h.wrap.toUInt64)

def slice (h : PacketHeader) : TimeSlice := ⟨h.wrap.toNat, h.buffer.toNat⟩

/-- The word count covers all header words but the transport's first. -/
def payloadWords (h : PacketHeader) (headerWords : Nat) : Nat :=
  h.wordCount.toNat - (headerWords - 1)

end PacketHeader
end EventReadout
