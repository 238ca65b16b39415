import EventReadout.Packet.Header
import EventReadout.Word.Cursor

/-! Primary packets: header words followed by payload words. -/
namespace EventReadout

structure Packet where
  bytes : Bytes
  order : ByteOrder
  headerWords : Nat
  deriving DecidableEq, Repr

namespace Packet

/-- The transport's word comes first and is passed over. -/
def header (p : Packet) : Except DecodeError PacketHeader := do
  let cursor ← (WordCursor.ofBytes p.order p.bytes).skip 1
  let (first, cursor) ← cursor.read
  let (second, _) ← cursor.read
  return .decode first second

def payloadCapacity (p : Packet) : Nat := p.bytes.length / wordBytes - p.headerWords

/-- Appends the first `count` payload words to `out`. -/
def readPayload (p : Packet) (count : Nat) (out : List UInt64) :
    Except DecodeError (List UInt64) := do
  let cursor ← (WordCursor.ofBytes p.order p.bytes).skip p.headerWords
  let (words, _) ← cursor.readInto count out
  return words

end Packet
end EventReadout
