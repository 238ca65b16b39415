import EventReadout.Error
import EventReadout.Word.ByteOrder

/-! Bounds-checked sequential reading of words; a failed read leaves the cursor where it was. -/
namespace EventReadout

structure WordCursor where
  order : ByteOrder
  offset : Nat := 0
  rest : Bytes
  deriving DecidableEq, Repr

namespace WordCursor

def ofBytes (order : ByteOrder) (bytes : Bytes) : WordCursor := { order, rest := bytes }

/-- Length of all the bytes, read or not. -/
def length (c : WordCursor) : Nat := c.offset + c.rest.length

def remainingWords (c : WordCursor) : Nat := c.rest.length / wordBytes

def advance (c : WordCursor) (bytes : Nat) : WordCursor :=
  { c with offset := c.offset + bytes, rest := c.rest.drop bytes }

def read (c : WordCursor) : Except DecodeError (UInt64 × WordCursor) :=
  let word := c.rest.take wordBytes
  if word.length = wordBytes then .ok (c.order.decode word, c.advance wordBytes)
  else .error (.unexpectedEnd c.offset c.length)

/-- A failure names the offset that would have been reached. -/
def skip (c : WordCursor) (count : Nat) : Except DecodeError WordCursor :=
  if c.remainingWords < count then
    .error (.unexpectedEnd (c.offset + count * wordBytes) c.length)
  else .ok (c.advance (count * wordBytes))

/-- The words appended to `out` come all together or not at all. -/
def readInto (c : WordCursor) (count : Nat) (out : List UInt64) :
    Except DecodeError (List UInt64 × WordCursor) :=
  let block := c.rest.take (count * wordBytes)
  if block.length = count * wordBytes then
    .ok (out ++ c.order.decodeAll block, c.advance (count * wordBytes))
  else .error (.unexpectedEnd (c.offset + count * wordBytes) c.length)

end WordCursor
end EventReadout
