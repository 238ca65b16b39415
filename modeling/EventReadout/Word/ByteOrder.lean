/-! Words as eight bytes in either order. -/
namespace EventReadout

/-- Bytes of a frame, a packet or a dump. -/
abbrev Bytes := List UInt8

/-- Every word is eight bytes wide. -/
def wordBytes : Nat := 8

/-- The `width` low bytes of a number, least significant first. -/
def Bytes.ofNat : (width n : Nat) → Bytes
  | 0, _ => []
  | width + 1, n => UInt8.ofNat (n % 256) :: ofNat width (n / 256)

/-- The number whose bytes these are, least significant first. -/
def Bytes.toNat : Bytes → Nat
  | [] => 0
  | b :: bs => b.toNat + 256 * toNat bs

def Bytes.zeros (count : Nat) : Bytes := List.replicate count 0

inductive ByteOrder
  | little
  | big
  deriving DecidableEq, Repr, Inhabited

namespace ByteOrder

def encode (order : ByteOrder) (word : UInt64) : Bytes :=
  let bytes := Bytes.ofNat wordBytes word.toNat
  match order with
  | little => bytes
  | big => bytes.reverse

def decode (order : ByteOrder) (bytes : Bytes) : UInt64 :=
  match order with
  | little => UInt64.ofNat (Bytes.toNat bytes)
  | big => UInt64.ofNat (Bytes.toNat bytes.reverse)

/-- Consecutive words; a last part of fewer than eight bytes is left out. -/
def decodeAll (order : ByteOrder) (bytes : Bytes) : List UInt64 :=
  go bytes #[]
where
  go : Bytes → Array UInt64 → List UInt64
    | b₀ :: b₁ :: b₂ :: b₃ :: b₄ :: b₅ :: b₆ :: b₇ :: rest, words =>
      go rest (words.push (order.decode [b₀, b₁, b₂, b₃, b₄, b₅, b₆, b₇]))
    | _, words => words.toList

def encodeAll (order : ByteOrder) (words : List UInt64) : Bytes := words.flatMap order.encode

end ByteOrder
end EventReadout
