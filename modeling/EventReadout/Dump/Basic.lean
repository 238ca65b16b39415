import EventReadout.Config.Basic
import EventReadout.Frame.Basic

/-! Dumps: inbound frames back to back, each as long as a standard frame. -/
namespace EventReadout

structure Dump where
  frames : List Bytes
  frameBytes : Nat
  deriving DecidableEq, Repr

namespace Dump

/-- The first `count` pieces of `size` bytes. -/
def cut (size : Nat) : (count : Nat) → Bytes → List Bytes
  | 0, _ => []
  | count + 1, bytes => bytes.take size :: cut size count (bytes.drop size)

/-- Only a positive number of whole frames is a dump. -/
def ofBytes (c : Config) (bytes : Bytes) : Except CommandError Dump :=
  let length := bytes.length
  if length = 0 ∨ length % c.frameBytes ≠ 0 then .error (.truncatedDump length c.frameBytes)
  else .ok ⟨cut c.frameBytes (length / c.frameBytes) bytes, c.frameBytes⟩

def size (d : Dump) : Nat := d.frames.length * d.frameBytes

def endsIdle (d : Dump) : Bool := d.frames.getLast?.any Frame.idleFlag

end Dump
end EventReadout
