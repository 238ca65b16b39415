import EventReadout.Dump.Basic
import EventReadout.Text.Decimal

/-! What a dump holds, seen from its frame headers alone. -/
namespace EventReadout

structure Survey where
  frames : Nat := 0
  idle : Nat := 0
  valid : Nat := 0
  dropped : Nat := 0
  /-- Lowest and highest frame number. -/
  numbers : Option (Nat × Nat) := none
  deriving DecidableEq, Repr

namespace Survey

def addNumber (range : Option (Nat × Nat)) (number : Nat) : Nat × Nat :=
  match range with
  | some (low, high) => (min low number, max high number)
  | none => (number, number)

/-- The slots of an idle frame count neither as valid nor as dropped. -/
def add (s : Survey) (f : Frame) : Survey :=
  let s := { s with frames := s.frames + 1, numbers := some (addNumber s.numbers f.number.toNat) }
  if f.idle then { s with idle := s.idle + 1 }
  else
    { s with valid := s.valid + f.validCount, dropped := s.dropped + (f.slots - f.validCount) }

def ofDump (c : Config) (d : Dump) : Except CommandError Survey :=
  d.frames.foldlM (fun s bytes =>
    match Frame.parse c bytes with
    | .ok f => .ok (s.add f)
    | .error cause => .error (.decode cause)) {}

def lines (s : Survey) (input : String) (d : Dump) : List String :=
  ["File: " ++ input,
    s!"Size: {d.size} bytes (" ++ Text.megabytes d.size ++ " MB)",
    s!"Frame size: {d.frameBytes} bytes",
    s!"Frames: {s.frames} ({s.idle} idle)",
    s!"Packets: {s.valid} valid, {s.dropped} dropped"] ++
  match s.numbers with
  | some (low, high) => [s!"Frame numbers: {low} - {high}"]
  | none => []

end Survey
end EventReadout
