import EventReadout.Error
import EventReadout.Slice.Basic
import EventReadout.Word.Data

/-! What the reconstruction reports while it runs, each with a level and a text. -/
namespace EventReadout

inductive Level
  | error
  | warn
  | info
  | debug
  | trace
  deriving DecidableEq, Repr

namespace Level

def name : Level → String
  | error => "ERROR"
  | warn => "WARN"
  | info => "INFO"
  | debug => "DEBUG"
  | trace => "TRACE"

/-- Zero is the most severe. -/
def rank : Level → Nat
  | error => 0
  | warn => 1
  | info => 2
  | debug => 3
  | trace => 4

end Level

inductive Notice
  | workersStarted (threads : Nat)
  | processConfigured (rank processes : Nat)
  | headerUnreadable (slot : Nat) (cause : DecodeError)
  | payloadClamped (packet claimed capacity : Nat)
  | payloadUnreadable (packet : Nat) (cause : DecodeError)
  | poolGrown (allocated : Nat)
  | malformedStart (packet : Nat) (word : DataWord)
  | timestampMismatch (packet : Nat) (mismatch : TimestampMismatch)
  | jobDecoded (packet : Nat) (slice : TimeSlice) (words events controls mismatches : Nat)
  | packetStale (packet : Nat) (slice : TimeSlice) (currentWrap : Nat)
  | sliceOutOfRange (packet buffer buffers : Nat)
  | frameProcessed (number packets frames : Nat) (mark : TimeSlice)
  | idleFlushed (frames available allocated : Nat)
  | dumpUnclosed
  deriving DecidableEq, Repr

namespace Notice

def level : Notice → Level
  | headerUnreadable .. | payloadUnreadable .. | packetStale .. | sliceOutOfRange .. => .error
  | payloadClamped .. | malformedStart .. => .warn
  | dumpUnclosed => .info
  | workersStarted _ | processConfigured .. | frameProcessed .. | idleFlushed .. => .debug
  | poolGrown _ | timestampMismatch .. | jobDecoded .. => .trace

def text : Notice → String
  | workersStarted threads => s!"Started {threads} decode workers"
  | processConfigured rank processes => s!"Configured as process {rank} of {processes}"
  | headerUnreadable slot cause => s!"Packet slot {slot}: unreadable header: " ++ cause.message
  | payloadClamped packet claimed capacity =>
    s!"Packet {packet} claims {claimed} words, clamping to {capacity}"
  | payloadUnreadable packet cause => s!"Packet {packet}: " ++ cause.message
  | poolGrown allocated => s!"Job pool exhausted, allocating job {allocated}"
  | malformedStart packet word =>
    s!"Packet {packet} does not start with an extended timestamp: " ++
      Text.paddedHex 16 word.raw.toNat
  | timestampMismatch packet mismatch => s!"Packet {packet}: " ++ mismatch.message
  | jobDecoded packet slice words events controls mismatches =>
    s!"Packet {packet} slice " ++ Text.hex slice.id ++
      s!": {words} words, {events} events, {controls} control words, {mismatches} mismatches"
  | packetStale packet slice currentWrap =>
    s!"Stale packet {packet} received for wrap {slice.wrap} buffer {slice.buffer} " ++
      s!"(current wrap {currentWrap}), dropping"
  | sliceOutOfRange packet buffer buffers =>
    s!"Packet {packet}: " ++ (Fault.sliceOutOfRange buffer buffers).message ++ ", dropping"
  | frameProcessed number packets frames mark =>
    s!"Frame {number}: {packets} packets, {frames} output frames, " ++
      s!"wrap {mark.wrap} buffer {mark.buffer}"
  | idleFlushed frames available allocated =>
    s!"Idle frame: flushed {frames} output frames, {available} of {allocated} jobs pooled"
  | dumpUnclosed => "Dump does not end with an idle frame, flushing"

def line (n : Notice) : String := n.level.name ++ " " ++ n.text

/-- Notices no less severe than `limit`. -/
def upTo (limit : Level) (notices : List Notice) : List Notice :=
  notices.filter (·.level.rank ≤ limit.rank)

end Notice
end EventReadout
