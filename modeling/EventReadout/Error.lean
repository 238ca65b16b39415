import EventReadout.Text.Hex
import EventReadout.Word.Kind

/-! Causes of failure, layer by layer, and their messages. -/
namespace EventReadout

/-- What makes a configuration, or a value held against one, unusable. -/
inductive ConfigError
  | noPackets
  | headerTooShort (words : Nat)
  | unalignedPacket (bytes : Nat)
  | noPayload (bytes headerWords : Nat)
  | sliceBuffers (buffers : Nat)
  | noCapacity
  | noThreads
  | slotBeyond (slot packets : Nat)
  | payloadTooLong (slot words capacity : Nat)
  | wordCountTooLarge (slot words : Nat)
  | rankInvalid (rank processes : Nat)
  | tooManyEvents (events capacity : Nat)
  deriving DecidableEq, Repr

def ConfigError.message : ConfigError → String
  | noPackets => "num_primary_packets must be greater than 0"
  | headerTooShort words => s!"packet_header_words must be at least 3, got {words}"
  | unalignedPacket bytes => s!"primary_packet_size {bytes} is not a multiple of 8"
  | noPayload bytes headerWords =>
    s!"primary_packet_size {bytes} leaves no room for payload after {headerWords} header words"
  | sliceBuffers buffers =>
    s!"number_of_time_slice_buffers must be in 1..=256, got {buffers}"
  | noCapacity => "output_frame_capacity must be greater than 0"
  | noThreads => "processing_threads must be greater than 0"
  | slotBeyond slot packets => s!"packet slot {slot} beyond {packets} primary packets"
  | payloadTooLong slot words capacity =>
    s!"packet {slot} payload of {words} words exceeds capacity {capacity}"
  | wordCountTooLarge slot words => s!"packet {slot} word count {words} exceeds 16 bits"
  | rankInvalid rank processes => s!"process rank {rank} invalid for {processes} processes"
  | tooManyEvents events capacity =>
    s!"{events} events per packet exceeds packet capacity {capacity}"

/-- Faults against the configured geometry. -/
inductive Fault
  | config (cause : ConfigError)
  | shortFrame (expected actual : Nat)
  | sliceOutOfRange (index buffers : Nat)
  deriving DecidableEq, Repr

def Fault.message : Fault → String
  | config cause => "configuration error: " ++ cause.message
  | shortFrame expected actual =>
    s!"invalid frame: expected at least {expected} bytes, got {actual}"
  | sliceOutOfRange index buffers =>
    s!"time slice buffer {index} out of range (buffers: {buffers})"

/-- A fine timestamp that neither coarse value explains. -/
structure TimestampMismatch where
  fine : UInt64
  current : UInt64
  previous : UInt64
  deriving DecidableEq, Repr

def TimestampMismatch.message (m : TimestampMismatch) : String :=
  "timestamp mismatch: fine " ++ Text.hex m.fine.toNat ++ " against coarse " ++
    Text.hex m.current.toNat ++ " (previous " ++ Text.hex m.previous.toNat ++ ")"

/-- Why a file could not be opened. -/
inductive FileError
  | notFound
  | isDirectory
  /-- A file stands where the path needs a directory. -/
  | notDirectory
  /-- A name, or the path as a whole, is longer than the file system takes. -/
  | nameTooLong
  /-- The path contains a zero character. -/
  | invalidPath
  | other
  deriving DecidableEq, Repr

inductive DecodeError
  | wordKind (expected : WordKind) (word : UInt64)
  | timestamp (mismatch : TimestampMismatch)
  | unexpectedEnd (offset length : Nat)
  | file (cause : FileError)
  | document
  | fault (cause : Fault)
  deriving DecidableEq, Repr

def DecodeError.message : DecodeError → String
  | wordKind expected word =>
    "expected " ++ expected.name ++ " word, got " ++ Text.paddedHex 16 word.toNat
  | timestamp mismatch => mismatch.message
  | unexpectedEnd offset length => s!"unexpected end of data at byte {offset} (length {length})"
  | file _ => "I/O error"
  | document => "JSON error"
  | fault cause => "core error: " ++ cause.message

inductive ProcessError
  | decode (cause : DecodeError)
  | fault (cause : Fault)
  deriving DecidableEq, Repr

def ProcessError.message : ProcessError → String
  | decode cause => "decode error: " ++ cause.message
  | fault cause => "core error: " ++ cause.message

/-- What ends a command early. -/
inductive CommandError
  | file (cause : FileError)
  | fault (cause : Fault)
  | decode (cause : DecodeError)
  | process (cause : ProcessError)
  | truncatedDump (bytes frameBytes : Nat)
  deriving DecidableEq, Repr

def CommandError.message : CommandError → String
  | file _ => "I/O error"
  | fault cause => "Core error: " ++ cause.message
  | decode cause => "Decode error: " ++ cause.message
  | process cause => "Processing error: " ++ cause.message
  | truncatedDump bytes frameBytes =>
    s!"dump of {bytes} bytes is not a whole number of {frameBytes}-byte frames"

end EventReadout
