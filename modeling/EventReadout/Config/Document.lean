import EventReadout.Config.Basic
import EventReadout.Json.Basic

/-!
Configuration documents: a `detector` with the sections `frame`, `timeslice` and `processing`.

What a document leaves out keeps its default; the whole is checked at the end.
-/
namespace EventReadout

/-- What a path leads to. -/
inductive FileState
  /-- A file that can be opened and mapped into memory. -/
  | content (bytes : Bytes)
  | directory
  /-- There is nothing, but a file could be created. -/
  | absent
  /-- The path can be neither read nor created. -/
  | unreachable (cause : FileError)
  deriving DecidableEq, Repr

namespace Config

/-- Reads a field that may be missing. -/
def fieldOr {α : Type} (read : Json.Value → Option α) (default : α) : Option Json.Value → Option α
  | none => some default
  | some value => read value

def orderName : ByteOrder → String
  | .little => "little"
  | .big => "big"

section Sections

variable (r : Json.Reader)

def order? (value : Json.Value) : Option ByteOrder := do
  let name ← r.variant? ([.little, .big].map orderName) value
  [ByteOrder.little, .big].find? (orderName · == name)

def frameSection (c : Config) (part : Json.Value) : Option Config := do
  let [slots, bytes, words, order] ← r.fields?
      ["num_primary_packets", "primary_packet_size", "packet_header_words", "byte_order"] part
    | none
  return { c with
    packetSlots := ← fieldOr r.size? c.packetSlots slots
    packetBytes := ← fieldOr r.size? c.packetBytes bytes
    headerWords := ← fieldOr r.size? c.headerWords words
    byteOrder := ← fieldOr (order? r) c.byteOrder order }

def sliceSection (c : Config) (part : Json.Value) : Option Config := do
  let [buffers] ← r.fields? ["buffers"] part | none
  return { c with sliceBuffers := ← fieldOr r.size? c.sliceBuffers buffers }

def processingSection (c : Config) (part : Json.Value) : Option Config := do
  let [threads, capacity] ← r.fields? ["threads", "output_frame_capacity"] part | none
  return { c with
    threads := ← fieldOr r.size? c.threads threads
    frameCapacity := ← fieldOr r.size? c.frameCapacity capacity }

def detectorSection (c : Config) (part : Json.Value) : Option Config := do
  let [frame, slices, processing] ← r.fields? ["frame", "timeslice", "processing"] part | none
  let c ← fieldOr (frameSection r c) c frame
  let c ← fieldOr (sliceSection r c) c slices
  fieldOr (processingSection r c) c processing

/-- The defaults overridden by the document, not yet checked. -/
def ofDocument? (document : Json.Value) : Option Config := do
  let [some detector] ← r.fields? ["detector"] document | none
  detectorSection r {} detector

/-- A document that cannot be read is reported before a configuration that cannot be used. -/
def ofDocument (document : Json.Value) : Except DecodeError Config :=
  match ofDocument? r document with
  | none => .error .document
  | some c =>
    match c.validate with
    | .ok () => .ok c
    | .error cause => .error (.fault (.config cause))

def readText (bytes : Bytes) : Except DecodeError Config :=
  match r.text? bytes with
  | none => .error .document
  | some document => ofDocument r document

/-- A directory opens like a file but holds no document. -/
def readFile : FileState → Except DecodeError Config
  | .content bytes =>
    match r.file? bytes with
    | none => .error .document
    | some document => ofDocument r document
  | .directory => .error .document
  | .absent => .error (.file .notFound)
  | .unreachable cause => .error (.file cause)

end Sections

def ofBytes (bytes : Bytes) : Except DecodeError Config := readText .standard bytes

def ofFile (state : FileState) : Except DecodeError Config := readFile .standard state

end Config
end EventReadout
