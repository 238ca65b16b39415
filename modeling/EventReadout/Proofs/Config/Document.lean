import EventReadout.Config.Document
import EventReadout.Proofs.Frame.Slots
import EventReadout.Proofs.Json.Fields
import Mathlib

/-!
Configuration documents: what a document sets overrides the defaults, however it is worded, and the
outcome is accepted if it can be used.
-/
namespace EventReadout.Config

open Json (Value)

/-- Everything that a document may set. -/
structure Settings where
  packetSlots : Option Nat := none
  packetBytes : Option Nat := none
  headerWords : Option Nat := none
  sliceBuffers : Option Nat := none
  frameCapacity : Option Nat := none
  threads : Option Nat := none
  byteOrder : Option ByteOrder := none

/-- What is set replaces what was there. -/
def override (c : Config) (s : Settings) : Config where
  packetSlots := s.packetSlots.getD c.packetSlots
  packetBytes := s.packetBytes.getD c.packetBytes
  headerWords := s.headerWords.getD c.headerWords
  sliceBuffers := s.sliceBuffers.getD c.sliceBuffers
  frameCapacity := s.frameCapacity.getD c.frameCapacity
  threads := s.threads.getD c.threads
  byteOrder := s.byteOrder.getD c.byteOrder

/-- A size is a decimal number of 64 bits. -/
def IsSize (value : Value) (n : Nat) : Prop := value = .number (toString n) ∧ n < UInt64.size

/-- A byte order is its name, alone or as the only member of an object. -/
inductive IsOrder : Value → ByteOrder → Prop
  | text (order : ByteOrder) : IsOrder (.string (some (orderName order))) order
  | member (order : ByteOrder) : IsOrder (.object [(some (orderName order), .null)]) order

def sectionNames : List String := ["frame", "timeslice", "processing"]

/-- The fields of a section, in their declared order. -/
def sectionFields (name : String) : List String :=
  if name = "frame" then
    ["num_primary_packets", "primary_packet_size", "packet_header_words", "byte_order"]
  else if name = "timeslice" then ["buffers"]
  else ["threads", "output_frame_capacity"]

section Readings

variable {r : Json.Reader} (hr : r.Lawful)
include hr

theorem size?_of_isSize {value : Value} {n : Nat} (h : IsSize value n) :
    r.size? value = some n := by
  obtain ⟨rfl, hlt⟩ := h
  exact hr.size hlt

theorem order?_of_isOrder {value : Value} {order : ByteOrder} (h : IsOrder value order) :
    order? r value = some order := by
  have hname : orderName order ∈ [ByteOrder.little, .big].map orderName := by
    cases order <;> decide
  have hvariant : r.variant? ([ByteOrder.little, .big].map orderName) value =
      some (orderName order) := by
    cases h with
    | text => exact hr.variant hname
    | member => exact hr.variant_member hname
  rw [order?, hvariant]
  cases order <;> rfl

end Readings

theorem fieldOr_eq {α : Type} {read : Value → Option α} {Means : Value → α → Prop}
    {field : Option Value} {setting : Option α} (h : Option.Rel Means field setting)
    (hread : ∀ {value a}, Means value a → read value = some a) (default : α) :
    fieldOr read default field = some (setting.getD default) := by
  cases h with
  | some h => exact hread h
  | none => rfl

namespace Settings

/-- A `frame` section that sets just this. -/
def InFrame (s : Settings) (part : Value) : Prop :=
  ∃ given, part.Gives (sectionFields "frame") given ∧
    Option.Rel IsSize (given "num_primary_packets") s.packetSlots ∧
    Option.Rel IsSize (given "primary_packet_size") s.packetBytes ∧
    Option.Rel IsSize (given "packet_header_words") s.headerWords ∧
    Option.Rel IsOrder (given "byte_order") s.byteOrder

/-- A `timeslice` section that sets just this. -/
def InSlices (s : Settings) (part : Value) : Prop :=
  ∃ given, part.Gives (sectionFields "timeslice") given ∧
    Option.Rel IsSize (given "buffers") s.sliceBuffers

/-- A `processing` section that sets just this. -/
def InProcessing (s : Settings) (part : Value) : Prop :=
  ∃ given, part.Gives (sectionFields "processing") given ∧
    Option.Rel IsSize (given "threads") s.threads ∧
    Option.Rel IsSize (given "output_frame_capacity") s.frameCapacity

/-- A section left out sets nothing, as an empty one. -/
def InDetector (s : Settings) (detector : Value) : Prop :=
  ∃ sections, detector.Gives sectionNames sections ∧
    s.InFrame ((sections "frame").getD (.object [])) ∧
    s.InSlices ((sections "timeslice").getD (.object [])) ∧
    s.InProcessing ((sections "processing").getD (.object []))

/-- The document has a detector, well-typed and without repetitions, that sets just this. -/
def InDocument (s : Settings) (document : Value) : Prop :=
  ∃ given detector, document.Gives ["detector"] given ∧ given "detector" = some detector ∧
    s.InDetector detector

end Settings

/-- How a section changes the configuration; one left out is read as an empty one. -/
def readSection (r : Json.Reader) (name : String) (part : Option Value) (c : Config) :
    Option Config :=
  if name = "frame" then frameSection r c (part.getD (.object []))
  else if name = "timeslice" then sliceSection r c (part.getD (.object []))
  else processingSection r c (part.getD (.object []))

section Sections

variable {r : Json.Reader} (hr : r.Lawful)
include hr

theorem frameSection_eq {s : Settings} {part : Value} (h : s.InFrame part) (c : Config) :
    frameSection r c part = some { c with
      packetSlots := s.packetSlots.getD c.packetSlots
      packetBytes := s.packetBytes.getD c.packetBytes
      headerWords := s.headerWords.getD c.headerWords
      byteOrder := s.byteOrder.getD c.byteOrder } := by
  obtain ⟨given, hgives, hslots, hbytes, hwords, horder⟩ := h
  have hfields := hgives.fields? hr
  change r.fields? ["num_primary_packets", "primary_packet_size", "packet_header_words",
    "byte_order"] part = some [_, _, _, _] at hfields
  unfold frameSection
  rw [hfields]
  simp only [Option.bind_eq_bind, Option.bind_some, fieldOr_eq hslots (size?_of_isSize hr),
    fieldOr_eq hbytes (size?_of_isSize hr), fieldOr_eq hwords (size?_of_isSize hr),
    fieldOr_eq horder (order?_of_isOrder hr)]
  rfl

theorem sliceSection_eq {s : Settings} {part : Value} (h : s.InSlices part) (c : Config) :
    sliceSection r c part = some { c with
      sliceBuffers := s.sliceBuffers.getD c.sliceBuffers } := by
  obtain ⟨given, hgives, hbuffers⟩ := h
  have hfields := hgives.fields? hr
  change r.fields? ["buffers"] part = some [_] at hfields
  unfold sliceSection
  rw [hfields]
  simp only [Option.bind_eq_bind, Option.bind_some, fieldOr_eq hbuffers (size?_of_isSize hr)]
  rfl

theorem processingSection_eq {s : Settings} {part : Value} (h : s.InProcessing part)
    (c : Config) :
    processingSection r c part = some { c with
      threads := s.threads.getD c.threads
      frameCapacity := s.frameCapacity.getD c.frameCapacity } := by
  obtain ⟨given, hgives, hthreads, hcapacity⟩ := h
  have hfields := hgives.fields? hr
  change r.fields? ["threads", "output_frame_capacity"] part = some [_, _] at hfields
  unfold processingSection
  rw [hfields]
  simp only [Option.bind_eq_bind, Option.bind_some, fieldOr_eq hthreads (size?_of_isSize hr),
    fieldOr_eq hcapacity (size?_of_isSize hr)]
  rfl

omit hr in
theorem fieldOr_section {read : Config → Value → Option Config} {c : Config}
    (hempty : read c (.object []) = some c) (part : Option Value) :
    fieldOr (read c) c part = read c (part.getD (.object [])) := by
  cases part with
  | none => exact hempty.symm
  | some part => rfl

theorem sections_empty (c : Config) :
    frameSection r c (.object []) = some c ∧ sliceSection r c (.object []) = some c ∧
      processingSection r c (.object []) = some c := by
  have hempty (name : String) :
      (Value.object []).Gives (sectionFields name) fun _ => none :=
    @Value.Gives.object _ _ [] fun _ _ => rfl
  exact ⟨frameSection_eq hr (s := {}) ⟨_, hempty "frame", .none, .none, .none, .none⟩ c,
    sliceSection_eq hr (s := {}) ⟨_, hempty "timeslice", .none⟩ c,
    processingSection_eq hr (s := {}) ⟨_, hempty "processing", .none, .none⟩ c⟩

/-- The sections take their turns in the order of the declaration, not of the document. -/
theorem detectorSection_eq (c : Config) (detector : Value) :
    detectorSection r c detector =
      ((r.fields? sectionNames detector).map
        (List.zipWith (readSection r) sectionNames)).bind
          fun readers => readers.foldlM (fun c read => read c) c := by
  change (r.fields? sectionNames detector).bind _ = _
  cases hfields : r.fields? sectionNames detector with
  | none => rfl
  | some fields =>
    match fields, hr.length hfields with
    | [frame, slices, processing], _ =>
      have hframe (c : Config) :
          fieldOr (frameSection r c) c frame = readSection r "frame" frame c :=
        fieldOr_section (sections_empty hr c).1 frame
      have hslices (c : Config) :
          fieldOr (sliceSection r c) c slices = readSection r "timeslice" slices c :=
        fieldOr_section (sections_empty hr c).2.1 slices
      have hprocessing (c : Config) :
          fieldOr (processingSection r c) c processing =
            readSection r "processing" processing c :=
        fieldOr_section (sections_empty hr c).2.2 processing
      simp only [hframe, hslices, hprocessing, Option.bind_some, Option.map_some, sectionNames,
        List.zipWith, List.foldlM, bind_pure]

/-- How a document with these settings is read. -/
theorem ofDocument?_eq {s : Settings} {document : Value} (h : s.InDocument document) :
    ofDocument? r document = some (override {} s) := by
  obtain ⟨given, detector, hdocument, hdetector, sections, hsections, hframe, hslices,
    hprocessing⟩ := h
  have hfields := hdocument.fields? hr
  rw [List.map_singleton, hdetector] at hfields
  unfold ofDocument?
  rw [hfields]
  change detectorSection r {} detector = _
  rw [detectorSection_eq hr, hsections.fields? hr]
  change ((frameSection r {} _).bind fun c => (sliceSection r c _).bind fun c =>
    (processingSection r c _).bind some) = _
  rw [frameSection_eq hr hframe, Option.bind_some, sliceSection_eq hr hslices, Option.bind_some,
    processingSection_eq hr hprocessing, Option.bind_some]
  rfl

end Sections

/-- Two wordings of a section. -/
def SectionReworded (name : String) : Value → Value → Prop :=
  Value.Reworded (sectionFields name) none fun _ _ _ => False

/-- Two wordings of a detector; a section left out is an empty one. -/
def DetectorReworded : Value → Value → Prop :=
  Value.Reworded sectionNames (some (.object [])) SectionReworded

/-- Two wordings of a document. -/
def DocumentReworded : Value → Value → Prop :=
  Value.Reworded ["detector"] none fun _ => DetectorReworded

theorem nodup_sectionFields (name : String) : (sectionFields name).Nodup := by
  unfold sectionFields
  split_ifs <;> decide

def readDetector (r : Json.Reader) (_name : String) (detector : Option Value) : Option Config :=
  detector.bind (detectorSection r {})

section Wordings

variable {r : Json.Reader} (hr : r.Lawful)
include hr

theorem readSection_reworded {name : String} {part part' : Value}
    (h : SectionReworded name part part') :
    readSection r name (some part) = readSection r name (some part') := by
  have hfields := h.fields?_eq hr (nodup_sectionFields name)
  funext c
  unfold readSection
  unfold sectionFields at hfields
  split_ifs at hfields ⊢
  · unfold frameSection
    rw [Option.getD_some, hfields]
    rfl
  · unfold sliceSection
    rw [Option.getD_some, hfields]
    rfl
  · unfold processingSection
    rw [Option.getD_some, hfields]
    rfl

theorem detectorSection_reworded {detector detector' : Value}
    (h : DetectorReworded detector detector') (c : Config) :
    detectorSection r c detector = detectorSection r c detector' := by
  rw [detectorSection_eq hr, detectorSection_eq hr]
  congr 1
  refine h.view_eq hr (by decide) (fun name part part' hpart => readSection_reworded hr hpart) ?_
  intro part hblank name _
  cases hblank
  rfl

/-- A document is its detector, and may not be without one. -/
theorem ofDocument?_eq_fields (document : Value) :
    ofDocument? r document =
      ((r.fields? ["detector"] document).map (List.zipWith (readDetector r) ["detector"])).bind
        fun readings => readings.head?.join := by
  change (r.fields? ["detector"] document).bind _ = _
  cases hfields : r.fields? ["detector"] document with
  | none => rfl
  | some fields =>
    match fields, hr.length hfields with
    | [some detector], _ => rfl
    | [none], _ => rfl

theorem ofDocument?_reworded {document document' : Value}
    (h : DocumentReworded document document') :
    ofDocument? r document = ofDocument? r document' := by
  rw [ofDocument?_eq_fields hr, ofDocument?_eq_fields hr]
  congr 1
  refine h.view_eq hr (by decide) (fun _ detector detector' hdetector => ?_)
    (fun _ h => by cases h)
  exact detectorSection_reworded hr hdetector {}

end Wordings

theorem packetBytes_eq {c : Config} (hc : c.Valid) :
    1 ≤ c.payloadWords ∧ c.packetBytes = 8 * (c.headerWords + c.payloadWords) := by
  have haligned := hc.packetBytes_aligned
  have hroom := hc.header_lt_packet
  unfold payloadWords wordsPerPacket
  unfold wordBytes at *
  omega

/-- Sizes that the machine computes without wrapping. -/
structure SizesFit (c : Config) : Prop where
  packetHeader : c.headerWords * wordBytes < UInt64.size
  frame : c.frameBytes < UInt64.size

section Outcome

variable {r : Json.Reader} {document : Value} {c : Config}

theorem ofDocument_of_validate_ok (h : ofDocument? r document = some c)
    (hvalidate : c.validate = .ok ()) : ofDocument r document = .ok c := by
  simp only [ofDocument, h, hvalidate]

theorem ofDocument_of_validate_error {cause : ConfigError} (h : ofDocument? r document = some c)
    (hvalidate : c.validate = .error cause) :
    ofDocument r document = .error (.fault (.config cause)) := by
  simp only [ofDocument, h, hvalidate]

theorem ofDocument_eq_ok_iff (h : ofDocument? r document = some c) {accepted : Config} :
    ofDocument r document = .ok accepted ↔ accepted = c ∧ accepted.validate = .ok () := by
  constructor
  · intro haccepted
    cases hvalidate : c.validate with
    | ok =>
      rw [ofDocument_of_validate_ok h hvalidate] at haccepted
      cases haccepted
      exact ⟨rfl, hvalidate⟩
    | error cause =>
      rw [ofDocument_of_validate_error h hvalidate] at haccepted
      cases haccepted
  · rintro ⟨rfl, hvalidate⟩
    exact ofDocument_of_validate_ok h hvalidate

theorem ofDocument_eq_error_iff (h : ofDocument? r document = some c) {cause : ConfigError} :
    ofDocument r document = .error (.fault (.config cause)) ↔ c.validate = .error cause := by
  constructor
  · intro hrefused
    cases hvalidate : c.validate with
    | ok =>
      rw [ofDocument_of_validate_ok h hvalidate] at hrefused
      cases hrefused
    | error found =>
      rw [ofDocument_of_validate_error h hvalidate] at hrefused
      cases hrefused
      rfl
  · exact ofDocument_of_validate_error h

end Outcome

/--
A document sets what it sets over the defaults, and the outcome is accepted exactly if it passes
the check. No other wording of the document changes that, and neither does a file. What is accepted,
with sizes that fit, has room for a payload in every packet, and its slots tile the bytes behind the
header of a frame.
-/
theorem readText_overrides_then_validates {r : Json.Reader} (hr : r.Lawful) {bytes : Bytes}
    {document : Value} {s : Settings} (hparse : r.text? bytes = some document)
    (h : s.InDocument document) :
    (∀ c, readText r bytes = .ok c ↔ c = override {} s ∧ c.validate = .ok ()) ∧
    (∀ cause, readText r bytes = .error (.fault (.config cause)) ↔
      (override {} s).validate = .error cause) ∧
    (∀ {bytes' : Bytes} {document' : Value}, r.text? bytes' = some document' →
      DocumentReworded document document' → readText r bytes' = readText r bytes) ∧
    readFile r (.content bytes) = readText r bytes ∧
    ∀ c, readText r bytes = .ok c → c.SizesFit →
      1 ≤ c.payloadWords ∧ c.packetBytes = 8 * (c.headerWords + c.payloadWords) ∧
        ∀ offset, c.frameHeaderSize.toNat ≤ offset ∧ offset < c.frameSize.toNat ↔
          ∃! slot, slot < c.packetSlots ∧ Frame.slotOffset c slot ≤ offset ∧
            offset < Frame.slotOffset c slot + c.packetBytes := by
  have hread := ofDocument?_eq hr h
  have htext {bytes : Bytes} {document : Value} (hparse : r.text? bytes = some document) :
      readText r bytes = ofDocument r document := by
    rw [readText, hparse]
  have hfile : readFile r (.content bytes) = ofDocument r document := by
    rw [readFile, hr.file, hparse]
  rw [htext hparse]
  refine ⟨fun c => ofDocument_eq_ok_iff hread, fun cause => ofDocument_eq_error_iff hread, ?_,
    hfile, ?_⟩
  · intro bytes' document' hparse' hreworded
    rw [htext hparse', ofDocument, ofDocument, ofDocument?_reworded hr hreworded]
  · intro c hc hfit
    have hvalidate := ((ofDocument_eq_ok_iff hread).1 hc).2
    rw [validate_eq_check hfit.packetHeader] at hvalidate
    have hvalid := (check_eq_ok_iff c).1 hvalidate
    obtain ⟨hpayload, hpacket⟩ := packetBytes_eq hvalid
    rw [toNat_frameSize hfit.frame,
      toNat_frameHeaderSize (Nat.lt_of_le_of_lt c.headerBytes_le_frameBytes hfit.frame)]
    exact ⟨hpayload, hpacket, Frame.slots_tile hvalid⟩

/-- The bytes of a text in ASCII. -/
def asciiBytes (text : String) : Bytes := text.toList.map fun c => UInt8.ofNat c.toNat

/-- A document with an unknown member and a section as an array. -/
def unusualText : String :=
  "\x7b\"x\":0,\"detector\":\x7b\"timeslice\":[16],\"frame\":\x7b\"byte_order\":\"big\"\x7d\x7d\x7d"

def unusualDetector : Value :=
  .ofMembers [("timeslice", .array [.number "16"]),
    ("frame", .ofMembers [("byte_order", .string (some "big"))])]

/-- The same without either, in the declared order. -/
def plainText : String :=
  "\x7b\"detector\":\x7b\"frame\":\x7b\"byte_order\":\"big\"\x7d," ++
    "\"timeslice\":\x7b\"buffers\":16\x7d\x7d\x7d"

def plainDetector : Value :=
  .ofMembers [("frame", .ofMembers [("byte_order", .string (some "big"))]),
    ("timeslice", .ofMembers [("buffers", .number "16")])]

theorem readText_overrides_then_validates_unusual :
    let c : Config := { sliceBuffers := 16, byteOrder := .big }
    Json.Reader.standard.Lawful ∧ ofBytes (asciiBytes unusualText) = .ok c ∧
      ofBytes (asciiBytes plainText) = ofBytes (asciiBytes unusualText) ∧
      ofFile (.content (asciiBytes unusualText)) = .ok c ∧
      c.frameHeaderSize = 32 ∧ c.frameSize = 32 + 16 * 8000 ∧
      ∀ offset, c.frameHeaderSize.toNat ≤ offset ∧ offset < c.frameSize.toNat ↔
        ∃! slot, slot < 16 ∧ Frame.slotOffset c slot ≤ offset ∧
          offset < Frame.slotOffset c slot + 8000 := by
  intro c
  have hparse : Json.parse? (asciiBytes unusualText) =
      some (.ofMembers [("x", .number "0"), ("detector", unusualDetector)]) := by
    rfl
  have hplain : Json.parse? (asciiBytes plainText) =
      some (.ofMembers [("detector", plainDetector)]) := by
    rfl
  let s : Settings := { sliceBuffers := some 16, byteOrder := some .big }
  have hframe : s.InFrame (.ofMembers [("byte_order", .string (some "big"))]) :=
    ⟨_, .once (by decide), .none, .none, .none, .some (.text .big)⟩
  have hslices : s.InSlices (.array [.number "16"]) :=
    ⟨_, .upTo (by decide) (by decide), .some ⟨rfl, by decide⟩⟩
  have hprocessing : s.InProcessing (.ofMembers []) :=
    ⟨_, .once (by decide), .none, .none⟩
  have hsettings : s.InDocument (.ofMembers [("x", .number "0"), ("detector", unusualDetector)]) :=
    ⟨_, unusualDetector, .once (by decide), rfl, _, .once (by decide), hframe, hslices, hprocessing⟩
  have hdetector : DetectorReworded unusualDetector plainDetector := by
    have htimeslice : SectionReworded "timeslice" (.array [.number "16"])
        (.ofMembers [("buffers", .number "16")]) :=
      .positional (by decide)
    exact .trans (.field _ htimeslice) (.order (.swap _ _ _))
  obtain ⟨haccepted, -, hsame, hfile, hsizes⟩ :=
    readText_overrides_then_validates Json.Reader.standard_lawful hparse hsettings
  have hvalidate : (override {} s).validate = .ok () := by decide
  have hread : ofBytes (asciiBytes unusualText) = .ok c := (haccepted _).2 ⟨rfl, hvalidate⟩
  obtain ⟨-, -, htiled⟩ := hsizes c hread ⟨by decide, by decide⟩
  exact ⟨Json.Reader.standard_lawful, hread,
    hsame hplain (.trans (.unknown _ _ (by decide)) (.field [] hdetector)), hfile.trans hread,
    by decide, by decide, htiled⟩

end EventReadout.Config
