import EventReadout.Job.Basic
import EventReadout.Timestamp.Coarse

/-!
Decoding of payload words into events.

Extended timestamps move the coarse pair, other control words are marked with the events before
them, and event words get their full timestamps or are dropped as mismatches.
-/
namespace EventReadout

/-- State of a decoder between two words. -/
structure WordDecoder where
  coarse : CoarseTimestamps := {}
  events : EventBatch := {}
  controls : Array ControlMark := #[]
  mismatches : Array TimestampMismatch := #[]
  deriving DecidableEq, Repr, Inhabited

namespace WordDecoder

def step (d : WordDecoder) (w : DataWord) : WordDecoder :=
  let ⟨coarse, events, controls, mismatches⟩ := d
  match w.classify with
  | .extendedTimestamp value => ⟨coarse.observe value, events, controls, mismatches⟩
  | .control _ =>
    let index := events.size
    ⟨coarse, events, controls.push ⟨w, index⟩, mismatches⟩
  | .event fine id energy =>
    match coarse.resolve fine with
    | .ok timestamp =>
      ⟨coarse, events.push ⟨timestamp, id, energy.toUInt32⟩, controls, mismatches⟩
    | .error mismatch => ⟨coarse, events, controls, mismatches.push mismatch⟩

def run (d : WordDecoder) (words : List DataWord) : WordDecoder := words.foldl step d

end WordDecoder

/-- The first word is not an extended timestamp; an empty payload is well formed. -/
def malformedStart? (words : List DataWord) : Option DataWord :=
  words.head?.filter (!·.isExtendedTimestamp)

namespace DecodedWords

/-- Decoding adds to the results that are there. -/
def extend (r : DecodedWords) (words : List DataWord) : DecodedWords :=
  let malformedStart := r.malformedStart || (malformedStart? words).isSome
  let d := (WordDecoder.mk {} r.events r.controls r.mismatches).run words
  ⟨d.events, d.controls, d.mismatches, malformedStart⟩

def ofWords (words : List DataWord) : DecodedWords := ({} : DecodedWords).extend words

theorem ofWords_eq (words : List DataWord) :
    ofWords words =
      let d := ({} : WordDecoder).run words
      ⟨d.events, d.controls, d.mismatches, (malformedStart? words).isSome⟩ := rfl

end DecodedWords

/-- Earlier results are cleared first. -/
def Job.decode (j : Job) : Job :=
  let j := j.clearResults
  { j with decoded := j.decoded.extend j.words }

theorem Job.decode_eq (j : Job) : j.decode = { j with decoded := .ofWords j.words } := rfl

end EventReadout
