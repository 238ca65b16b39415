import EventReadout.Job.Decode
import EventReadout.Notice

/-! What the decoding of a job gives notice of. -/
namespace EventReadout.Job

/-- A malformed start, every mismatch, and one summary. -/
def notices (j : Job) : List Notice :=
  let d := j.decoded
  ((malformedStart? j.words).map (Notice.malformedStart j.packetNumber)).toList ++
    d.mismatches.toList.map (.timestampMismatch j.packetNumber) ++
    [.jobDecoded j.packetNumber j.slice j.words.length d.events.size d.controls.size
      d.mismatches.size]

end EventReadout.Job
