import EventReadout.Job.Basic

/-! Counters of a reconstruction since its start. -/
namespace EventReadout

structure Statistics where
  framesProcessed : Nat := 0
  idleFrames : Nat := 0
  packetsSubmitted : Nat := 0
  droppedPackets : Nat := 0
  stalePackets : Nat := 0
  invalidPackets : Nat := 0
  eventsDecoded : Nat := 0
  controlWords : Nat := 0
  timestampMismatches : Nat := 0
  malformedJobs : Nat := 0
  outputFrames : Nat := 0
  poolAllocated : Nat := 0
  deriving DecidableEq, Repr, Inhabited

namespace Statistics

/-- Counts what one decoded job holds. -/
def record (s : Statistics) (j : Job) : Statistics :=
  { s with
    eventsDecoded := s.eventsDecoded + j.decoded.events.size
    controlWords := s.controlWords + j.decoded.controls.size
    timestampMismatches := s.timestampMismatches + j.decoded.mismatches.size
    malformedJobs := s.malformedJobs + j.decoded.malformedStart.toNat }

end Statistics
end EventReadout
