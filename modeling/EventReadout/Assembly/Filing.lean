import EventReadout.Job.Pool
import EventReadout.Notice
import EventReadout.Slice.Reassembly

/-! Decoded jobs on their way into the reassembly, in the order in which they arrive. -/
namespace EventReadout

/-- Where the results of a frame have gone so far. -/
structure Filing where
  pool : Pool Job
  reassembly : Reassembly Job
  accepted : Array Job := #[]
  stale : Array Job := #[]
  outOfRange : Array Job := #[]
  notices : Array Notice := #[]

namespace Filing

/-- A job that is turned away goes back to the pool. -/
def file (f : Filing) (j : Job) : Filing :=
  let (verdict, reassembly) := f.reassembly.file j.slice j
  match verdict with
  | .accepted => { f with reassembly, accepted := f.accepted.push j }
  | .stale =>
    { f with
      reassembly
      pool := f.pool.release j
      stale := f.stale.push j
      notices := f.notices.push (.packetStale j.packetNumber j.slice reassembly.mark.wrap) }
  | .outOfRange =>
    { f with
      reassembly
      pool := f.pool.release j
      outOfRange := f.outOfRange.push j
      notices := f.notices.push
        (.sliceOutOfRange j.packetNumber j.slice.buffer reassembly.store.buffers) }

def run (f : Filing) (jobs : List Job) : Filing := jobs.foldl file f

end Filing
end EventReadout
