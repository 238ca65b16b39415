import EventReadout.Job.Notices
import EventReadout.Queue.Basic

/-! Decode workers between a queue of jobs and a queue of results. -/
namespace EventReadout

/-- Both ends of a set of workers that share their queues. -/
structure Workers where
  size : Nat
  jobs : Queue Job := {}
  results : Queue Job := {}
  deriving DecidableEq, Repr

namespace Workers

def startupNotices (w : Workers) : List Notice := [.workersStarted w.size]

def submit (w : Workers) (j : Job) : Workers := { w with jobs := w.jobs.add j }

/-- Every job that waits is decoded, provided there is a worker. -/
def settle (w : Workers) : Workers :=
  if w.size = 0 then w
  else { w with
    jobs := { w.jobs with items := [] }
    results := (w.jobs.items.map Job.decode).foldl Queue.add w.results }

/-- The job queue is closed, and each worker leaves once it is empty. -/
def shutdown (w : Workers) : Workers :=
  let w := w.settle
  { w with size := 0, jobs := w.jobs.close }

end Workers
end EventReadout
