import EventReadout.Assembly.Filing
import EventReadout.Assembly.Intake
import EventReadout.Channel.Outputs
import EventReadout.Host
import EventReadout.Job.Notices
import EventReadout.Statistics

/-!
The reconstruction of one process: frames go in, and output frames come out in time order.

An idle frame closes an acquisition: whatever is left is written and numbering starts again.
-/
namespace EventReadout

structure Assembler where
  config : Config
  pool : Pool Job
  reassembly : Reassembly Job
  outputs : Outputs
  counts : Statistics := {}

/-- What one call did, besides its effect on the state. -/
structure Report where
  frames : List OutputFrame := []
  accepted : List Job := []
  stale : List Job := []
  outOfRange : List Job := []
  /-- Jobs whose events went to the channel buffers, in that order. -/
  written : List Job := []
  notices : List Notice := []

/-- A call's result and its notices, which it leaves whether it succeeds or not. -/
structure Answer where
  result : Except ProcessError Report
  notices : List Notice

namespace Assembler

/-- Ready for a first frame, with two jobs per slot in the pool. -/
def fresh (c : Config) : Assembler where
  config := c
  pool := .prefilled (2 * c.packetSlots)
  reassembly := { store := { buffers := c.sliceBuffers } }
  outputs := .ofCapacity c.frameCapacity

def ofConfig (c : Config) : Except ProcessError Assembler := do
  match c.check with
  | .error cause => throw (.fault (.config cause))
  | .ok () => return fresh c

/-- Workers and their handles, the pool, the columns of a job and of a channel; of the demands of
one kind that follow each other the largest. -/
def demands (c : Config) : List Demand :=
  [.table c.threads, .workers c.threads, .table (2 * c.packetSlots), .block (8 * c.payloadWords),
    .block (8 * c.frameCapacity)]

/-- The start on a machine that may lack workers or memory. -/
def launch (h : Host) (c : Config) : Except Halt (Except ProcessError Assembler) :=
  match c.validate with
  | .error cause => .ok (.error (.fault (.config cause)))
  | .ok () => h.carryOut (demands c) (.ok (fresh c))

def workers (a : Assembler) : Nat := a.config.threads

/-- Given once, when the decode workers have started. -/
def startupNotices (a : Assembler) : List Notice := [.workersStarted a.workers]

/-- Splits frame numbers among `processes` of which this one is `rank`. -/
def configure (a : Assembler) (processes rank : Nat) : Except ProcessError Report × Assembler :=
  if processes = 0 ∨ processes ≤ rank then
    (.error (.fault (.config (.rankInvalid rank processes))), a)
  else
    (.ok { notices := [.processConfigured rank processes] },
      { a with outputs := a.outputs.configure processes rank })

/-- Writes the events of jobs and returns the jobs to the pool. -/
def write (a : Assembler) (jobs : List Job) : List OutputFrame × Assembler :=
  let (frames, outputs) := a.outputs.writeAll (jobs.map (·.decoded.events))
  (frames, { a with outputs, pool := jobs.foldl Pool.release a.pool })

/-- Everything left is written, whether or not it fills a frame. -/
def finishAcquisition (a : Assembler) : Report × Assembler :=
  let (written, reassembly) := a.reassembly.finish
  let (frames, a) := { a with reassembly }.write written
  let (partials, outputs) := a.outputs.flush
  let frames := frames ++ partials
  ({ frames, written,
     notices := [.idleFlushed frames.length a.pool.available a.pool.allocated] },
    { a with
      outputs := outputs.restart
      counts := { a.counts with
        framesProcessed := a.counts.framesProcessed + 1
        idleFrames := a.counts.idleFrames + 1
        outputFrames := a.counts.outputFrames + frames.length } })

/-- Files the results of a frame in the order given and writes what has become final. -/
def collect (a : Assembler) (results : List Job) : Report × Assembler :=
  let filing := Filing.run { pool := a.pool, reassembly := a.reassembly } results
  let (written, reassembly) := filing.reassembly.drainFinal
  let (frames, a) := { a with pool := filing.pool, reassembly }.write written
  let counts := results.foldl Statistics.record a.counts
  ({ frames, written,
     accepted := filing.accepted.toList
     stale := filing.stale.toList
     outOfRange := filing.outOfRange.toList
     notices := filing.notices.toList },
    { a with counts := { counts with
        stalePackets := counts.stalePackets + filing.stale.size
        invalidPackets := counts.invalidPackets + filing.outOfRange.size
        outputFrames := counts.outputFrames + frames.length } })

/-- A frame's jobs enter the decoding. -/
def submit (a : Assembler) (f : Frame) : List Job × List Notice × Assembler :=
  let intake := Intake.ofFrame a.pool f
  (intake.jobs.toList, intake.notices.toList,
    { a with
      pool := intake.pool
      counts := { a.counts with
        framesProcessed := a.counts.framesProcessed + 1
        packetsSubmitted := a.counts.packetsSubmitted + intake.jobs.size
        droppedPackets := a.counts.droppedPackets + intake.dropped
        invalidPackets := a.counts.invalidPackets + intake.invalid } })

/-- The workers may deliver the decoded jobs in any order; `arrange` is the one they chose. -/
def feedFrame (a : Assembler) (arrange : List Job → List Job) (f : Frame) : Report × Assembler :=
  if f.idle then a.finishAcquisition
  else
    let (jobs, intakeNotices, a) := a.submit f
    let results := arrange (jobs.map Job.decode)
    let (report, a) := a.collect results
    ({ report with
       notices := intakeNotices ++ results.flatMap Job.notices ++ report.notices ++
        [.frameProcessed f.number.toNat jobs.length report.frames.length a.reassembly.mark] }, a)

/-- Bytes that are no frame of the geometry change nothing. -/
def handle (a : Assembler) (arrange : List Job → List Job) (bytes : Bytes) : Answer × Assembler :=
  match Frame.parse a.config bytes with
  | .error cause => ({ result := .error (.decode cause), notices := [] }, a)
  | .ok f =>
    let (report, a) := a.feedFrame arrange f
    ({ result := .ok report, notices := report.notices }, a)

def feedWith (a : Assembler) (arrange : List Job → List Job) (bytes : Bytes) :
    Except ProcessError Report × Assembler :=
  let (answer, a) := a.handle arrange bytes
  (answer.result, a)

/-- Results in slot order. -/
def feed (a : Assembler) (bytes : Bytes) : Except ProcessError Report × Assembler :=
  a.feedWith id bytes

/-- Frames one after the other. -/
def feedAll : (a : Assembler) → List Bytes → List (Except ProcessError Report) × Assembler
  | a, [] => ([], a)
  | a, bytes :: rest =>
    let (result, a) := a.feed bytes
    let (later, a) := a.feedAll rest
    (result :: later, a)

def residents (a : Assembler) : List Nat := a.reassembly.store.wraps

/-- Jobs that wait for their slice to become final. -/
def pending (a : Assembler) : Nat := a.reassembly.store.count

def statistics (a : Assembler) : Statistics :=
  { a.counts with poolAllocated := a.pool.allocated }

end Assembler
end EventReadout
