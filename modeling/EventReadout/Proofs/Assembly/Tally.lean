import EventReadout.Proofs.Assembly.Acceptance
import Mathlib.Algebra.BigOperators.Group.List.Basic

/-! What a run adds to the counters, told from the frames that it takes in and from its report. -/
namespace EventReadout

attribute [ext] Statistics

namespace Statistics

protected def add (s t : Statistics) : Statistics where
  framesProcessed := s.framesProcessed + t.framesProcessed
  idleFrames := s.idleFrames + t.idleFrames
  packetsSubmitted := s.packetsSubmitted + t.packetsSubmitted
  droppedPackets := s.droppedPackets + t.droppedPackets
  stalePackets := s.stalePackets + t.stalePackets
  invalidPackets := s.invalidPackets + t.invalidPackets
  eventsDecoded := s.eventsDecoded + t.eventsDecoded
  controlWords := s.controlWords + t.controlWords
  timestampMismatches := s.timestampMismatches + t.timestampMismatches
  malformedJobs := s.malformedJobs + t.malformedJobs
  outputFrames := s.outputFrames + t.outputFrames
  poolAllocated := s.poolAllocated + t.poolAllocated

instance : Add Statistics := ⟨Statistics.add⟩

theorem add_def (s t : Statistics) : s + t = s.add t := rfl

protected theorem add_assoc (s t u : Statistics) : s + t + u = s + (t + u) := by
  simp only [add_def, Statistics.add, Nat.add_assoc]

protected theorem zero_add (s : Statistics) : ({} : Statistics) + s = s := by
  simp only [add_def, Statistics.add, Nat.zero_add]

/-- What decoded jobs hold. -/
def ofJobs (jobs : List Job) : Statistics where
  eventsDecoded := (jobs.map (·.decoded.events.size)).sum
  controlWords := (jobs.map (·.decoded.controls.size)).sum
  timestampMismatches := (jobs.map (·.decoded.mismatches.size)).sum
  malformedJobs := (jobs.map (·.decoded.malformedStart.toNat)).sum

theorem ofJobs_append (jobs jobs' : List Job) :
    ofJobs (jobs ++ jobs') = ofJobs jobs + ofJobs jobs' := by
  simp only [ofJobs, List.map_append, List.sum_append]
  rfl

theorem ofJobs_perm {jobs jobs' : List Job} (h : jobs.Perm jobs') : ofJobs jobs = ofJobs jobs' := by
  simp only [ofJobs, (h.map _).sum_eq]

theorem foldl_record (jobs : List Job) (s : Statistics) :
    jobs.foldl record s = s + ofJobs jobs := by
  induction jobs generalizing s with
  | nil => rfl
  | cons j rest ih =>
    have hfirst : s.record j = s + ofJobs [j] := rfl
    rw [List.foldl_cons, ih, hfirst, Statistics.add_assoc, ← ofJobs_append]
    rfl

end Statistics

namespace Call

/-- Slots of a standard frame that bring no packet. -/
def dropped (c : Config) (call : Call) : Nat :=
  if call.Standard c then c.packetSlots - (call.jobs c).length else 0

theorem dropped_of_not_standard {c : Config} {call : Call} (h : ¬ call.Standard c) :
    call.dropped c = 0 := if_neg h

end Call

namespace Assembler

variable {c : Config} {a : Assembler} {call : Call} {calls calls' : List Call} {r s : Report}

/-- What calls add to the counters if `report` is what they report. -/
def tally (c : Config) (calls : List Call) (report : Report) : Statistics :=
  { Statistics.ofJobs (calls.flatMap (Call.jobs c)) with
    framesProcessed := calls.countP fun call => (call.frame? c).isSome
    idleFrames := calls.countP fun call => decide (call.Closing c)
    packetsSubmitted := (calls.flatMap (Call.jobs c)).length
    droppedPackets := (calls.map (Call.dropped c)).sum
    stalePackets := report.stale.length
    invalidPackets := report.outOfRange.length
    outputFrames := report.frames.length }

theorem tally_append : tally c (calls ++ calls') (r ++ s) = tally c calls r + tally c calls' s := by
  simp only [tally, List.flatMap_append, Statistics.ofJobs_append, List.countP_append,
    List.length_append, List.map_append, List.sum_append, Report.stale_append,
    Report.outOfRange_append, Report.frames_append]
  rfl

theorem tally_of_none (hnone : call.frame? c = none) (notices : List Notice) :
    tally c [call] { notices } = {} := by
  have hs := Call.not_standard_of_none hnone
  have hc := Call.not_closing_of_none hnone
  simp [tally, Call.jobs_of_not_standard hs, Call.dropped_of_not_standard hs, hc, hnone,
    Statistics.ofJobs]

theorem tally_of_closing (hcall : call.Closing c) (hstale : r.stale = [])
    (hout : r.outOfRange = []) :
    tally c [call] r =
      { framesProcessed := 1, idleFrames := 1, outputFrames := r.frames.length } := by
  have hs := Call.not_standard_of_closing hcall
  have hframe : (call.frame? c).isSome := by
    obtain ⟨f, hf, -⟩ := hcall
    rw [hf]
    rfl
  simp [tally, Call.jobs_of_not_standard hs, Call.dropped_of_not_standard hs, hframe, hcall,
    hstale, hout, Statistics.ofJobs]

theorem tally_of_standard (hcall : call.Standard c) :
    tally c [call] r =
      { Statistics.ofJobs (call.jobs c) with
        framesProcessed := 1
        packetsSubmitted := (call.jobs c).length
        droppedPackets := c.packetSlots - (call.jobs c).length
        stalePackets := r.stale.length
        invalidPackets := r.outOfRange.length
        outputFrames := r.frames.length } := by
  have hc : ¬ call.Closing c := fun hc => Call.not_standard_of_closing hc hcall
  have hframe : (call.frame? c).isSome := by
    obtain ⟨f, hf, -⟩ := hcall
    rw [hf]
    rfl
  simp [tally, hframe, hc, hcall, Call.dropped, Statistics.ofJobs]

theorem counts_finishAcquisition (hcall : call.Closing c) :
    a.finishAcquisition.2.counts = a.counts + tally c [call] a.finishAcquisition.1 := by
  rw [tally_of_closing hcall rfl rfl]
  rfl

/-- The packets of a standard frame that parses are all submitted, and its other slots are
dropped. -/
theorem counts_submit (ha : a.Consistent c) {bytes : Bytes} {f : Frame}
    (hf : Frame.parse c bytes = .ok f) (hidle : f.idle = false) :
    (a.submit f).2.2.counts =
      a.counts + {
        framesProcessed := 1
        packetsSubmitted := f.jobs.length
        droppedPackets := c.packetSlots - f.jobs.length } := by
  have hjobs := (Intake.ofFrame_eq ha.blank f).2
  obtain ⟨-, hdropped, hinvalid⟩ :=
    Intake.ofFrame_counts ha.blank (Frame.readable_of_parse ha.valid hf hidle)
  have hslots : f.packets.length = c.packetSlots := by
    rw [Frame.packets_eq hf hidle, List.length_map, List.length_range]
  have hsize : (Intake.ofFrame a.pool f).jobs.size = f.jobs.length := by
    rw [← hjobs, Array.length_toList]
  have hrest : (Intake.ofFrame a.pool f).dropped = c.packetSlots - f.jobs.length := by omega
  simp only [submit, hsize, hinvalid, hrest]
  rfl

theorem counts_collect (a : Assembler) (results : List Job) :
    let out := a.collect results
    out.2.counts = a.counts + Statistics.ofJobs results + {
      stalePackets := out.1.stale.length
      invalidPackets := out.1.outOfRange.length
      outputFrames := out.1.frames.length } := by
  dsimp only [collect]
  rw [Statistics.foldl_record]
  rfl

/-- The one place where the counters are opened. -/
theorem step_counts (ha : a.Consistent c) (call : Call) :
    (a.step call).2.counts = a.counts + tally c [call] (a.step call).1 := by
  have hcourse := step_course ha call
  generalize a.step call = out at hcourse ⊢
  cases hcourse with
  | nothing hnone =>
    rw [tally_of_none hnone []]
    rfl
  | renumbering hnone =>
    rw [tally_of_none hnone]
    rfl
  | closing hclosing => exact counts_finishAcquisition hclosing
  | @standard arrangement bytes f hf hidle report b hcollect notices =>
    have hframe := Call.frame?_feed arrangement hf
    have hrecorded := Statistics.ofJobs_perm (Call.results_perm c (.feed arrangement bytes))
    have hcounts := counts_collect (a.submit f).2.2 ((Call.feed arrangement bytes).results c)
    rw [hcollect, counts_submit ha hf hidle, hrecorded] at hcounts
    rw [tally_of_standard ⟨f, hframe, hidle⟩, hcounts, Call.jobs_of_frame hframe hidle,
      List.length_map]
    rfl

theorem run_counts (ha : a.Consistent c) (calls : List Call) :
    (a.run calls).2.counts = a.counts + tally c calls (a.run calls).1 := by
  induction calls generalizing a with
  | nil => rfl
  | cons call rest ih =>
    have hstep := (step_spec ha call).2.2
    have hboth : tally c ([call] ++ rest) ((a.step call).1 ++ ((a.step call).2.run rest).1) = _ :=
      tally_append
    rw [run, ih hstep, step_counts ha call, Statistics.add_assoc, ← hboth]
    rfl

end Assembler
end EventReadout
