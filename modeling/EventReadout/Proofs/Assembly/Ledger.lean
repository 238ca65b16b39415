import EventReadout.Proofs.Assembly.Conservation
import EventReadout.Proofs.Assembly.Delivery
import EventReadout.Proofs.Assembly.Tally

/-!
The ledgers of packets and of jobs.

A packet is submitted or its slot is dropped; a submitted packet is turned away, waits or has been
written. Every job that the pool has allocated is in the pool or waits in store.
-/
namespace EventReadout

namespace Pool

variable {α : Type} [Recyclable α]

theorem available_foldl_release (xs : List α) (p : Pool α) :
    (xs.foldl release p).available = p.available + xs.length := by
  induction xs generalizing p with
  | nil => rfl
  | cons x rest ih =>
    rw [List.foldl_cons, ih, List.length_cons]
    have hreleased : (p.release x).available = p.available + 1 := rfl
    omega

theorem acquire_iterate (p : Pool α) (count : Nat) :
    let q := (fun p : Pool α => p.acquire.2)^[count] p
    q.available = p.available - count ∧
      q.allocated = p.allocated + (count - p.available) := by
  induction count generalizing p with
  | zero => exact ⟨rfl, by simp⟩
  | succ count ih =>
    obtain ⟨havailable, hallocated⟩ := ih p.acquire.2
    dsimp only
    rw [Function.iterate_succ_apply, havailable, hallocated]
    cases hfree : p.free with
    | nil =>
      have hempty : p.available = 0 := congrArg List.length hfree
      have hnext : p.acquire.2.available = 0 ∧ p.acquire.2.allocated = p.allocated + 1 := by
        simp [acquire, hfree, available]
      omega
    | cons x rest =>
      have hfilled : p.available = rest.length + 1 := congrArg List.length hfree
      have hnext : p.acquire.2.available = rest.length ∧
          p.acquire.2.allocated = p.allocated := by
        simp [acquire, hfree, available]
      omega

end Pool

theorem Filing.available_run (f : Filing) (jobs : List Job) :
    (f.run jobs).pool.available + (f.stale.size + f.outOfRange.size) =
      f.pool.available + ((f.run jobs).stale.size + (f.run jobs).outOfRange.size) := by
  induction jobs generalizing f with
  | nil => rfl
  | cons j rest ih =>
    have hfile : (f.file j).pool.available + (f.stale.size + f.outOfRange.size) =
        f.pool.available + ((f.file j).stale.size + (f.file j).outOfRange.size) := by
      unfold file
      cases f.reassembly.file j.slice j with
      | mk verdict reassembly =>
        cases verdict with
        | accepted => rfl
        | stale =>
          simp only [Pool.release, Pool.available, List.length_cons, Array.size_push]
          omega
        | outOfRange =>
          simp only [Pool.release, Pool.available, List.length_cons, Array.size_push]
          omega
    have hrest := ih (f.file j)
    have hrun : f.run (j :: rest) = (f.file j).run rest := rfl
    rw [hrun]
    omega

namespace Call

variable {c : Config} {call : Call}

theorem length_jobs_add_dropped (hc : c.Valid) (call : Call) :
    (call.jobs c).length + call.dropped c = if call.Standard c then c.packetSlots else 0 := by
  by_cases h : call.Standard c
  · obtain ⟨f, hframe, hidle⟩ := h
    obtain ⟨arrangement, bytes, rfl, hf⟩ := exists_feed hframe
    have hstandard : (feed arrangement bytes).Standard c := ⟨f, hframe, hidle⟩
    have hfew : ((feed arrangement bytes).jobs c).length ≤ c.packetSlots := by
      rw [jobs_of_frame hframe hidle, Frame.jobs_eq hc hf hidle, List.length_map, List.length_map]
      exact (List.length_filter_le _ _).trans_eq List.length_range
    rw [dropped, if_pos hstandard, if_pos hstandard]
    omega
  · rw [jobs_of_not_standard h, dropped_of_not_standard h, if_neg h]
    rfl

theorem countP_frame (c : Config) (calls : List Call) :
    (calls.countP fun call => (call.frame? c).isSome) =
      (calls.countP fun call => decide (call.Closing c)) +
        calls.countP fun call => decide (call.Standard c) := by
  induction calls with
  | nil => rfl
  | cons call rest ih =>
    rw [List.countP_cons, List.countP_cons, List.countP_cons, ih]
    cases hframe : call.frame? c with
    | none => simp [Closing, Standard, hframe]
    | some f =>
      cases hidle : f.idle with
      | true =>
        simp only [Closing, Standard, hframe, hidle, Option.some.injEq, exists_eq_left']
        simp
        omega
      | false =>
        simp only [Closing, Standard, hframe, hidle, Option.some.injEq, exists_eq_left']
        simp
        omega

theorem length_jobs_add_sum_dropped (hc : c.Valid) (calls : List Call) :
    (calls.flatMap (Call.jobs c)).length + (calls.map (Call.dropped c)).sum =
      c.packetSlots * calls.countP fun call => decide (call.Standard c) := by
  induction calls with
  | nil => rfl
  | cons call rest ih =>
    have hcall := length_jobs_add_dropped hc call
    rw [List.flatMap_cons, List.length_append, List.map_cons, List.sum_cons, List.countP_cons,
      Nat.mul_add, ← ih]
    by_cases hstandard : call.Standard c
    · rw [if_pos hstandard] at hcall
      rw [if_pos (decide_eq_true hstandard), Nat.mul_one]
      omega
    · rw [if_neg hstandard] at hcall
      rw [if_neg (by simpa using hstandard), Nat.mul_zero]
      omega

end Call

namespace Assembler

variable {c : Config} {a b : Assembler} {call : Call} {calls : List Call}

/-- Jobs that the pool has allocated and that are not in it wait in store. -/
def Stocked (a : Assembler) : Prop := a.pool.allocated = a.pool.available + a.pending

/-- Collecting gives every job back that does not stay in store. -/
theorem pool_collect (a : Assembler) (ys : List Job) :
    let report := (a.collect ys).1
    (a.collect ys).2.pool.available = a.pool.available +
        (report.stale.length + report.outOfRange.length + report.written.length) ∧
      (a.collect ys).2.pool.allocated = a.pool.allocated := by
  let filing := Filing.run { pool := a.pool, reassembly := a.reassembly } ys
  let written := filing.reassembly.drainFinal.1
  have hfiled : filing.pool.available + 0 =
      a.pool.available + (filing.stale.size + filing.outOfRange.size) :=
    Filing.available_run { pool := a.pool, reassembly := a.reassembly } ys
  have hreleased : (written.foldl Pool.release filing.pool).available =
      filing.pool.available + written.length := Pool.available_foldl_release _ _
  have hallocated : (written.foldl Pool.release filing.pool).allocated = a.pool.allocated :=
    (Pool.allocated_foldl_release _ _).trans (Filing.allocated_run _ ys)
  refine ⟨?_, hallocated⟩
  change (written.foldl Pool.release filing.pool).available =
    a.pool.available + (filing.stale.size + filing.outOfRange.size + written.length)
  omega

theorem pool_finishAcquisition (a : Assembler) :
    a.finishAcquisition.2.pool.available =
        a.pool.available + a.finishAcquisition.1.written.length ∧
      a.finishAcquisition.2.pool.allocated = a.pool.allocated :=
  ⟨Pool.available_foldl_release a.reassembly.finish.1 a.pool,
    Pool.allocated_foldl_release a.reassembly.finish.1 a.pool⟩

/-- Submitting a frame takes a job for each of its packets, and allocates what the pool lacks. -/
theorem pool_submit (ha : a.pool.Blank) {f : Frame} (hread : f.Readable) :
    (a.submit f).2.2.pool.available = a.pool.available - f.jobs.length ∧
      (a.submit f).2.2.pool.allocated =
        a.pool.allocated + (f.jobs.length - a.pool.available) := by
  have htaken : (a.submit f).2.2.pool =
      (fun p : Pool Job => p.acquire.2)^[f.jobs.length] a.pool :=
    (Intake.ofFrame_counts ha hread).1
  rw [htaken]
  exact Pool.acquire_iterate a.pool f.jobs.length

/-- What a call takes from the pool, which may have to allocate, and what it gives back. -/
theorem step_pool (ha : a.Consistent c) (call : Call) :
    let report := (a.step call).1
    let count := (call.jobs c).length
    (a.step call).2.pool.available = a.pool.available - count +
        (report.stale.length + report.outOfRange.length + report.written.length) ∧
      (a.step call).2.pool.allocated = a.pool.allocated + (count - a.pool.available) := by
  have hcourse := step_course ha call
  generalize a.step call = out at hcourse ⊢
  dsimp only
  cases hcourse with
  | nothing hnone =>
    rw [Call.jobs_of_not_standard (Call.not_standard_of_none hnone)]
    simp
  | renumbering hnone =>
    rw [Call.jobs_of_not_standard (Call.not_standard_of_none hnone)]
    simp
  | closing hclosing =>
    obtain ⟨havailable, hallocated⟩ := pool_finishAcquisition a
    rw [Call.jobs_of_not_standard (Call.not_standard_of_closing hclosing), havailable, hallocated]
    exact ⟨by simp [finishAcquisition], by simp⟩
  | @standard arrangement bytes f hf hidle report b hcollect =>
    obtain ⟨hleft, hgrown⟩ := pool_submit ha.blank (Frame.readable_of_parse ha.valid hf hidle)
    obtain ⟨havailable, hallocated⟩ := pool_collect (a.submit f).2.2
      ((Call.feed arrangement bytes).results c)
    rw [hcollect] at havailable hallocated
    rw [Call.jobs_of_frame (Call.frame?_feed arrangement hf) hidle, List.length_map, ← hleft,
      ← hgrown]
    exact ⟨havailable, hallocated⟩

theorem Stocked.step (h : a.Stocked) (ha : a.Consistent c) (call : Call) :
    (a.step call).2.Stocked ∧ (a.step call).2.pool.allocated =
      max a.pool.allocated (a.pending + (call.jobs c).length) := by
  obtain ⟨havailable, hallocated⟩ := step_pool ha call
  have hbalanced := (step_spec ha call).1.balanced ha
  have hjudged := hbalanced.judged.length_eq
  have hheld := hbalanced.held.length_eq
  simp only [List.length_append] at hjudged hheld
  unfold Stocked pending SliceStore.count at *
  omega

/-- For each standard frame the jobs that waited before it and the packets that it submits. -/
def loads (c : Config) : Assembler → List Call → List Nat
  | _, [] => []
  | a, call :: rest =>
    let b := (a.step call).2
    (if call.Standard c then
      [a.pending + (b.statistics.packetsSubmitted - a.statistics.packetsSubmitted)]
    else []) ++ b.loads c rest

/-- The pool has allocated as much as the heaviest load so far, if not from the start. -/
theorem Stocked.run (h : a.Stocked) (ha : a.Consistent c) (calls : List Call) :
    (a.run calls).2.Stocked ∧
      (a.run calls).2.pool.allocated = (a.loads c calls).foldl max a.pool.allocated := by
  induction calls generalizing a with
  | nil => exact ⟨h, rfl⟩
  | cons call rest ih =>
    obtain ⟨hstocked, hallocated⟩ := h.step ha call
    obtain ⟨hrun, hall⟩ := ih hstocked (step_spec ha call).2.2
    refine ⟨hrun, ?_⟩
    rw [run, hall, hallocated, loads, List.foldl_append]
    congr 1
    by_cases hcall : call.Standard c
    · have hcounts : (a.step call).2.statistics.packetsSubmitted =
          a.statistics.packetsSubmitted + (call.jobs c).length := by
        have hstep := congrArg Statistics.packetsSubmitted (step_counts ha call)
        rw [tally_of_standard hcall] at hstep
        exact hstep
      have hsubmitted : (a.step call).2.statistics.packetsSubmitted -
          a.statistics.packetsSubmitted = (call.jobs c).length := by omega
      rw [if_pos hcall, hsubmitted]
      rfl
    · rw [if_neg hcall, Call.jobs_of_not_standard hcall]
      unfold Stocked at h
      simp only [List.length_nil, List.foldl_nil]
      omega

theorem stocked_ofConfig (h : ofConfig c = .ok a) :
    a.Stocked ∧ a.pool.allocated = 2 * c.packetSlots ∧ a.counts = {} := by
  unfold ofConfig at h
  split at h
  · cases h
  · cases h
    have hfree : (Pool.prefilled (2 * c.packetSlots) : Pool Job).available = 2 * c.packetSlots := by
      simp [Pool.prefilled, Pool.available]
    exact ⟨hfree.symm, rfl, rfl⟩

/-- After an idle frame the events decoded have been written or turned away. -/
theorem run_events_closed (ha : a.Consistent c) (hempty : a.reassembly.store.toList = [])
    {last : Call} (hlast : calls.getLast? = some last) (hclosing : last.Closing c) :
    let report := (a.run calls).1
    (Statistics.ofJobs (calls.flatMap (Call.jobs c))).eventsDecoded =
      (report.written.flatMap Job.events).length +
        ((report.stale ++ report.outOfRange).flatMap Job.events).length := by
  have hbalanced := run_balanced ha calls
  have hheld := hbalanced.held
  rw [hempty, List.nil_append, (run_closed ha hlast hclosing).1] at hheld
  have hwritten := (hheld.flatMap_right Job.events).length_eq
  have hjudged := (hbalanced.judged.flatMap_right Job.events).length_eq
  have hdecoded : (Statistics.ofJobs (calls.flatMap (Call.jobs c))).eventsDecoded =
      ((calls.flatMap (Call.jobs c)).flatMap Job.events).length := by
    rw [List.length_flatMap]
    rfl
  have hnone : ({ store := { buffers := c.sliceBuffers } } : Reassembly Job).store.toList = [] :=
    rfl
  rw [hnone, List.append_nil] at hwritten
  rw [List.append_assoc, List.flatMap_append, List.length_append] at hjudged
  dsimp only
  rw [hdecoded, ← hjudged, hwritten]

end Assembler
end EventReadout
