import EventReadout.Proofs.Assembly.Session
import EventReadout.Proofs.Slice.Relabel

/-!
Assemblers that no call tells apart, but for how their frames are looked at.

They may differ in the packet numbers of the jobs in store, which nothing reads, and in their
channel buffers as far as a relation allows that the buffers keep.
-/
namespace EventReadout

/-- A job without the number of its packet. -/
def Job.unnumbered (j : Job) : Job := { j with packetNumber := 0 }

/-- Buffers that are related emit frames that look the same, and stay related. -/
structure Outputs.Congruent (look : OutputFrame → OutputFrame) (R : Outputs → Outputs → Prop) :
    Prop where
  write {o o' : Outputs} (h : R o o') (batch : EventBatch) :
    (o.write batch).1.map look = (o'.write batch).1.map look ∧
      R (o.write batch).2 (o'.write batch).2
  flush {o o' : Outputs} (h : R o o') :
    o.flush.1.map look = o'.flush.1.map look ∧ R o.flush.2.restart o'.flush.2.restart
  configure {o o' : Outputs} (h : R o o') (processes rank : Nat) :
    R (o.configure processes rank) (o'.configure processes rank)

namespace Outputs.Congruent

variable {look : OutputFrame → OutputFrame} {R : Outputs → Outputs → Prop} {o o' : Outputs}

theorem eq : Congruent id Eq where
  write h batch := by rw [h]; exact ⟨rfl, rfl⟩
  flush h := by rw [h]; exact ⟨rfl, rfl⟩
  configure h processes rank := by rw [h]

theorem writeAll (hR : Congruent look R) (h : R o o') (batches : List EventBatch) :
    (o.writeAll batches).1.map look = (o'.writeAll batches).1.map look ∧
      R (o.writeAll batches).2 (o'.writeAll batches).2 := by
  induction batches generalizing o o' with
  | nil => exact ⟨rfl, h⟩
  | cons batch rest ih =>
    obtain ⟨hframes, hwritten⟩ := hR.write h batch
    obtain ⟨hlater, hrest⟩ := ih hwritten
    simp only [Outputs.writeAll, List.map_append]
    rw [hframes, hlater]
    exact ⟨rfl, hrest⟩

end Outputs.Congruent

/-- Intakes that differ at most in packet numbers and notices. -/
structure Intake.Alike (i k : Intake) : Prop where
  pool : i.pool = k.pool
  size : i.jobs.size = k.jobs.size
  dropped : i.dropped = k.dropped
  invalid : i.invalid = k.invalid

theorem Intake.Alike.refl (i : Intake) : Alike i i := ⟨rfl, rfl, rfl, rfl⟩

/-- Filings that differ at most in packet numbers and notices. -/
structure Filing.Alike (f g : Filing) : Prop where
  pool : f.pool = g.pool
  reassembly : f.reassembly.map Job.unnumbered = g.reassembly.map Job.unnumbered
  stale : f.stale.size = g.stale.size
  outOfRange : f.outOfRange.size = g.outOfRange.size

namespace Filing.Alike

variable {f g : Filing}

/-- Where a job goes does not depend on its packet number, and in the pool the number is gone. -/
theorem file (h : Alike f g) {j k : Job} (hjob : j.unnumbered = k.unnumbered) :
    Alike (f.file j) (g.file k) := by
  have hslice : j.slice = k.slice := by
    have hread := congrArg Job.slice hjob
    exact hread
  have hfiled := Reassembly.file_map Job.unnumbered f.reassembly j.slice j
  rw [h.reassembly, hjob, hslice, Reassembly.file_map] at hfiled
  obtain ⟨hverdict, hkept⟩ := Prod.mk.inj hfiled
  have hpool : f.pool.release j = g.pool.release k := by
    rw [h.pool]
    rfl
  have hstale : f.stale.size = g.stale.size := h.stale
  have hout : f.outOfRange.size = g.outOfRange.size := h.outOfRange
  unfold Filing.file
  rw [hslice]
  dsimp only
  rw [← hverdict]
  cases (g.reassembly.file k.slice k).1 with
  | accepted => exact ⟨h.pool, hkept.symm, hstale, hout⟩
  | stale => exact ⟨hpool, hkept.symm, by simpa using hstale, hout⟩
  | outOfRange => exact ⟨hpool, hkept.symm, hstale, by simpa using hout⟩

theorem run (h : Alike f g) {jobs jobs' : List Job}
    (hjobs : jobs.map Job.unnumbered = jobs'.map Job.unnumbered) :
    Alike (f.run jobs) (g.run jobs') := by
  induction jobs generalizing f g jobs' with
  | nil =>
    obtain rfl := List.map_eq_nil_iff.1 hjobs.symm
    exact h
  | cons j rest ih =>
    obtain ⟨k, rest', rfl, hjob, hrest⟩ := List.map_eq_cons_iff.1 hjobs.symm
    exact ih (h.file hjob.symm) hrest.symm

end Filing.Alike

namespace Assembler

variable {a b : Assembler} {look : OutputFrame → OutputFrame} {R : Outputs → Outputs → Prop}

def View.mapFrames (look : OutputFrame → OutputFrame) (v : View) : View :=
  { v with answer := v.answer.map (List.map look) }

theorem View.mapFrames_id : View.mapFrames id = id := by
  funext v
  unfold mapFrames
  cases hanswer : v.answer with
  | error cause => rw [id, Except.map, ← hanswer]
  | ok frames => rw [id, Except.map, List.map_id, ← hanswer]

/-- Assemblers that differ at most in the packet numbers of the jobs in store, and in their channel
buffers as `R` allows. -/
structure Indistinct (R : Outputs → Outputs → Prop) (a b : Assembler) : Prop where
  config : a.config = b.config
  pool : a.pool = b.pool
  reassembly : a.reassembly.map Job.unnumbered = b.reassembly.map Job.unnumbered
  outputs : R a.outputs b.outputs
  counts : a.counts = b.counts

namespace Indistinct

theorem write (hR : Outputs.Congruent look R) (h : Indistinct R a b) {jobs jobs' : List Job}
    (hjobs : jobs.map Job.unnumbered = jobs'.map Job.unnumbered) :
    (a.write jobs).1.map look = (b.write jobs').1.map look ∧
      Indistinct R (a.write jobs).2 (b.write jobs').2 := by
  have hevents : jobs.map (·.decoded.events) = jobs'.map (·.decoded.events) := by
    have hread := congrArg (List.map (·.decoded.events)) hjobs
    rw [List.map_map, List.map_map] at hread
    exact hread
  have hpool (pool : Pool Job) : jobs.foldl Pool.release pool = jobs'.foldl Pool.release pool := by
    have hreleased := congrArg (List.foldl Pool.release pool) hjobs
    rw [List.foldl_map, List.foldl_map] at hreleased
    exact hreleased
  obtain ⟨hframes, houtputs⟩ := hR.writeAll h.outputs (jobs'.map (·.decoded.events))
  unfold Assembler.write
  rw [hevents, hpool, h.pool]
  exact ⟨hframes, h.config, rfl, h.reassembly, houtputs, h.counts⟩

theorem finishAcquisition (hR : Outputs.Congruent look R) (h : Indistinct R a b) :
    a.finishAcquisition.1.frames.map look = b.finishAcquisition.1.frames.map look ∧
      Indistinct R a.finishAcquisition.2 b.finishAcquisition.2 := by
  have hfinish := Reassembly.finish_map Job.unnumbered a.reassembly
  rw [h.reassembly, Reassembly.finish_map] at hfinish
  obtain ⟨hwritten, hkept⟩ := Prod.mk.inj hfinish
  have hleft : Indistinct R { a with reassembly := a.reassembly.finish.2 }
      { b with reassembly := b.reassembly.finish.2 } :=
    ⟨h.config, h.pool, hkept.symm, h.outputs, h.counts⟩
  obtain ⟨hframes, hstate⟩ := hleft.write hR hwritten.symm
  obtain ⟨hpartials, hrestart⟩ := hR.flush hstate.outputs
  have hall := congrArg₂ (· ++ ·) hframes hpartials
  simp only [← List.map_append] at hall
  have hcount := congrArg List.length hall
  rw [List.length_map, List.length_map] at hcount
  unfold Assembler.finishAcquisition
  dsimp only
  rw [hcount, h.counts]
  exact ⟨hall, hstate.config, hstate.pool, hstate.reassembly, hrestart, rfl⟩

theorem collect (hR : Outputs.Congruent look R) (h : Indistinct R a b)
    {results results' : List Job}
    (hresults : results.map Job.unnumbered = results'.map Job.unnumbered) :
    (a.collect results).1.frames.map look = (b.collect results').1.frames.map look ∧
      Indistinct R (a.collect results).2 (b.collect results').2 := by
  have hfiled : Filing.Alike { pool := a.pool, reassembly := a.reassembly }
      { pool := b.pool, reassembly := b.reassembly } := ⟨h.pool, h.reassembly, rfl, rfl⟩
  replace hfiled := hfiled.run hresults
  have hrecorded (counts : Statistics) : results.foldl Statistics.record counts =
      results'.foldl Statistics.record counts := by
    have hrecord := congrArg (List.foldl Statistics.record counts) hresults
    rw [List.foldl_map, List.foldl_map] at hrecord
    exact hrecord
  unfold Assembler.collect
  dsimp only
  generalize Filing.run { pool := a.pool, reassembly := a.reassembly } results = filing at hfiled ⊢
  generalize Filing.run { pool := b.pool, reassembly := b.reassembly } results' = filing'
    at hfiled ⊢
  have hdrained := Reassembly.drainFinal_map Job.unnumbered filing.reassembly
  rw [hfiled.reassembly, Reassembly.drainFinal_map] at hdrained
  obtain ⟨hwritten, hkept⟩ := Prod.mk.inj hdrained
  have hleft : Indistinct R
      { a with pool := filing.pool, reassembly := filing.reassembly.drainFinal.2 }
      { b with pool := filing'.pool, reassembly := filing'.reassembly.drainFinal.2 } :=
    ⟨h.config, hfiled.pool, hkept.symm, h.outputs, h.counts⟩
  obtain ⟨hframes, hstate⟩ := hleft.write hR hwritten.symm
  have hcount := congrArg List.length hframes
  rw [List.length_map, List.length_map] at hcount
  rw [hcount, hrecorded, hstate.counts, hfiled.stale, hfiled.outOfRange]
  exact ⟨hframes, hstate.config, hstate.pool, hstate.reassembly, hstate.outputs, rfl⟩

/-- Two frames are taken in alike if their intakes are alike and their results are delivered with
the same content. -/
theorem feedFrame (hR : Outputs.Congruent look R) (h : Indistinct R a b)
    (arrange arrange' : List Job → List Job) {f f' : Frame} (hidle : f.idle = f'.idle)
    (hintake : f.idle = false → Intake.Alike (.ofFrame a.pool f) (.ofFrame b.pool f'))
    (hresults : f.idle = false →
      (arrange ((a.submit f).1.map Job.decode)).map Job.unnumbered =
        (arrange' ((b.submit f').1.map Job.decode)).map Job.unnumbered) :
    (a.feedFrame arrange f).1.frames.map look = (b.feedFrame arrange' f').1.frames.map look ∧
      Indistinct R (a.feedFrame arrange f).2 (b.feedFrame arrange' f').2 := by
  unfold Assembler.feedFrame
  rw [← hidle]
  cases hstandard : f.idle with
  | true => exact h.finishAcquisition hR
  | false =>
    have hsame := hintake hstandard
    have hsubmitted : Indistinct R (a.submit f).2.2 (b.submit f').2.2 := by
      unfold Assembler.submit
      dsimp only
      rw [hsame.pool, hsame.size, hsame.dropped, hsame.invalid, h.counts]
      exact ⟨h.config, rfl, h.reassembly, h.outputs, rfl⟩
    exact hsubmitted.collect hR (hresults hstandard)

/-- Views show the frames of the answer, and of the store what has no packet numbers. -/
theorem view_eq {call call' : Call}
    (hanswer : (a.respond call).1.map (fun r => r.frames.map look) =
      (b.respond call').1.map (fun r => r.frames.map look))
    (h : Indistinct R (a.step call).2 (b.step call').2) :
    (a.view call).mapFrames look = (b.view call').mapFrames look := by
  have hmark := congrArg Reassembly.mark h.reassembly
  have hresidents := congrArg (fun r : Reassembly Job => r.store.wraps) h.reassembly
  have hpending := congrArg (fun r : Reassembly Job => r.store.count) h.reassembly
  dsimp only [Reassembly.map] at hmark hresidents hpending
  rw [SliceStore.wraps_map, SliceStore.wraps_map] at hresidents
  rw [SliceStore.count_map, SliceStore.count_map] at hpending
  have hlook (answer : Except ProcessError Report) :
      (answer.map Report.frames).map (List.map look) = answer.map fun r => r.frames.map look := by
    cases answer with
    | error cause => rfl
    | ok report => rfl
  unfold View.mapFrames view residents pending
  dsimp only
  rw [hlook, hlook, hanswer, hmark, hresidents, hpending]

/-- No call tells indistinct assemblers apart. -/
theorem step (hR : Outputs.Congruent look R) (h : Indistinct R a b) (call : Call) :
    (a.view call).mapFrames look = (b.view call).mapFrames look ∧
      Indistinct R (a.step call).2 (b.step call).2 := by
  have hrespond : (a.respond call).1.map (fun r => r.frames.map look) =
        (b.respond call).1.map (fun r => r.frames.map look) ∧
      Indistinct R (a.step call).2 (b.step call).2 := by
    cases call with
    | feed arrangement bytes =>
      simp only [Assembler.step, respond, feedWith, handle, ← h.config]
      cases hf : Frame.parse a.config bytes with
      | error cause => exact ⟨rfl, h⟩
      | ok f =>
        have hsubmit : (a.submit f).1 = (b.submit f).1 := by
          unfold submit
          rw [h.pool]
        obtain ⟨hframes, hfed⟩ := h.feedFrame hR arrangement.order arrangement.order
          (rfl : f.idle = f.idle) (fun _ => by rw [h.pool]; exact .refl _)
          (fun _ => by rw [hsubmit])
        exact ⟨congrArg Except.ok hframes, hfed⟩
    | configure processes rank =>
      simp only [Assembler.step, respond, Assembler.configure]
      split
      · exact ⟨rfl, h⟩
      · exact ⟨rfl, h.config, h.pool, h.reassembly, hR.configure h.outputs _ _, h.counts⟩
  exact ⟨view_eq hrespond.1 hrespond.2, hrespond.2⟩

theorem statistics_eq (h : Indistinct R a b) : a.statistics = b.statistics := by
  unfold statistics
  rw [h.counts, h.pool]

theorem trace_eq (hR : Outputs.Congruent look R) (h : Indistinct R a b) (calls : List Call) :
    (a.trace calls).map (View.mapFrames look) = (b.trace calls).map (View.mapFrames look) ∧
      Indistinct R (a.run calls).2 (b.run calls).2 :=
  trace_map_eq_of_step (View.mapFrames look) (fun _ _ h call => h.step hR call) h calls

end Indistinct
end Assembler
end EventReadout
