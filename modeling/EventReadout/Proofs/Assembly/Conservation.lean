import EventReadout.Proofs.Assembly.Run

/-! No event is lost or repeated between the packets taken in and the frames emitted. -/
namespace EventReadout

namespace Reassembly

variable {α : Type} {slice : α → TimeSlice} {r : Reassembly α} {xs : List α}

theorem toList_fileAll (h : r.store.Holds slice xs) (ys : List α) :
    (r.fileAll slice ys).store.toList.Perm (r.store.toList ++ r.judged slice .accepted ys) := by
  rw [h.toList_eq, (holds_fileAll h ys).toList_eq]
  have hall := sortBySlice_perm slice (xs ++ r.judged slice .accepted ys)
  have hold := (sortBySlice_perm slice xs).symm
  exact hall.trans (hold.append_right _)

theorem toList_drainFinal (h : r.store.Holds slice xs) :
    (r.drainFinal.1 ++ r.drainFinal.2.store.toList).Perm r.store.toList := by
  obtain ⟨hout, hkept, -, -⟩ := drainFinal_eq h
  rw [hout, hkept.toList_eq, h.toList_eq]
  refine ((sortBySlice_perm _ _).append (sortBySlice_perm _ _)).trans ?_
  refine List.Perm.trans ?_ (sortBySlice_perm slice xs).symm
  simpa using List.filter_append_perm (fun x => decide (r.mark.Finalizes (slice x))) xs

end Reassembly

namespace Assembler

/-- What becomes of the jobs that come in: judged once, and written once or kept. -/
structure Balanced (buffers : Nat) (a : Assembler) (jobs : List Job) (report : Report)
    (b : Assembler) : Prop where
  judged : (report.accepted ++ report.stale ++ report.outOfRange).Perm jobs
  inRange : ∀ j ∈ report.accepted ++ report.stale, j.slice.buffer < buffers
  outOfRange : ∀ j ∈ report.outOfRange, buffers ≤ j.slice.buffer
  held : (report.written ++ b.reassembly.store.toList).Perm
    (a.reassembly.store.toList ++ report.accepted)

theorem Balanced.of_none {buffers : Nat} {a b : Assembler} {report : Report}
    (hjobs : report.accepted = [] ∧ report.stale = [] ∧ report.outOfRange = [])
    (hheld : (report.written ++ b.reassembly.store.toList).Perm a.reassembly.store.toList) :
    Balanced buffers a [] report b := by
  obtain ⟨hacc, hstale, hout⟩ := hjobs
  constructor
  · rw [hacc, hstale, hout]
    exact .nil
  · simp [hacc, hstale]
  · simp [hout]
  · rw [hacc, List.append_nil]
    exact hheld

theorem Balanced.trans {buffers : Nat} {a b d : Assembler} {js ks : List Job} {r s : Report}
    (h : Balanced buffers a js r b) (h' : Balanced buffers b ks s d) :
    Balanced buffers a (js ++ ks) (r ++ s) d where
  judged := by
    have hboth := h.judged.append h'.judged
    refine List.Perm.trans ?_ hboth
    simp only [Report.accepted_append, Report.stale_append, Report.outOfRange_append]
    rw [List.perm_iff_count]
    intro j
    simp only [List.count_append]
    omega
  inRange j hj := by
    have hold := h.inRange j
    have hnew := h'.inRange j
    simp only [Report.accepted_append, Report.stale_append, List.mem_append] at *
    tauto
  outOfRange j hj := by
    rcases List.mem_append.1 hj with hj | hj
    · exact h.outOfRange j hj
    · exact h'.outOfRange j hj
  held := by
    have hfirst := h.held
    have hrest := h'.held
    simp only [Report.accepted_append, Report.written_append]
    rw [List.perm_iff_count] at *
    intro j
    have hj := hfirst j
    have hj' := hrest j
    simp only [List.count_append] at *
    omega

theorem Effect.balanced {c : Config} {a b : Assembler} {call : Call} {report : Report}
    (h : Effect c a call report b) (ha : a.Consistent c) :
    Balanced c.sliceBuffers a (call.jobs c) report b := by
  obtain ⟨js, hjs⟩ := ha.holds
  cases h with
  | quiet hs hc hjobs hw hr =>
    rw [Call.jobs_of_not_standard hs]
    apply Balanced.of_none hjobs
    rw [hw, hr]
    exact .refl _
  | closing hc hjobs hw hr hp =>
    rw [Call.jobs_of_not_standard (Call.not_standard_of_closing hc)]
    apply Balanced.of_none hjobs
    rw [hw, hr]
    exact .of_eq (List.append_nil _)
  | standard hs hacc hst ho hw hr =>
    have hresults := Call.results_perm c call
    have hrange {v : Verdict} (hv : v ≠ .outOfRange) :
        ∀ j ∈ a.reassembly.judged Job.slice v (call.results c),
          j.slice.buffer < c.sliceBuffers := by
      rw [← ha.buffers]
      exact Reassembly.buffer_lt_of_judged hjs hv
    constructor
    · rw [hacc, hst, ho]
      exact (Reassembly.judged_perm _ _ _).trans hresults
    · intro j hj
      rw [hacc, hst] at hj
      rcases List.mem_append.1 hj with hj | hj
      · exact hrange (by decide) j hj
      · exact hrange (by decide) j hj
    · intro j hj
      rw [ho, Reassembly.judged_outOfRange hjs, ha.buffers] at hj
      simpa using (List.mem_filter.1 hj).2
    · rw [hw, hr, hacc]
      have hdrain := Reassembly.toList_drainFinal
        (Reassembly.holds_fileAll hjs (call.results c))
      exact hdrain.trans (Reassembly.toList_fileAll hjs _)

theorem run_balanced {c : Config} {a : Assembler} (h : a.Consistent c) (calls : List Call) :
    Balanced c.sliceBuffers a (calls.flatMap (Call.jobs c)) (a.run calls).1 (a.run calls).2 := by
  induction calls generalizing a with
  | nil => exact .of_none ⟨rfl, rfl, rfl⟩ (.refl _)
  | cons call rest ih =>
    obtain ⟨heffect, -, hstep⟩ := step_spec h call
    have hfirst := heffect.balanced h
    rw [List.flatMap_cons]
    exact hfirst.trans (ih hstep)

/-- After an idle frame nothing is left in store or in the channel buffers. -/
theorem run_closed {c : Config} {a : Assembler} (h : a.Consistent c) {calls : List Call}
    {last : Call} (hlast : calls.getLast? = some last) (hclosing : last.Closing c) :
    (a.run calls).2.reassembly = { store := { buffers := c.sliceBuffers } } ∧
      (a.run calls).2.outputs.pending = {} := by
  obtain ⟨before, rfl⟩ := List.getLast?_eq_some_iff.1 hlast
  rw [run_append]
  exact step_closing (run_spec h before).2 hclosing

/--
At every point of a run, the rows of the frames emitted and of the values still pending, with the
events of the jobs in store, are the events of the packets accepted.
-/
theorem run_conserves_events {c : Config} {a : Assembler} (ha : a.Ready c) (calls : List Call) :
    let report := (a.run calls).1
    let b := (a.run calls).2
    let stream := Columns.ofFrames report.frames ++ b.outputs.pending
    (report.accepted ++ report.stale ++ report.outOfRange).Perm (calls.flatMap (Call.jobs c)) ∧
      (∀ j ∈ report.accepted ++ report.stale, j.slice.buffer < c.sliceBuffers) ∧
      (∀ j ∈ report.outOfRange, c.sliceBuffers ≤ j.slice.buffer) ∧
      stream.Aligned ∧
      (stream.events ++ b.reassembly.store.toList.flatMap Job.events).Perm
        (report.accepted.flatMap Job.events) ∧
      ∀ last, calls.getLast? = some last → last.Closing c →
        b.reassembly.store.residents = [] ∧ b.outputs.pending = {} ∧
          (Columns.ofFrames report.frames).Aligned ∧
          (Columns.ofFrames report.frames).events.Perm (report.accepted.flatMap Job.events) := by
  have hc := ha.reachable.consistent
  obtain ⟨hr, hp⟩ := ha.reassembly_eq
  have hbalanced := run_balanced hc calls
  obtain ⟨haccounted, -⟩ := run_spec hc calls
  have hstream := haccounted.columns
  rw [hp, Columns.nil_append] at hstream
  have hempty : a.reassembly.store.toList = [] := by
    rw [hr]
    rfl
  have hevents := hbalanced.held.flatMap_right Job.events
  rw [hempty, List.nil_append, List.flatMap_append] at hevents
  dsimp only
  rw [hstream, Columns.events_ofEvents]
  refine ⟨hbalanced.judged, hbalanced.inRange, hbalanced.outOfRange, Columns.aligned_ofEvents _,
    hevents, ?_⟩
  intro last hlast hclosing
  obtain ⟨hstore, hpending⟩ := run_closed hc hlast hclosing
  rw [hpending, Columns.append_nil] at hstream
  rw [hstore] at hevents ⊢
  rw [hstream, Columns.events_ofEvents]
  refine ⟨rfl, hpending, Columns.aligned_ofEvents _, ?_⟩
  simpa [SliceStore.toList] using hevents

theorem run_conserves_three_packets :
    ∃ a, ofConfig .small = .ok a ∧
      let report := (a.run [.sample [⟨0, 0⟩, ⟨0, 1⟩], .sample [⟨1, 1⟩], .idle]).1
      report.accepted.length = 3 ∧
        (Columns.ofFrames report.frames).events.Perm (report.accepted.flatMap Job.events) := by
  have hclosing : Call.idle.Closing .small := ⟨_, rfl, rfl⟩
  refine ⟨_, rfl, by decide +kernel, ?_⟩
  exact ((run_conserves_events (.start rfl) _).2.2.2.2.2 _ rfl hclosing).2.2.2

end Assembler
end EventReadout
