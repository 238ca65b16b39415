import EventReadout.Proofs.Assembly.Acquisition
import EventReadout.Proofs.Assembly.Conservation

/-!
What a call writes: nothing before it is final, and everything in the order of the slices.

Inside a slice packets are written in the order in which they were filed, over all calls.
-/
namespace EventReadout

namespace Reassembly

variable {α : Type} {slice : α → TimeSlice} {r : Reassembly α} {xs ys : List α}

theorem pairwise_drainFinal (h : r.store.Holds slice xs) :
    r.drainFinal.1.Pairwise fun x y => slice x ≤ slice y := by
  rw [(drainFinal_eq h).1]
  exact pairwise_sortBySlice _

theorem finalizes_of_mem_drainFinal (h : r.store.Holds slice xs) {x : α}
    (hx : x ∈ r.drainFinal.1) : r.mark.Finalizes (slice x) := by
  rw [(drainFinal_eq h).1, mem_sortBySlice] at hx
  simpa using (List.mem_filter.1 hx).2

theorem filter_drainFinal (h : r.store.Holds slice xs) (t : TimeSlice) :
    r.drainFinal.1.filter (slice · = t) ++ r.drainFinal.2.store.bucket t = r.store.bucket t := by
  obtain ⟨hout, hkept, -, -⟩ := drainFinal_eq h
  rw [hout, filter_sortBySlice, hkept.bucket, h.bucket]
  exact filter_slice_append r.mark.Finalizes t xs

/-- What makes a slice final is its successor in the next generation, or a newer one still. -/
theorem Follows.exists_of_finalizes (h : Follows slice ys r) {t : TimeSlice}
    (ht : r.mark.Finalizes t) :
    ∃ y ∈ ys, slice y = t.succWrap ∨ t.wrap + 2 ≤ (slice y).wrap := by
  rcases h.marked with hzero | ⟨y, hy, hym⟩
  · rw [hzero, TimeSlice.finalizes_def] at ht
    dsimp only at ht
    omega
  · refine ⟨y, hy, ?_⟩
    rw [hym]
    rcases ht with hlt | heq
    · exact Or.inr hlt
    · exact Or.inl heq.symm

end Reassembly

namespace Assembler

variable {c : Config} {a b : Assembler} {call : Call} {report : Report}

theorem Effect.finalizes_of_written (h : Effect c a call report b) (hcall : ¬ call.Closing c)
    (ha : a.Consistent c) : ∀ j ∈ report.written, b.reassembly.mark.Finalizes j.slice := by
  obtain ⟨js, hjs⟩ := ha.holds
  intro j hj
  cases h with
  | quiet _ _ _ hw _ =>
    rw [hw] at hj
    cases hj
  | closing hc => exact absurd hc hcall
  | standard _ _ _ _ hw hb =>
    have hheld := Reassembly.holds_fileAll hjs (call.results c)
    rw [hw] at hj
    rw [hb, (Reassembly.drainFinal_eq hheld).2.2.2]
    exact Reassembly.finalizes_of_mem_drainFinal hheld hj

theorem Effect.pairwise_written (h : Effect c a call report b) (ha : a.Consistent c) :
    report.written.Pairwise fun j k => j.slice ≤ k.slice := by
  obtain ⟨js, hjs⟩ := ha.holds
  cases h with
  | quiet _ _ _ hw _ =>
    rw [hw]
    exact .nil
  | closing _ _ hw _ _ =>
    rw [hw, Reassembly.finish_eq hjs]
    exact pairwise_sortBySlice js
  | standard _ _ _ _ hw _ =>
    rw [hw]
    exact Reassembly.pairwise_drainFinal (Reassembly.holds_fileAll hjs _)

/-- What was there of a slice, and then what came, is what is written, and then what remains. -/
theorem Effect.filter_written (h : Effect c a call report b) (ha : a.Consistent c)
    (t : TimeSlice) :
    a.reassembly.store.bucket t ++ report.accepted.filter (·.slice = t) =
      report.written.filter (·.slice = t) ++ b.reassembly.store.bucket t := by
  obtain ⟨js, hjs⟩ := ha.holds
  cases h with
  | quiet _ _ hjobs hw hb =>
    rw [hjobs.1, hw, hb, List.filter_nil, List.append_nil, List.nil_append]
  | closing _ hjobs hw hb _ =>
    rw [hjobs.1, hw, hb, Reassembly.finish_eq hjs, filter_sortBySlice, hjs.bucket]
    rfl
  | standard _ hacc _ _ hw hb =>
    have hheld := Reassembly.holds_fileAll hjs (call.results c)
    rw [hacc, hw, hb, Reassembly.filter_drainFinal hheld, Reassembly.bucket_fileAll hjs]

theorem Effect.accepted_sublist (h : Effect c a call report b) :
    report.accepted.Sublist (call.results c) := by
  cases h with
  | quiet _ _ hjobs | closing _ hjobs =>
    rw [hjobs.1]
    exact List.nil_sublist _
  | standard _ hacc =>
    rw [hacc]
    exact Reassembly.judged_sublist _ _ _ _

theorem run_filter_written (ha : a.Consistent c) (calls : List Call) :
    (a.run calls).1.accepted.Sublist (calls.flatMap (Call.results c)) ∧
      ∀ t, a.reassembly.store.bucket t ++ (a.run calls).1.accepted.filter (·.slice = t) =
        (a.run calls).1.written.filter (·.slice = t) ++
          (a.run calls).2.reassembly.store.bucket t := by
  induction calls generalizing a with
  | nil =>
    refine ⟨.slnil, fun t => ?_⟩
    exact (List.append_nil _).trans (List.nil_append _).symm
  | cons call rest ih =>
    obtain ⟨heffect, -, hstep⟩ := step_spec ha call
    obtain ⟨hsub, hrest⟩ := ih hstep
    constructor
    · exact heffect.accepted_sublist.append hsub
    · intro t
      rw [run, Report.accepted_append, Report.written_append, List.filter_append,
        List.filter_append, ← List.append_assoc, heffect.filter_written ha, List.append_assoc,
        hrest t, List.append_assoc]

/--
A packet is written with its frame only once the same buffer of the next generation has come in, or
a generation after that; the newest generation waits for an idle frame.
-/
theorem written_is_final {calls : List Call} (h : Underway c a calls) (call : Call) :
    let out := (a.run calls).2.step call
    let accepted := (a.run calls).1.accepted ++ out.1.accepted
    (call.Standard c → ∀ j ∈ out.1.written,
        ∃ k ∈ accepted, k.slice = j.slice.succWrap ∨ j.slice.wrap + 2 ≤ k.slice.wrap) ∧
      ∀ j ∈ out.1.written, (∀ k ∈ accepted, k.slice.wrap ≤ j.slice.wrap) → call.Closing c := by
  have hconsistent := (h.ready.reachable.run calls).consistent
  have heffect := (step_spec hconsistent call).1
  have hfinal (hcall : ¬ call.Closing c) := fun j hj =>
    (heffect.follows hcall hconsistent h.follows).exists_of_finalizes
      (heffect.finalizes_of_written hcall hconsistent j hj)
  dsimp only
  constructor
  · intro hstandard
    exact hfinal fun hclosing => Call.not_standard_of_closing hclosing hstandard
  · intro j hj hnewest
    by_contra hcall
    obtain ⟨k, hk, hslice⟩ := hfinal hcall j hj
    have hle := hnewest k hk
    rcases hslice with heq | hlt
    · rw [heq, TimeSlice.succWrap_wrap] at hle
      omega
    · omega

theorem written_is_final_next_frame :
    ∃ a, ofConfig .small = .ok a ∧
      let before := a.run [.sample [⟨3, 1⟩, ⟨4, 0⟩]]
      let out := before.2.step (.sample [⟨5, 0⟩])
      out.1.written.map Job.slice = [⟨3, 1⟩, ⟨4, 0⟩] ∧
        ∀ j ∈ out.1.written, ∃ k ∈ before.1.accepted ++ out.1.accepted,
          k.slice = j.slice.succWrap ∨ j.slice.wrap + 2 ≤ k.slice.wrap := by
  refine ⟨_, rfl, by decide +kernel, ?_⟩
  have hunder : Underway .small _ [.sample [⟨3, 1⟩, ⟨4, 0⟩]] := ⟨.start rfl, by decide +kernel⟩
  exact (written_is_final hunder _).1 (by decide +kernel)

/--
Each call writes in the order of the slices. Of every slice, what has been written is what was
accepted for it first, in the order of filing; the rest is in store, where an idle frame leaves
nothing.
-/
theorem run_written_in_order (ha : a.Ready c) (calls : List Call) :
    let report := (a.run calls).1
    let b := (a.run calls).2
    (∀ call, (b.step call).1.written.Pairwise fun j k => j.slice ≤ k.slice) ∧
      report.accepted.Sublist (calls.flatMap (Call.results c)) ∧
      (∀ t, report.accepted.filter (·.slice = t) =
        report.written.filter (·.slice = t) ++ b.reassembly.store.bucket t) ∧
      ∀ last, calls.getLast? = some last → last.Closing c →
        ∀ t, report.written.filter (·.slice = t) = report.accepted.filter (·.slice = t) := by
  have hc := ha.reachable.consistent
  obtain ⟨hsub, hfilter⟩ := run_filter_written hc calls
  have hnone : ({ buffers := c.sliceBuffers } : SliceStore Job).Holds Job.slice [] := .empty _
  have hempty (t : TimeSlice) :
      ({ buffers := c.sliceBuffers } : SliceStore Job).bucket t = [] := hnone.bucket t
  simp only [ha.reassembly_eq.1, hempty, List.nil_append] at hfilter
  dsimp only
  refine ⟨fun call => ?_, hsub, hfilter, ?_⟩
  · have hb := (run_spec hc calls).2
    exact (step_spec hb call).1.pairwise_written hb
  · intro last hlast hclosing t
    rw [hfilter t, (run_closed hc hlast hclosing).1, hempty, List.append_nil]

/-- The buffer is drained, filled again by a late packet, and drained once more. -/
theorem written_in_order_when_refilled :
    ∃ a, ofConfig .small = .ok a ∧
      let calls := [Call.sample [⟨4, 1⟩, ⟨5, 1⟩], .sample [⟨4, 1⟩], .idle]
      let report := (a.run calls).1
      report.written.map Job.slice = [⟨4, 1⟩, ⟨4, 1⟩, ⟨5, 1⟩] ∧
        ∀ t, report.written.filter (·.slice = t) = report.accepted.filter (·.slice = t) := by
  have hclosing : Call.idle.Closing .small := by decide +kernel
  refine ⟨_, rfl, by decide +kernel, ?_⟩
  exact (run_written_in_order (.start rfl) _).2.2.2 _ rfl hclosing

end Assembler
end EventReadout
