import EventReadout.Proofs.Assembly.Watermark
import EventReadout.Proofs.Slice.Residency
import Mathlib.Data.List.Induction

/-! Acquisitions under way: the calls since the store was empty, and what they leave in it. -/
namespace EventReadout
namespace Assembler

variable {c : Config} {a b : Assembler} {calls : List Call}

theorem Reachable.run (h : a.Reachable c) (calls : List Call) : (a.run calls).2.Reachable c := by
  induction calls generalizing a with
  | nil => exact h
  | cons call rest ih => exact ih (h.step call)

/-- Calls since an acquisition began at `a`, without one that closes it. -/
structure Underway (c : Config) (a : Assembler) (calls : List Call) : Prop where
  ready : a.Ready c
  notClosing : ∀ call ∈ calls, ¬ call.Closing c

theorem Reachable.exists_underway (h : b.Reachable c) :
    ∃ a calls, Underway c a calls ∧ (a.run calls).2 = b := by
  induction h with
  | @start b h => exact ⟨b, [], ⟨.start h, by simp⟩, rfl⟩
  | @step b h call ih =>
    by_cases hclosing : call.Closing c
    · exact ⟨(b.step call).2, [], ⟨.closed h hclosing, by simp⟩, rfl⟩
    · obtain ⟨a, calls, hunder, rfl⟩ := ih
      refine ⟨a, calls ++ [call], ⟨hunder.ready, ?_⟩, ?_⟩
      · intro other hother
        rcases List.mem_append.1 hother with hother | hother
        · exact hunder.notClosing other hother
        · rw [List.mem_singleton.1 hother]
          exact hclosing
      · rw [run_append, run_singleton]

theorem Effect.follows {call : Call} {report : Report} {ys : List Job}
    (h : Effect c a call report b) (hcall : ¬ call.Closing c) (ha : a.Consistent c)
    (hr : a.reassembly.Follows Job.slice ys) :
    b.reassembly.Follows Job.slice (ys ++ report.accepted) := by
  obtain ⟨js, hjs⟩ := ha.holds
  cases h with
  | quiet _ _ hjobs _ hb =>
    rw [hjobs.1, hb, List.append_nil]
    exact hr
  | closing hc => exact absurd hc hcall
  | standard _ hacc _ _ _ hb =>
    rw [hacc, hb]
    exact (hr.fileAll hjs _).drainFinal (Reassembly.holds_fileAll hjs _)

/-- In sequence a call moves the mark forward only, and takes in nothing far behind it. -/
theorem Effect.leads {call : Call} {report : Report} {ys : List Job}
    (h : Effect c a call report b) (hcall : ¬ call.Closing c) (ha : a.Consistent c)
    (hsettled : a.reassembly.Settled Job.slice c.sliceBuffers)
    (hfollows : a.reassembly.Follows Job.slice ys) (hr : a.reassembly.Leads Job.slice ys)
    (hseq : InSequence Job.slice (ys ++ report.accepted)) :
    b.reassembly.Leads Job.slice (ys ++ report.accepted) ∧
      a.reassembly.mark ≤ b.reassembly.mark ∧
      ∀ k ∈ report.accepted, a.reassembly.mark.wrap ≤ k.slice.wrap + 1 := by
  obtain ⟨js, hjs⟩ := ha.holds
  cases h with
  | quiet _ _ hjobs _ hb =>
    rw [hjobs.1, hb, List.append_nil]
    exact ⟨hr, le_rfl, by simp⟩
  | closing hc => exact absurd hc hcall
  | standard _ hacc _ _ _ hb =>
    rw [hacc] at hseq ⊢
    rw [hb]
    have hheld := Reassembly.holds_fileAll hjs (call.results c)
    obtain ⟨hleads, hmark, hwraps⟩ := hr.fileAll hfollows hjs hsettled.mark_wrap_le hseq
    refine ⟨hleads.drainFinal hheld, ?_, ?_⟩
    · rw [(Reassembly.drainFinal_eq hheld).2.2.2]
      exact hmark
    · intro k hk
      exact hwraps _ (hheld.resident_of_mem (List.mem_append_right _ hk)).1

/-- What every call keeps of the packets accepted so far holds of the whole acquisition. -/
theorem Underway.induction (h : Underway c a calls) {P : List Job → Assembler → Prop}
    (start : P [] a)
    (step : ∀ {b js call}, b.Reachable c → ¬ call.Closing c → P js b →
      P (js ++ (b.step call).1.accepted) (b.step call).2) :
    P (a.run calls).1.accepted (a.run calls).2 := by
  have hopen := h.notClosing
  induction calls using List.reverseRecOn with
  | nil => exact start
  | append_singleton calls call ih =>
    have hbefore : ∀ k ∈ calls, ¬ k.Closing c := fun k hk => hopen k (List.mem_append_left _ hk)
    rw [run_append, run_singleton]
    exact step (h.ready.reachable.run calls) (hopen call (by simp))
      (ih ⟨h.ready, hbefore⟩ hbefore)

theorem Underway.follows (h : Underway c a calls) :
    (a.run calls).2.reassembly.Follows Job.slice (a.run calls).1.accepted := by
  refine h.induction (P := fun js b => b.reassembly.Follows Job.slice js) ?_ ?_
  · rw [h.ready.reassembly_eq.1]
    exact Reassembly.follows_start _ _
  · intro b js call hb hcall hr
    exact (step_spec hb.consistent call).1.follows hcall hb.consistent hr

theorem Underway.leads (h : Underway c a calls)
    (hseq : InSequence Job.slice (a.run calls).1.accepted) :
    (a.run calls).2.reassembly.Leads Job.slice (a.run calls).1.accepted := by
  refine (h.induction (P := fun js b => b.reassembly.Follows Job.slice js ∧
    (InSequence Job.slice js → b.reassembly.Leads Job.slice js)) ?_ ?_).2 hseq
  · rw [h.ready.reassembly_eq.1]
    exact ⟨Reassembly.follows_start _ _, fun _ => Reassembly.leads_start _ _⟩
  · intro b js call hb hcall hr
    have heffect := (step_spec hb.consistent call).1
    refine ⟨heffect.follows hcall hb.consistent hr.1, fun hseq => ?_⟩
    exact (heffect.leads hcall hb.consistent hb.reassembly_settled hr.1
      (hr.2 hseq.of_append) hseq).1

end Assembler
end EventReadout
