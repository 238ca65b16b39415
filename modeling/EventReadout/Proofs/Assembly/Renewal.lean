import EventReadout.Proofs.Assembly.Ledger
import EventReadout.Proofs.Assembly.Numbering

/-!
An assembler that an idle frame has closed goes on as a new one does.

It emits and judges the same. Its counters are those from before and those of the new one together,
and its pool is as large as the larger of the two has to be.
-/
namespace EventReadout

/-- Reports that differ at most in their notices. -/
structure Report.Agrees (r s : Report) : Prop where
  frames : r.frames = s.frames
  accepted : r.accepted = s.accepted
  stale : r.stale = s.stale
  outOfRange : r.outOfRange = s.outOfRange
  written : r.written = s.written

theorem Report.Agrees.append {r r' s s' : Report} (h : r.Agrees s) (h' : r'.Agrees s') :
    (r ++ r').Agrees (s ++ s') where
  frames := congrArg₂ (· ++ ·) h.frames h'.frames
  accepted := congrArg₂ (· ++ ·) h.accepted h'.accepted
  stale := congrArg₂ (· ++ ·) h.stale h'.stale
  outOfRange := congrArg₂ (· ++ ·) h.outOfRange h'.outOfRange
  written := congrArg₂ (· ++ ·) h.written h'.written

namespace Statistics

/-- What is counted adds up, but one pool serves for both. -/
def join (s t : Statistics) : Statistics :=
  { s + t with poolAllocated := max s.poolAllocated t.poolAllocated }

theorem join_assoc (s t u : Statistics) : (s.join t).join u = s.join (t.join u) := by
  simp only [join, add_def, Statistics.add, Nat.add_assoc, Nat.max_assoc]

end Statistics

namespace Assembler

variable {c : Config} {a b : Assembler} {past : Statistics} {processes rank : Nat}

/-- What a call adds to the statistics: what it counts, and the jobs that are needed for it. -/
def charge (c : Config) (a : Assembler) (call : Call) : Statistics :=
  { tally c [call] (a.step call).1 with poolAllocated := a.pending + (call.jobs c).length }

theorem step_statistics (ha : a.Consistent c) (hstocked : a.Stocked) (call : Call) :
    (a.step call).2.statistics = a.statistics.join (a.charge c call) := by
  obtain ⟨-, hallocated⟩ := hstocked.step ha call
  unfold statistics
  rw [step_counts ha call, hallocated]
  rfl

/-- What is judged depends on what is in store and on the packets that come in. -/
theorem Effect.judged_eq {a' b b' : Assembler} {call : Call} {r r' : Report}
    (h : Effect c a call r b) (h' : Effect c a' call r' b')
    (hr : a.reassembly = a'.reassembly) :
    r.accepted = r'.accepted ∧ r.stale = r'.stale ∧ r.outOfRange = r'.outOfRange := by
  by_cases hs : call.Standard c
  · obtain ⟨ha, hst, ho, -, -⟩ := h.of_standard hs
    obtain ⟨ha', hst', ho', -, -⟩ := h'.of_standard hs
    rw [ha, ha', hst, hst', ho, ho', hr]
    exact ⟨rfl, rfl, rfl⟩
  · obtain ⟨ha, hst, ho⟩ := h.of_not_standard hs
    obtain ⟨ha', hst', ho'⟩ := h'.of_not_standard hs
    rw [ha, ha', hst, hst', ho, ho']
    exact ⟨rfl, rfl, rfl⟩

theorem Alike.step_agrees (h : Alike a b) (ha : a.Consistent c) (hb : b.Consistent c)
    (call : Call) : (a.step call).1.Agrees (b.step call).1 := by
  obtain ⟨heffect, -⟩ := step_spec ha call
  obtain ⟨heffect', -⟩ := step_spec hb call
  obtain ⟨haccepted, hstale, hout⟩ := heffect.judged_eq heffect' h.reassembly
  have hwritten := (heffect.written_eq heffect' rfl h.reassembly).1
  have hframes : (a.step call).1.frames = (b.step call).1.frames := by
    have hanswer := (h.step ha.blank hb.blank call).1
    unfold Assembler.step
    cases hx : (a.respond call).1 with
    | error cause =>
      cases hy : (b.respond call).1 with
      | error cause' => rfl
      | ok report =>
        rw [hx, hy] at hanswer
        cases hanswer
    | ok report =>
      cases hy : (b.respond call).1 with
      | error cause =>
        rw [hx, hy] at hanswer
        cases hanswer
      | ok report' =>
        rw [hx, hy] at hanswer
        exact Except.ok.inj hanswer
  exact ⟨hframes, haccepted, hstale, hout, hwritten⟩

theorem Alike.charge_eq (h : Alike a b) (ha : a.Consistent c) (hb : b.Consistent c)
    (call : Call) : a.charge c call = b.charge c call := by
  have hagrees := h.step_agrees ha hb call
  unfold charge tally pending
  rw [hagrees.frames, hagrees.stale, hagrees.outOfRange, h.reassembly]

/-- `a` goes on where `b` starts anew, with `past` in its statistics. -/
structure Resumes (c : Config) (past : Statistics) (a b : Assembler) : Prop where
  alike : Alike a b
  resumed : a.Consistent c ∧ a.Stocked
  fresh : b.Consistent c ∧ b.Stocked
  statistics : a.statistics = past.join b.statistics

theorem Resumes.step (h : Resumes c past a b) (call : Call) :
    (a.step call).1.Agrees (b.step call).1 ∧
      Resumes c past (a.step call).2 (b.step call).2 := by
  obtain ⟨ha, hstocked⟩ := h.resumed
  obtain ⟨hb, hstocked'⟩ := h.fresh
  refine ⟨h.alike.step_agrees ha hb call, (h.alike.step ha.blank hb.blank call).2,
    ⟨(step_spec ha call).2.2, (hstocked.step ha call).1⟩,
    ⟨(step_spec hb call).2.2, (hstocked'.step hb call).1⟩, ?_⟩
  calc (a.step call).2.statistics
      = (past.join b.statistics).join (b.charge c call) := by
        rw [step_statistics ha hstocked call, h.statistics, h.alike.charge_eq ha hb call]
    _ = past.join (b.step call).2.statistics := by
        rw [Statistics.join_assoc, ← step_statistics hb hstocked' call]

theorem Resumes.run (h : Resumes c past a b) (calls : List Call) :
    (a.run calls).1.Agrees (b.run calls).1 ∧ Resumes c past (a.run calls).2 (b.run calls).2 := by
  induction calls generalizing a b with
  | nil => exact ⟨⟨rfl, rfl, rfl, rfl, rfl⟩, h⟩
  | cons call rest ih =>
    obtain ⟨hfirst, hnext⟩ := h.step call
    obtain ⟨hrest, hlast⟩ := ih hnext
    exact ⟨hfirst.append hrest, hlast⟩

theorem Stocked.allocated_le (h : a.Stocked) (ha : a.Consistent c) (calls : List Call) :
    a.pool.allocated ≤ (a.run calls).2.pool.allocated := by
  induction calls generalizing a with
  | nil => exact Nat.le_refl _
  | cons call rest ih =>
    obtain ⟨hstocked, hallocated⟩ := h.step ha call
    have hgrown : a.pool.allocated ≤ (a.step call).2.pool.allocated := by omega
    exact hgrown.trans (ih hstocked (step_spec ha call).2.2)

theorem Numbered.untouched (h : Numbered c processes rank a) : a.Stocked ∧ a.counts = {} := by
  obtain ⟨new, prelude, hnew, hnone, -, rfl⟩ := h
  obtain ⟨hstocked, -, hcounts⟩ := stocked_ofConfig hnew
  rw [run_prelude hnew hnone]
  exact ⟨hstocked, hcounts⟩

/-- Nothing of an acquisition is left over for the next but its statistics. -/
theorem Numbered.resumes (h : Numbered c processes rank a) {calls : List Call} {last : Call}
    (hnone : ∀ call ∈ calls, call.numbering? = none) (hlast : calls.getLast? = some last)
    (hclosing : last.Closing c) : Resumes c (a.run calls).2.statistics (a.run calls).2 a := by
  obtain ⟨houtputs, hstart, hreassembly, -⟩ := h.spec
  obtain ⟨hstocked, hcounts⟩ := h.untouched
  have hready := (run_spec hstart calls).2
  obtain ⟨p, hp, -, hclosed, -⟩ := h.run_inSequence calls hnone
  obtain rfl := hclosed fun call hcall => by
    rw [hlast] at hcall
    cases hcall
    exact hclosing
  refine ⟨⟨hready.config.trans hstart.config.symm, ?_, hp.trans houtputs.symm⟩,
    ⟨hready, (hstocked.run hstart calls).1⟩, ⟨hstart, hstocked⟩, ?_⟩
  · exact (run_closed hstart hlast hclosing).1.trans hreassembly.symm
  · have hgrown := hstocked.allocated_le hstart calls
    have hzero (s : Statistics) (n : Nat) (hn : n ≤ s.poolAllocated) :
        s.join { poolAllocated := n } = s := by
      unfold Statistics.join
      rw [Nat.max_eq_left hn]
      rfl
    have hnew : a.statistics = { poolAllocated := a.pool.allocated } := by
      unfold statistics
      rw [hcounts]
    rw [hnew, hzero _ _ hgrown]

end Assembler
end EventReadout
