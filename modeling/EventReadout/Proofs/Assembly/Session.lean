import EventReadout.Proofs.Assembly.Run
import EventReadout.Proofs.Channel.Chunks
import Mathlib.Data.List.Induction

/-!
What is left of an acquisition when an idle frame has closed it: the numbering of the frames.

Calls see of an assembler its geometry, its reassembly and its channel buffers, and of the pool
nothing; a closing call puts the reassembly and the buffers back to where they started.
-/
namespace EventReadout

/-- Processes and rank when calls have been made, `(1, 0)` if none of them sets a numbering. -/
def lastNumbering (calls : List Call) : Nat × Nat :=
  (calls.filterMap Call.numbering?).getLast?.getD (1, 0)

theorem lastNumbering_accepted (calls : List Call) :
    ¬ ((lastNumbering calls).1 = 0 ∨ (lastNumbering calls).1 ≤ (lastNumbering calls).2) := by
  unfold lastNumbering
  cases hlast : (calls.filterMap Call.numbering?).getLast? with
  | none => decide
  | some numbering =>
    obtain ⟨call, -, hcall⟩ := List.mem_filterMap.1 (List.mem_of_getLast? hlast)
    cases call with
    | feed arrangement bytes => cases hcall
    | configure processes rank =>
      rw [Call.numbering?] at hcall
      split at hcall
      · cases hcall
      · next haccepted =>
        cases hcall
        exact haccepted

theorem lastNumbering_concat (calls : List Call) (call : Call) :
    lastNumbering (calls ++ [call]) = call.numbering?.getD (lastNumbering calls) := by
  unfold lastNumbering
  rw [List.filterMap_append, List.getLast?_append]
  cases hset : call.numbering? with
  | none => simp [hset]
  | some numbering => simp [hset]

namespace ChannelBuffer

variable {α : Type} [ChannelElement α]

theorem restart_flush (b : ChannelBuffer α) : b.flush.2.restart = b.cleared := by
  unfold flush
  split
  · next hempty =>
    have hpending : b.pending = #[] := by simpa using hempty
    rw [restart, cleared, ← hpending]
  · rfl

end ChannelBuffer

namespace Outputs

/-- The buffers with nothing pending and their numbering restarted. -/
def cleared (o : Outputs) : Outputs where
  timestamps := o.timestamps.cleared
  ids := o.ids.cleared
  energies := o.energies.cleared

theorem cleared_after (o : Outputs) (es : List Event) : (o.after es).cleared = o.cleared := by
  unfold cleared after
  simp only [ChannelBuffer.cleared_feed]

theorem cleared_writeAll {o : Outputs} (ho : o.Labelled) (batches : List EventBatch) :
    (o.writeAll batches).2.cleared = o.cleared := by
  rw [(writeAll_eq ho batches).1, cleared_after]

theorem restart_flush (o : Outputs) : o.flush.2.restart = o.cleared := by
  have ht := o.timestamps.restart_flush
  have hi := o.ids.restart_flush
  have hn := o.energies.restart_flush
  unfold cleared
  rw [← ht, ← hi, ← hn]
  rfl

end Outputs

namespace Assembler

variable {c : Config} {a b : Assembler} {calls : List Call}

/-- What a caller sees of one call: its answer, and where the reconstruction stands after it. -/
structure View where
  answer : Except ProcessError (List OutputFrame)
  mark : TimeSlice
  residents : List Nat
  pending : Nat

def view (a : Assembler) (call : Call) : View where
  answer := (a.respond call).1.map Report.frames
  mark := (a.step call).2.reassembly.mark
  residents := (a.step call).2.residents
  pending := (a.step call).2.pending

/-- What a caller sees of calls made one after the other. -/
def trace : Assembler → List Call → List View
  | _, [] => []
  | a, call :: rest => a.view call :: (a.step call).2.trace rest

/-- Assemblers that differ at most in their pools and counters. -/
structure Alike (a b : Assembler) : Prop where
  config : a.config = b.config
  reassembly : a.reassembly = b.reassembly
  outputs : a.outputs = b.outputs

theorem Alike.finishAcquisition (h : Alike a b) :
    a.finishAcquisition.1.frames = b.finishAcquisition.1.frames ∧
      Alike a.finishAcquisition.2 b.finishAcquisition.2 := by
  unfold Assembler.finishAcquisition Assembler.write
  rw [h.reassembly, h.outputs]
  exact ⟨rfl, h.config, rfl, rfl⟩

theorem Alike.collect (h : Alike a b) (ha : a.pool.Blank) (hb : b.pool.Blank) (jobs : List Job) :
    (a.collect jobs).1.frames = (b.collect jobs).1.frames ∧
      Alike (a.collect jobs).2 (b.collect jobs).2 := by
  have hfiled := (Filing.run_start ha a.reassembly jobs).2.1
  have hfiled' := (Filing.run_start hb b.reassembly jobs).2.1
  rw [← h.reassembly, ← hfiled] at hfiled'
  unfold Assembler.collect Assembler.write
  rw [h.outputs]
  dsimp only
  rw [h.reassembly] at hfiled' ⊢
  rw [hfiled']
  exact ⟨rfl, h.config, rfl, rfl⟩

/-- The jobs of a frame are the same, whichever pool they come from. -/
theorem Alike.feedFrame (h : Alike a b) (ha : a.pool.Blank) (hb : b.pool.Blank)
    (arrange : List Job → List Job) (f : Frame) :
    (a.feedFrame arrange f).1.frames = (b.feedFrame arrange f).1.frames ∧
      Alike (a.feedFrame arrange f).2 (b.feedFrame arrange f).2 := by
  unfold Assembler.feedFrame
  cases hidle : f.idle with
  | true => exact h.finishAcquisition
  | false =>
    obtain ⟨hblank, hjobs⟩ := Intake.ofFrame_eq ha f
    obtain ⟨hblank', hjobs'⟩ := Intake.ofFrame_eq hb f
    have hsame : (a.submit f).1 = (b.submit f).1 := hjobs.trans hjobs'.symm
    have hsubmitted : Alike (a.submit f).2.2 (b.submit f).2.2 :=
      ⟨h.config, h.reassembly, h.outputs⟩
    rw [if_neg (by decide), if_neg (by decide)]
    dsimp only
    rw [hsame]
    obtain ⟨hframes, hcollected⟩ := hsubmitted.collect hblank hblank'
      (arrange ((b.submit f).1.map Job.decode))
    exact ⟨hframes, hcollected⟩

/-- No call tells two assemblers apart that are alike. -/
theorem Alike.step (h : Alike a b) (ha : a.pool.Blank) (hb : b.pool.Blank) (call : Call) :
    (a.respond call).1.map Report.frames = (b.respond call).1.map Report.frames ∧
      Alike (a.step call).2 (b.step call).2 := by
  cases call with
  | feed arrangement bytes =>
    simp only [Assembler.step, respond, feedWith, handle, ← h.config]
    cases hf : Frame.parse a.config bytes with
    | error cause => exact ⟨rfl, h⟩
    | ok f =>
      obtain ⟨hframes, hfed⟩ := h.feedFrame ha hb arrangement.order f
      exact ⟨congrArg Except.ok hframes, hfed⟩
  | configure processes rank =>
    simp only [Assembler.step, respond, Assembler.configure]
    split
    · exact ⟨rfl, h⟩
    · refine ⟨rfl, h.config, h.reassembly, ?_⟩
      dsimp only
      rw [h.outputs]

/-- What every call keeps between two assemblers, and what of their views it makes equal, makes that
much of their traces equal. -/
theorem trace_map_eq_of_step {β : Type} (look : View → β) {R : Assembler → Assembler → Prop}
    (hstep : ∀ a b, R a b → ∀ call,
      look (a.view call) = look (b.view call) ∧ R (a.step call).2 (b.step call).2)
    (h : R a b) (calls : List Call) :
    (a.trace calls).map look = (b.trace calls).map look ∧ R (a.run calls).2 (b.run calls).2 := by
  induction calls generalizing a b with
  | nil => exact ⟨rfl, h⟩
  | cons call rest ih =>
    obtain ⟨hview, hnext⟩ := hstep a b h call
    obtain ⟨htrace, hrun⟩ := ih hnext
    refine ⟨?_, hrun⟩
    rw [trace, trace, List.map_cons, List.map_cons, hview, htrace]

theorem Alike.trace_eq (h : Alike a b) (ha : a.Consistent c) (hb : b.Consistent c)
    (calls : List Call) : a.trace calls = b.trace calls := by
  have htrace := (trace_map_eq_of_step id (R := fun a b => Alike a b ∧ a.Consistent c ∧
    b.Consistent c) ?_ ⟨h, ha, hb⟩ calls).1
  · rw [List.map_id, List.map_id] at htrace
    exact htrace
  · rintro a b ⟨h, ha, hb⟩ call
    obtain ⟨hanswer, hstep⟩ := h.step ha.blank hb.blank call
    refine ⟨?_, hstep, (step_spec ha call).2.2, (step_spec hb call).2.2⟩
    unfold view residents pending
    rw [hanswer, hstep.reassembly]

theorem cleared_finishAcquisition (ho : a.outputs.Labelled) :
    a.finishAcquisition.2.outputs = a.outputs.cleared := by
  have hwritten := Outputs.cleared_writeAll ho
    (a.reassembly.finish.1.map (·.decoded.events))
  exact (Outputs.restart_flush _).trans hwritten

/-- Only the numbering of the frames is set for longer than an acquisition. -/
theorem cleared_step (ha : a.Consistent c) (call : Call) :
    (a.step call).2.outputs.cleared =
      match call.numbering? with
      | some (processes, rank) => a.outputs.cleared.configure processes rank
      | none => a.outputs.cleared := by
  have hcourse := step_course ha call
  generalize a.step call = out at hcourse ⊢
  cases hcourse with
  | nothing _ hnumbering => rw [hnumbering]
  | renumbering _ hnumbering =>
    rw [hnumbering]
    rfl
  | closing hclosing =>
    rw [Call.numbering?_of_closing hclosing]
    have hfinished := congrArg Outputs.cleared (cleared_finishAcquisition ha.labelled)
    exact hfinished
  | standard _ _ hcollect =>
    have hwritten := congrArg (·.2.outputs) hcollect
    dsimp only at hwritten ⊢
    rw [← hwritten]
    exact Outputs.cleared_writeAll ha.labelled _

theorem cleared_step_closing (ha : a.Consistent c) {call : Call} (hcall : call.Closing c) :
    (a.step call).2.outputs = a.outputs.cleared := by
  obtain ⟨f, hframe, hidle⟩ := hcall
  obtain ⟨arrangement, bytes, rfl, hf⟩ := Call.exists_feed hframe
  rw [step_frame ha.config arrangement hf, feedFrame, if_pos hidle]
  exact cleared_finishAcquisition ha.labelled

theorem outputs_ofConfig (h : ofConfig c = .ok a) :
    a.outputs = .ofCapacity c.frameCapacity := by
  unfold ofConfig at h
  split at h
  · cases h
  · cases h
    rfl

theorem cleared_run (h : ofConfig c = .ok a) (calls : List Call) :
    (a.run calls).2.outputs.cleared =
      a.outputs.configure (lastNumbering calls).1 (lastNumbering calls).2 := by
  induction calls using List.reverseRecOn with
  | nil =>
    rw [run, outputs_ofConfig h]
    rfl
  | append_singleton calls call ih =>
    have hstep := cleared_step (run_spec (consistent_ofConfig h).1 calls).2 call
    rw [run_append, run_singleton, hstep, ih, lastNumbering_concat]
    cases call.numbering? with
    | none => rfl
    | some numbering => rfl

/--
After an idle frame no further calls can tell an assembler from a new one that has been given the
last numbering accepted, whatever went before.
-/
theorem trace_after_closing (h : ofConfig c = .ok a) (calls : List Call) {idle : Call}
    (hidle : idle.Closing c) (later : List Call) :
    let used := (a.run (calls ++ [idle])).2
    let numbering := lastNumbering calls
    ∃ report fresh, a.configure numbering.1 numbering.2 = (.ok report, fresh) ∧
      (numbering = (1, 0) → fresh = a) ∧ used.reassembly = fresh.reassembly ∧
      used.trace later = fresh.trace later := by
  have hstart := (consistent_ofConfig h).1
  have hbefore := (run_spec hstart calls).2
  have haccepted := lastNumbering_accepted calls
  have hcleared := cleared_run h calls
  dsimp only
  generalize lastNumbering calls = numbering at haccepted hcleared ⊢
  obtain ⟨processes, rank⟩ := numbering
  let fresh : Assembler := { a with outputs := a.outputs.configure processes rank }
  have hconfigure : a.configure processes rank =
      (.ok { notices := [.processConfigured rank processes] }, fresh) := by
    rw [configure, if_neg haccepted]
  have hused : (a.run (calls ++ [idle])).2 = ((a.run calls).2.step idle).2 := by
    rw [run_append, run_singleton]
  have halike : Alike (a.run (calls ++ [idle])).2 fresh := by
    rw [hused]
    constructor
    · exact (step_spec hbefore idle).2.2.config.trans hstart.config.symm
    · exact (step_closing hbefore hidle).1.trans (consistent_ofConfig h).2.1.symm
    · rw [cleared_step_closing hbefore hidle, hcleared]
  refine ⟨_, fresh, hconfigure, fun hnone => ?_, halike.reassembly, ?_⟩
  · cases hnone
    have hdefault : a.outputs.configure 1 0 = a.outputs := by
      rw [outputs_ofConfig h]
      rfl
    simp only [fresh, hdefault]
  · have hfresh := (step_spec hstart (.configure processes rank)).2.2
    rw [step, respond, hconfigure] at hfresh
    exact halike.trace_eq (run_spec hstart _).2 hfresh later

/-- A packet is lost and others are written, and nothing of it shows in what comes afterwards. -/
theorem trace_after_late_packet :
    ∃ a, ofConfig .small = .ok a ∧
      let calls := [.configure 3 1, .sample [⟨5, 1⟩, ⟨0, 0⟩], .configure 0 0, .sample [⟨6, 0⟩]]
      Call.idle.Closing .small ∧ (a.run calls).1.stale.map Job.slice = [⟨0, 0⟩] ∧
        (a.run (calls ++ [.idle])).1.written.map Job.slice = [⟨5, 1⟩, ⟨6, 0⟩] ∧
        ∀ later, (a.run (calls ++ [.idle])).2.trace later = (a.configure 3 1).2.trace later := by
  have hidle : Call.idle.Closing .small := by decide +kernel
  refine ⟨_, rfl, hidle, by decide +kernel, by decide +kernel, fun later => ?_⟩
  obtain ⟨report, fresh, hfresh, -, -, htrace⟩ := trace_after_closing rfl
    [.configure 3 1, .sample [⟨5, 1⟩, ⟨0, 0⟩], .configure 0 0, .sample [⟨6, 0⟩]] hidle later
  rw [htrace]
  exact congrArg (fun out : Except ProcessError Report × Assembler => out.2.trace later)
    hfresh.symm

end Assembler
end EventReadout
