import EventReadout.Assembly.Basic
import EventReadout.Frame.Draft
import EventReadout.Proofs.Channel.Columns
import EventReadout.Proofs.Frame.Jobs
import EventReadout.Proofs.Slice.Reassembly

/-!
Runs of an assembler: calls in any number and order, on any bytes, with the workers free to deliver
the results of a frame in any order.

Each call is quiet, closes an acquisition, or takes in a standard frame; `Effect` says what it then
does, and `Consistent` is what every call keeps.
-/
namespace EventReadout

/-- An order in which the workers may deliver the results of a frame. -/
structure Arrangement where
  order : List Job → List Job
  perm : ∀ jobs, (order jobs).Perm jobs

def Arrangement.slotOrder : Arrangement := ⟨id, fun _ => .rfl⟩

inductive Call
  | feed (arrangement : Arrangement) (bytes : Bytes)
  | configure (processes rank : Nat)

namespace Call

/-- The frame that the bytes of a call stand for, if they are one. -/
def frame? (c : Config) : Call → Option Frame
  | feed _ bytes => (Frame.parse c bytes).toOption
  | configure .. => none

/-- A frame that carries packets is taken in. -/
def Standard (c : Config) (call : Call) : Prop := ∃ f, call.frame? c = some f ∧ f.idle = false

/-- An idle frame is taken in. -/
def Closing (c : Config) (call : Call) : Prop := ∃ f, call.frame? c = some f ∧ f.idle = true

instance (c : Config) (call : Call) : Decidable (call.Standard c) :=
  decidable_of_iff ((call.frame? c).any (!·.idle)) (by simp [Standard, Option.any_eq_true])

instance (c : Config) (call : Call) : Decidable (call.Closing c) :=
  decidable_of_iff ((call.frame? c).any (·.idle)) (by simp [Closing, Option.any_eq_true])

/-- The numbering that a call sets, if it is accepted. -/
def numbering? : Call → Option (Nat × Nat)
  | feed .. => none
  | configure processes rank =>
    if processes = 0 ∨ processes ≤ rank then none else some (processes, rank)

/-- The decoded packets that the bytes of a call carry, in slot order. -/
def jobs (c : Config) (call : Call) : List Job :=
  match call.frame? c with
  | some f => if f.idle then [] else f.jobs.map Job.decode
  | none => []

/-- The decoded packets in the order in which the workers deliver them. -/
def results (c : Config) : Call → List Job
  | call@(feed arrangement _) => arrangement.order (call.jobs c)
  | configure .. => []

theorem frame?_feed {c : Config} (arrangement : Arrangement) {bytes : Bytes} {f : Frame}
    (h : Frame.parse c bytes = .ok f) : (feed arrangement bytes).frame? c = some f := by
  rw [frame?, h]
  rfl

theorem exists_feed {c : Config} {call : Call} {f : Frame} (h : call.frame? c = some f) :
    ∃ arrangement bytes, call = feed arrangement bytes ∧ Frame.parse c bytes = .ok f := by
  cases call with
  | configure processes rank => cases h
  | feed arrangement bytes =>
    refine ⟨arrangement, bytes, rfl, ?_⟩
    rw [frame?] at h
    cases hparse : Frame.parse c bytes with
    | error cause =>
      rw [hparse] at h
      cases h
    | ok g =>
      rw [hparse] at h
      cases h
      rfl

theorem numbering?_of_closing {c : Config} {call : Call} (h : call.Closing c) :
    call.numbering? = none := by
  obtain ⟨f, hframe, -⟩ := h
  obtain ⟨arrangement, bytes, rfl, -⟩ := exists_feed hframe
  rfl

theorem jobs_of_frame {c : Config} {call : Call} {f : Frame} (h : call.frame? c = some f)
    (hidle : f.idle = false) : call.jobs c = f.jobs.map Job.decode := by
  unfold jobs
  rw [h]
  simp [hidle]

theorem exists_decode {c : Config} {call : Call} {j : Job} (h : j ∈ call.jobs c) :
    ∃ i : Job, i.decode = j := by
  unfold jobs at h
  split at h
  · split at h
    · cases h
    · obtain ⟨i, -, hi⟩ := List.mem_map.1 h
      exact ⟨i, hi⟩
  · cases h

theorem results_perm (c : Config) (call : Call) : (call.results c).Perm (call.jobs c) := by
  cases call with
  | feed arrangement bytes => exact arrangement.perm _
  | configure processes rank => exact .nil

theorem results_slotOrder (c : Config) (bytes : Bytes) :
    (feed .slotOrder bytes).results c = (feed .slotOrder bytes).jobs c := rfl

theorem jobs_of_not_standard {c : Config} {call : Call} (h : ¬ call.Standard c) :
    call.jobs c = [] := by
  unfold jobs
  cases hf : call.frame? c with
  | none => rfl
  | some f =>
    cases hidle : f.idle with
    | true => simp [hidle]
    | false => exact absurd ⟨f, hf, hidle⟩ h

theorem not_standard_of_none {c : Config} {call : Call} (h : call.frame? c = none) :
    ¬ call.Standard c := by
  rintro ⟨f, hf, -⟩
  rw [h] at hf
  cases hf

theorem not_closing_of_none {c : Config} {call : Call} (h : call.frame? c = none) :
    ¬ call.Closing c := by
  rintro ⟨f, hf, -⟩
  rw [h] at hf
  cases hf

theorem not_standard_of_closing {c : Config} {call : Call} (h : call.Closing c) :
    ¬ call.Standard c := by
  rintro ⟨f, hf, hidle⟩
  obtain ⟨g, hg, hidle'⟩ := h
  rw [hf, Option.some.injEq] at hg
  rw [hg, hidle'] at hidle
  cases hidle

end Call

namespace Report

/-- Everything that two calls did, one after the other. -/
def append (r s : Report) : Report where
  frames := r.frames ++ s.frames
  accepted := r.accepted ++ s.accepted
  stale := r.stale ++ s.stale
  outOfRange := r.outOfRange ++ s.outOfRange
  written := r.written ++ s.written
  notices := r.notices ++ s.notices

instance : Append Report := ⟨append⟩

@[simp] theorem frames_append (r s : Report) : (r ++ s).frames = r.frames ++ s.frames := rfl

@[simp] theorem accepted_append (r s : Report) : (r ++ s).accepted = r.accepted ++ s.accepted := rfl

@[simp] theorem stale_append (r s : Report) : (r ++ s).stale = r.stale ++ s.stale := rfl

@[simp] theorem outOfRange_append (r s : Report) :
    (r ++ s).outOfRange = r.outOfRange ++ s.outOfRange := rfl

@[simp] theorem written_append (r s : Report) : (r ++ s).written = r.written ++ s.written := rfl

protected theorem append_empty (r : Report) : r ++ ({} : Report) = r := by
  change r.append {} = r
  simp only [append, List.append_nil]

end Report

/-- The decoded events of a job. -/
def Job.events (j : Job) : List Event := j.decoded.events.events.toList

namespace Filing

/-- Filing sorts the jobs by the verdicts that the reassembly gives them. -/
theorem run_eq (f : Filing) (hf : f.pool.Blank) (jobs : List Job) :
    (f.run jobs).pool.Blank ∧
      (f.run jobs).reassembly = f.reassembly.fileAll Job.slice jobs ∧
      (f.run jobs).accepted.toList =
        f.accepted.toList ++ f.reassembly.judged Job.slice .accepted jobs ∧
      (f.run jobs).stale.toList = f.stale.toList ++ f.reassembly.judged Job.slice .stale jobs ∧
      (f.run jobs).outOfRange.toList =
        f.outOfRange.toList ++ f.reassembly.judged Job.slice .outOfRange jobs := by
  induction jobs generalizing f with
  | nil => simpa [run, Reassembly.fileAll, Reassembly.judged] using hf
  | cons j rest ih =>
    have hrun : f.run (j :: rest) = (f.file j).run rest := rfl
    rw [hrun]
    simp only [Reassembly.fileAll, Reassembly.judged]
    cases hv : f.reassembly.file j.slice j with
    | mk verdict reassembly =>
      cases verdict with
      | accepted =>
        have hfile : f.file j = { f with reassembly, accepted := f.accepted.push j } := by
          unfold file
          rw [hv]
        rw [hfile]
        simpa using ih { f with reassembly, accepted := f.accepted.push j } hf
      | stale =>
        have hfile : ∃ notices, f.file j =
            { f with reassembly, pool := f.pool.release j, stale := f.stale.push j, notices } := by
          unfold file
          rw [hv]
          exact ⟨_, rfl⟩
        obtain ⟨notices, hfile⟩ := hfile
        rw [hfile]
        simpa using ih { f with
          reassembly, pool := f.pool.release j, stale := f.stale.push j, notices } (hf.release j)
      | outOfRange =>
        have hfile : ∃ notices, f.file j =
            { f with
              reassembly, pool := f.pool.release j, outOfRange := f.outOfRange.push j,
              notices } := by
          unfold file
          rw [hv]
          exact ⟨_, rfl⟩
        obtain ⟨notices, hfile⟩ := hfile
        rw [hfile]
        simpa using ih { f with
          reassembly, pool := f.pool.release j, outOfRange := f.outOfRange.push j, notices }
          (hf.release j)

theorem run_start {pool : Pool Job} (hpool : pool.Blank) (reassembly : Reassembly Job)
    (jobs : List Job) :
    let f := ({ pool, reassembly } : Filing).run jobs
    f.pool.Blank ∧ f.reassembly = reassembly.fileAll Job.slice jobs ∧
      f.accepted.toList = reassembly.judged Job.slice .accepted jobs ∧
      f.stale.toList = reassembly.judged Job.slice .stale jobs ∧
      f.outOfRange.toList = reassembly.judged Job.slice .outOfRange jobs := by
  simpa using run_eq { pool, reassembly } hpool jobs

end Filing

namespace Assembler

def respond (a : Assembler) : Call → Except ProcessError Report × Assembler
  | .feed arrangement bytes => a.feedWith arrangement.order bytes
  | .configure processes rank => a.configure processes rank

/-- A call that fails reports nothing. -/
def step (a : Assembler) (call : Call) : Report × Assembler :=
  ((a.respond call).1.toOption.getD {}, (a.respond call).2)

/-- Calls one after the other, with all that they did. -/
def run (a : Assembler) : List Call → Report × Assembler
  | [] => ({}, a)
  | call :: rest => ((a.step call).1 ++ ((a.step call).2.run rest).1, ((a.step call).2.run rest).2)

theorem run_append (a : Assembler) (calls calls' : List Call) :
    a.run (calls ++ calls') =
      ((a.run calls).1 ++ ((a.run calls).2.run calls').1, ((a.run calls).2.run calls').2) := by
  induction calls generalizing a with
  | nil => rfl
  | cons call rest ih =>
    simp only [List.cons_append, run, ih, Prod.mk.injEq, and_true]
    change Report.append _ (Report.append _ _) = Report.append (Report.append _ _) _
    simp only [Report.append, List.append_assoc]

theorem run_singleton (a : Assembler) (call : Call) : a.run [call] = a.step call := by
  rw [run, run, Report.append_empty]

/-- States that calls can lead to. -/
inductive Reachable (c : Config) : Assembler → Prop
  | start {a : Assembler} (h : ofConfig c = .ok a) : Reachable c a
  | step {a : Assembler} (h : Reachable c a) (call : Call) : Reachable c (a.step call).2

/-- States in which an acquisition can begin: new, or just after an idle frame. -/
inductive Ready (c : Config) : Assembler → Prop
  | start {a : Assembler} (h : ofConfig c = .ok a) : Ready c a
  | closed {a : Assembler} (h : Reachable c a) {call : Call} (hcall : call.Closing c) :
      Ready c (a.step call).2
  | configure {a : Assembler} (h : Ready c a) (processes rank : Nat) :
      Ready c (a.step (.configure processes rank)).2

theorem Ready.reachable {c : Config} {a : Assembler} (h : a.Ready c) : a.Reachable c := by
  induction h with
  | start h => exact .start h
  | closed h _ => exact .step h _
  | configure _ processes rank ih => exact .step ih _

/-- What every call keeps. -/
structure Consistent (c : Config) (a : Assembler) : Prop where
  config : a.config = c
  valid : c.Valid
  blank : a.pool.Blank
  labelled : a.outputs.Labelled
  buffers : a.reassembly.store.buffers = c.sliceBuffers
  holds : ∃ js, a.reassembly.store.Holds Job.slice js

theorem writeAll_events {o : Outputs} (ho : o.Labelled) (jobs : List Job) :
    let out := o.writeAll (jobs.map (·.decoded.events))
    out.2.Labelled ∧ Columns.ofFrames out.1 ++ out.2.pending =
      o.pending ++ Columns.ofEvents (jobs.flatMap Job.events) := by
  obtain ⟨hlabel, hcols⟩ := Outputs.writeAll_columns ho (jobs.map (·.decoded.events))
  rw [List.flatMap_map] at hcols
  exact ⟨hlabel, hcols⟩

/-- What a call does to the reassembly, and what of that it reports. -/
inductive Effect (c : Config) (a : Assembler) (call : Call) (report : Report) (b : Assembler) :
    Prop
  | quiet (hs : ¬ call.Standard c) (hc : ¬ call.Closing c)
      (hjobs : report.accepted = [] ∧ report.stale = [] ∧ report.outOfRange = [])
      (hw : report.written = []) (hr : b.reassembly = a.reassembly)
  | closing (hc : call.Closing c)
      (hjobs : report.accepted = [] ∧ report.stale = [] ∧ report.outOfRange = [])
      (hw : report.written = a.reassembly.finish.1) (hr : b.reassembly = a.reassembly.finish.2)
      (hp : b.outputs.pending = {})
  | standard (hs : call.Standard c)
      (ha : report.accepted = a.reassembly.judged Job.slice .accepted (call.results c))
      (hst : report.stale = a.reassembly.judged Job.slice .stale (call.results c))
      (ho : report.outOfRange = a.reassembly.judged Job.slice .outOfRange (call.results c))
      (hw : report.written = (a.reassembly.fileAll Job.slice (call.results c)).drainFinal.1)
      (hr : b.reassembly = (a.reassembly.fileAll Job.slice (call.results c)).drainFinal.2)

theorem Effect.of_closing {c : Config} {a b : Assembler} {call : Call} {report : Report}
    (h : Effect c a call report b) (hcall : call.Closing c) :
    report.written = a.reassembly.finish.1 ∧ b.reassembly = a.reassembly.finish.2 ∧
      b.outputs.pending = {} := by
  cases h with
  | quiet _ hc => exact absurd hcall hc
  | standard hs => exact absurd hs (Call.not_standard_of_closing hcall)
  | closing _ _ hw hr hp => exact ⟨hw, hr, hp⟩

theorem Effect.of_quiet {c : Config} {a b : Assembler} {call : Call} {report : Report}
    (h : Effect c a call report b) (hs : ¬ call.Standard c) (hc : ¬ call.Closing c) :
    report.written = [] ∧ b.reassembly = a.reassembly := by
  cases h with
  | quiet _ _ _ hw hr => exact ⟨hw, hr⟩
  | closing hclosing => exact absurd hclosing hc
  | standard hstandard => exact absurd hstandard hs

theorem Effect.of_standard {c : Config} {a b : Assembler} {call : Call} {report : Report}
    (h : Effect c a call report b) (hcall : call.Standard c) :
    report.accepted = a.reassembly.judged Job.slice .accepted (call.results c) ∧
      report.stale = a.reassembly.judged Job.slice .stale (call.results c) ∧
      report.outOfRange = a.reassembly.judged Job.slice .outOfRange (call.results c) ∧
      report.written = (a.reassembly.fileAll Job.slice (call.results c)).drainFinal.1 ∧
      b.reassembly = (a.reassembly.fileAll Job.slice (call.results c)).drainFinal.2 := by
  cases h with
  | quiet hs => exact absurd hcall hs
  | closing hc => exact absurd hcall (Call.not_standard_of_closing hc)
  | standard _ ha hst ho hw hr => exact ⟨ha, hst, ho, hw, hr⟩

/-- What a call reports accounts for the change of the state. -/
structure Accounted (a : Assembler) (report : Report) (b : Assembler) : Prop where
  columns : Columns.ofFrames report.frames ++ b.outputs.pending =
    a.outputs.pending ++ Columns.ofEvents (report.written.flatMap Job.events)
  stalePackets : b.counts.stalePackets = a.counts.stalePackets + report.stale.length
  invalidPackets : b.counts.invalidPackets = a.counts.invalidPackets + report.outOfRange.length

theorem finishAcquisition_spec {c : Config} {a : Assembler} (h : a.Consistent c) {call : Call}
    (hcall : call.Closing c) :
    Effect c a call a.finishAcquisition.1 a.finishAcquisition.2 ∧
      Accounted a a.finishAcquisition.1 a.finishAcquisition.2 ∧
      a.finishAcquisition.2.Consistent c := by
  obtain ⟨hlabel, hcols⟩ := writeAll_events h.labelled a.reassembly.finish.1
  obtain ⟨hflabel, hfcols, hfpending⟩ := Outputs.flush_columns hlabel
  have hall := hcols
  rw [← hfcols, ← Columns.ofFrames_append, ← Columns.append_nil (Columns.ofFrames _),
    ← hfpending] at hall
  unfold finishAcquisition write
  dsimp only
  generalize a.outputs.writeAll _ = out at *
  exact ⟨.closing hcall ⟨rfl, rfl, rfl⟩ rfl rfl hfpending, ⟨hall, rfl, rfl⟩,
    ⟨h.config, h.valid, h.blank.foldl_release _, hflabel.restart, h.buffers, [], .empty _⟩⟩

private theorem foldl_record (jobs : List Job) (s : Statistics) :
    (jobs.foldl Statistics.record s).stalePackets = s.stalePackets ∧
      (jobs.foldl Statistics.record s).invalidPackets = s.invalidPackets := by
  induction jobs generalizing s with
  | nil => exact ⟨rfl, rfl⟩
  | cons j rest ih => exact ih (s.record j)

theorem collect_spec {c : Config} {a : Assembler} (h : a.Consistent c) {call : Call}
    (hcall : call.Standard c) :
    Effect c a call (a.collect (call.results c)).1 (a.collect (call.results c)).2 ∧
      Accounted a (a.collect (call.results c)).1 (a.collect (call.results c)).2 ∧
      (a.collect (call.results c)).2.Consistent c := by
  obtain ⟨js, hjs⟩ := h.holds
  obtain ⟨hpool, hr, ha, hs, ho⟩ := Filing.run_start h.blank a.reassembly (call.results c)
  have hheld := Reassembly.holds_fileAll hjs (call.results c)
  obtain ⟨-, hkept, -, -⟩ := Reassembly.drainFinal_eq hheld
  have hbuffers := (Reassembly.buffers_drainFinal _).trans
    (Reassembly.buffers_fileAll hjs (call.results c))
  rw [← hr] at hkept hbuffers
  obtain ⟨hlabel, hcols⟩ := writeAll_events h.labelled
    (Filing.run { pool := a.pool, reassembly := a.reassembly }
      (call.results c)).reassembly.drainFinal.1
  obtain ⟨hstale, hinvalid⟩ := foldl_record (call.results c) a.counts
  refine ⟨.standard hcall ha hs ho ?_ ?_, ⟨hcols, ?_, ?_⟩,
    ⟨h.config, h.valid, hpool.foldl_release _, hlabel, hbuffers.trans h.buffers, _, hkept⟩⟩
  · exact congrArg (fun r => r.drainFinal.1) hr
  · exact congrArg (fun r => r.drainFinal.2) hr
  · change Statistics.stalePackets (List.foldl _ _ _) + _ = _
    rw [hstale]
    rfl
  · change Statistics.invalidPackets (List.foldl _ _ _) + _ = _
    rw [hinvalid]
    rfl

theorem step_frame {c : Config} {a : Assembler} (h : a.config = c) (arrangement : Arrangement)
    {bytes : Bytes} {f : Frame} (hf : Frame.parse c bytes = .ok f) :
    a.step (.feed arrangement bytes) = a.feedFrame arrangement.order f := by
  simp only [step, respond, feedWith, handle, h, hf]
  rfl

theorem step_no_frame {c : Config} {a : Assembler} (h : a.config = c) (arrangement : Arrangement)
    {bytes : Bytes} {cause : DecodeError} (hf : Frame.parse c bytes = .error cause) :
    a.step (.feed arrangement bytes) = ({}, a) := by
  simp only [step, respond, feedWith, handle, h, hf]
  rfl

/-- The pool that a frame was taken in with does not show in its results. -/
theorem order_submit {c : Config} {a : Assembler} (h : a.pool.Blank) (arrangement : Arrangement)
    {bytes : Bytes} {f : Frame} (hf : Frame.parse c bytes = .ok f) (hidle : f.idle = false) :
    arrangement.order ((a.submit f).1.map Job.decode) =
      (Call.feed arrangement bytes).results c := by
  have hsubmitted : (a.submit f).1 = f.jobs := (Intake.ofFrame_eq h f).2
  rw [hsubmitted, Call.results, Call.jobs_of_frame (Call.frame?_feed arrangement hf) hidle]

/-- The results of a standard frame are collected in the order of their delivery. -/
theorem step_standard {c : Config} {a : Assembler} (h : a.Consistent c) (arrangement : Arrangement)
    {bytes : Bytes} {f : Frame} (hf : Frame.parse c bytes = .ok f) (hidle : f.idle = false) :
    let results := (Call.feed arrangement bytes).results c
    let out := (a.submit f).2.2.collect results
    a.step (.feed arrangement bytes) =
      ({ out.1 with
          notices := (a.submit f).2.1 ++ results.flatMap Job.notices ++ out.1.notices ++
            [.frameProcessed f.number.toNat (a.submit f).1.length out.1.frames.length
              out.2.reassembly.mark] }, out.2) := by
  dsimp only
  rw [step_frame h.config arrangement hf, feedFrame, hidle, if_neg (by decide),
    ← order_submit h.blank arrangement hf hidle]

/-- What a call comes to: nothing, another numbering, the end of an acquisition, or the results of
a standard frame. -/
inductive Course (c : Config) (a : Assembler) : Call → Report × Assembler → Prop
  | nothing {call : Call} (hnone : call.frame? c = none) (hnumbering : call.numbering? = none) :
    Course c a call ({}, a)
  | renumbering {call : Call} {processes rank : Nat} (hnone : call.frame? c = none)
      (hnumbering : call.numbering? = some (processes, rank)) :
    Course c a call ({ notices := [.processConfigured rank processes] },
      { a with outputs := a.outputs.configure processes rank })
  | closing {call : Call} (hclosing : call.Closing c) : Course c a call a.finishAcquisition
  | standard {arrangement : Arrangement} {bytes : Bytes} {f : Frame}
      (hf : Frame.parse c bytes = .ok f) (hidle : f.idle = false) {report : Report}
      {b : Assembler}
      (hcollect : (a.submit f).2.2.collect ((Call.feed arrangement bytes).results c) = (report, b))
      (notices : List Notice) :
    Course c a (.feed arrangement bytes) ({ report with notices }, b)

/-- Whatever holds of every call is proved along its course. -/
theorem step_course {c : Config} {a : Assembler} (h : a.Consistent c) (call : Call) :
    Course c a call (a.step call) := by
  cases call with
  | feed arrangement bytes =>
    cases hf : Frame.parse c bytes with
    | error cause =>
      rw [step_no_frame h.config arrangement hf]
      refine .nothing ?_ rfl
      rw [Call.frame?, hf]
      rfl
    | ok f =>
      cases hidle : f.idle with
      | true =>
        rw [step_frame h.config arrangement hf, feedFrame, if_pos hidle]
        exact .closing ⟨f, Call.frame?_feed arrangement hf, hidle⟩
      | false =>
        rw [step_standard h arrangement hf hidle]
        exact .standard hf hidle rfl _
  | configure processes rank =>
    by_cases hrefused : processes = 0 ∨ processes ≤ rank
    · have heq : a.step (.configure processes rank) = ({}, a) := by
        simp only [step, respond, configure, if_pos hrefused]
        rfl
      rw [heq]
      exact .nothing rfl (if_pos hrefused)
    · have heq : a.step (.configure processes rank) =
          ({ notices := [.processConfigured rank processes] },
            { a with outputs := a.outputs.configure processes rank }) := by
        simp only [step, respond, configure, if_neg hrefused]
        rfl
      rw [heq]
      exact .renumbering rfl (if_neg hrefused)

/-- An idle frame finishes the acquisition, whatever else its bytes say. -/
theorem step_closing_eq {c : Config} {a : Assembler} (h : a.Consistent c) {call : Call}
    (hclosing : call.Closing c) : a.step call = a.finishAcquisition := by
  have hcourse := step_course h call
  generalize a.step call = out at hcourse ⊢
  cases hcourse with
  | nothing hnone => exact absurd hclosing (Call.not_closing_of_none hnone)
  | renumbering hnone => exact absurd hclosing (Call.not_closing_of_none hnone)
  | closing => rfl
  | standard hf hidle =>
    exact absurd ⟨_, Call.frame?_feed _ hf, hidle⟩ (Call.not_standard_of_closing hclosing)

theorem effect_quiet {c : Config} {a b : Assembler} {call : Call} (notices : List Notice)
    (hnone : call.frame? c = none) (hr : b.reassembly = a.reassembly)
    (hp : b.outputs.pending = a.outputs.pending) (hcounts : b.counts = a.counts) :
    Effect c a call { notices } b ∧ Accounted a { notices } b := by
  refine ⟨.quiet (Call.not_standard_of_none hnone) (Call.not_closing_of_none hnone)
    ⟨rfl, rfl, rfl⟩ rfl hr, ⟨?_, ?_, ?_⟩⟩
  · rw [hp]
    exact (Columns.nil_append _).trans (Columns.append_nil _).symm
  · rw [hcounts]
    rfl
  · rw [hcounts]
    rfl

/-- What is submitted from a consistent state leaves it consistent, and only counts packets. -/
theorem consistent_submit {c : Config} {a : Assembler} (h : a.Consistent c) {f : Frame}
    (hread : f.Readable) :
    (a.submit f).2.2.Consistent c ∧
      (a.submit f).2.2.counts.stalePackets = a.counts.stalePackets ∧
      (a.submit f).2.2.counts.invalidPackets = a.counts.invalidPackets := by
  have hblank := (Intake.ofFrame_eq h.blank f).1
  have hinvalid := (Intake.ofFrame_counts h.blank hread).2.2
  refine ⟨⟨h.config, h.valid, hblank, h.labelled, h.buffers, h.holds⟩, rfl, ?_⟩
  change a.counts.invalidPackets + (Intake.ofFrame a.pool f).invalid = _
  rw [hinvalid, Nat.add_zero]

theorem step_spec {c : Config} {a : Assembler} (h : a.Consistent c) (call : Call) :
    Effect c a call (a.step call).1 (a.step call).2 ∧
      Accounted a (a.step call).1 (a.step call).2 ∧ (a.step call).2.Consistent c := by
  have hcourse := step_course h call
  generalize a.step call = out at hcourse ⊢
  cases hcourse with
  | nothing hnone =>
    obtain ⟨heffect, haccounted⟩ := effect_quiet [] hnone (rfl : a.reassembly = _) rfl rfl
    exact ⟨heffect, haccounted, h⟩
  | @renumbering _ processes rank hnone =>
    obtain ⟨heffect, haccounted⟩ :=
      effect_quiet (b := { a with outputs := a.outputs.configure processes rank }) _ hnone
        (rfl : a.reassembly = _) (Outputs.pending_configure _ _ _) rfl
    exact ⟨heffect, haccounted,
      ⟨h.config, h.valid, h.blank, h.labelled.configure _ _, h.buffers, h.holds⟩⟩
  | closing hclosing => exact finishAcquisition_spec h hclosing
  | @standard arrangement bytes f hf hidle report b hcollect notices =>
    have hstandard : (Call.feed arrangement bytes).Standard c :=
      ⟨f, Call.frame?_feed arrangement hf, hidle⟩
    obtain ⟨hsubmitted, hstale, hinvalid⟩ :=
      consistent_submit h (Frame.readable_of_parse h.valid hf hidle)
    have hspec := collect_spec hsubmitted hstandard
    rw [hcollect] at hspec
    obtain ⟨heffect, haccounted, hconsistent⟩ := hspec
    obtain ⟨hacc, hst, hout, hw, hr⟩ := heffect.of_standard hstandard
    refine ⟨.standard hstandard hacc hst hout hw hr, ⟨haccounted.columns, ?_, ?_⟩, hconsistent⟩
    · rw [← hstale]
      exact haccounted.stalePackets
    · rw [← hinvalid]
      exact haccounted.invalidPackets

theorem consistent_ofConfig {c : Config} {a : Assembler} (h : ofConfig c = .ok a) :
    a.Consistent c ∧ a.reassembly = { store := { buffers := c.sliceBuffers } } ∧
      a.outputs.pending = {} := by
  unfold ofConfig at h
  split at h
  · cases h
  · next hcheck =>
    cases h
    refine ⟨⟨rfl, (c.check_eq_ok_iff).1 hcheck, .prefilled _, Outputs.labelled_ofCapacity _, rfl,
      [], .empty _⟩, rfl, rfl⟩

theorem Reachable.consistent {c : Config} {a : Assembler} (h : a.Reachable c) :
    a.Consistent c := by
  induction h with
  | start h => exact (consistent_ofConfig h).1
  | step _ call ih => exact (step_spec ih call).2.2

theorem step_closing {c : Config} {a : Assembler} (h : a.Consistent c) {call : Call}
    (hcall : call.Closing c) :
    (a.step call).2.reassembly = { store := { buffers := c.sliceBuffers } } ∧
      (a.step call).2.outputs.pending = {} := by
  obtain ⟨js, hjs⟩ := h.holds
  obtain ⟨-, hr, hp⟩ := (step_spec h call).1.of_closing hcall
  rw [hr, Reassembly.finish_eq hjs, ← h.buffers]
  exact ⟨rfl, hp⟩

theorem Ready.reassembly_eq {c : Config} {a : Assembler} (h : a.Ready c) :
    a.reassembly = { store := { buffers := c.sliceBuffers } } ∧ a.outputs.pending = {} := by
  induction h with
  | start h => exact (consistent_ofConfig h).2
  | closed h hcall => exact step_closing h.consistent hcall
  | @configure a h processes rank ih =>
    have hcourse := step_course h.reachable.consistent (.configure processes rank)
    generalize a.step (.configure processes rank) = out at hcourse ⊢
    cases hcourse with
    | nothing => exact ih
    | renumbering => exact ih
    | closing hclosing => exact absurd hclosing (Call.not_closing_of_none rfl)

theorem Accounted.trans {a b d : Assembler} {r s : Report} (h : Accounted a r b)
    (h' : Accounted b s d) : Accounted a (r ++ s) d where
  columns := by
    rw [Report.frames_append, Report.written_append, Columns.ofFrames_append,
      Columns.append_assoc, h'.columns, ← Columns.append_assoc, h.columns, Columns.append_assoc,
      ← Columns.ofEvents_append, List.flatMap_append]
  stalePackets := by
    rw [h'.stalePackets, h.stalePackets, Report.stale_append, List.length_append, Nat.add_assoc]
  invalidPackets := by
    rw [h'.invalidPackets, h.invalidPackets, Report.outOfRange_append, List.length_append,
      Nat.add_assoc]

theorem run_spec {c : Config} {a : Assembler} (h : a.Consistent c) (calls : List Call) :
    Accounted a (a.run calls).1 (a.run calls).2 ∧ (a.run calls).2.Consistent c := by
  induction calls generalizing a with
  | nil => exact ⟨⟨(Columns.nil_append _).trans (Columns.append_nil _).symm, rfl, rfl⟩, h⟩
  | cons call rest ih =>
    obtain ⟨-, hfirst, hstep⟩ := step_spec h call
    obtain ⟨hrest, hrun⟩ := ih hstep
    exact ⟨hfirst.trans hrest, hrun⟩

end Assembler

/-! A small geometry, and calls for it. -/

def Config.small : Config where
  packetSlots := 2
  packetBytes := 40
  sliceBuffers := 2
  threads := 1

def FrameDraft.call (d : FrameDraft) : Call :=
  .feed .slotOrder ((d.encode .small).toOption.getD [])

/-- One event for each slice, slot after slot. -/
def Call.sample (slices : List TimeSlice) : Call :=
  let fill (d : FrameDraft) (s : TimeSlice) : FrameDraft :=
    d.fill d.fillings.length { wrap := UInt32.ofNat s.wrap, buffer := UInt32.ofNat s.buffer }
      [(DataWord.extendedTimestamp 0x100200000).raw, (DataWord.event 7 0x200001 1).raw]
  (slices.foldl fill {}).call

def Call.idle : Call := ({ idle := true } : FrameDraft).call

end EventReadout
