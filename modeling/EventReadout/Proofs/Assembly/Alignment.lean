import EventReadout.Proofs.Assembly.Conservation
import EventReadout.Proofs.Assembly.Session
import EventReadout.Proofs.Channel.Position
import EventReadout.Proofs.Job.EventWords

/-!
The channel buffers through a run.

A call renumbers the buffers, fills them with the events that it writes, or closes them. In none of
these does one buffer get ahead of the others.
-/
namespace EventReadout.Assembler

variable {c : Config} {a : Assembler} {p q : Outputs.Position} {call : Call} {report : Report}

/-- What a call does to buffers that are in step. -/
inductive Moves (c : Config) (p : Outputs.Position) (call : Call) (report : Report) :
    Outputs.Position → Prop
  | renumbers {processes rank : Nat} (hnumbering : call.numbering? = some (processes, rank))
      (hframes : report.frames = []) (hwritten : report.written = []) :
      Moves c p call report (p.renumber processes rank)
  | fills (hnumbering : call.numbering? = none) (hopen : ¬ call.Closing c)
      (hframes : ∀ ch : Channel, report.frames.filter (·.channel = ch) =
        ch.frames p.next p.processes
          (blocks p.capacity (p.pending ++ report.written.flatMap Job.events))) :
      Moves c p call report (p.push (report.written.flatMap Job.events))
  | closes (hclosing : call.Closing c)
      (hframes : ∀ ch : Channel, report.frames.filter (·.channel = ch) =
        ch.frames p.next p.processes
          (chunks p.capacity (p.pending ++ report.written.flatMap Job.events))) :
      Moves c p call report p.close

theorem write_moves (hp : a.outputs = p.outputs) (hroom : p.pending.length < p.capacity)
    (jobs : List Job) :
    (a.write jobs).2.outputs = (p.push (jobs.flatMap Job.events)).outputs ∧
      ∀ ch : Channel, (a.write jobs).1.filter (·.channel = ch) =
        ch.frames p.next p.processes
          (blocks p.capacity (p.pending ++ jobs.flatMap Job.events)) := by
  have hlabel : a.outputs.Labelled := by
    rw [hp]
    exact p.labelled_outputs
  obtain ⟨hafter, hframes⟩ := Outputs.writeAll_eq hlabel (jobs.map (·.decoded.events))
  rw [List.flatMap_map] at hafter hframes
  refine ⟨hafter.trans ?_, fun ch => (hframes ch).trans ?_⟩
  · rw [hp]
    exact Outputs.Position.after_outputs hroom _
  · rw [hp]
    exact Outputs.Position.emitted_outputs hroom _ ch

theorem finishAcquisition_moves (hp : a.outputs = p.outputs)
    (hroom : p.pending.length < p.capacity) (hclosing : call.Closing c) :
    a.finishAcquisition.2.outputs = p.close.outputs ∧
      Moves c p call a.finishAcquisition.1 p.close := by
  let written := a.reassembly.finish.1
  let left : Assembler := { a with reassembly := a.reassembly.finish.2 }
  obtain ⟨hafter, hframes⟩ := write_moves (a := left) hp hroom written
  refine ⟨?_, .closes hclosing fun ch => ?_⟩
  · change (left.write written).2.outputs.flush.2.restart = _
    rw [hafter, Outputs.restart_flush]
    rfl
  · change ((left.write written).1 ++ (left.write written).2.outputs.flush.1).filter _ = _
    rw [List.filter_append, hframes, hafter, Outputs.Position.filter_flush, chunks,
      Channel.frames_append]
    rfl

theorem collect_moves (hp : a.outputs = p.outputs) (hroom : p.pending.length < p.capacity)
    (results : List Job) :
    let out := a.collect results
    let events := out.1.written.flatMap Job.events
    out.2.outputs = (p.push events).outputs ∧ ∀ ch : Channel, out.1.frames.filter (·.channel = ch) =
      ch.frames p.next p.processes (blocks p.capacity (p.pending ++ events)) := by
  let filing := Filing.run { pool := a.pool, reassembly := a.reassembly } results
  exact write_moves
    (a := { a with pool := filing.pool, reassembly := filing.reassembly.drainFinal.2 })
    hp hroom filing.reassembly.drainFinal.1

theorem Moves.of_quiet (hroom : p.pending.length < p.capacity) (hnumbering : call.numbering? = none)
    (hopen : ¬ call.Closing c) : Moves c p call {} p := by
  have hmove : Moves c p call {} (p.push []) := by
    refine .fills hnumbering hopen fun ch => ?_
    change [] = ch.frames p.next p.processes (blocks p.capacity (p.pending ++ []))
    rw [List.append_nil, blocks_of_lt hroom]
    rfl
  rw [Outputs.Position.push_nil hroom] at hmove
  exact hmove

theorem step_moves (ha : a.Consistent c) (hp : a.outputs = p.outputs)
    (hroom : p.pending.length < p.capacity) (call : Call) :
    ∃ q, (a.step call).2.outputs = q.outputs ∧ Moves c p call (a.step call).1 q := by
  have hcourse := step_course ha call
  generalize a.step call = out at hcourse ⊢
  cases hcourse with
  | nothing hnone hnumbering =>
    exact ⟨p, hp, .of_quiet hroom hnumbering (Call.not_closing_of_none hnone)⟩
  | @renumbering _ processes rank _ hnumbering =>
    refine ⟨p.renumber processes rank, ?_, .renumbers hnumbering rfl rfl⟩
    rw [← Outputs.Position.outputs_renumber, ← hp]
  | closing hclosing => exact ⟨_, finishAcquisition_moves hp hroom hclosing⟩
  | @standard arrangement bytes f hf hidle report b hcollect notices =>
    have hopen : ¬ (Call.feed arrangement bytes).Closing c := fun hclosing =>
      Call.not_standard_of_closing hclosing ⟨f, Call.frame?_feed arrangement hf, hidle⟩
    obtain ⟨hafter, hframes⟩ := collect_moves (a := (a.submit f).2.2) hp hroom
      ((Call.feed arrangement bytes).results c)
    rw [hcollect] at hafter hframes
    exact ⟨_, hafter, .fills rfl hopen hframes⟩

/-- A call emits the same rows on all channels: what was pending and what it writes, less what is
pending afterwards. -/
theorem Moves.rows (h : Moves c p call report q) (hroom : p.pending.length < p.capacity) :
    q.capacity = p.capacity ∧ q.pending.length < p.capacity ∧
      ∃ rows, (∀ ch : Channel, report.frames.filter (·.channel = ch) =
          ch.frames p.next p.processes rows) ∧
        rows.flatten ++ q.pending = p.pending ++ report.written.flatMap Job.events := by
  have hcapacity := Nat.zero_lt_of_lt hroom
  cases h with
  | renumbers _ hframes hwritten =>
    refine ⟨rfl, hroom, [], fun ch => ?_, ?_⟩
    · rw [hframes]
      rfl
    · rw [hwritten]
      exact (List.append_nil _).symm
  | fills _ _ hframes =>
    exact ⟨rfl, Outputs.Position.length_pending_push hroom _, _, hframes,
      flatten_blocks_append_leftover _ _⟩
  | closes _ hframes =>
    refine ⟨rfl, hcapacity, _, hframes, ?_⟩
    rw [(chunked_chunks hcapacity _).flatten]
    exact List.append_nil _

/-- Through a run the buffers stay in step. All channels carry frames of the same sizes, filled with
what was pending and what has been written, less what is pending afterwards. -/
theorem run_rows (ha : a.Consistent c) (hp : a.outputs = p.outputs)
    (hroom : p.pending.length < p.capacity) (calls : List Call) :
    ∃ (q : Outputs.Position) (rows : List (List Event)), (a.run calls).2.outputs = q.outputs ∧
      q.capacity = p.capacity ∧ q.pending.length < p.capacity ∧
      (∀ ch : Channel, ((a.run calls).1.frames.filter (·.channel = ch)).map OutputFrame.size =
        rows.map List.length) ∧
      rows.flatten ++ q.pending = p.pending ++ (a.run calls).1.written.flatMap Job.events := by
  induction calls using List.reverseRecOn with
  | nil => exact ⟨p, [], hp, rfl, hroom, fun _ => rfl, (List.append_nil _).symm⟩
  | append_singleton calls call ih =>
    obtain ⟨q, rows, hq, hcapacity, hroom', hsizes, hrows⟩ := ih
    rw [← hcapacity] at hroom'
    obtain ⟨q', hq', hmoves⟩ := step_moves (run_spec ha calls).2 hq hroom' call
    obtain ⟨hkept, hlast, more, hframes, hmore⟩ := hmoves.rows hroom'
    rw [run_append, run_singleton, Report.written_append, List.flatMap_append]
    refine ⟨q', rows ++ more, hq', hkept.trans hcapacity, hcapacity ▸ hlast, fun ch => ?_, ?_⟩
    · rw [Report.frames_append, List.filter_append, List.map_append, hsizes, hframes,
        Channel.map_size_frames, List.map_append]
    · rw [List.flatten_append, List.append_assoc, hmore, ← List.append_assoc, hrows,
        List.append_assoc]

theorem run_rows_closed (ha : a.Consistent c) (hp : a.outputs = p.outputs)
    (hroom : p.pending.length < p.capacity) {calls : List Call} {last : Call}
    (hlast : calls.getLast? = some last) (hclosing : last.Closing c) :
    ∃ rows : List (List Event),
      (∀ ch : Channel, ((a.run calls).1.frames.filter (·.channel = ch)).map OutputFrame.size =
        rows.map List.length) ∧
      rows.flatten = p.pending ++ (a.run calls).1.written.flatMap Job.events := by
  obtain ⟨q, rows, hq, -, -, hsizes, hrows⟩ := run_rows ha hp hroom calls
  obtain ⟨-, hempty⟩ := run_closed ha hlast hclosing
  rw [hq] at hempty
  have hcolumn : q.pending.map (·.timestamp) = [] := congrArg Columns.timestamps hempty
  rw [List.map_eq_nil_iff.1 hcolumn, List.append_nil] at hrows
  exact ⟨rows, hsizes, hrows⟩

theorem run_position (h : ofConfig c = .ok a) (calls : List Call) :
    ∃ p : Outputs.Position, (a.run calls).2.outputs = p.outputs ∧ p.capacity = c.frameCapacity ∧
      p.pending.length < c.frameCapacity ∧
      ∀ e ∈ p.pending, e ∈ (a.run calls).1.written.flatMap Job.events := by
  have hstart := (consistent_ofConfig h).1
  have hroom := hstart.valid.frameCapacity_pos
  have houtputs : a.outputs = Outputs.Position.outputs ⟨c.frameCapacity, 1, 0, 0, []⟩ := by
    rw [outputs_ofConfig h, Outputs.Position.outputs_ofCapacity hroom]
  obtain ⟨p, rows, hp, hcapacity, hpending, -, hrows⟩ := run_rows hstart houtputs hroom calls
  refine ⟨p, hp, hcapacity, hpending, fun e he => ?_⟩
  rw [List.nil_append] at hrows
  exact hrows ▸ List.mem_append_right _ he

/-- What is written stands in the words of the packets taken in. -/
theorem exists_eventAt_of_written (h : ofConfig c = .ok a) (calls : List Call) {e : Event}
    (he : e ∈ (a.run calls).1.written.flatMap Job.events) :
    ∃ j ∈ calls.flatMap (Call.jobs c), ∃ index, EventAt j.words index e := by
  obtain ⟨hstart, hempty, -⟩ := consistent_ofConfig h
  have hbalanced := run_balanced hstart calls
  obtain ⟨j, hwritten, hevent⟩ := List.mem_flatMap.1 he
  have haccepted : j ∈ (a.run calls).1.accepted := by
    have hmem := hbalanced.held.subset (List.mem_append_left _ hwritten)
    rw [hempty] at hmem
    exact hmem
  have htaken : j ∈ calls.flatMap (Call.jobs c) :=
    hbalanced.judged.subset (List.mem_append_left _ (List.mem_append_left _ haccepted))
  refine ⟨j, htaken, ?_⟩
  obtain ⟨call, -, hjob⟩ := List.mem_flatMap.1 htaken
  obtain ⟨i, rfl⟩ := Call.exists_decode hjob
  exact i.exists_eventAt (Array.mem_toList_iff.1 hevent)

/--
Between calls the three channels have the same number of values pending, fewer than fill a frame,
and the same number for the next frame. Each call emits the same rows of events on all of them,
frame by frame with the same numbers, and each event is read from one word of one packet.
-/
theorem channels_aligned (h : ofConfig c = .ok a) (calls : List Call) (call : Call) :
    let b := (a.run calls).2
    let read (e : Event) (taken : List Call) : Prop :=
      ∃ j ∈ taken.flatMap (Call.jobs c), ∃ index, EventAt j.words index e
    (b.outputs.timestamps.pending.size = b.outputs.ids.pending.size ∧
        b.outputs.ids.pending.size = b.outputs.energies.pending.size ∧
        b.outputs.energies.pending.size < c.frameCapacity) ∧
      (b.outputs.timestamps.next = b.outputs.ids.next ∧
        b.outputs.ids.next = b.outputs.energies.next) ∧
      (∃ es : List Event, b.outputs.pending = .ofEvents es ∧ ∀ e ∈ es, read e calls) ∧
      ∃ rows : List (List Event),
        (∀ ch : Channel, (b.step call).1.frames.filter (·.channel = ch) =
          ch.frames b.outputs.ids.next b.outputs.ids.processes rows) ∧
        ∀ row ∈ rows, ∀ e ∈ row, read e (calls ++ [call]) := by
  have hstart := (consistent_ofConfig h).1
  obtain ⟨p, hp, hcapacity, hroom, hpending⟩ := run_position h calls
  rw [← hcapacity] at hroom ⊢
  obtain ⟨q, -, hmoves⟩ := step_moves (run_spec hstart calls).2 hp hroom call
  obtain ⟨-, -, rows, hframes, hrows⟩ := hmoves.rows hroom
  dsimp only
  rw [hp]
  refine ⟨⟨?_, ?_, ?_⟩, ⟨rfl, rfl⟩, ⟨p.pending, rfl, fun e he => ?_⟩, rows, hframes,
    fun row hrow e he => ?_⟩
  · simp [Outputs.Position.outputs, Outputs.Position.buffer]
  · simp [Outputs.Position.outputs, Outputs.Position.buffer]
  · simpa [Outputs.Position.outputs, Outputs.Position.buffer] using hroom
  · exact exists_eventAt_of_written h calls (hpending e he)
  · apply exists_eventAt_of_written h (calls ++ [call])
    have hmem : e ∈ rows.flatten ++ q.pending :=
      List.mem_append_left _ (List.mem_flatten.2 ⟨row, hrow, he⟩)
    rw [hrows, List.mem_append] at hmem
    rw [run_append, run_singleton, Report.written_append, List.flatMap_append, List.mem_append]
    exact hmem.imp_left (hpending e)

/-- Three events, of which the last does not fill a frame. -/
theorem channels_aligned_when_closing :
    let c := { Config.small with frameCapacity := 2 }
    ∃ a, ofConfig c = .ok a ∧
      let calls := [.configure 3 1, .sample [⟨0, 0⟩, ⟨0, 1⟩], .sample [⟨0, 1⟩]]
      let frames := ((a.run calls).2.step .idle).1.frames
      frames.map (fun f => (f.channel, f.number, f.size)) =
          [(.timeOffset, 1, 2), (.id, 1, 2), (.energy, 1, 2),
            (.timeOffset, 4, 1), (.id, 4, 1), (.energy, 4, 1)] ∧
        ∃ rows : List (List Event),
          (∀ ch : Channel, frames.filter (·.channel = ch) =
            ch.frames (a.run calls).2.outputs.ids.next (a.run calls).2.outputs.ids.processes rows) ∧
          ∀ row ∈ rows, ∀ e ∈ row,
            ∃ j ∈ (calls ++ [Call.idle]).flatMap (Call.jobs c),
              ∃ index, EventAt j.words index e := by
  intro c
  have hnew : ofConfig { Config.small with frameCapacity := 2 } = .ok _ := rfl
  refine ⟨_, hnew, by decide +kernel, ?_⟩
  exact (channels_aligned hnew
    [.configure 3 1, .sample [⟨0, 0⟩, ⟨0, 1⟩], .sample [⟨0, 1⟩]] .idle).2.2.2

end EventReadout.Assembler
