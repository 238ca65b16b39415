import EventReadout.Proofs.Assembly.Alignment
import EventReadout.Proofs.Assembly.Indistinct
import EventReadout.Proofs.Frame.Slots

/-!
How the frames of an acquisition are cut and numbered.

The cuts depend on the capacity, the numbers on the processes and the rank, and what is written on
neither. Ranks of the same number of processes share no frame number.
-/
namespace EventReadout

def OutputFrame.unnumbered (f : OutputFrame) : OutputFrame := { f with number := 0 }

theorem Channel.unnumbered_frames (ch : Channel) (first step : Nat) (parts : List (List Event)) :
    (ch.frames first step parts).map OutputFrame.unnumbered =
      parts.map fun part => ⟨ch, 0, ch.data part, []⟩ := by
  unfold frames
  apply List.ext_getElem
  · simp
  · intro k _ _
    simp [OutputFrame.unnumbered]

namespace Outputs

/-- Buffers in step that hold the same events, whatever their numbering. -/
def SameHeld (o o' : Outputs) : Prop :=
  ∃ p q : Position, o = p.outputs ∧ o' = q.outputs ∧ p.capacity = q.capacity ∧
    p.pending = q.pending ∧ p.pending.length < p.capacity

theorem SameHeld.congruent : Congruent OutputFrame.unnumbered SameHeld where
  write := by
    rintro _ _ ⟨p, q, rfl, rfl, hcapacity, hpending, hroom⟩ batch
    have hroom' : q.pending.length < q.capacity := hcapacity ▸ hpending ▸ hroom
    rw [write_eq, write_eq]
    constructor
    · simp only [List.map_flatMap, Position.emitted_outputs hroom, Position.emitted_outputs hroom',
        Channel.unnumbered_frames, hcapacity, hpending]
    · refine ⟨p.push batch.events.toList, q.push batch.events.toList,
        Position.after_outputs hroom _, Position.after_outputs hroom' _, hcapacity, ?_,
        Position.length_pending_push hroom _⟩
      rw [Position.push, Position.push, hcapacity, hpending]
  flush := by
    rintro _ _ ⟨p, q, rfl, rfl, hcapacity, hpending, hroom⟩
    rw [Position.flush_outputs, Position.flush_outputs, restart_flush, restart_flush]
    constructor
    · simp only [List.map_flatMap, Position.flushed, Channel.unnumbered_frames, hpending]
    · exact ⟨p.close, q.close, rfl, rfl, hcapacity, rfl, Nat.zero_lt_of_lt hroom⟩
  configure := by
    rintro _ _ ⟨p, q, rfl, rfl, hcapacity, hpending, hroom⟩ processes rank
    exact ⟨p.renumber processes rank, q.renumber processes rank, rfl, rfl, hcapacity, hpending,
      hroom⟩

namespace Position

/-- Where buffers stand before the first frame of an acquisition. -/
def start (capacity processes rank : Nat) : Position := ⟨capacity, processes, rank, rank, []⟩

/-- Positions that are reached from a start without a change of the numbering. -/
structure InSequence (capacity processes rank : Nat) (p : Position) : Prop where
  capacity_eq : p.capacity = capacity
  processes_eq : p.processes = processes
  rank_eq : p.rank = rank
  exists_next : ∃ k, p.next = rank + k * processes
  room : p.pending.length < p.capacity

end Position
end Outputs

theorem Call.frame?_frameCapacity (c : Config) (capacity : Nat) (call : Call) :
    call.frame? { c with frameCapacity := capacity } = call.frame? c := by
  cases call with
  | feed arrangement bytes =>
    have hparse : Frame.parse { c with frameCapacity := capacity } bytes = Frame.parse c bytes :=
      Frame.parse_congr rfl rfl rfl rfl
    rw [frame?, frame?, hparse]
  | configure processes rank => rfl

namespace Assembler

variable {c : Config} {a b : Assembler} {processes rank : Nat}

/-- A new assembler before its first frame, with the numbering that it accepted last. -/
def Numbered (c : Config) (processes rank : Nat) (a : Assembler) : Prop :=
  ∃ new prelude, ofConfig c = .ok new ∧ (∀ call ∈ prelude, call.frame? c = none) ∧
    lastNumbering prelude = (processes, rank) ∧ (new.run prelude).2 = a

theorem run_prelude {new : Assembler} (h : ofConfig c = .ok new) {prelude : List Call}
    (hnone : ∀ call ∈ prelude, call.frame? c = none) :
    (new.run prelude).2 =
      { new with outputs :=
          new.outputs.configure (lastNumbering prelude).1 (lastNumbering prelude).2 } := by
  have hstart := (consistent_ofConfig h).1
  induction prelude using List.reverseRecOn with
  | nil =>
    have hdefault : new.outputs.configure 1 0 = new.outputs := by
      rw [outputs_ofConfig h]
      rfl
    change new = { new with outputs := new.outputs.configure 1 0 }
    rw [hdefault]
  | append_singleton prelude call ih =>
    have hcall : call.frame? c = none := hnone call (by simp)
    have hquiet := ih fun call hcall => hnone call (List.mem_append_left _ hcall)
    have hcourse := step_course (run_spec hstart prelude).2 call
    rw [run_append, run_singleton, lastNumbering_concat]
    generalize (new.run prelude).2.step call = out at hcourse ⊢
    cases hcourse with
    | nothing _ hnumbering =>
      rw [hnumbering]
      exact hquiet
    | renumbering _ hnumbering =>
      rw [hnumbering]
      dsimp only
      rw [hquiet]
      rfl
    | closing hclosing => exact absurd hclosing (Call.not_closing_of_none hcall)
    | standard hf =>
      rw [Call.frame?_feed _ hf] at hcall
      cases hcall

theorem Numbered.spec (h : Numbered c processes rank a) :
    a.outputs = (Outputs.Position.start c.frameCapacity processes rank).outputs ∧
      a.Consistent c ∧ a.reassembly = { store := { buffers := c.sliceBuffers } } ∧
      rank < processes := by
  obtain ⟨new, prelude, hnew, hnone, hlast, rfl⟩ := h
  obtain ⟨hstart, hstore, -⟩ := consistent_ofConfig hnew
  have haccepted := lastNumbering_accepted prelude
  have hconsistent := (run_spec hstart prelude).2
  rw [run_prelude hnew hnone] at hconsistent ⊢
  rw [hlast] at haccepted hconsistent ⊢
  refine ⟨?_, hconsistent, hstore, by omega⟩
  dsimp only
  rw [outputs_ofConfig hnew, Outputs.Position.outputs_ofCapacity hstart.valid.frameCapacity_pos]
  rfl

/-- Numberings set before the first frame leave everything else as it was. -/
theorem Numbered.indistinct {processes' rank' : Nat} (ha : Numbered c processes rank a)
    (hb : Numbered c processes' rank' b) : Indistinct Outputs.SameHeld a b := by
  have houtputs := ha.spec.1
  have houtputs' := hb.spec.1
  have hcapacity := ha.spec.2.1.valid.frameCapacity_pos
  have hheld : Outputs.SameHeld a.outputs b.outputs :=
    ⟨_, _, houtputs, houtputs', rfl, rfl, hcapacity⟩
  obtain ⟨new, prelude, hnew, hnone, -, rfl⟩ := ha
  obtain ⟨new', prelude', hnew', hnone', -, rfl⟩ := hb
  rw [hnew] at hnew'
  cases hnew'
  rw [run_prelude hnew hnone, run_prelude hnew hnone'] at hheld ⊢
  exact ⟨rfl, rfl, rfl, hheld, rfl⟩

/-- Without a change of the numbering all frames are numbered in its sequence, and an idle frame
brings the buffers back to the start. -/
theorem Moves.inSequence {p q : Outputs.Position} {capacity : Nat} {call : Call} {report : Report}
    (h : Moves c p call report q) (hp : p.InSequence capacity processes rank)
    (hnone : call.numbering? = none) :
    q.InSequence capacity processes rank ∧
      (call.Closing c → q = .start capacity processes rank) ∧
      ∀ f ∈ report.frames, ∃ k, f.number = rank + k * processes := by
  obtain ⟨k, hk⟩ := hp.exists_next
  obtain ⟨-, -, rows, hrows, -⟩ := h.rows hp.room
  have hnumbers (f : OutputFrame) (hf : f ∈ report.frames) :
      ∃ k, f.number = rank + k * processes := by
    have hmem : f ∈ report.frames.filter (·.channel = f.channel) :=
      List.mem_filter.2 ⟨hf, decide_eq_true rfl⟩
    rw [hrows] at hmem
    obtain ⟨i, hi⟩ := Channel.exists_number_of_mem_frames hmem
    refine ⟨k + i, ?_⟩
    rw [hi, hk, hp.processes_eq, Nat.add_mul, Nat.add_assoc]
  cases h with
  | renumbers hsome =>
    rw [hnone] at hsome
    cases hsome
  | fills _ hopen =>
    refine ⟨⟨hp.capacity_eq, hp.processes_eq, hp.rank_eq, ?_,
      Outputs.Position.length_pending_push hp.room _⟩, fun hclosing => absurd hclosing hopen,
      hnumbers⟩
    refine ⟨k + (blocks p.capacity (p.pending ++ report.written.flatMap Job.events)).length, ?_⟩
    rw [Nat.add_mul, ← Nat.add_assoc, ← hk, ← hp.processes_eq]
    rfl
  | closes =>
    refine ⟨⟨hp.capacity_eq, hp.processes_eq, hp.rank_eq, ⟨0, ?_⟩, Nat.zero_lt_of_lt hp.room⟩,
      fun _ => ?_, hnumbers⟩
    · rw [Nat.zero_mul, Nat.add_zero, ← hp.rank_eq]
      rfl
    · rw [Outputs.Position.close, Outputs.Position.start, Outputs.Position.mk.injEq]
      exact ⟨hp.capacity_eq, hp.processes_eq, hp.rank_eq, hp.rank_eq, rfl⟩

/-- All acquisitions number their frames in the same sequence, and each starts it anew. -/
theorem Numbered.run_inSequence (h : Numbered c processes rank a) (calls : List Call)
    (hnone : ∀ call ∈ calls, call.numbering? = none) :
    ∃ p : Outputs.Position, (a.run calls).2.outputs = p.outputs ∧
      p.InSequence c.frameCapacity processes rank ∧
      ((∀ last ∈ calls.getLast?, last.Closing c) → p = .start c.frameCapacity processes rank) ∧
      ∀ f ∈ (a.run calls).1.frames, ∃ k, f.number = rank + k * processes := by
  obtain ⟨houtputs, hstart, -⟩ := h.spec
  induction calls using List.reverseRecOn with
  | nil =>
    have hcapacity := hstart.valid.frameCapacity_pos
    refine ⟨_, houtputs, ⟨rfl, rfl, rfl, ⟨0, ?_⟩, hcapacity⟩, fun _ => rfl,
      fun f hf => absurd hf List.not_mem_nil⟩
    rw [Nat.zero_mul]
    rfl
  | append_singleton calls call ih =>
    obtain ⟨p, hp, hsequence, -, hframes⟩ :=
      ih fun call hcall => hnone call (List.mem_append_left _ hcall)
    obtain ⟨q, hq, hmoves⟩ := step_moves (run_spec hstart calls).2 hp hsequence.room call
    obtain ⟨hnext, hclosed, hnew⟩ := hmoves.inSequence hsequence (hnone call (by simp))
    rw [run_append, run_singleton]
    refine ⟨q, hq, hnext, fun hlast => hclosed (hlast call (by simp)), fun f hf => ?_⟩
    rcases List.mem_append.1 hf with hf | hf
    · exact hframes f hf
    · exact hnew f hf

theorem run_fills {p : Outputs.Position} (calls : List Call) (ha : a.Consistent c)
    (hp : a.outputs = p.outputs) (hroom : p.pending.length < p.capacity)
    (hnone : ∀ call ∈ calls, call.numbering? = none)
    (hopen : ∀ call ∈ calls, ¬ call.Closing c) :
    let events := (a.run calls).1.written.flatMap Job.events
    (a.run calls).2.outputs = (p.push events).outputs ∧
      ∀ ch : Channel, (a.run calls).1.frames.filter (·.channel = ch) =
        ch.frames p.next p.processes (blocks p.capacity (p.pending ++ events)) := by
  induction calls using List.reverseRecOn with
  | nil =>
    refine ⟨?_, fun ch => ?_⟩
    · exact hp.trans (congrArg Outputs.Position.outputs (Outputs.Position.push_nil hroom).symm)
    · change [] = ch.frames p.next p.processes (blocks p.capacity (p.pending ++ []))
      rw [List.append_nil, blocks_of_lt hroom]
      rfl
  | append_singleton calls call ih =>
    obtain ⟨houtputs, hframes⟩ := ih (fun call hcall => hnone call (List.mem_append_left _ hcall))
      fun call hcall => hopen call (List.mem_append_left _ hcall)
    have hroom' := Outputs.Position.length_pending_push hroom
      ((a.run calls).1.written.flatMap Job.events)
    obtain ⟨q, hq, hmoves⟩ := step_moves (run_spec ha calls).2 houtputs hroom' call
    rw [run_append, run_singleton]
    dsimp only
    rw [Report.written_append, List.flatMap_append, ← Outputs.Position.push_push hroom]
    cases hmoves with
    | renumbers hsome =>
      rw [hnone call (by simp)] at hsome
      cases hsome
    | closes hclosing => exact absurd hclosing (hopen call (by simp))
    | fills _ _ hnew =>
      refine ⟨hq, fun ch => ?_⟩
      obtain ⟨hparts, -⟩ := blocks_append (Nat.zero_lt_of_lt hroom)
        (p.pending ++ (a.run calls).1.written.flatMap Job.events)
        (((a.run calls).2.step call).1.written.flatMap Job.events)
      rw [List.append_assoc] at hparts
      rw [Report.frames_append, List.filter_append, hframes, hnew, hparts, Channel.frames_append]
      rfl

theorem Numbered.acquisition (h : Numbered c processes rank a) {before acquisition : List Call}
    {idle : Call} (hnone : ∀ call ∈ before ++ acquisition, call.numbering? = none)
    (hbefore : ∀ last ∈ before.getLast?, last.Closing c)
    (hopen : ∀ call ∈ acquisition, ¬ call.Closing c) (hidle : idle.Closing c) (ch : Channel) :
    let report := ((a.run before).2.run (acquisition ++ [idle])).1
    report.frames.filter (·.channel = ch) = ch.frames rank processes
      (chunks c.frameCapacity (report.written.flatMap Job.events)) := by
  obtain ⟨-, hstart, -⟩ := h.spec
  obtain ⟨p, hp, hsequence, hclosed, -⟩ :=
    h.run_inSequence before fun call hcall => hnone call (List.mem_append_left _ hcall)
  obtain rfl := hclosed hbefore
  have hready := (run_spec hstart before).2
  obtain ⟨houtputs, hframes⟩ := run_fills acquisition hready hp hsequence.room
    (fun call hcall => hnone call (List.mem_append_right _ hcall)) hopen
  have hroom := Outputs.Position.length_pending_push hsequence.room
    (((a.run before).2.run acquisition).1.written.flatMap Job.events)
  obtain ⟨q, -, hmoves⟩ := step_moves (run_spec hready acquisition).2 houtputs hroom idle
  dsimp only
  rw [run_append, run_singleton, Report.written_append, List.flatMap_append]
  cases hmoves with
  | renumbers hsome =>
    rw [Call.numbering?_of_closing hidle] at hsome
    cases hsome
  | fills _ hnot => exact absurd hidle hnot
  | closes _ hlast =>
    have hparts := chunks_append hstart.valid.frameCapacity_pos
      (((a.run before).2.run acquisition).1.written.flatMap Job.events)
      ((((a.run before).2.run acquisition).2.step idle).1.written.flatMap Job.events)
    rw [Report.frames_append, List.filter_append, hframes, hlast, hparts, Channel.frames_append]
    rfl

/-- What a call writes depends on what is in store and on the packets it brings. -/
theorem Effect.written_eq {c' : Config} {a' b' : Assembler} {call : Call} {r r' : Report}
    (h : Effect c a call r b) (h' : Effect c' a' call r' b')
    (hframe : call.frame? c = call.frame? c') (hr : a.reassembly = a'.reassembly) :
    r.written = r'.written ∧ b.reassembly = b'.reassembly := by
  have hstandard : call.Standard c ↔ call.Standard c' := by
    rw [Call.Standard, hframe, Call.Standard]
  have hclosing : call.Closing c ↔ call.Closing c' := by
    rw [Call.Closing, hframe, Call.Closing]
  by_cases hs : call.Standard c
  · have hresults : call.results c = call.results c' := by
      cases call with
      | feed arrangement bytes => rw [Call.results, Call.results, Call.jobs, Call.jobs, hframe]
      | configure processes rank => rfl
    obtain ⟨-, -, -, hw, hb⟩ := h.of_standard hs
    obtain ⟨-, -, -, hw', hb'⟩ := h'.of_standard (hstandard.1 hs)
    rw [hw, hw', hb, hb', hr, hresults]
    exact ⟨rfl, rfl⟩
  · by_cases hc : call.Closing c
    · obtain ⟨hw, hb, -⟩ := h.of_closing hc
      obtain ⟨hw', hb', -⟩ := h'.of_closing (hclosing.1 hc)
      rw [hw, hw', hb, hb', hr]
      exact ⟨rfl, rfl⟩
    · obtain ⟨hw, hb⟩ := h.of_quiet hs hc
      obtain ⟨hw', hb'⟩ := h'.of_quiet (fun hs' => hs (hstandard.2 hs'))
        (fun hc' => hc (hclosing.2 hc'))
      rw [hw, hw', hb, hb', hr]
      exact ⟨rfl, rfl⟩

theorem run_written {c' : Config} (hframe : ∀ call : Call, call.frame? c = call.frame? c')
    (ha : a.Consistent c) (hb : b.Consistent c') (h : a.reassembly = b.reassembly)
    (calls : List Call) :
    (a.run calls).1.written = (b.run calls).1.written ∧
      (a.run calls).2.reassembly = (b.run calls).2.reassembly := by
  induction calls generalizing a b with
  | nil => exact ⟨rfl, h⟩
  | cons call rest ih =>
    obtain ⟨heffect, -, hnext⟩ := step_spec ha call
    obtain ⟨heffect', -, hnext'⟩ := step_spec hb call
    obtain ⟨hfirst, hstep⟩ := heffect.written_eq heffect' (hframe call) h
    obtain ⟨hrest, hrun⟩ := ih hnext hnext' hstep
    refine ⟨?_, hrun⟩
    rw [run, run, Report.written_append, Report.written_append, hfirst, hrest]

theorem Numbered.number_ne {c' : Config} {rank' : Nat} (ha : Numbered c processes rank a)
    (hb : Numbered c' processes rank' b) (hne : rank' ≠ rank) {calls calls' : List Call}
    (hnone : ∀ call ∈ calls ++ calls', call.numbering? = none) {f f' : OutputFrame}
    (hf : f ∈ (a.run calls).1.frames) (hf' : f' ∈ (b.run calls').1.frames) :
    f.number ≠ f'.number := by
  obtain ⟨-, -, -, hrank⟩ := ha.spec
  obtain ⟨-, -, -, hrank'⟩ := hb.spec
  obtain ⟨-, -, -, -, hnumbers⟩ := ha.run_inSequence calls
    fun call hcall => hnone call (List.mem_append_left _ hcall)
  obtain ⟨-, -, -, -, hnumbers'⟩ := hb.run_inSequence calls'
    fun call hcall => hnone call (List.mem_append_right _ hcall)
  obtain ⟨k, hk⟩ := hnumbers f hf
  obtain ⟨k', hk'⟩ := hnumbers' f' hf'
  intro hsame
  have hresidue : (rank + k * processes) % processes = (rank' + k' * processes) % processes := by
    rw [← hk, ← hk', hsame]
  rw [Nat.add_mul_mod_self_right, Nat.add_mul_mod_self_right, Nat.mod_eq_of_lt hrank,
    Nat.mod_eq_of_lt hrank'] at hresidue
  exact hne hresidue.symm

/-- Whatever the numbering and the capacity, it is the same events that are numbered and cut. -/
theorem Numbered.rechunked {capacity processes' rank' : Nat} (ha : Numbered c processes rank a)
    (hb : Numbered { c with frameCapacity := capacity } processes' rank' b)
    {before acquisition : List Call} {idle : Call}
    (hnone : ∀ call ∈ before ++ acquisition, call.numbering? = none)
    (hbefore : ∀ last ∈ before.getLast?, last.Closing c)
    (hopen : ∀ call ∈ acquisition, ¬ call.Closing c) (hidle : idle.Closing c) :
    let out (b : Assembler) := ((b.run before).2.run (acquisition ++ [idle])).1
    (out b).written = (out a).written ∧
      ∀ ch : Channel, (out b).frames.filter (·.channel = ch) =
        ch.frames rank' processes' (chunks capacity ((out a).written.flatMap Job.events)) := by
  obtain ⟨-, hstart, hstore, -⟩ := ha.spec
  obtain ⟨-, hstart', hstore', -⟩ := hb.spec
  have hframe (call : Call) : call.frame? { c with frameCapacity := capacity } = call.frame? c :=
    call.frame?_frameCapacity c capacity
  have hclosing (call : Call) :
      call.Closing { c with frameCapacity := capacity } ↔ call.Closing c := by
    rw [Call.Closing, hframe, Call.Closing]
  obtain ⟨-, hready⟩ := run_written hframe hstart' hstart (hstore'.trans hstore.symm) before
  obtain ⟨hwritten, -⟩ := run_written hframe (run_spec hstart' before).2 (run_spec hstart before).2
    hready (acquisition ++ [idle])
  refine ⟨hwritten, fun ch => ?_⟩
  have hframes := hb.acquisition hnone (fun last hlast => (hclosing last).2 (hbefore last hlast))
    (fun call hcall h => hopen call hcall ((hclosing call).1 h)) ((hclosing idle).2 hidle) ch
  dsimp only at hframes
  rw [hwritten] at hframes
  exact hframes

/--
On each channel the frames of an acquisition are the chunks of the columns of what is written,
numbered from the rank on in steps of the number of processes. Another numbering changes the numbers
and nothing else that a caller sees, another capacity cuts the same values into other chunks, and
another rank of as many processes gives no frame the same number.
-/
theorem acquisition_chunked (ha : Numbered c processes rank a)
    {before acquisition : List Call} {idle : Call}
    (hnone : ∀ call ∈ before ++ acquisition, call.numbering? = none)
    (hbefore : ∀ last ∈ before.getLast?, last.Closing c)
    (hopen : ∀ call ∈ acquisition, ¬ call.Closing c) (hidle : idle.Closing c) :
    let out (b : Assembler) := ((b.run before).2.run (acquisition ++ [idle])).1
    let events := (out a).written.flatMap Job.events
    Chunked c.frameCapacity events (chunks c.frameCapacity events) ∧
      (∀ ch : Channel, (out a).frames.filter (·.channel = ch) =
        ch.frames rank processes (chunks c.frameCapacity events)) ∧
      (∀ processes' rank' b, Numbered c processes' rank' b →
        (∀ ch : Channel, (out b).frames.filter (·.channel = ch) =
          ch.frames rank' processes' (chunks c.frameCapacity events)) ∧
        ∀ calls, (a.trace calls).map (View.mapFrames .unnumbered) =
            (b.trace calls).map (View.mapFrames .unnumbered) ∧
          (a.run calls).2.statistics = (b.run calls).2.statistics) ∧
      (∀ capacity b, Numbered { c with frameCapacity := capacity } processes rank b →
        (out b).written = (out a).written ∧ Chunked capacity events (chunks capacity events) ∧
        ∀ ch : Channel, (out b).frames.filter (·.channel = ch) =
          ch.frames rank processes (chunks capacity events)) ∧
      ∀ rank' ≠ rank, ∀ c' b, Numbered c' processes rank' b → ∀ calls calls',
        (∀ call ∈ calls ++ calls', call.numbering? = none) →
          ∀ f ∈ (a.run calls).1.frames, ∀ f' ∈ (b.run calls').1.frames, f.number ≠ f'.number := by
  obtain ⟨-, hstart, -⟩ := ha.spec
  refine ⟨chunked_chunks hstart.valid.frameCapacity_pos _,
    ha.acquisition hnone hbefore hopen hidle, fun processes' rank' b hb => ⟨?_, fun calls => ?_⟩,
    fun capacity b hb => ?_,
    fun rank' hne c' b hb calls calls' hnone f hf f' hf' => ha.number_ne hb hne hnone hf hf'⟩
  · have hsame : Numbered { c with frameCapacity := c.frameCapacity } processes' rank' b := hb
    exact (ha.rechunked hsame hnone hbefore hopen hidle).2
  · obtain ⟨htrace, hrun⟩ := (ha.indistinct hb).trace_eq Outputs.SameHeld.congruent calls
    exact ⟨htrace, hrun.statistics_eq⟩
  · obtain ⟨hwritten, hframes⟩ := ha.rechunked hb hnone hbefore hopen hidle
    exact ⟨hwritten, chunked_chunks hb.spec.2.1.valid.frameCapacity_pos _, hframes⟩

/-- Three events in the second acquisition of two ranks, two to a frame. -/
theorem acquisition_chunked_on_two_ranks :
    ∃ a b, Numbered { Config.small with frameCapacity := 2 } 3 1 a ∧
      Numbered { Config.small with frameCapacity := 2 } 3 2 b ∧
      let before := [.sample [⟨0, 0⟩], .idle]
      let out (a : Assembler) := ((a.run before).2.run
        ([.sample [⟨0, 0⟩, ⟨0, 1⟩], .sample [⟨0, 1⟩]] ++ [Call.idle])).1
      let events := (out a).written.flatMap Job.events
      (chunks 2 events).map List.length = [2, 1] ∧
        (∀ ch : Channel, (out a).frames.filter (·.channel = ch) =
          ch.frames 1 3 (chunks 2 events)) ∧
        (∀ ch : Channel, (out b).frames.filter (·.channel = ch) =
          ch.frames 2 3 (chunks 2 events)) ∧
        ∀ f ∈ (a.run before).1.frames, ∀ f' ∈ (b.run before).1.frames, f.number ≠ f'.number := by
  have hnew : ofConfig { Config.small with frameCapacity := 2 } = .ok _ := rfl
  have ha : Numbered { Config.small with frameCapacity := 2 } 3 1 _ :=
    ⟨_, [.configure 3 1], hnew, by simp [Call.frame?], rfl, rfl⟩
  have hb : Numbered { Config.small with frameCapacity := 2 } 3 2 _ :=
    ⟨_, [.configure 3 2], hnew, by simp [Call.frame?], rfl, rfl⟩
  have hnone : ∀ call ∈ [Call.sample [⟨0, 0⟩], .idle] ++
      [.sample [⟨0, 0⟩, ⟨0, 1⟩], .sample [⟨0, 1⟩]], call.numbering? = none := by
    simp [Call.sample, FrameDraft.call, Call.idle, Call.numbering?]
  have hidle : Call.idle.Closing { Config.small with frameCapacity := 2 } := by decide +kernel
  obtain ⟨-, hframes, hother, -, hranks⟩ := acquisition_chunked ha hnone
    (by decide +kernel) (by decide +kernel) hidle
  refine ⟨_, _, ha, hb, by decide +kernel, hframes, (hother 3 2 _ hb).1, ?_⟩
  exact hranks 2 (by decide) _ _ hb _ _ (by
    simp [Call.sample, FrameDraft.call, Call.idle, Call.numbering?])

end Assembler
end EventReadout
