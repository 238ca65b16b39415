import EventReadout.Proofs.Assembly.InOrder
import EventReadout.Proofs.Assembly.Ledger
import EventReadout.Proofs.Dump.Replay
import EventReadout.Proofs.Dump.Simulation

/-!
Simulated dumps are recovered by a replay.

Frame after frame their packets belong to consecutive slices, so that the replay writes all events
in the order in which they were simulated, and counts nothing else.
-/
namespace EventReadout

namespace TimeSlice

variable {buffers width count : Nat}

/-- The first slices, each as often as a frame has packets. -/
def repeated (buffers width count : Nat) : List TimeSlice :=
  (List.range count).flatMap fun index => List.replicate width (nth buffers index)

theorem repeated_succ (buffers width count : Nat) :
    repeated buffers width (count + 1) =
      repeated buffers width count ++ List.replicate width (nth buffers count) := by
  rw [repeated, List.range_succ, List.flatMap_append, List.flatMap_singleton]
  rfl

theorem nth_of_getLast?_repeated (h : 0 < buffers) (hwidth : 0 < width) {s : TimeSlice}
    (hs : s ∈ (repeated buffers width count).getLast?) : nth buffers count = s.succ buffers := by
  cases count with
  | zero => cases hs
  | succ count =>
    rw [repeated_succ, List.getLast?_append, List.getLast?_replicate,
      if_neg (Nat.ne_of_gt hwidth)] at hs
    cases hs
    exact nth_succ h count

theorem isChain_repeated (h : 0 < buffers) (width count : Nat) :
    (repeated buffers width count).IsChain fun s t => t = s ∨ t = s.succ buffers := by
  induction count with
  | zero => exact .nil
  | succ count ih =>
    rw [repeated_succ, List.isChain_append]
    refine ⟨ih, List.isChain_replicate_of_rel _ (Or.inl rfl), fun s hs t ht => ?_⟩
    have hmem := List.mem_of_head? ht
    rw [List.mem_replicate] at hmem
    rw [hmem.2]
    exact Or.inr (nth_of_getLast?_repeated h (Nat.pos_of_ne_zero hmem.1) hs)

end TimeSlice

namespace Assembler

variable {c : Config} {a : Assembler} {calls : List Call} {idle : Call}

/-- Calls in order write everything that arrived once they are closed, and turn nothing away. -/
theorem run_inOrder_closed (ha : a.Ready c) (h : InOrder c calls) (hidle : idle.Closing c) :
    let report := (a.run (calls ++ [idle])).1
    report.written = calls.flatMap (Call.jobs c) ∧ report.stale = [] ∧ report.outOfRange = [] ∧
      Columns.ofFrames report.frames = .ofEvents (report.written.flatMap Job.events) := by
  have hc := ha.reachable.consistent
  obtain ⟨hstep, hstale, hout⟩ := run_inStep ha h
  have hb := (run_spec hc calls).2
  obtain ⟨hwritten, -, -⟩ := (step_spec hb idle).1.of_closing hidle
  obtain ⟨-, hlate, hmisfit⟩ :=
    (step_spec hb idle).1.of_not_standard (Call.not_standard_of_closing hidle)
  have hcolumns := (run_spec hc (calls ++ [idle])).1.columns
  have hlast : (calls ++ [idle]).getLast? = some idle := List.getLast?_concat
  have hpending := (run_closed hc hlast hidle).2
  rw [ha.reassembly_eq.2, hpending, Columns.nil_append, Columns.append_nil] at hcolumns
  refine ⟨?_, ?_, ?_, hcolumns⟩
  · rw [run_append, run_singleton, Report.written_append, hwritten]
    exact hstep.written_append_finish
  · rw [run_append, run_singleton, Report.stale_append, hstale, hlate]
    rfl
  · rw [run_append, run_singleton, Report.outOfRange_append, hout, hmisfit]
    rfl

end Assembler

namespace Simulation

variable {s : Simulation} {c : Config} {frame : Nat} {bytes : Bytes}

/-- One row for each event: its frame, its slot and its index. -/
def rows (s : Simulation) (c : Config) : List (Nat × Nat × Nat) :=
  (List.range s.frames).flatMap fun frame =>
    (List.range (c.packetSlots - min c.packetSlots s.droppedSlots)).flatMap fun slot =>
      (List.range s.eventsPerPacket).map fun k => (frame, slot, k)

/-- The standard frames, with results in slot order. -/
def calls (s : Simulation) (c : Config) : List Call :=
  (List.range s.frames).map fun frame => .feed .slotOrder ((s.draft c frame).image c)

/-- The decoded packets of all frames. -/
def jobs (s : Simulation) (c : Config) : List Job :=
  (List.range s.frames).flatMap fun frame => (List.range (s.packets c)).map (s.job c frame)

theorem length_rows (s : Simulation) (c : Config) : (s.rows c).length = s.events c := by
  simp [rows, events, sub_min_eq_packets, List.length_flatMap, Nat.mul_assoc]

/-- A simulation whose frames can be encoded, each with a coarse timestamp that has room. -/
structure Encodable (s : Simulation) (c : Config) : Prop where
  valid : c.Valid
  inRange : InRange s.frames
  standard : ∀ frame < s.frames, (s.draft c frame).encode c = .ok ((s.draft c frame).image c)
  closing : s.closing.encode c = .ok (s.closing.image c)

namespace Encodable

variable (h : s.Encodable c)
include h

theorem inRange_of_mem (hframe : frame ∈ List.range s.frames) : InRange frame :=
  h.inRange.mono (Nat.le_of_lt (List.mem_range.1 hframe))

theorem call_spec (hframe : frame ∈ List.range s.frames) :
    (Call.feed .slotOrder ((s.draft c frame).image c)).Standard c ∧
      (Call.feed .slotOrder ((s.draft c frame).image c)).jobs c =
        (List.range (s.packets c)).map (s.job c frame) := by
  obtain ⟨-, f, hparse, hidle, hjobs⟩ :=
    jobs_of_encode h.valid (h.standard frame (List.mem_range.1 hframe))
  have hcall := Call.frame?_feed .slotOrder hparse
  rw [Call.jobs_of_frame hcall hidle]
  exact ⟨⟨f, hcall, hidle⟩, hjobs⟩

theorem flatMap_calls : (s.calls c).flatMap (Call.jobs c) = s.jobs c := by
  rw [calls, List.flatMap_map, jobs, List.flatMap_congr]
  intro frame hframe
  exact (h.call_spec hframe).2

theorem slices_jobs :
    (s.jobs c).map Job.slice = TimeSlice.repeated c.sliceBuffers (s.packets c) s.frames := by
  rw [jobs, TimeSlice.repeated, List.map_flatMap, List.flatMap_congr]
  intro frame hframe
  have hslice : ∀ slot ∈ List.range (s.packets c),
      (s.job c frame slot).slice = .nth c.sliceBuffers frame := fun slot _ =>
    slice_job h.valid (h.inRange_of_mem hframe) slot
  rw [List.map_map]
  exact (List.map_congr_left hslice).trans (by simp)

theorem inOrder_calls : InOrder c (s.calls c) := by
  have hpos := h.valid.sliceBuffers_pos
  constructor
  · intro call hcall
    obtain ⟨frame, -, rfl⟩ := List.mem_map.1 hcall
    exact ⟨_, rfl⟩
  · intro call hcall
    obtain ⟨frame, hframe, rfl⟩ := List.mem_map.1 hcall
    exact (h.call_spec hframe).1
  · intro call hcall j hj k hk
    obtain ⟨frame, hframe, rfl⟩ := List.mem_map.1 hcall
    have hrange := h.inRange_of_mem hframe
    rw [(h.call_spec hframe).2] at hj hk
    obtain ⟨slot, -, rfl⟩ := List.mem_map.1 hj
    obtain ⟨other, -, rfl⟩ := List.mem_map.1 hk
    rw [slice_job h.valid hrange, slice_job h.valid hrange]
  · intro j hj
    rw [h.flatMap_calls] at hj
    obtain ⟨frame, hframe, hmem⟩ := List.mem_flatMap.1 (List.mem_of_head? hj)
    obtain ⟨slot, -, rfl⟩ := List.mem_map.1 hmem
    rw [slice_job h.valid (h.inRange_of_mem hframe)]
    exact Nat.mod_lt _ hpos
  · rw [h.flatMap_calls, h.slices_jobs]
    exact TimeSlice.isChain_repeated hpos _ _

theorem events_jobs :
    (s.jobs c).flatMap Job.events =
      (s.rows c).map fun row => s.event row.1 row.2.1 row.2.2 := by
  rw [jobs, rows, sub_min_eq_packets, List.flatMap_assoc, List.map_flatMap, List.flatMap_congr]
  intro frame hframe
  rw [List.flatMap_map, List.map_flatMap, List.flatMap_congr]
  intro slot _
  rw [Job.events, decoded_job (h.inRange_of_mem hframe), List.map_map]
  rfl

/-- Nothing but events is counted in the packets. -/
theorem ofJobs_jobs :
    let counts := Statistics.ofJobs (s.jobs c)
    counts.controlWords = 0 ∧ counts.timestampMismatches = 0 ∧ counts.malformedJobs = 0 := by
  have hnone : ∀ j ∈ s.jobs c, j.decoded.controls.size = 0 ∧ j.decoded.mismatches.size = 0 ∧
      j.decoded.malformedStart.toNat = 0 := by
    intro j hj
    obtain ⟨frame, hframe, hmem⟩ := List.mem_flatMap.1 hj
    obtain ⟨slot, -, rfl⟩ := List.mem_map.1 hmem
    rw [decoded_job (h.inRange_of_mem hframe)]
    exact ⟨rfl, rfl, rfl⟩
  have hsum (count : Job → Nat) (hzero : ∀ j ∈ s.jobs c, count j = 0) :
      ((s.jobs c).map count).sum = 0 := List.sum_eq_zero (List.forall_mem_map.2 hzero)
  refine ⟨hsum _ ?_, hsum _ ?_, hsum _ ?_⟩
  · exact fun j hj => (hnone j hj).1
  · exact fun j hj => (hnone j hj).2.1
  · exact fun j hj => (hnone j hj).2.2

theorem columns_rows :
    let columns := Columns.ofEvents ((s.rows c).map fun row => s.event row.1 row.2.1 row.2.2)
    columns.timestamps.map UInt64.toNat =
        (s.rows c).map (fun (frame, slot, k) => s.time frame slot k) ∧
      columns.ids.map UInt32.toNat =
        (s.rows c).map (fun (_, slot, k) => (slot * 1000 + k) % 2 ^ 24) ∧
      columns.energies.map UInt32.toNat = (s.rows c).map (fun (_, _, k) => k % 16383) := by
  have hevent : ∀ row ∈ s.rows c, InRange row.1 := by
    intro row hrow
    obtain ⟨frame, hframe, hrow⟩ := List.mem_flatMap.1 hrow
    obtain ⟨slot, -, hrow⟩ := List.mem_flatMap.1 hrow
    obtain ⟨k, -, rfl⟩ := List.mem_map.1 hrow
    exact h.inRange_of_mem hframe
  simp only [Columns.ofEvents, List.map_map, Function.comp_def]
  refine ⟨List.map_congr_left fun row hrow => ?_, List.map_congr_left fun row hrow => ?_,
    List.map_congr_left fun row hrow => ?_⟩
  · exact (toNat_event (hevent row hrow) row.2.1 row.2.2).1
  · exact (toNat_event (hevent row hrow) row.2.1 row.2.2).2.1
  · exact (toNat_event (hevent row hrow) row.2.1 row.2.2).2.2

/-- A run over the frames of a simulation emits the events of its rows, and counts nothing else. -/
theorem run_calls {a : Assembler} (ha : a.Ready c) {processes rank : Nat}
    (hnumbered : Assembler.Numbered c processes rank a) (hcounts : a.counts = {}) {idle : Call}
    (hidle : idle.Closing c) :
    let out := a.run (s.calls c ++ [idle])
    let counts := out.2.statistics
    Columns.ofFrames out.1.frames =
        .ofEvents ((s.rows c).map fun row => s.event row.1 row.2.1 row.2.2) ∧
      (∀ ch : Channel, ((out.1.frames.filter (·.channel = ch)).map OutputFrame.size).sum =
        s.events c) ∧
      counts.stalePackets = 0 ∧ counts.invalidPackets = 0 ∧ counts.timestampMismatches = 0 ∧
      counts.malformedJobs = 0 ∧ counts.controlWords = 0 := by
  have horder := h.inOrder_calls
  obtain ⟨hwritten, hstale, hout, hcolumns⟩ := Assembler.run_inOrder_closed ha horder hidle
  have hquiet : ∀ call ∈ s.calls c, call.numbering? = none := by
    intro call hcall
    obtain ⟨bytes, rfl⟩ := horder.slotOrder call hcall
    rfl
  have hopen : ∀ call ∈ s.calls c, ¬ call.Closing c := fun call hcall hclosing =>
    Call.not_standard_of_closing hclosing (horder.standard call hcall)
  have hsizes := hnumbered.sum_sizes hquiet hopen hidle
  have hcounted := Assembler.run_counts ha.reachable.consistent (s.calls c ++ [idle])
  have hjobs : (s.calls c ++ [idle]).flatMap (Call.jobs c) = s.jobs c := by
    rw [List.flatMap_append, h.flatMap_calls, List.flatMap_singleton,
      Call.jobs_of_not_standard (Call.not_standard_of_closing hidle), List.append_nil]
  obtain ⟨hcontrols, hmismatches, hmalformed⟩ := h.ofJobs_jobs
  rw [hcounts, Statistics.zero_add] at hcounted
  rw [h.flatMap_calls] at hwritten
  rw [hwritten, h.events_jobs] at hcolumns
  refine ⟨hcolumns, fun ch => ?_, ?_⟩
  · have hsize := hsizes ch
    dsimp only at hsize
    rw [hwritten, h.events_jobs, List.length_map, length_rows] at hsize
    exact hsize
  · simp only [Assembler.statistics, hcounted, Assembler.tally, hjobs, hstale, hout, hcontrols,
      hmismatches, hmalformed, List.length_nil, and_self]

theorem images_spec :
    ∀ bytes ∈ s.images c, bytes.length = c.frameBytes ∧ ∃ f, Frame.parse c bytes = .ok f := by
  intro bytes hbytes
  rcases List.mem_append.1 hbytes with hstandard | hclosing
  · obtain ⟨frame, hframe, rfl⟩ := List.mem_map.1 hstandard
    obtain ⟨hlength, f, hparse, -⟩ :=
      jobs_of_encode h.valid (h.standard frame (List.mem_range.1 hframe))
    exact ⟨hlength, f, hparse⟩
  · obtain ⟨hlength, f, hparse, -⟩ := FrameDraft.parse_encode_idle rfl h.closing
    rw [List.mem_singleton.1 hclosing]
    exact ⟨hlength, f, hparse⟩

/-- The frames back to back are a dump, closed by its last frame. -/
theorem dump_spec :
    (s.images c).flatten.length = (s.frames + 1) * c.frameBytes ∧
      Dump.ofBytes c (s.images c).flatten = .ok ⟨s.images c, c.frameBytes⟩ ∧
      (⟨s.images c, c.frameBytes⟩ : Dump).endsIdle = true ∧
      ∃ idle : Call, idle.Closing c ∧
        (s.images c).map (.feed .slotOrder) = s.calls c ++ [idle] := by
  have hlengths : ∀ bytes ∈ s.images c, bytes.length = c.frameBytes := fun bytes hbytes =>
    (h.images_spec bytes hbytes).1
  have hcount : (s.images c).length = s.frames + 1 := by simp [images]
  obtain ⟨-, f, hparse, -, hflag⟩ := FrameDraft.parse_encode_idle rfl h.closing
  refine ⟨?_, Dump.ofBytes_flatten hlengths (by simp [images]), ?_,
    .feed .slotOrder (s.closing.image c), ⟨f, Call.frame?_feed _ hparse, hflag⟩, ?_⟩
  · rw [Dump.length_flatten hlengths, hcount]
  · rw [Frame.idle_of_parse hparse] at hflag
    rw [Dump.endsIdle, images, List.getLast?_concat]
    exact hflag
  · rw [images, calls, List.map_append, List.map_map]
    rfl

theorem events_le_length_images (hroom : s.eventsPerPacket ≤ c.payloadWords - 1) :
    s.events c ≤ (s.images c).flatten.length := by
  have hpayload : c.payloadWords ≤ c.packetBytes :=
    Nat.le_trans (Nat.sub_le _ _) (Nat.div_le_self _ _)
  have hpacket : s.packets c * s.eventsPerPacket ≤ c.packetSlots * c.packetBytes :=
    Nat.mul_le_mul (Nat.sub_le _ _) (by omega)
  have hframe : s.packets c * s.eventsPerPacket ≤ c.frameBytes :=
    Nat.le_trans hpacket (Nat.le_add_left _ _)
  rw [h.dump_spec.1, events, Nat.mul_assoc]
  exact Nat.mul_le_mul (Nat.le_succ _) hframe

end Encodable

/--
The dump of a simulation, if a file can be as long, has its frames and one more, and ends idle. Its
replay, on a machine that supports it, emits the simulated events, frame by frame, slot by slot and
one by one, as many on each channel as were counted when the dump was written. It counts no packet
as stale, invalid or malformed, no mismatch and no control word.
-/
theorem replay_recovers {h : Host} (hh : h.Supports c) (hc : c.Valid) {total : UInt64}
    (hencode : s.encode c = .ok (bytes, total)) (hfile : bytes.length < 2 ^ 63)
    (hroom : 2 ^ 32 + s.frames * 2 ^ 21 < 2 ^ 52) {processes rank : Nat}
    (hrank : rank < processes) :
    bytes.length = (s.frames + 1) * c.frameSize.toNat ∧
      ∃ d r summary, Dump.ofBytes c bytes = .ok d ∧ d.endsIdle = true ∧
        Replay.startOn h c processes rank = .ok (.ok r) ∧
        Replay.runOn h c processes rank d = .ok (.ok summary) ∧
        let emitted := (r.assembler.run (d.frames.map (.feed .slotOrder))).1.frames
        let columns := Columns.ofFrames emitted
        let counts := summary.statistics
        columns.timestamps.map UInt64.toNat = (s.rows c).map (fun (frame, slot, k) =>
            2 ^ 32 + frame * 2 ^ 21 + (slot * s.eventsPerPacket + k) * 8 % 2 ^ 21) ∧
          columns.ids.map UInt32.toNat =
            (s.rows c).map (fun (_, slot, k) => (slot * 1000 + k) % 2 ^ 24) ∧
          columns.energies.map UInt32.toNat = (s.rows c).map (fun (_, _, k) => k % 16383) ∧
          summary.tallies = emitted.foldl ChannelTally.add ChannelTally.blank ∧
          summary.tallies.map (fun t => (t.channel, t.values)) =
            Channel.all.map (fun ch => (ch, total.toNat)) ∧
          counts.stalePackets = 0 ∧ counts.invalidPackets = 0 ∧ counts.timestampMismatches = 0 ∧
          counts.malformedJobs = 0 ∧ counts.controlWords = 0 := by
  obtain ⟨hstandard, hlast, rfl, rfl, hcapacity⟩ := encode_spec hencode
  have hs : s.Encodable c := ⟨hc, hroom, hstandard, hlast⟩
  obtain ⟨hlength, hdump, hidle, idle, hclosing, hcalls⟩ := hs.dump_spec
  obtain ⟨r, hstart, hready, hnumbered, hcounts, hblank⟩ := Replay.start_spec hc hrank
  obtain ⟨notices, hrun⟩ := Replay.run_eq_ok hstart hready.reachable.consistent hidle
    fun bytes hbytes => (hs.images_spec bytes hbytes).2
  obtain ⟨hcolumns, hsizes, hzero⟩ := hs.run_calls hready hnumbered hcounts hclosing
  obtain ⟨htimes, hids, henergies⟩ := hs.columns_rows
  have hstartOn : Replay.startOn h c processes rank = .ok (.ok r) := by
    rw [Replay.startOn_eq hc hh, hstart]
  have htotal : (UInt64.ofNat (s.events c)).toNat = s.events c :=
    UInt64.toNat_ofNat_of_lt' (Nat.lt_trans
      (Nat.lt_of_le_of_lt (hs.events_le_length_images hcapacity) hfile) (by decide))
  rw [hblank] at hrun
  rw [← hcalls] at hcolumns hsizes hzero
  have hrunOn := (Replay.runOn_eq hc hh).trans (congrArg Except.ok hrun)
  rw [Config.toNat_frameSize hh.holdsFrame.frameBytes_lt]
  refine ⟨hlength, _, r, _, hdump, hidle, hstartOn, hrunOn, ?_, ?_, ?_, rfl, ?_, hzero⟩
  · rw [hcolumns]
    exact htimes
  · rw [hcolumns]
    exact hids
  · rw [hcolumns]
    exact henergies
  · rw [ChannelTally.foldl_add, ChannelTally.blank, List.map_map, List.map_map]
    apply List.map_congr_left
    intro ch _
    simp [hsizes, htotal]

/-- Two events in each of two slots, while the third slot is dropped. -/
theorem replay_recovers_dropped_slot :
    let c : Config := { Config.small with packetSlots := 3, packetBytes := 48 }
    let s : Simulation := { frames := 2, eventsPerPacket := 2, droppedSlots := 1 }
    let h : Host := ⟨8 * 524288, 6, 1, by decide⟩
    h.Supports c ∧ ∃ bytes d r summary, s.encode c = .ok (bytes, 8) ∧ bytes.length = 3 * 168 ∧
      Dump.ofBytes c bytes = .ok d ∧ Replay.startOn h c 2 1 = .ok (.ok r) ∧
      Replay.runOn h c 2 1 d = .ok (.ok summary) ∧
      let columns := Columns.ofFrames (r.assembler.run (d.frames.map (.feed .slotOrder))).1.frames
      columns.timestamps.map UInt64.toNat = [0x100000000, 0x100000008, 0x100000010, 0x100000018,
          0x100200000, 0x100200008, 0x100200010, 0x100200018] ∧
        columns.ids.map UInt32.toNat = [0, 1, 1000, 1001, 0, 1, 1000, 1001] ∧
        columns.energies.map UInt32.toNat = [0, 1, 0, 1, 0, 1, 0, 1] ∧
        summary.tallies.map (fun t => (t.channel, t.values)) =
          [(.timeOffset, 8), (.id, 8), (.energy, 8)] ∧
        summary.statistics.stalePackets = 0 := by
  intro c s h
  have hh : h.Supports c := by decide
  have hc : c.Valid := by decide
  have hroom : 2 ^ 32 + s.frames * 2 ^ 21 < 2 ^ 52 := by
    change 2 ^ 32 + 2 * 2 ^ 21 < 2 ^ 52
    omega
  have hrank : 1 < 2 := by decide
  have hrows : (s.rows c).map (fun (frame, slot, k) =>
      2 ^ 32 + frame * 2 ^ 21 + (slot * s.eventsPerPacket + k) * 8 % 2 ^ 21) =
        [0x100000000, 0x100000008, 0x100000010, 0x100000018,
          0x100200000, 0x100200008, 0x100200010, 0x100200018] := by decide
  have hbytes : (s.frames + 1) * c.frameSize.toNat = 3 * 168 := by decide
  have hwritten : (s.encode c).map (fun dump => (dump.1.length, dump.2)) = .ok (504, 8) := by
    decide +kernel
  cases hencode : s.encode c with
  | error cause =>
    rw [hencode] at hwritten
    cases hwritten
  | ok dump =>
    obtain ⟨bytes, total⟩ := dump
    rw [hencode] at hwritten
    obtain ⟨hsize, rfl⟩ : bytes.length = 504 ∧ total = 8 := by
      simpa [Except.map] using hwritten
    obtain ⟨hlength, d, r, summary, hdump, -, hstart, hrun, htimes, hids, henergies, -, hvalues,
      hstale, -⟩ := replay_recovers hh hc hencode (by omega) hroom hrank
    rw [hbytes] at hlength
    rw [hrows] at htimes
    exact ⟨hh, bytes, d, r, summary, rfl, hlength, hdump, hstart, hrun, htimes, hids, henergies,
      hvalues, hstale⟩

end Simulation
end EventReadout
