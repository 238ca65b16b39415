import EventReadout.CommandLine.Run
import EventReadout.Proofs.Assembly.Renewal
import EventReadout.Proofs.Dump.Replay

/-!
Replays of dumps that are put together.

If the first of two dumps ends idle, the replay of both counts what their replays count. If it does
not, it is replayed as if an idle frame followed.
-/
namespace EventReadout

namespace ChannelTally

/-- What one channel carries in two replays. -/
def merge (t u : ChannelTally) : ChannelTally :=
  ⟨t.channel, t.frames + u.frames, t.values + u.values⟩

theorem map_channel_foldl_add (frames : List OutputFrame) :
    (frames.foldl add blank).map channel = Channel.all := by
  rw [foldl_add, List.map_map, blank, List.map_map]
  exact List.map_id _

theorem foldl_add_append (frames later : List OutputFrame) :
    (frames ++ later).foldl add blank =
      List.zipWith merge (frames.foldl add blank) (later.foldl add blank) := by
  simp [foldl_add, blank, Channel.all, merge]

end ChannelTally

namespace ReplaySummary

/-- A summary of everything that two summaries count. -/
structure IsSum (s t u : ReplaySummary) : Prop where
  frames : u.frames = s.frames + t.frames
  channels : s.tallies.map ChannelTally.channel = Channel.all ∧
    t.tallies.map ChannelTally.channel = Channel.all
  tallies : u.tallies = List.zipWith ChannelTally.merge s.tallies t.tallies
  counts : u.statistics = s.statistics.join t.statistics

end ReplaySummary

namespace Replay

variable {c : Config} {processes rank : Nat} {r : Replay} {d e : Dump}

theorem calls_append (h : d.endsIdle = true) (hne : e.frames ≠ []) :
    calls c { d with frames := d.frames ++ e.frames } = calls c d ++ calls c e := by
  have hends : Dump.endsIdle { d with frames := d.frames ++ e.frames } = e.endsIdle := by
    unfold Dump.endsIdle
    rw [List.getLast?_append_of_ne_nil _ hne]
  have hclosing : closing c { d with frames := d.frames ++ e.frames } = closing c e := by
    unfold closing
    rw [hends]
  rw [calls_of_endsIdle h, calls, calls, hclosing, List.append_assoc, List.map_append]

/-- What is left when the first dump has been replayed is its summary. -/
theorem run_append (hc : c.Valid) (hrank : rank < processes)
    (hd : ∀ bytes ∈ d.frames, ∃ f, Frame.parse c bytes = .ok f)
    (he : ∀ bytes ∈ e.frames, ∃ f, Frame.parse c bytes = .ok f)
    (hidle : d.endsIdle = true) (hne : e.frames ≠ []) :
    ∃ s t u, run c processes rank d = .ok s ∧ run c processes rank e = .ok t ∧
      run c processes rank { d with frames := d.frames ++ e.frames } = .ok u ∧ s.IsSum t u := by
  obtain ⟨r, hstart, hready, hnumbered, -, htallies⟩ := start_spec hc hrank
  have hr := hready.reachable.consistent
  have hboth : ∀ bytes ∈ d.frames ++ e.frames, ∃ f, Frame.parse c bytes = .ok f := by
    rw [List.forall_mem_append]
    exact ⟨hd, he⟩
  obtain ⟨notices, hrun⟩ := run_calls hstart hr hd
  obtain ⟨notices', hrun'⟩ := run_calls hstart hr he
  obtain ⟨notices'', hrun''⟩ :=
    run_calls (d := { d with frames := d.frames ++ e.frames }) hstart hr hboth
  obtain ⟨last, hlast, hclosing⟩ := calls_closed hd
  have hresumes := hnumbered.resumes numbering?_calls hlast hclosing
  obtain ⟨hreport, hrest⟩ := hresumes.run (calls c e)
  rw [calls_append hidle hne, Assembler.run_append] at hrun''
  rw [htallies] at hrun hrun' hrun''
  refine ⟨_, _, _, hrun, hrun', hrun'', ?_⟩
  constructor
  · exact List.length_append
  · exact ⟨ChannelTally.map_channel_foldl_add _, ChannelTally.map_channel_foldl_add _⟩
  · dsimp only
    rw [Report.frames_append, hreport.frames, ChannelTally.foldl_add_append]
  · exact hrest.statistics

/-- A dump that does not end idle is replayed like the one with an idle frame after it. -/
theorem run_append_idle (hc : c.Valid) (hrank : rank < processes)
    (hd : ∀ bytes ∈ d.frames, ∃ f, Frame.parse c bytes = .ok f) (hopen : d.endsIdle = false)
    {idle : Bytes} {f : Frame} (hf : Frame.parse c idle = .ok f) (hidle : f.idle = true) :
    ∃ s t, run c processes rank d = .ok s ∧
      run c processes rank { d with frames := d.frames ++ [idle] } = .ok t ∧
      t = { s with frames := s.frames + 1, notices := t.notices } := by
  obtain ⟨r, hstart, hready, -⟩ := start_spec hc hrank
  have hr := hready.reachable.consistent
  have hall : ∀ bytes ∈ d.frames ++ [idle], ∃ f, Frame.parse c bytes = .ok f :=
    List.forall_mem_append.2 ⟨hd, by simp [hf]⟩
  have hends : Dump.endsIdle { d with frames := d.frames ++ [idle] } = true := by
    rw [Dump.endsIdle, List.getLast?_concat, Option.any_some, ← Frame.idle_of_parse hf, hidle]
  obtain ⟨notices, hrun⟩ := run_calls hstart hr hd
  obtain ⟨notices', hrun'⟩ :=
    run_calls (d := { d with frames := d.frames ++ [idle] }) hstart hr hall
  obtain ⟨closing, hcalls, hclosing⟩ := calls_of_not_endsIdle c hopen
  have hgiven : (Call.feed .slotOrder idle).Closing c := ⟨f, Call.frame?_feed _ hf, hidle⟩
  have hbefore := (Assembler.run_spec hr (d.frames.map (.feed .slotOrder))).2
  have hsame : r.assembler.run (calls c { d with frames := d.frames ++ [idle] }) =
      r.assembler.run (calls c d) := by
    rw [calls_of_endsIdle hends, hcalls, List.map_append, List.map_singleton,
      Assembler.run_append, Assembler.run_append, Assembler.run_singleton,
      Assembler.run_singleton, Assembler.step_closing_eq hbefore hgiven,
      Assembler.step_closing_eq hbefore hclosing]
  rw [hsame] at hrun'
  exact ⟨_, _, hrun, hrun', by rw [List.length_append, List.length_singleton]⟩

theorem exists_run (hc : c.Valid) (hrank : rank < processes)
    (hd : ∀ bytes ∈ d.frames, ∃ f, Frame.parse c bytes = .ok f) :
    ∃ s, run c processes rank d = .ok s := by
  obtain ⟨r, hstart, hready, -⟩ := start_spec hc hrank
  obtain ⟨notices, hrun⟩ := run_calls hstart hready.reachable.consistent hd
  exact ⟨_, hrun⟩

end Replay

namespace CommandLine

variable {c : Config} {threads : Option Nat} {processes rank : Nat}

theorem processOn_content {h : Host} (hc : (c.withThreads threads).Valid)
    (hh : h.Supports (c.withThreads threads)) {bytes : Bytes} {d : Dump} {s : ReplaySummary}
    (hd : Dump.ofBytes (c.withThreads threads) bytes = .ok d)
    (hs : Replay.run (c.withThreads threads) processes rank d = .ok s) (input : String)
    (json : Bool) :
    processOn h c input (.content bytes) threads processes rank json =
      .ok (.ok (.replayed input s json)) := by
  have hopen : openDump (c.withThreads threads) (.content bytes) = .ok d := hd
  rw [processOn, hopen]
  dsimp only
  rw [Replay.runOn_eq hc hh, hs]
  rfl

/--
On a machine that supports a replay, files of whole frames can be replayed, and so can one followed
by another. If the first ends idle, both together count as many frames, as many output frames and
values on every channel, and as much in every counter as they do apart, and the pool allocates what
the more demanding of them needs. If it does not, any idle frame after it adds one to the frames and
changes nothing else in the summary.
-/
theorem process_composes {h : Host} (hh : h.Supports (c.withThreads threads))
    (hc : (c.withThreads threads).Valid) (hrank : rank < processes)
    {first second : Bytes} (hfirst : Dump.Whole c first) (hsecond : Dump.Whole c second)
    (input : String) (json : Bool) :
    let process (bytes : Bytes) :=
      processOn h c input (.content bytes) threads processes rank json
    ∃ s t u, process first = .ok (.ok (.replayed input s json)) ∧
      process second = .ok (.ok (.replayed input t json)) ∧
      process (first ++ second) = .ok (.ok (.replayed input u json)) ∧
      (Dump.lastIdle c first = true → s.IsSum t u) ∧
      (Dump.lastIdle c first = false → ∀ idle : Bytes, idle.length = c.frameSize.toNat →
        Frame.idleFlag idle = true → ∃ v,
          process (first ++ idle) = .ok (.ok (.replayed input v json)) ∧
            v = { s with frames := s.frames + 1, notices := v.notices }) := by
  have hfit : c.frameBytes < UInt64.size := hh.holdsFrame.frameBytes_lt
  dsimp only
  rw [Config.toNat_frameSize hfit]
  obtain ⟨parts, hne, hlengths, rfl⟩ := hfirst.exists_frames hfit
  obtain ⟨parts', hne', hlengths', rfl⟩ := hsecond.exists_frames hfit
  have hboth : ∀ part ∈ parts ++ parts', part.length = c.frameBytes :=
    List.forall_mem_append.2 ⟨hlengths, hlengths'⟩
  have hread {frames : List Bytes} (h : ∀ part ∈ frames, part.length = c.frameBytes) :
      ∀ part ∈ frames, ∃ f, Frame.parse (c.withThreads threads) part = .ok f :=
    fun part hpart => Frame.parse_of_length (h part hpart)
  have hopens {frames : List Bytes} (h : ∀ part ∈ frames, part.length = c.frameBytes)
      (hsome : frames ≠ []) : Dump.ofBytes (c.withThreads threads) frames.flatten =
        .ok ⟨frames, c.frameBytes⟩ := Dump.ofBytes_flatten h hsome
  have hreplays {frames : List Bytes} {s : ReplaySummary}
      (h : ∀ part ∈ frames, part.length = c.frameBytes) (hsome : frames ≠ [])
      (hs : Replay.run (c.withThreads threads) processes rank ⟨frames, c.frameBytes⟩ = .ok s) :=
    processOn_content hc hh (hopens h hsome) hs input json
  rw [← Dump.endsIdle_eq_lastIdle hfit hlengths hne, ← List.flatten_append]
  cases hidle : (⟨parts, c.frameBytes⟩ : Dump).endsIdle with
  | true =>
    obtain ⟨s, t, u, hs, ht, hu, hsum⟩ := Replay.run_append (d := ⟨parts, c.frameBytes⟩)
      (e := ⟨parts', c.frameBytes⟩) hc hrank (hread hlengths) (hread hlengths') hidle hne'
    exact ⟨s, t, u, hreplays hlengths hne hs, hreplays hlengths' hne' ht,
      hreplays hboth (by simp [hne]) hu, fun _ => hsum, nofun⟩
  | false =>
    obtain ⟨s, hs⟩ := Replay.exists_run (d := ⟨parts, c.frameBytes⟩) hc hrank (hread hlengths)
    obtain ⟨t, ht⟩ := Replay.exists_run (d := ⟨parts', c.frameBytes⟩) hc hrank (hread hlengths')
    obtain ⟨u, hu⟩ := Replay.exists_run (d := ⟨parts ++ parts', c.frameBytes⟩) hc hrank
      (hread hboth)
    refine ⟨s, t, u, hreplays hlengths hne hs, hreplays hlengths' hne' ht,
      hreplays hboth (by simp [hne]) hu, nofun, fun _ idle hsize hflag => ?_⟩
    have hall : ∀ part ∈ parts ++ [idle], part.length = c.frameBytes :=
      List.forall_mem_append.2 ⟨hlengths, by simpa using hsize⟩
    obtain ⟨f, hf⟩ := Frame.parse_of_length (c := c.withThreads threads) hsize
    obtain ⟨s', v, hs', hv, hsame⟩ := Replay.run_append_idle (d := ⟨parts, c.frameBytes⟩) hc hrank
      (hread hlengths) hidle hf ((Frame.idle_of_parse hf).trans hflag)
    obtain rfl : s = s' := by
      rw [hs] at hs'
      cases hs'
      rfl
    have hflatten : parts.flatten ++ idle = (parts ++ [idle]).flatten := by simp
    rw [hflatten]
    exact ⟨v, hreplays hall (by simp) hv, hsame⟩

/-- The frames of calls back to back. -/
def sampleDump (calls : List Call) : Bytes :=
  calls.flatMap fun call => match call with
    | .feed _ bytes => bytes
    | .configure .. => []

/-- What a replay counted, if it came to its end. -/
def counted? : Except Halt (Except CommandError Outcome) → Option (List ChannelTally × Statistics)
  | .ok (.ok (.replayed _ s _)) => some (s.tallies, s.statistics)
  | _ => none

/-- The first dump has an idle frame inside, needs a fifth job and leaves output frames half full;
the second one ends without an idle frame. -/
theorem process_composes_growing :
    let c := { Config.small with frameCapacity := 2 }
    let h : Host := ⟨104, 4, 1, by decide⟩
    let first := sampleDump [.sample [⟨5, 0⟩, ⟨5, 1⟩], .sample [⟨5, 0⟩, ⟨5, 1⟩], .sample [⟨5, 0⟩],
      .idle, .sample [⟨0, 0⟩], .idle]
    let second := sampleDump [.sample [⟨3, 1⟩], .sample [⟨3, 0⟩]]
    let idle : Bytes := List.replicate 104 255
    let process (bytes : Bytes) := processOn h c "dump" (.content bytes) none 3 2 false
    h.Supports (c.withThreads none) ∧ ∃ s t u v,
      process first = .ok (.ok (.replayed "dump" s false)) ∧
      process second = .ok (.ok (.replayed "dump" t false)) ∧
      process (first ++ second) = .ok (.ok (.replayed "dump" u false)) ∧
      process (second ++ idle) = .ok (.ok (.replayed "dump" v false)) ∧
      s.IsSum t u ∧ v = { t with frames := t.frames + 1, notices := v.notices } ∧
      s.tallies = Channel.all.map (⟨·, 4, 6⟩) ∧ t.tallies = Channel.all.map (⟨·, 1, 2⟩) ∧
      s.statistics.poolAllocated = 5 ∧ t.statistics.poolAllocated = 4 ∧
      u.statistics =
        { framesProcessed := 9, idleFrames := 3, packetsSubmitted := 8, droppedPackets := 4,
          eventsDecoded := 8, outputFrames := 15, poolAllocated := 5 } := by
  intro c h first second idle process
  have hh : h.Supports (c.withThreads none) := by decide
  have hc : (c.withThreads none).Valid := by decide
  have hfirst : Dump.Whole c first := by decide +kernel
  have hsecond : Dump.Whole c second := by decide +kernel
  have hclosed : Dump.lastIdle c first = true := by decide +kernel
  have hopen : Dump.lastIdle c second = false := by decide +kernel
  obtain ⟨s, t, u, hs, ht, hu, hsum, -⟩ :=
    process_composes hh hc (by decide : 2 < 3) hfirst hsecond "dump" false
  obtain ⟨t', -, -, ht', -, -, -, hidle⟩ :=
    process_composes hh hc (by decide : 2 < 3) hsecond hfirst "dump" false
  obtain rfl : t = t' := by
    have hsame := ht.symm.trans ht'
    cases hsame
    rfl
  obtain ⟨v, hv, hadded⟩ := hidle hopen idle (by decide) (by decide)
  have hcounted : counted? (process first) = some (Channel.all.map (⟨·, 4, 6⟩),
      { framesProcessed := 6, idleFrames := 2, packetsSubmitted := 6, droppedPackets := 2,
        eventsDecoded := 6, outputFrames := 12, poolAllocated := 5 }) := by decide +kernel
  have hcounted' : counted? (process second) = some (Channel.all.map (⟨·, 1, 2⟩),
      { framesProcessed := 3, idleFrames := 1, packetsSubmitted := 2, droppedPackets := 2,
        eventsDecoded := 2, outputFrames := 3, poolAllocated := 4 }) := by decide +kernel
  obtain ⟨htallies, hstatistics⟩ : s.tallies = _ ∧ s.statistics = _ :=
    Prod.mk.inj (Option.some.inj ((congrArg counted? hs).symm.trans hcounted))
  obtain ⟨htallies', hstatistics'⟩ : t.tallies = _ ∧ t.statistics = _ :=
    Prod.mk.inj (Option.some.inj ((congrArg counted? ht).symm.trans hcounted'))
  have hall := hsum hclosed
  refine ⟨hh, s, t, u, v, hs, ht, hu, hv, hall, hadded, htallies, htallies', ?_, ?_, ?_⟩
  · rw [hstatistics]
  · rw [hstatistics']
  · rw [hall.counts, hstatistics, hstatistics']
    decide

end CommandLine
end EventReadout
