import EventReadout.Proofs.Dump.Composition

/-!
What the frame headers of a dump tell about its replay.

A survey reads no packet, and still counts the packets that are submitted and the slots that are
dropped. The replay carries what it writes on all three channels alike.
-/
namespace EventReadout

namespace Survey

variable {c : Config} {calls : List Call} {s : Survey} {bytes : Bytes} {f : Frame} {d : Dump}

/-- A survey of the frames that calls take in. -/
structure Covers (c : Config) (calls : List Call) (s : Survey) : Prop where
  frames : s.frames = calls.countP fun call => (call.frame? c).isSome
  idle : s.idle = calls.countP fun call => decide (call.Closing c)
  valid : s.valid = (calls.flatMap (Call.jobs c)).length
  dropped : s.dropped = (calls.map (Call.dropped c)).sum

/-- The validity bytes of a standard frame count its packets, and those of an idle frame nothing. -/
theorem Covers.add (h : Covers c calls s) (hc : c.Valid) (hf : Frame.parse c bytes = .ok f) :
    Covers c (calls ++ [.feed .slotOrder bytes]) (s.add f) := by
  have hframe := Call.frame?_feed .slotOrder hf
  cases hidle : f.idle with
  | true =>
    have hclosing : (Call.feed .slotOrder bytes).Closing c := ⟨f, hframe, hidle⟩
    have hnot := Call.not_standard_of_closing hclosing
    constructor
    · simp [Survey.add, hidle, hframe, h.frames]
    · simp [Survey.add, hidle, hclosing, h.idle]
    · simp [Survey.add, hidle, Call.jobs_of_not_standard hnot, h.valid]
    · simp [Survey.add, hidle, Call.dropped_of_not_standard hnot, h.dropped]
  | false =>
    have hstandard : (Call.feed .slotOrder bytes).Standard c := ⟨f, hframe, hidle⟩
    have hnot : ¬ (Call.feed .slotOrder bytes).Closing c := fun hclosing =>
      Call.not_standard_of_closing hclosing hstandard
    obtain ⟨hvalid, hslots⟩ := Frame.validCount_eq hc hf hidle
    have hjobs : ((Call.feed .slotOrder bytes).jobs c).length = f.validCount := by
      rw [Call.jobs_of_frame hframe hidle, List.length_map, hvalid]
    constructor
    · simp [Survey.add, hidle, hframe, h.frames]
    · simp [Survey.add, hidle, hnot, h.idle]
    · simp [Survey.add, hidle, hjobs, h.valid]
    · simp [Survey.add, hidle, Call.dropped, hstandard, hjobs, hslots, h.dropped]

/-- One frame of a dump is read. -/
def read (c : Config) (s : Survey) (bytes : Bytes) : Except CommandError Survey :=
  match Frame.parse c bytes with
  | .ok f => .ok (s.add f)
  | .error cause => .error (.decode cause)

theorem Covers.foldlM_read (hs : s.Covers c calls) (hc : c.Valid) {frames : List Bytes}
    (h : ∀ bytes ∈ frames, ∃ f, Frame.parse c bytes = .ok f) :
    ∃ t, frames.foldlM (read c) s = .ok t ∧
      t.Covers c (calls ++ frames.map (.feed .slotOrder)) := by
  induction frames generalizing calls s with
  | nil =>
    rw [List.map_nil, List.append_nil]
    exact ⟨s, rfl, hs⟩
  | cons bytes rest ih =>
    obtain ⟨⟨f, hf⟩, hrest⟩ := List.forall_mem_cons.1 h
    obtain ⟨t, hread, ht⟩ := ih (hs.add hc hf) hrest
    have hfirst : read c s bytes = .ok (s.add f) := by rw [read, hf]
    rw [List.append_assoc] at ht
    rw [List.foldlM_cons, hfirst]
    exact ⟨t, hread, ht⟩

theorem ofDump_withThreads (threads : Option Nat) :
    ofDump (c.withThreads threads) d = ofDump c d := by
  have hsame : read (c.withThreads threads) = read c := by
    funext s bytes
    have hparse : Frame.parse (c.withThreads threads) bytes = Frame.parse c bytes :=
      Frame.parse_congr rfl rfl rfl rfl
    rw [read, hparse, read]
  change d.frames.foldlM (read _) {} = d.frames.foldlM (read c) {}
  rw [hsame]

theorem ofDump_covers (hc : c.Valid) (h : ∀ bytes ∈ d.frames, ∃ f, Frame.parse c bytes = .ok f) :
    ∃ s, ofDump c d = .ok s ∧ s.Covers c (d.frames.map (.feed .slotOrder)) := by
  have hnew : ({} : Survey).Covers c [] := ⟨rfl, rfl, rfl, rfl⟩
  exact hnew.foldlM_read hc h

end Survey

namespace Replay

variable {c : Config} {processes rank : Nat} {r : Replay} {d : Dump} {s : Survey}

/-- A replay adds at most one idle frame to those of the survey. -/
theorem tally_calls (h : s.Covers c (d.frames.map (.feed .slotOrder))) (report : Report) :
    let counts := Assembler.tally c (calls c d) report
    let added := if d.endsIdle then 0 else 1
    counts.framesProcessed = s.frames + added ∧ counts.idleFrames = s.idle + added ∧
      counts.packetsSubmitted = s.valid ∧ counts.droppedPackets = s.dropped := by
  dsimp only [Assembler.tally]
  rw [h.frames, h.idle, h.valid, h.dropped]
  cases hidle : d.endsIdle with
  | true =>
    rw [calls_of_endsIdle hidle]
    exact ⟨rfl, rfl, rfl, rfl⟩
  | false =>
    obtain ⟨idle, hcalls, hclosing⟩ := calls_of_not_endsIdle c hidle
    have hnot := Call.not_standard_of_closing hclosing
    have hframe : (idle.frame? c).isSome := by
      obtain ⟨f, hf, -⟩ := hclosing
      rw [hf]
      rfl
    rw [hcalls]
    simp [hframe, hclosing, Call.jobs_of_not_standard hnot, Call.dropped_of_not_standard hnot]

end Replay

namespace ChannelTally

theorem foldl_add_of_sizes {frames : List OutputFrame} {sizes : List Nat}
    (h : ∀ ch : Channel, (frames.filter (·.channel = ch)).map OutputFrame.size = sizes) :
    frames.foldl add blank = Channel.all.map (⟨·, sizes.length, sizes.sum⟩) ∧
      ((frames.foldl add blank).map ChannelTally.frames).sum = frames.length := by
  have hcount (ch : Channel) : (frames.filter (·.channel = ch)).length = sizes.length := by
    rw [← h ch, List.length_map]
  have htallies : frames.foldl add blank = Channel.all.map (⟨·, sizes.length, sizes.sum⟩) := by
    rw [foldl_add, blank, List.map_map]
    apply List.map_congr_left
    intro ch _
    simp [h ch, hcount ch]
  refine ⟨htallies, ?_⟩
  rw [htallies, length_eq_add_channels, hcount, hcount, hcount]
  simp [Channel.all, Nat.add_assoc]

end ChannelTally

namespace Assembler

variable {c : Config} {a : Assembler} {processes rank : Nat} {calls : List Call} {last : Call}

theorem Numbered.counts_eq (h : Numbered c processes rank a) (calls : List Call) :
    (a.run calls).2.counts = tally c calls (a.run calls).1 := by
  rw [run_counts h.spec.2.1, h.untouched.2, Statistics.zero_add]

/-- Up to an idle frame the channels carry the events decoded, less those of packets turned away. -/
theorem Numbered.sizes_closed (h : Numbered c processes rank a)
    (hlast : calls.getLast? = some last) (hclosing : last.Closing c) :
    let report := (a.run calls).1
    let counts := (a.run calls).2.statistics
    ∃ sizes : List Nat,
      (∀ ch : Channel, (report.frames.filter (·.channel = ch)).map OutputFrame.size = sizes) ∧
      sizes.sum ≤ counts.eventsDecoded ∧
      (counts.stalePackets = 0 → counts.invalidPackets = 0 →
        sizes.sum = counts.eventsDecoded) := by
  obtain ⟨houtputs, hstart, hreassembly, -⟩ := h.spec
  have hcapacity := hstart.valid.frameCapacity_pos
  obtain ⟨rows, hsizes, hrows⟩ := run_rows_closed hstart houtputs hcapacity hlast hclosing
  have hempty : a.reassembly.store.toList = [] := by
    rw [hreassembly]
    rfl
  have hevents := run_events_closed hstart hempty hlast hclosing
  dsimp only at hevents
  have hsum : (rows.map List.length).sum =
      ((a.run calls).1.written.flatMap Job.events).length := by
    rw [← List.length_flatten, hrows]
    rfl
  dsimp only [statistics]
  rw [h.counts_eq calls]
  refine ⟨_, hsizes, ?_, fun hstale hinvalid => ?_⟩
  · exact hsum.trans_le (hevents ▸ Nat.le_add_right _ _)
  · have hnone : (a.run calls).1.stale ++ (a.run calls).1.outOfRange = [] :=
      List.append_eq_nil_iff.2 ⟨List.eq_nil_of_length_eq_zero hstale,
        List.eq_nil_of_length_eq_zero hinvalid⟩
    rw [hnone] at hevents
    exact hsum.trans hevents.symm

end Assembler

namespace CommandLine

variable {c : Config} {threads : Option Nat} {processes rank : Nat} {bytes : Bytes}

theorem info_content {d : Dump} {s : Survey} (hd : Dump.ofBytes c bytes = .ok d)
    (hs : Survey.ofDump c d = .ok s) (input : String) :
    info c input (.content bytes) = .ok (.surveyed input d s) := by
  change Dump.ofBytes c bytes >>= _ = _
  rw [hd]
  change Survey.ofDump c d >>= _ = _
  rw [hs]
  rfl

end CommandLine
end EventReadout
