import EventReadout.Dump.Replay
import EventReadout.Proofs.Assembly.Ledger
import EventReadout.Proofs.Assembly.Numbering
import EventReadout.Proofs.Frame.RoundTrip

/-!
Replays of dumps whose frames can all be read.

A file is a dump of the frames that it was put together from. Replaying it is the run of an
assembler over these frames and an idle one, if the last is not idle, and the tallies count the
values that the run emits.
-/
namespace EventReadout

namespace Dump

variable {c : Config} {size : Nat} {parts : List Bytes}

theorem length_flatten (h : ∀ part ∈ parts, part.length = size) :
    parts.flatten.length = parts.length * size := by
  rw [List.length_flatten, List.map_congr_left h, List.map_const', List.sum_replicate_nat]

theorem cut_flatten (h : ∀ part ∈ parts, part.length = size) :
    cut size parts.length parts.flatten = parts := by
  induction parts with
  | nil => rfl
  | cons part rest ih =>
    obtain ⟨hpart, hrest⟩ := List.forall_mem_cons.1 h
    rw [List.length_cons, List.flatten_cons, cut, List.take_left' hpart, List.drop_left' hpart,
      ih hrest]

theorem flatten_cut {count : Nat} {bytes : Bytes} (h : bytes.length = count * size) :
    (cut size count bytes).flatten = bytes ∧ ∀ part ∈ cut size count bytes, part.length = size := by
  induction count generalizing bytes with
  | zero =>
    rw [Nat.zero_mul] at h
    obtain rfl := List.eq_nil_of_length_eq_zero h
    exact ⟨rfl, fun part hpart => absurd hpart List.not_mem_nil⟩
  | succ count ih =>
    rw [Nat.succ_mul] at h
    have hfirst : (bytes.take size).length = size := by
      rw [List.length_take]
      omega
    have hrest : (bytes.drop size).length = count * size := by
      rw [List.length_drop]
      omega
    obtain ⟨hflatten, hlengths⟩ := ih hrest
    rw [cut, List.flatten_cons, hflatten, List.take_append_drop]
    exact ⟨rfl, List.forall_mem_cons.2 ⟨hfirst, hlengths⟩⟩

theorem frameBytes_pos (c : Config) : 0 < c.frameBytes := by
  unfold Config.frameBytes Config.headerBytes
  omega

theorem ofBytes_flatten (h : ∀ part ∈ parts, part.length = c.frameBytes) (hne : parts ≠ []) :
    ofBytes c parts.flatten = .ok ⟨parts, c.frameBytes⟩ := by
  have hframe := frameBytes_pos c
  have hlength := length_flatten h
  have hpos : parts.length * c.frameBytes ≠ 0 :=
    Nat.mul_ne_zero (by simpa using hne) (Nat.ne_of_gt hframe)
  unfold ofBytes
  dsimp only
  rw [hlength, if_neg (by simp [hpos]), Nat.mul_div_cancel _ hframe, cut_flatten h]

/-- A file of one or more whole frames, whatever is in them. -/
def Whole (c : Config) (bytes : Bytes) : Prop :=
  0 < bytes.length ∧ bytes.length % c.frameSize.toNat = 0

instance (c : Config) (bytes : Bytes) : Decidable (Whole c bytes) :=
  inferInstanceAs (Decidable (_ ∧ _))

/-- The last frame of a file carries the idle flag. -/
def lastIdle (c : Config) (bytes : Bytes) : Bool :=
  Frame.idleFlag (bytes.drop (bytes.length - c.frameSize.toNat))

theorem Whole.exists_frames (hfit : c.frameBytes < UInt64.size) {bytes : Bytes}
    (h : Whole c bytes) :
    ∃ parts ≠ [], (∀ part ∈ parts, part.length = c.frameBytes) ∧ parts.flatten = bytes := by
  obtain ⟨hpos, hmod⟩ := h
  rw [Config.toNat_frameSize hfit] at hmod
  obtain ⟨hflatten, hlengths⟩ := flatten_cut
    (Nat.div_mul_cancel (Nat.dvd_of_mod_eq_zero hmod)).symm
  refine ⟨_, fun hnone => ?_, hlengths, hflatten⟩
  rw [hnone] at hflatten
  rw [← hflatten] at hpos
  exact absurd hpos (by simp)

theorem endsIdle_eq_lastIdle (hfit : c.frameBytes < UInt64.size)
    (h : ∀ part ∈ parts, part.length = c.frameBytes) (hne : parts ≠ []) :
    (⟨parts, c.frameBytes⟩ : Dump).endsIdle = lastIdle c parts.flatten := by
  obtain ⟨before, last, rfl⟩ := List.eq_nil_or_concat' parts |>.resolve_left hne
  have hlast : last.length = c.frameBytes := h last (by simp)
  have hdrop : (before ++ [last]).flatten.length - c.frameBytes = before.flatten.length := by
    simp [hlast]
  rw [endsIdle, lastIdle, Config.toNat_frameSize hfit, hdrop, List.getLast?_concat,
    List.flatten_append, List.drop_left, List.flatten_singleton]
  rfl

end Dump

namespace ChannelTally

theorem foldl_add (frames : List OutputFrame) (tallies : List ChannelTally) :
    frames.foldl add tallies = tallies.map fun t =>
      let own := frames.filter (·.channel = t.channel)
      { t with
        frames := t.frames + own.length
        values := t.values + (own.map OutputFrame.size).sum } := by
  induction frames generalizing tallies with
  | nil => simp
  | cons f rest ih =>
    rw [List.foldl_cons, ih, add, List.map_map]
    apply List.map_congr_left
    intro t _
    by_cases hown : t.channel = f.channel
    · rw [Function.comp_apply, if_pos hown, List.filter_cons_of_pos (by simp [hown])]
      simp only [List.length_cons, List.map_cons, List.sum_cons, Nat.add_assoc, Nat.add_comm 1]
    · rw [Function.comp_apply, if_neg hown, List.filter_cons_of_neg (by simp [Ne.symm hown])]

end ChannelTally

namespace Assembler

variable {c : Config} {a : Assembler} {processes rank : Nat}

theorem Numbered.sum_sizes (h : Numbered c processes rank a) {calls : List Call} {idle : Call}
    (hnone : ∀ call ∈ calls, call.numbering? = none)
    (hopen : ∀ call ∈ calls, ¬ call.Closing c) (hidle : idle.Closing c) (ch : Channel) :
    let report := (a.run (calls ++ [idle])).1
    ((report.frames.filter (·.channel = ch)).map OutputFrame.size).sum =
      (report.written.flatMap Job.events).length := by
  have hcapacity := h.spec.2.1.valid.frameCapacity_pos
  have hnone' : ∀ call ∈ [] ++ calls, call.numbering? = none := hnone
  have hframes := h.acquisition hnone' (by simp) hopen hidle ch
  dsimp only at hframes ⊢
  change (((a.run (calls ++ [idle])).1.frames.filter _).map _).sum = _
  change (a.run (calls ++ [idle])).1.frames.filter _ = _ at hframes
  rw [hframes, Channel.map_size_frames, ← List.length_flatten, (chunked_chunks hcapacity _).flatten]
  rfl

end Assembler

namespace Replay

variable {c : Config} {r : Replay} {d : Dump} {processes rank : Nat}

theorem feed_eq (hr : r.assembler.config = c) {bytes : Bytes} {f : Frame}
    (hf : Frame.parse c bytes = .ok f) :
    let out := r.assembler.step (.feed .slotOrder bytes)
    ∃ notices, r.feed bytes =
      .ok ⟨out.2, out.1.frames.foldl ChannelTally.add r.tallies, notices⟩ := by
  have hfeed : r.assembler.respond (.feed .slotOrder bytes) =
      (.ok (r.assembler.feedFrame id f).1, (r.assembler.feedFrame id f).2) :=
    Assembler.respond_feed_of_ok hr hf
  change r.assembler.feed bytes = _ at hfeed
  have hstep := Assembler.step_frame hr .slotOrder hf
  dsimp only
  rw [hstep, feed, hfeed]
  exact ⟨_, rfl⟩

theorem foldlM_feed (hr : r.assembler.Consistent c) {frames : List Bytes}
    (h : ∀ bytes ∈ frames, ∃ f, Frame.parse c bytes = .ok f) :
    let out := r.assembler.run (frames.map (.feed .slotOrder))
    ∃ notices, frames.foldlM feed r =
      .ok ⟨out.2, out.1.frames.foldl ChannelTally.add r.tallies, notices⟩ := by
  induction frames generalizing r with
  | nil => exact ⟨_, rfl⟩
  | cons bytes rest ih =>
    obtain ⟨⟨f, hf⟩, hrest⟩ := List.forall_mem_cons.1 h
    obtain ⟨notices, hfirst⟩ := feed_eq hr.config hf
    have hnext := (Assembler.step_spec hr (.feed .slotOrder bytes)).2.2
    obtain ⟨later, hlater⟩ := ih (r := ⟨_, _, notices⟩) hnext hrest
    refine ⟨later, ?_⟩
    rw [List.foldlM_cons, hfirst]
    change List.foldlM feed _ rest = _
    rw [hlater, List.map_cons, Assembler.run, Report.frames_append, List.foldl_append]

theorem start_eq_ok (hc : c.Valid) (hrank : rank < processes) :
    ∃ a, Assembler.ofConfig c = .ok a ∧ start c processes rank = .ok {
      assembler := (a.run [.configure processes rank]).2
      notices := a.startupNotices ++ [.processConfigured rank processes] } := by
  have hnew : Assembler.ofConfig c = .ok (.fresh c) := by
    unfold Assembler.ofConfig
    rw [c.check_eq_ok_iff.2 hc]
    rfl
  refine ⟨.fresh c, hnew, ?_⟩
  have hconfigured : (Assembler.fresh c).configure processes rank =
      (.ok { notices := [.processConfigured rank processes] },
        { Assembler.fresh c with outputs := (Assembler.fresh c).outputs.configure processes rank })
      := by
    rw [Assembler.configure, if_neg (by omega)]
  have hrun : ((Assembler.fresh c).run [.configure processes rank]).2 =
      { Assembler.fresh c with outputs := (Assembler.fresh c).outputs.configure processes rank } :=
    congrArg Prod.snd hconfigured
  rw [start, hnew, hrun]
  change configured processes rank (.fresh c) = _
  rw [configured, hconfigured]
  rfl

/-- A replay starts with a new assembler that has been given its rank, and with nothing counted. -/
theorem start_spec (hc : c.Valid) (hrank : rank < processes) :
    ∃ r, start c processes rank = .ok r ∧ r.assembler.Ready c ∧
      Assembler.Numbered c processes rank r.assembler ∧ r.assembler.counts = {} ∧
      r.tallies = ChannelTally.blank := by
  obtain ⟨a, ha, hstart⟩ := start_eq_ok hc hrank
  have hquiet : ∀ call ∈ [Call.configure processes rank], call.frame? c = none := by
    simp [Call.frame?]
  have hnumbering : lastNumbering [Call.configure processes rank] = (processes, rank) := by
    have hset : (Call.configure processes rank).numbering? = some (processes, rank) :=
      if_neg (by omega)
    simp [lastNumbering, hset]
  refine ⟨_, hstart, .configure (.start ha) processes rank,
    ⟨a, _, ha, hquiet, hnumbering, rfl⟩, ?_, rfl⟩
  dsimp only
  rw [Assembler.run_prelude ha hquiet]
  exact (Assembler.stocked_ofConfig ha).2.2

/-- The calls that a dump is replayed with. -/
def calls (c : Config) (d : Dump) : List Call :=
  (d.frames ++ (closing c d).toOption.getD []).map (.feed .slotOrder)

theorem closing_of_endsIdle (h : d.endsIdle = true) : closing c d = .ok [] := if_pos h

theorem closing_of_not_endsIdle (c : Config) (h : d.endsIdle = false) :
    ∃ bytes f, closing c d = .ok [bytes] ∧ Frame.parse c bytes = .ok f ∧ f.idle = true := by
  have hencode : FrameDraft.encode { idle := true } c = .ok _ :=
    FrameDraft.encode_eq_ok_iff.2 ⟨by simp, nofun, rfl⟩
  obtain ⟨-, f, hf, -, hidle⟩ := FrameDraft.parse_encode_idle rfl hencode
  refine ⟨_, f, ?_, hf, hidle⟩
  rw [closing, if_neg (by simp [h]), hencode]
  rfl

theorem closing_eq_ok (c : Config) (d : Dump) :
    ∃ last, closing c d = .ok last ∧ ∀ bytes ∈ last, ∃ f, Frame.parse c bytes = .ok f := by
  cases hidle : d.endsIdle with
  | true => exact ⟨[], closing_of_endsIdle hidle, by simp⟩
  | false =>
    obtain ⟨bytes, f, hclosing, hf, -⟩ := closing_of_not_endsIdle c hidle
    exact ⟨[bytes], hclosing, by simp [hf]⟩

theorem numbering?_calls : ∀ call ∈ calls c d, call.numbering? = none := by
  intro call hcall
  obtain ⟨bytes, -, rfl⟩ := List.mem_map.1 hcall
  rfl

theorem calls_of_endsIdle (h : d.endsIdle = true) :
    calls c d = d.frames.map (.feed .slotOrder) := by
  rw [calls, closing_of_endsIdle h, Except.toOption, Option.getD_some, List.append_nil]

theorem calls_of_not_endsIdle (c : Config) (h : d.endsIdle = false) :
    ∃ idle : Call, calls c d = d.frames.map (.feed .slotOrder) ++ [idle] ∧ idle.Closing c := by
  obtain ⟨bytes, f, hclosing, hf, hflag⟩ := closing_of_not_endsIdle c h
  refine ⟨.feed .slotOrder bytes, ?_, f, Call.frame?_feed _ hf, hflag⟩
  rw [calls, hclosing, Except.toOption, Option.getD_some, List.map_append, List.map_singleton]

theorem calls_closed (h : ∀ bytes ∈ d.frames, ∃ f, Frame.parse c bytes = .ok f) :
    ∃ last, (calls c d).getLast? = some last ∧ last.Closing c := by
  cases hidle : d.endsIdle with
  | true =>
    rw [calls_of_endsIdle hidle, List.getLast?_map]
    unfold Dump.endsIdle at hidle
    cases hlast : d.frames.getLast? with
    | none =>
      rw [hlast] at hidle
      cases hidle
    | some bytes =>
      rw [hlast] at hidle
      obtain ⟨f, hf⟩ := h bytes (List.mem_of_getLast? hlast)
      exact ⟨_, rfl, f, Call.frame?_feed _ hf, (Frame.idle_of_parse hf).trans hidle⟩
  | false =>
    obtain ⟨idle, hcalls, hclosing⟩ := calls_of_not_endsIdle c hidle
    rw [hcalls]
    exact ⟨idle, List.getLast?_concat, hclosing⟩

/-- A dump that can be read is replayed to its end, with the frame that closes it as one of its
own. -/
theorem run_calls (hstart : start c processes rank = .ok r) (hr : r.assembler.Consistent c)
    (h : ∀ bytes ∈ d.frames, ∃ f, Frame.parse c bytes = .ok f) :
    let out := r.assembler.run (calls c d)
    ∃ notices, run c processes rank d =
      .ok ⟨d.frames.length, out.1.frames.foldl ChannelTally.add r.tallies, out.2.statistics,
        notices⟩ := by
  obtain ⟨last, hlast, hread⟩ := closing_eq_ok c d
  obtain ⟨notices, hfed⟩ := foldlM_feed hr h
  have hmiddle := (Assembler.run_spec hr (d.frames.map (.feed .slotOrder))).2
  obtain ⟨later, hclosed⟩ := foldlM_feed
    (r := ⟨_, _, notices ++ if d.endsIdle then [] else [.dumpUnclosed]⟩) hmiddle hread
  refine ⟨later, ?_⟩
  rw [run, hstart, hlast]
  change (play d r >>= fun r => finish d r last) = _
  rw [play, hfed]
  change finish d _ last = _
  rw [finish, hclosed, calls, hlast, Except.toOption, Option.getD_some, List.map_append,
    Assembler.run_append, Report.frames_append, List.foldl_append]
  rfl

theorem run_eq_ok (hstart : start c processes rank = .ok r) (hr : r.assembler.Consistent c)
    (hidle : d.endsIdle = true) (h : ∀ bytes ∈ d.frames, ∃ f, Frame.parse c bytes = .ok f) :
    let out := r.assembler.run (d.frames.map (.feed .slotOrder))
    ∃ notices, run c processes rank d =
      .ok ⟨d.frames.length, out.1.frames.foldl ChannelTally.add r.tallies, out.2.statistics,
        notices⟩ := by
  rw [← calls_of_endsIdle hidle]
  exact run_calls hstart hr h

end Replay

/-- A machine that has the workers and the memory for a reconstruction. -/
structure Host.Supports (h : Host) (c : Config) : Prop where
  workers : c.threads ≤ h.workers
  handles : c.threads ≤ h.tableEntries
  jobs : 2 * c.packetSlots ≤ h.tableEntries
  columns : 8 * c.frameCapacity ≤ h.blockBytes
  frame : c.frameBytes ≤ h.blockBytes

instance (h : Host) (c : Config) : Decidable (h.Supports c) :=
  decidable_of_iff (c.threads ≤ h.workers ∧ c.threads ≤ h.tableEntries ∧
      2 * c.packetSlots ≤ h.tableEntries ∧ 8 * c.frameCapacity ≤ h.blockBytes ∧
      c.frameBytes ≤ h.blockBytes)
    ⟨fun ⟨workers, handles, jobs, columns, frame⟩ => ⟨workers, handles, jobs, columns, frame⟩,
      fun hh => ⟨hh.workers, hh.handles, hh.jobs, hh.columns, hh.frame⟩⟩

section Hosted

variable {h : Host} {c : Config} {processes rank : Nat} {d : Dump}

theorem Host.Supports.holdsFrame (hh : h.Supports c) : h.HoldsFrame c where
  slots := Nat.le_trans (Nat.le_mul_of_pos_left _ (by decide)) hh.jobs
  bytes := hh.frame

theorem Config.payload_le_frameBytes (hc : c.Valid) : 8 * c.payloadWords ≤ c.frameBytes := by
  have hslots := Nat.le_mul_of_pos_left c.packetBytes hc.packetSlots_pos
  have hwords := Nat.div_mul_le_self c.packetBytes wordBytes
  unfold frameBytes payloadWords wordsPerPacket
  unfold wordBytes at *
  omega

theorem Assembler.launch_eq (hc : c.Valid) (hh : h.Supports c) :
    launch h c = .ok (ofConfig c) := by
  have hmet : ∀ demand ∈ demands c, h.meets demand := by
    have hwords := Nat.le_trans (Config.payload_le_frameBytes hc) hh.frame
    simp [demands, Host.meets, hh.workers, hh.handles, hh.jobs, hh.columns, hwords]
  rw [launch, Config.validate_of_valid hc, ofConfig, c.check_eq_ok_iff.2 hc]
  exact Host.carryOut_eq_ok_iff.2 ⟨hmet, rfl⟩

namespace Replay

theorem startOn_eq (hc : c.Valid) (hh : h.Supports c) :
    startOn h c processes rank = .ok (start c processes rank) := by
  rw [startOn, Assembler.launch_eq hc hh]
  rfl

theorem closingOn_eq (hh : h.Supports c) : closingOn h c d = .ok (closing c d) := by
  unfold closingOn closing
  split
  · rfl
  · have hencode : FrameDraft.encode { idle := true } c = .ok _ :=
      FrameDraft.encode_eq_ok_iff.2 ⟨by simp, nofun, rfl⟩
    rw [(FrameDraft.build_eq_ok_iff hh.holdsFrame).2 hencode, hencode]
    rfl

/-- The machine does not show in a replay that it supports. -/
theorem runOn_eq (hc : c.Valid) (hh : h.Supports c) :
    runOn h c processes rank d = .ok (run c processes rank d) := by
  rw [runOn, startOn_eq hc hh, run]
  cases start c processes rank with
  | error cause => rfl
  | ok r =>
    dsimp only [bind, Except.bind, Except.mapError]
    cases play d r with
    | error cause => rfl
    | ok r =>
      dsimp only
      rw [closingOn_eq hh]
      rfl

end Replay
end Hosted
end EventReadout
