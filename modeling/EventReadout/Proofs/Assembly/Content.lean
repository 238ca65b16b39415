import EventReadout.Proofs.Assembly.Acceptance
import EventReadout.Proofs.Assembly.Indistinct
import EventReadout.Proofs.Packet.Header

/-!
Which bits of a frame the reconstruction depends on.

Of all the others it keeps the packet numbers alone, inside the jobs, where nothing reads them.
-/
namespace EventReadout

namespace Frame

/-- Payload words that are decoded of the packet in a slot. -/
def decodedWords (c : Config) (bytes : Bytes) (slot : Nat) : Nat :=
  min c.payloadWords ((slotWord c bytes slot 1).toNat % 2 ^ 16 - (c.headerWords - 1))

/-- Packets that agree on the word count, on the slice and on the payload words decoded. -/
structure SameSlot (c : Config) (bytes bytes' : Bytes) (slot : Nat) : Prop where
  wordCount : (slotWord c bytes slot 1).toNat % 2 ^ 16 = (slotWord c bytes' slot 1).toNat % 2 ^ 16
  slice : (slotWord c bytes slot 2).toNat % 2 ^ 40 = (slotWord c bytes' slot 2).toNat % 2 ^ 40
  payload : ∀ i < decodedWords c bytes slot,
    slotWord c bytes slot (c.headerWords + i) = slotWord c bytes' slot (c.headerWords + i)

/-- Bytes that agree on the idle flag and, if it is zero, on which slots are valid and on the
packets in these. -/
structure SameContent (c : Config) (bytes bytes' : Bytes) : Prop where
  idle : idleFlag bytes = idleFlag bytes'
  validity : idleFlag bytes = false →
    ∀ slot < c.packetSlots, validFlag bytes slot = validFlag bytes' slot
  slots : idleFlag bytes = false →
    ∀ slot < c.packetSlots, validFlag bytes slot → SameSlot c bytes bytes' slot

instance (c : Config) (bytes bytes' : Bytes) (slot : Nat) :
    Decidable (SameSlot c bytes bytes' slot) :=
  decidable_of_iff (_ ∧ _ ∧ ∀ i < decodedWords c bytes slot, _)
    ⟨fun ⟨wordCount, slice, payload⟩ => ⟨wordCount, slice, payload⟩,
      fun h => ⟨h.wordCount, h.slice, h.payload⟩⟩

instance (c : Config) (bytes bytes' : Bytes) : Decidable (SameContent c bytes bytes') :=
  decidable_of_iff (_ ∧ (idleFlag bytes = false → ∀ slot < c.packetSlots, _) ∧
      (idleFlag bytes = false → ∀ slot < c.packetSlots, validFlag bytes slot → _))
    ⟨fun ⟨idle, validity, slots⟩ => ⟨idle, validity, slots⟩,
      fun h => ⟨h.idle, h.validity, h.slots⟩⟩

variable {c : Config} {bytes bytes' : Bytes} {slot : Nat}

theorem SameSlot.unnumbered_slotJob (h : SameSlot c bytes bytes' slot) :
    (slotJob c bytes slot).unnumbered = (slotJob c bytes' slot).unnumbered := by
  obtain ⟨hcount, -, hwrap, hbuffer⟩ :=
    PacketHeader.toNat_decode (slotWord c bytes slot 1) (slotWord c bytes slot 2)
  obtain ⟨hcount', -, hwrap', hbuffer'⟩ :=
    PacketHeader.toNat_decode (slotWord c bytes' slot 1) (slotWord c bytes' slot 2)
  have hfirst := h.wordCount
  have hsecond := h.slice
  have hslice : (slotHeader c bytes slot).slice = (slotHeader c bytes' slot).slice := by
    unfold PacketHeader.slice slotHeader
    rw [hwrap, hwrap', hbuffer, hbuffer', TimeSlice.mk.injEq]
    omega
  have hpayload : slotPayload c bytes slot = slotPayload c bytes' slot := by
    unfold slotPayload PacketHeader.payloadWords slotHeader
    rw [hcount, hcount', ← hfirst]
    apply List.map_congr_left
    intro i hi
    apply h.payload
    rw [decodedWords, Nat.min_comm]
    exact List.mem_range.1 hi
  unfold Job.unnumbered slotJob Job.appendWords Job.assign
  rw [hslice, hpayload]

theorem SameContent.filter_validFlag (h : SameContent c bytes bytes')
    (hidle : idleFlag bytes = false) :
    (List.range c.packetSlots).filter (validFlag bytes) =
      (List.range c.packetSlots).filter (validFlag bytes') := by
  apply List.filter_congr
  intro slot hslot
  exact h.validity hidle slot (List.mem_range.1 hslot)

end Frame

theorem Call.of_mem_results {c : Config} (hc : c.Valid) {arrangement : Arrangement} {bytes : Bytes}
    {f : Frame} (hf : Frame.parse c bytes = .ok f) (hidle : f.idle = false) {j : Job}
    (hj : j ∈ (feed arrangement bytes).results c) :
    j.slot < c.packetSlots ∧ Frame.validFlag bytes j.slot ∧
      j = (Frame.slotJob c bytes j.slot).decode := by
  have hmem := (results_perm c (feed arrangement bytes)).mem_iff.1 hj
  rw [jobs_of_frame (frame?_feed arrangement hf) hidle, Frame.jobs_eq hc hf hidle] at hmem
  simp only [List.mem_map, List.mem_filter, List.mem_range] at hmem
  obtain ⟨_, ⟨slot, ⟨hslot, hvalid⟩, rfl⟩, rfl⟩ := hmem
  exact ⟨hslot, hvalid, rfl⟩

theorem Frame.SameContent.results {c : Config} (hc : c.Valid) {bytes bytes' : Bytes}
    (h : SameContent c bytes bytes') {f f' : Frame} (hf : parse c bytes = .ok f)
    (hf' : parse c bytes' = .ok f') (hidle : f.idle = false) (hidle' : f'.idle = false)
    {arrangement arrangement' : Arrangement}
    (horder : ((Call.feed arrangement bytes).results c).map Job.slot =
      ((Call.feed arrangement' bytes').results c).map Job.slot) :
    ((Call.feed arrangement bytes).results c).map Job.unnumbered =
      ((Call.feed arrangement' bytes').results c).map Job.unnumbered := by
  let content (slot : Nat) : Job := (slotJob c bytes slot).decode.unnumbered
  have hflag : idleFlag bytes = false := (idle_of_parse hf).symm.trans hidle
  have hresults : ((Call.feed arrangement bytes).results c).map Job.unnumbered =
      (((Call.feed arrangement bytes).results c).map Job.slot).map content := by
    rw [List.map_map]
    apply List.map_congr_left
    intro j hj
    exact congrArg Job.unnumbered (Call.of_mem_results hc hf hidle hj).2.2
  have hresults' : ((Call.feed arrangement' bytes').results c).map Job.unnumbered =
      (((Call.feed arrangement' bytes').results c).map Job.slot).map content := by
    rw [List.map_map]
    apply List.map_congr_left
    intro j hj
    obtain ⟨hslot, hvalid, hjob⟩ := Call.of_mem_results hc hf' hidle' hj
    have hvalid' : validFlag bytes j.slot := (h.validity hflag j.slot hslot).trans hvalid
    have hsame := (h.slots hflag j.slot hslot hvalid').unnumbered_slotJob
    calc j.unnumbered
      _ = (slotJob c bytes' j.slot).unnumbered.decode := congrArg Job.unnumbered hjob
      _ = content j.slot := by
        rw [← hsame]
        rfl
  rw [hresults, hresults', horder]

/-- How many slots of a frame are valid decides what the intake does to the pool and what it
counts. -/
theorem Intake.Alike.ofFrame {c : Config} (hc : c.Valid) {pool : Pool Job} (hpool : pool.Blank)
    {bytes bytes' : Bytes} (h : Frame.SameContent c bytes bytes') {f f' : Frame}
    (hf : Frame.parse c bytes = .ok f) (hf' : Frame.parse c bytes' = .ok f')
    (hidle : f.idle = false) (hidle' : f'.idle = false) :
    Intake.Alike (.ofFrame pool f) (.ofFrame pool f') := by
  have hjobs := (Intake.ofFrame_eq hpool f).2
  have hjobs' := (Intake.ofFrame_eq hpool f').2
  obtain ⟨htaken, hdropped, hinvalid⟩ :=
    Intake.ofFrame_counts hpool (Frame.readable_of_parse hc hf hidle)
  obtain ⟨htaken', hdropped', hinvalid'⟩ :=
    Intake.ofFrame_counts hpool (Frame.readable_of_parse hc hf' hidle')
  have hslots : f.jobs.length = f'.jobs.length := by
    rw [Frame.jobs_eq hc hf hidle, Frame.jobs_eq hc hf' hidle',
      h.filter_validFlag ((Frame.idle_of_parse hf).symm.trans hidle), List.length_map,
      List.length_map]
  have hpackets : f.packets.length = f'.packets.length := by
    rw [Frame.packets_eq hf hidle, Frame.packets_eq hf' hidle', List.length_map, List.length_map]
  refine ⟨?_, ?_, by omega, ?_⟩
  · rw [htaken, htaken', hslots]
  · rw [← Array.length_toList, ← Array.length_toList, hjobs, hjobs', hslots]
  · rw [hinvalid, hinvalid']

namespace Assembler

variable {c : Config} {a : Assembler}

/-- Frames of the same content are answered alike, and leave no difference but in packet numbers. -/
theorem view_sameContent (ha : a.Consistent c) {bytes bytes' : Bytes} {f f' : Frame}
    (hf : Frame.parse c bytes = .ok f) (hf' : Frame.parse c bytes' = .ok f')
    (h : Frame.SameContent c bytes bytes') {arrangement arrangement' : Arrangement}
    (horder : ((Call.feed arrangement bytes).results c).map Job.slot =
      ((Call.feed arrangement' bytes').results c).map Job.slot) :
    (a.view (.feed arrangement bytes)).mapFrames id =
        (a.view (.feed arrangement' bytes')).mapFrames id ∧
      Indistinct Eq (a.step (.feed arrangement bytes)).2
        (a.step (.feed arrangement' bytes')).2 := by
  have hidle : f.idle = f'.idle :=
    (Frame.idle_of_parse hf).trans (h.idle.trans (Frame.idle_of_parse hf').symm)
  have hsame : Indistinct Eq a a := ⟨rfl, rfl, rfl, rfl, rfl⟩
  obtain ⟨hframes, hstate⟩ := hsame.feedFrame .eq arrangement.order arrangement'.order hidle
    (fun hstandard => .ofFrame ha.valid ha.blank h hf hf' hstandard (hidle ▸ hstandard))
    (fun hstandard => by
      rw [order_submit ha.blank arrangement hf hstandard,
        order_submit ha.blank arrangement' hf' (hidle ▸ hstandard)]
      exact h.results ha.valid hf hf' hstandard (hidle ▸ hstandard) horder)
  rw [← step_frame ha.config arrangement hf, ← step_frame ha.config arrangement' hf'] at hstate
  refine ⟨Indistinct.view_eq ?_ hstate, hstate⟩
  rw [respond_feed_of_ok ha.config hf, respond_feed_of_ok ha.config hf']
  exact congrArg Except.ok hframes

/--
Frames of the same content, with their slots delivered in the same order, are answered alike, and
no later call tells which of them it was: neither the frame number, nor what pads the header, nor
packet numbers, nor dropped slots, nor words and bytes beyond those counted.
-/
theorem trace_eq_of_sameContent (ha : a.Reachable c) {bytes bytes' : Bytes} {f f' : Frame}
    (hf : Frame.parse c bytes = .ok f) (hf' : Frame.parse c bytes' = .ok f')
    (h : Frame.SameContent c bytes bytes') {arrangement arrangement' : Arrangement}
    (horder : ((Call.feed arrangement bytes).results c).map Job.slot =
      ((Call.feed arrangement' bytes').results c).map Job.slot) (later : List Call) :
    let calls := Call.feed arrangement bytes :: later
    let calls' := Call.feed arrangement' bytes' :: later
    a.trace calls = a.trace calls' ∧
      (a.run calls).2.statistics = (a.run calls').2.statistics := by
  obtain ⟨hview, hstep⟩ := view_sameContent ha.consistent hf hf' h horder
  obtain ⟨htrace, hrun⟩ := hstep.trace_eq .eq later
  rw [View.mapFrames_id] at hview htrace
  rw [List.map_id, List.map_id] at htrace
  refine ⟨?_, hrun.statistics_eq⟩
  rw [trace, trace, htrace]
  exact congrArg (· :: _) hview

/-- A packet of two payload words out of three and a dropped slot, with one byte value for all the
rest. -/
theorem trace_eq_beside_noise :
    let c := { Config.small with packetBytes := 48 }
    let bytes (noise : UInt8) (beyond : Nat) : Bytes :=
      List.replicate 8 noise ++ [0] ++ List.replicate 7 noise ++ [noise + 1, 0] ++
        List.replicate 14 noise ++ [4, 0] ++ List.replicate 6 noise ++ [2, 0, 0, 0, 1] ++
        List.replicate 3 noise ++
        ByteOrder.little.encode (DataWord.extendedTimestamp 0x100200000).raw ++
        ByteOrder.little.encode (DataWord.event 7 0x200001 1).raw ++
        List.replicate (56 + beyond) noise
    Frame.SameContent c (bytes 0 0) (bytes 165 5) ∧
      ((Call.feed .slotOrder (bytes 165 5)).results c).map
        (fun j => (j.packetNumber, j.slice, j.decoded.events.size)) =
          [(0xA5A5A5A5, ⟨2, 1⟩, 1)] ∧
      ∃ a, ofConfig c = .ok a ∧ ∀ later,
        let calls := Call.feed .slotOrder (bytes 0 0) :: later
        let calls' := Call.feed .slotOrder (bytes 165 5) :: later
        a.trace calls = a.trace calls' ∧
          (a.run calls).2.statistics = (a.run calls').2.statistics := by
  intro c bytes
  have hlong : Frame.requiredBytes c (bytes 0 0) ≤ (bytes 0 0).length := by decide +kernel
  have hlong' : Frame.requiredBytes c (bytes 165 5) ≤ (bytes 165 5).length := by decide +kernel
  obtain ⟨f, hf⟩ := Frame.parse_of_long hlong
  obtain ⟨f', hf'⟩ := Frame.parse_of_long hlong'
  have hsame : Frame.SameContent c (bytes 0 0) (bytes 165 5) := by decide +kernel
  obtain ⟨a, ha⟩ : ∃ a, ofConfig { Config.small with packetBytes := 48 } = .ok a := ⟨_, rfl⟩
  refine ⟨hsame, by decide +kernel, a, ha, fun later => ?_⟩
  exact trace_eq_of_sameContent (.start ha) hf hf' hsame (by decide +kernel) later

end Assembler
end EventReadout
