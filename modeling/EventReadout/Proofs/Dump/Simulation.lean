import EventReadout.Dump.Simulation
import EventReadout.Proofs.Assembly.Run
import EventReadout.Proofs.Frame.Filled
import EventReadout.Proofs.Job.EventWords
import EventReadout.Proofs.Timestamp.Full

/-!
Simulated frames are read back.

All events of a frame lie in the coarse period that its packets announce, so that each packet
decodes to the events that it was made from, and to nothing else.
-/
namespace EventReadout

theorem bind_eq_ok_iff {ε α β : Type} {result : Except ε α} {f : α → Except ε β} {y : β} :
    (result >>= f) = .ok y ↔ ∃ x, result = .ok x ∧ f x = .ok y := by
  cases result with
  | ok x => simp [bind, Except.bind]
  | error cause => simp [bind, Except.bind]

theorem mapError_eq_ok_iff {ε ε' α : Type} {f : ε → ε'} {result : Except ε α} {x : α} :
    result.mapError f = .ok x ↔ result = .ok x := by
  cases result with
  | ok y => simp [Except.mapError]
  | error cause => simp [Except.mapError]

/-- The slice of this index, counted from the first buffer of the first generation. -/
def TimeSlice.nth (buffers index : Nat) : TimeSlice := ⟨index / buffers, index % buffers⟩

theorem TimeSlice.nth_succ {buffers : Nat} (h : 0 < buffers) (index : Nat) :
    nth buffers (index + 1) = (nth buffers index).succ buffers := by
  have hsplit := Nat.mod_add_div index buffers
  have hmod := Nat.mod_lt index h
  unfold nth succ
  dsimp only
  by_cases hroom : index % buffers + 1 < buffers
  · have hnext : (index + 1) / buffers = index / buffers ∧
        (index + 1) % buffers = index % buffers + 1 := by
      rw [Nat.div_mod_unique h]
      omega
    rw [if_pos hroom, hnext.1, hnext.2]
  · have hnext : (index + 1) / buffers = index / buffers + 1 ∧ (index + 1) % buffers = 0 := by
      rw [Nat.div_mod_unique h, Nat.mul_succ]
      omega
    rw [if_neg hroom, hnext.1, hnext.2]

namespace Simulation

variable {s : Simulation} {c : Config} {frame slot : Nat}

/-- The full timestamp of an event. -/
def time (s : Simulation) (frame slot k : Nat) : Nat :=
  2 ^ 32 + frame * 2 ^ 21 + (slot * s.eventsPerPacket + k) * 8 % 2 ^ 21

/-- The event that was meant by word `k` of a slot. -/
def event (s : Simulation) (frame slot k : Nat) : Event where
  timestamp := UInt64.ofNat (s.time frame slot k)
  id := UInt32.ofNat ((slot * 1000 + k) % 2 ^ 24)
  energy := UInt32.ofNat (k % 0x3FFF)

/-- The coarse timestamp of the frame has room in its field. -/
def InRange (frame : Nat) : Prop := 2 ^ 32 + frame * 2 ^ 21 < 2 ^ 52

theorem InRange.mono {count : Nat} (h : InRange count) (hle : frame ≤ count) : InRange frame :=
  Nat.lt_of_le_of_lt (Nat.add_le_add_left (Nat.mul_le_mul_right _ hle) _) h

theorem toNat_coarse (h : InRange frame) : (coarse frame).toNat = 2 ^ 32 + frame * 2 ^ 21 := by
  have hframe : (UInt64.ofNat frame).toNat = frame % 2 ^ 64 := rfl
  have hbase : coarseBase.toNat = 2 ^ 32 := rfl
  have hperiod : Timestamp.period.toNat = 2 ^ 21 := rfl
  unfold InRange at h
  rw [coarse, UInt64.toNat_add, UInt64.toNat_mul, hframe, hbase, hperiod]
  omega

theorem coarse_and_coarseMask (h : InRange frame) :
    coarse frame &&& DataWord.coarseMask = coarse frame := by
  have hcoarse := toNat_coarse h
  unfold InRange at h
  rw [← UInt64.toNat_inj, DataWord.toNat_and_coarseMask, hcoarse]
  omega

theorem time_lt (h : InRange frame) (slot k : Nat) : s.time frame slot k < 2 ^ 52 := by
  unfold InRange at h
  unfold time
  omega

theorem toNat_event (h : InRange frame) (slot k : Nat) :
    (s.event frame slot k).timestamp.toNat = s.time frame slot k ∧
      (s.event frame slot k).id.toNat = (slot * 1000 + k) % 2 ^ 24 ∧
      (s.event frame slot k).energy.toNat = k % 16383 := by
  have htime := time_lt (s := s) h slot k
  have hsize : UInt64.size = 2 ^ 64 := rfl
  have hsize32 : UInt32.size = 2 ^ 32 := rfl
  refine ⟨UInt64.toNat_ofNat_of_lt' ?_, UInt32.toNat_ofNat_of_lt' ?_,
    UInt32.toNat_ofNat_of_lt' ?_⟩
  · omega
  · omega
  · omega

/-- The offset of an event is added to the low bits of the coarse timestamp. -/
theorem toNat_fine (h : InRange frame) (slot k : Nat) :
    ((coarse frame &&& ~~~Timestamp.highMask) +
        UInt64.ofNat ((slot * s.eventsPerPacket + k) * 8) % Timestamp.period).toNat % 2 ^ 24 =
      s.time frame slot k % 2 ^ 24 := by
  have hoffset : (UInt64.ofNat ((slot * s.eventsPerPacket + k) * 8) % Timestamp.period).toNat =
      (slot * s.eventsPerPacket + k) * 8 % 2 ^ 21 := by
    rw [UInt64.toNat_mod]
    change (slot * s.eventsPerPacket + k) * 8 % 2 ^ 64 % 2 ^ 21 = _
    omega
  have hlow : (coarse frame &&& ~~~Timestamp.highMask).toNat % 2 ^ 24 =
      (coarse frame).toNat % 2 ^ 24 := by
    have hmasks : ~~~Timestamp.highMask &&& DataWord.fineMask = DataWord.fineMask := rfl
    rw [← DataWord.toNat_and_fineMask, UInt64.and_assoc, hmasks, DataWord.toNat_and_fineMask]
  rw [toNat_coarse h] at hlow
  rw [UInt64.toNat_add, hoffset]
  unfold time
  omega

theorem classify_eventWord (h : InRange frame) (slot k : Nat) :
    (s.eventWord (coarse frame) slot k).classify =
      .event (UInt64.ofNat (s.time frame slot k % 2 ^ 24))
        (UInt32.ofNat ((slot * 1000 + k) % 2 ^ 24)) (UInt16.ofNat (k % 0x3FFF)) := by
  have hmodulus : (0x1000000 : UInt64).toNat = 2 ^ 24 := rfl
  have hsize : UInt64.size = 2 ^ 64 := rfl
  have hfine : ((coarse frame &&& ~~~Timestamp.highMask) +
      UInt64.ofNat ((slot * s.eventsPerPacket + k) * 8) % Timestamp.period) % 0x1000000 =
        UInt64.ofNat (s.time frame slot k % 2 ^ 24) := by
    have hroom : s.time frame slot k % 2 ^ 24 < UInt64.size := by omega
    rw [← UInt64.toNat_inj, UInt64.toNat_mod, hmodulus, toNat_fine h,
      UInt64.toNat_ofNat_of_lt' hroom]
  have hid : UInt32.ofNat (slot * 1000 + k) % 0x1000000 =
      UInt32.ofNat ((slot * 1000 + k) % 2 ^ 24) := by
    rw [← UInt32.toNat_inj, UInt32.toNat_mod]
    change (slot * 1000 + k) % 2 ^ 32 % 2 ^ 24 = (slot * 1000 + k) % 2 ^ 24 % 2 ^ 32
    omega
  have henergy : UInt16.ofNat (k % 0x3FFF) % 0x4000 = UInt16.ofNat (k % 0x3FFF) := by
    rw [← UInt16.toNat_inj, UInt16.toNat_mod]
    change k % 0x3FFF % 2 ^ 16 % 2 ^ 14 = k % 0x3FFF % 2 ^ 16
    omega
  unfold eventWord
  dsimp only
  rw [DataWord.classify_event, hfine, hid, henergy]

theorem step_eventWord (h : InRange frame) (slot k : Nat) {d : WordDecoder}
    (hd : d.coarse.current = coarse frame) :
    d.step (s.eventWord (coarse frame) slot k) =
      { d with events := d.events.push (s.event frame slot k) } := by
  have hperiod : d.coarse.current.toNat / 2 ^ 21 = s.time frame slot k / 2 ^ 21 := by
    rw [hd, toNat_coarse h]
    unfold time
    omega
  have hresolve : d.coarse.resolve (UInt64.ofNat (s.time frame slot k % 2 ^ 24)) =
      .ok (UInt64.ofNat (s.time frame slot k)) :=
    Timestamp.full_of_same_period (time_lt h slot k) hperiod
  have henergy : (UInt16.ofNat (k % 0x3FFF)).toUInt32 = UInt32.ofNat (k % 0x3FFF) := by
    rw [← UInt32.toNat_inj, UInt16.toNat_toUInt32]
    change k % 0x3FFF % 2 ^ 16 = k % 0x3FFF % 2 ^ 32
    omega
  rw [WordDecoder.step_of_classify_event (classify_eventWord h slot k) hresolve, henergy, event]

theorem run_eventWords (h : InRange frame) (slot : Nat) (ks : List Nat) {d : WordDecoder}
    (hd : d.coarse.current = coarse frame) :
    d.run (ks.map fun k => s.eventWord (coarse frame) slot k) =
      { d with events := ⟨d.events.events ++ (ks.map (s.event frame slot)).toArray⟩ } := by
  induction ks generalizing d with
  | nil => simp [WordDecoder.run]
  | cons k rest ih =>
    have hrest := ih (d := { d with events := d.events.push (s.event frame slot k) }) hd
    rw [WordDecoder.run] at hrest ⊢
    rw [List.map_cons, List.foldl_cons, step_eventWord h slot k hd, hrest]
    simp

/-- A packet decodes to its events, and to nothing else. -/
theorem ofWords_payload (h : InRange frame) (slot : Nat) :
    DecodedWords.ofWords ((s.payload (coarse frame) slot).map DataWord.mk) =
      { events := ⟨((List.range s.eventsPerPacket).map (s.event frame slot)).toArray⟩ } := by
  have hwords : (s.payload (coarse frame) slot).map DataWord.mk =
      DataWord.extendedTimestamp (coarse frame) ::
        (List.range s.eventsPerPacket).map fun k => s.eventWord (coarse frame) slot k := by
    rw [payload, List.map_cons, List.map_map]
    rfl
  have hstart : malformedStart? (DataWord.extendedTimestamp (coarse frame) ::
      (List.range s.eventsPerPacket).map fun k => s.eventWord (coarse frame) slot k) = none := by
    have hopening : (DataWord.extendedTimestamp (coarse frame)).isExtendedTimestamp = true := by
      rw [DataWord.isExtendedTimestamp, DataWord.controlType?_extendedTimestamp]
      rfl
    simp [malformedStart?, hopening]
  have hfirst : ({} : WordDecoder).step (DataWord.extendedTimestamp (coarse frame)) =
      { coarse := ({} : CoarseTimestamps).observe (coarse frame) } := by
    rw [WordDecoder.step_of_classify_extendedTimestamp (DataWord.classify_extendedTimestamp _),
      coarse_and_coarseMask h]
  rw [hwords, DecodedWords.ofWords_eq, hstart, WordDecoder.run, List.foldl_cons, hfirst]
  have hrun := run_eventWords (s := s) h slot (List.range s.eventsPerPacket)
    (d := { coarse := ({} : CoarseTimestamps).observe (coarse frame) }) rfl
  rw [WordDecoder.run] at hrun
  rw [hrun]
  simp

end Simulation

namespace FrameDraft

/-- The bytes of a frame, if it can be encoded. -/
def image (d : FrameDraft) (c : Config) : Bytes := (d.encode c).toOption.getD []

theorem encode_eq_ok_iff_image {d : FrameDraft} {c : Config} {bytes : Bytes} :
    d.encode c = .ok bytes ↔ d.encode c = .ok (d.image c) ∧ bytes = d.image c := by
  constructor
  · intro h
    have himage : d.image c = bytes := by
      rw [image, h]
      rfl
    rw [himage]
    exact ⟨h, rfl⟩
  · rintro ⟨h, rfl⟩
    exact h

theorem filling?_foldl_fill (count : Nat) (header : Nat → PacketHeader)
    (payload : Nat → List UInt64) (d : FrameDraft) :
    let filled := (List.range count).foldl
      (fun d slot => d.fill slot (header slot) (payload slot)) d
    filled.idle = d.idle ∧ ∀ slot, filled.filling? slot =
      if slot < count then some ⟨slot, header slot, payload slot⟩ else d.filling? slot := by
  induction count with
  | zero => exact ⟨rfl, fun slot => rfl⟩
  | succ count ih =>
    obtain ⟨hidle, hfilled⟩ := ih
    dsimp only
    rw [List.range_succ, List.foldl_append]
    refine ⟨hidle, fun slot => ?_⟩
    change (fill _ count _ _).filling? slot = _
    rw [filling?_fill, hfilled]
    by_cases hlast : count = slot
    · rw [if_pos hlast, hlast, if_pos (Nat.lt_succ_self _)]
    · rw [if_neg hlast]
      congr 1
      rw [eq_iff_iff]
      omega

end FrameDraft

namespace Simulation

variable {s : Simulation} {c : Config} {frame : Nat}

theorem idle_draft (s : Simulation) (c : Config) (frame : Nat) : (s.draft c frame).idle = false :=
  (FrameDraft.filling?_foldl_fill _ _ _ _).1

theorem filling?_draft (s : Simulation) (c : Config) (frame slot : Nat) :
    (s.draft c frame).filling? slot =
      if slot < s.packets c then some ⟨slot, header c frame slot, s.payload (coarse frame) slot⟩
      else none :=
  (FrameDraft.filling?_foldl_fill _ _ _ _).2 slot

theorem sub_min_eq_packets (s : Simulation) (c : Config) :
    c.packetSlots - min c.packetSlots s.droppedSlots = s.packets c := by
  unfold packets
  omega

/-- The decoded packet of a slot. -/
def job (s : Simulation) (c : Config) (frame slot : Nat) : Job :=
  (Filling.job ⟨slot, header c frame slot, s.payload (coarse frame) slot⟩).decode

theorem decoded_job (h : InRange frame) (slot : Nat) :
    (s.job c frame slot).decoded =
      { events := ⟨((List.range s.eventsPerPacket).map (s.event frame slot)).toArray⟩ } :=
  ofWords_payload h slot

theorem slice_job (hc : c.Valid) (h : InRange frame) (slot : Nat) :
    (s.job c frame slot).slice = .nth c.sliceBuffers frame := by
  have hmod := Nat.mod_lt frame hc.sliceBuffers_pos
  have hfew := hc.sliceBuffers_le
  have hdiv := Nat.div_le_self frame c.sliceBuffers
  unfold InRange at h
  have hwrap : frame / c.sliceBuffers < 2 ^ 32 := by omega
  have hbuffer : frame % c.sliceBuffers < 256 := by omega
  rw [TimeSlice.ext_iff]
  change min (frame / c.sliceBuffers) 0xFFFFFFFF % 2 ^ 32 = frame / c.sliceBuffers ∧
    frame % c.sliceBuffers % 2 ^ 32 % 256 = frame % c.sliceBuffers
  rw [Nat.min_eq_left (Nat.le_of_lt_succ hwrap), Nat.mod_eq_of_lt hwrap,
    Nat.mod_eq_of_lt (Nat.lt_trans hbuffer (by decide)), Nat.mod_eq_of_lt hbuffer]
  exact ⟨rfl, rfl⟩

theorem jobs_of_encode (hc : c.Valid) {bytes : Bytes} (h : (s.draft c frame).encode c = .ok bytes) :
    bytes.length = c.frameBytes ∧
      ∃ f, Frame.parse c bytes = .ok f ∧ f.idle = false ∧
        f.jobs.map Job.decode = (List.range (s.packets c)).map (s.job c frame) := by
  obtain ⟨hlength, f, hparse, hidle, hjobs⟩ :=
    FrameDraft.jobs_of_encode hc (s.idle_draft c frame) h
  refine ⟨hlength, f, hparse, hidle, ?_⟩
  have hslots : c.packetSlots = s.packets c + min c.packetSlots s.droppedSlots := by
    rw [← sub_min_eq_packets]
    omega
  have hfilled : ∀ slot ∈ List.range (s.packets c),
      ((s.draft c frame).filling? slot).map Filling.job =
        some (Filling.job ⟨slot, header c frame slot, s.payload (coarse frame) slot⟩) := by
    intro slot hslot
    rw [filling?_draft, if_pos (List.mem_range.1 hslot)]
    rfl
  have hempty : ((List.range (min c.packetSlots s.droppedSlots)).map (s.packets c + ·)).filterMap
      (fun slot => ((s.draft c frame).filling? slot).map Filling.job) = [] := by
    rw [List.filterMap_eq_nil_iff]
    intro slot hslot
    obtain ⟨i, -, rfl⟩ := List.mem_map.1 hslot
    rw [filling?_draft, if_neg (by omega)]
    rfl
  rw [hjobs, hslots, List.range_add, List.filterMap_append, List.filterMap_congr hfilled, hempty,
    List.append_nil, List.filterMap_eq_map', List.map_map]
  rfl

/-- All frames that can be encoded, the idle one last. -/
def images (s : Simulation) (c : Config) : List Bytes :=
  ((List.range s.frames).map fun frame => (s.draft c frame).image c) ++ [s.closing.image c]

/-- The number of events in the standard frames. -/
def events (s : Simulation) (c : Config) : Nat := s.frames * s.packets c * s.eventsPerPacket

theorem foldl_add_events (s : Simulation) (packets : Nat) (events : UInt64) :
    (List.range packets).foldl (fun events _ => events + UInt64.ofNat s.eventsPerPacket) events =
      events + UInt64.ofNat (packets * s.eventsPerPacket) := by
  induction packets with
  | zero => simp
  | succ packets ih =>
    rw [List.range_succ, List.foldl_append, ih, Nat.succ_mul, UInt64.ofNat_add,
      ← UInt64.add_assoc]
    rfl

theorem encodeFrame_eq_ok_iff {d : FrameDraft} {bytes : Bytes} :
    encodeFrame c d = .ok bytes ↔ d.encode c = .ok (d.image c) ∧ bytes = d.image c :=
  mapError_eq_ok_iff.trans FrameDraft.encode_eq_ok_iff_image

/-- Frame by frame the images are written, and the events counted are those of all packets. -/
theorem foldlM_writeFrame {w w' : Written} {frames : List Nat}
    (h : frames.foldlM (s.writeFrame c) w = .ok w') :
    (∀ frame ∈ frames, (s.draft c frame).encode c = .ok ((s.draft c frame).image c)) ∧
      w'.frames.toList = w.frames.toList ++ frames.map (fun frame => (s.draft c frame).image c) ∧
      w'.events = w.events + UInt64.ofNat (frames.length * s.packets c * s.eventsPerPacket) := by
  induction frames generalizing w with
  | nil =>
    cases h
    simp
  | cons frame rest ih =>
    rw [List.foldlM_cons] at h
    obtain ⟨next, hnext, h⟩ := bind_eq_ok_iff.1 h
    obtain ⟨bytes, hbytes, hnext⟩ := bind_eq_ok_iff.1 hnext
    obtain ⟨hencode, rfl⟩ := encodeFrame_eq_ok_iff.1 hbytes
    cases hnext
    obtain ⟨hrest, hframes, hevents⟩ := ih h
    refine ⟨List.forall_mem_cons.2 ⟨hencode, hrest⟩, ?_, ?_⟩
    · rw [hframes]
      simp
    · rw [hevents, foldl_add_events, List.length_cons, UInt64.add_assoc, ← UInt64.ofNat_add,
        Nat.succ_mul, Nat.add_mul, Nat.add_comm (s.packets c * s.eventsPerPacket)]

/-- A dump is accepted if all its frames are, and then consists of them and their events. -/
theorem encode_spec {bytes : Bytes} {total : UInt64} (h : s.encode c = .ok (bytes, total)) :
    (∀ frame < s.frames, (s.draft c frame).encode c = .ok ((s.draft c frame).image c)) ∧
      s.closing.encode c = .ok (s.closing.image c) ∧ bytes = (s.images c).flatten ∧
      total = UInt64.ofNat (s.events c) ∧ s.eventsPerPacket ≤ c.payloadWords - 1 := by
  unfold encode at h
  dsimp only at h
  split at h
  · cases h
  · next hroom =>
    obtain ⟨w, hw, h⟩ := bind_eq_ok_iff.1 h
    obtain ⟨last, hlast, h⟩ := bind_eq_ok_iff.1 h
    obtain ⟨hencoded, hframes, hevents⟩ := foldlM_writeFrame hw
    obtain ⟨hclosing, rfl⟩ := encodeFrame_eq_ok_iff.1 hlast
    cases h
    refine ⟨fun frame hframe => hencoded frame (List.mem_range.2 hframe), hclosing, ?_, ?_,
      Nat.le_of_not_lt hroom⟩
    · rw [hframes, images, List.flatten_append, List.flatten_append, List.flatten_singleton]
      rfl
    · rw [hevents, List.length_range, UInt64.zero_add, events]

end Simulation
end EventReadout
