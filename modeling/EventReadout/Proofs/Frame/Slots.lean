import EventReadout.Proofs.Frame.Jobs

/-!
Frames as they stand in their bytes: how many bytes a frame needs, which slots are valid, and the
job that each valid slot becomes.
-/
namespace EventReadout
namespace Frame

variable {c : Config} {bytes : Bytes} {f : Frame}

/-- The validity byte of a slot is set. -/
def validFlag (bytes : Bytes) (slot : Nat) : Bool := bytes.getD (validityOffset + slot) 0 != 0

/-- Where the packet of a slot begins. -/
def slotOffset (c : Config) (slot : Nat) : Nat := c.headerBytes + slot * c.packetBytes

/-- A word of the packet in a slot. -/
def slotWord (c : Config) (bytes : Bytes) (slot index : Nat) : UInt64 :=
  c.byteOrder.wordAt bytes (slotOffset c slot + index * wordBytes)

/-- The packet in a slot, valid or not. -/
def slotPacket (c : Config) (bytes : Bytes) (slot : Nat) : Packet :=
  ⟨(bytes.drop (slotOffset c slot)).take c.packetBytes, c.byteOrder, c.headerWords⟩

def slotHeader (c : Config) (bytes : Bytes) (slot : Nat) : PacketHeader :=
  .decode (slotWord c bytes slot 1) (slotWord c bytes slot 2)

/-- The words that the header claims, as far as the packet has them. -/
def slotPayload (c : Config) (bytes : Bytes) (slot : Nat) : List UInt64 :=
  (List.range (min ((slotHeader c bytes slot).payloadWords c.headerWords) c.payloadWords)).map
    fun i => slotWord c bytes slot (c.headerWords + i)

/-- What the packet in a slot becomes before it is decoded. -/
def slotJob (c : Config) (bytes : Bytes) (slot : Nat) : Job :=
  (Job.blank.assign slot (slotHeader c bytes slot)).appendWords (slotPayload c bytes slot)

/-- An idle frame needs a header, a standard frame all its slots as well. -/
def requiredBytes (c : Config) (bytes : Bytes) : Nat :=
  if bytes.length < c.headerBytes ∨ idleFlag bytes then c.headerBytes else c.frameBytes

theorem parse_of_short (h : bytes.length < requiredBytes c bytes) :
    parse c bytes = .error (.fault (.shortFrame (requiredBytes c bytes) bytes.length)) := by
  unfold requiredBytes at *
  unfold parse
  dsimp only
  by_cases hheader : bytes.length < c.headerBytes
  · rw [if_pos hheader, if_pos (Or.inl hheader)]
  · cases hidle : idleFlag bytes with
    | true =>
      rw [if_pos (Or.inr hidle)] at h
      exact absurd h hheader
    | false =>
      have hstandard : ¬ (bytes.length < c.headerBytes ∨ idleFlag bytes = true) := by
        simp [hheader, hidle]
      rw [hidle] at hstandard
      rw [hidle, if_neg hstandard] at h
      rw [if_neg hheader, if_neg hstandard, if_pos (by simpa using h)]

theorem parse_of_long (h : requiredBytes c bytes ≤ bytes.length) :
    ∃ f, parse c bytes = .ok f := by
  unfold requiredBytes at h
  unfold parse
  dsimp only
  by_cases hheader : bytes.length < c.headerBytes
  · rw [if_pos (Or.inl hheader)] at h
    omega
  · rw [if_neg hheader]
    cases hidle : idleFlag bytes with
    | true =>
      rw [if_neg (by simp)]
      exact ⟨_, rfl⟩
    | false =>
      rw [hidle, if_neg (by simp [hheader])] at h
      rw [if_neg (by simpa using h)]
      exact ⟨_, rfl⟩

theorem parse_of_length (h : bytes.length = c.frameBytes) : ∃ f, parse c bytes = .ok f := by
  apply parse_of_long
  unfold requiredBytes Config.frameBytes at *
  split
  · omega
  · omega

/-- The length of the bytes decides whether they are a frame, once the idle flag is known. -/
theorem parse_eq_error_iff {cause : DecodeError} :
    parse c bytes = .error cause ↔
      bytes.length < requiredBytes c bytes ∧
        cause = .fault (.shortFrame (requiredBytes c bytes) bytes.length) := by
  by_cases h : bytes.length < requiredBytes c bytes
  · rw [parse_of_short h, Except.error.injEq, eq_comm]
    simp [h]
  · obtain ⟨f, hf⟩ := parse_of_long (Nat.le_of_not_lt h)
    rw [hf]
    simp [h]

theorem headerBytes_le_of_parse (h : parse c bytes = .ok f) : c.headerBytes ≤ bytes.length := by
  by_contra hshort
  rw [parse, if_pos (Nat.lt_of_not_le hshort)] at h
  cases h

theorem idleFlag_eq_false_iff (hc : c.Valid) (h : c.headerBytes ≤ bytes.length) :
    idleFlag bytes = false ↔ bytes[idleOffset]? = some 0 := by
  have hslots := hc.packetSlots_pos
  have hlength : idleOffset < bytes.length := by
    unfold Config.headerBytes at h
    unfold idleOffset
    omega
  unfold idleFlag
  rw [List.getD_eq_getElem?_getD, List.getElem?_eq_getElem hlength]
  simp

theorem lt_requiredBytes_iff (hc : c.Valid) :
    bytes.length < requiredBytes c bytes ↔
      bytes.length < c.headerBytes ∨
        bytes[idleOffset]? = some 0 ∧ bytes.length < c.frameBytes := by
  unfold requiredBytes
  by_cases hheader : bytes.length < c.headerBytes
  · simp [hheader]
  · rw [← idleFlag_eq_false_iff hc (Nat.le_of_not_lt hheader)]
    cases hidle : idleFlag bytes <;> simp [hheader]

theorem requiredBytes_of_short (h : bytes.length < requiredBytes c bytes) :
    requiredBytes c bytes =
      if bytes.length < c.headerBytes then c.headerBytes else c.frameBytes := by
  unfold requiredBytes at *
  by_cases hheader : bytes.length < c.headerBytes
  · simp [hheader]
  · cases hidle : idleFlag bytes with
    | true => simp [hheader, hidle] at h
    | false => simp [hheader]

/-- The slots lie in the frame one after the other. -/
theorem slotOffset_add_le {slot : Nat} (hslot : slot < c.packetSlots)
    (h : c.frameBytes ≤ bytes.length) : slotOffset c slot + c.packetBytes ≤ bytes.length := by
  have hslots : (slot + 1) * c.packetBytes ≤ c.packetSlots * c.packetBytes :=
    Nat.mul_le_mul_right _ hslot
  rw [Nat.succ_mul] at hslots
  unfold Config.frameBytes at h
  unfold slotOffset
  omega

/-- The slots tile the bytes behind the header: each of these is in one slot, and no others are. -/
theorem slots_tile (hc : c.Valid) (offset : Nat) :
    c.headerBytes ≤ offset ∧ offset < c.frameBytes ↔
      ∃! slot, slot < c.packetSlots ∧ slotOffset c slot ≤ offset ∧
        offset < slotOffset c slot + c.packetBytes := by
  have hpos : 0 < c.packetBytes := Nat.zero_lt_of_lt hc.header_lt_packet
  unfold slotOffset Config.frameBytes
  constructor
  · rintro ⟨hheader, hend⟩
    obtain ⟨rest, rfl⟩ := Nat.exists_eq_add_of_le hheader
    have hslot : rest / c.packetBytes * c.packetBytes ≤ rest := Nat.div_mul_le_self _ _
    have hnext : rest < rest / c.packetBytes * c.packetBytes + c.packetBytes :=
      Nat.lt_div_mul_add hpos
    refine ⟨rest / c.packetBytes, ⟨?_, by omega, by omega⟩, ?_⟩
    · rw [Nat.div_lt_iff_lt_mul hpos]
      omega
    · rintro slot ⟨-, hle, hlt⟩
      symm
      apply Nat.div_eq_of_lt_le
      · omega
      · rw [Nat.succ_mul]
        omega
  · rintro ⟨slot, ⟨hslot, hle, hlt⟩, -⟩
    have hlast : (slot + 1) * c.packetBytes ≤ c.packetSlots * c.packetBytes :=
      Nat.mul_le_mul_right _ hslot
    rw [Nat.succ_mul] at hlast
    omega

theorem validity_of_parse (h : parse c bytes = .ok f) (hidle : f.idle = false) :
    f.validity = (List.range c.packetSlots).map (validFlag bytes) := by
  have hlength := (packets_of_parse h hidle).2.1
  have hvalidity : f.validity =
      ((bytes.drop validityOffset).take c.packetSlots).map (· != 0) := by
    unfold parse at h
    dsimp only at h
    split at h
    · cases h
    · split at h
      · cases h
      · cases h
        rfl
  apply List.ext_getElem
  · rw [hlength, List.length_map, List.length_range]
  · intro slot hslot _
    have hbyte : validityOffset + slot < bytes.length := by
      rw [hvalidity, List.length_map, List.length_take, List.length_drop] at hslot
      omega
    simp only [hvalidity, List.getElem_map, List.getElem_take, List.getElem_drop,
      List.getElem_range, validFlag]
    rw [List.getD_eq_getElem?_getD, List.getElem?_eq_getElem hbyte, Option.getD_some]

theorem cutPackets_eq (c : Config) (validity : List Bool) (bytes : Bytes) :
    cutPackets c validity bytes = validity.mapIdx fun slot valid =>
      if valid then
        some ⟨(bytes.drop (slot * c.packetBytes)).take c.packetBytes, c.byteOrder, c.headerWords⟩
      else none := by
  induction validity generalizing bytes with
  | nil => rfl
  | cons valid rest ih =>
    rw [cutPackets, ih, List.mapIdx_cons, Nat.zero_mul, List.drop_zero]
    congr 2
    funext slot valid
    rw [List.drop_drop, Nat.succ_mul, Nat.add_comm]

/-- Only the layout of a frame matters to how it is read. -/
theorem parse_congr {c' : Config} (hslots : c.packetSlots = c'.packetSlots)
    (hbytes : c.packetBytes = c'.packetBytes) (hwords : c.headerWords = c'.headerWords)
    (horder : c.byteOrder = c'.byteOrder) : parse c bytes = parse c' bytes := by
  have hcut (validity : List Bool) (bytes : Bytes) :
      cutPackets c validity bytes = cutPackets c' validity bytes := by
    rw [cutPackets_eq, cutPackets_eq, hbytes, hwords, horder]
  have hheader : c.headerBytes = c'.headerBytes := by
    rw [Config.headerBytes, hslots, Config.headerBytes]
  have hframe : c.frameBytes = c'.frameBytes := by
    rw [Config.frameBytes, hheader, hslots, hbytes, Config.frameBytes]
  unfold parse
  rw [hheader, hframe, hslots, horder]
  simp only [hcut]

theorem packets_eq (h : parse c bytes = .ok f) (hidle : f.idle = false) :
    f.packets = (List.range c.packetSlots).map fun slot =>
      if validFlag bytes slot then some (slotPacket c bytes slot) else none := by
  rw [(packets_of_parse h hidle).2.2, validity_of_parse h hidle, cutPackets_eq]
  apply List.ext_getElem
  · simp
  · intro slot _ _
    simp [slotPacket, slotOffset, List.drop_drop]

theorem packet?_eq (h : parse c bytes = .ok f) (hidle : f.idle = false) {slot : Nat}
    (hslot : slot < c.packetSlots) :
    f.packet? slot = if validFlag bytes slot then some (slotPacket c bytes slot) else none := by
  rw [packet?, packets_eq h hidle, List.getElem?_map, List.getElem?_range hslot]
  rfl

section Slot

variable {slot : Nat}

theorem length_slotPacket (hslot : slot < c.packetSlots) (h : c.frameBytes ≤ bytes.length) :
    (slotPacket c bytes slot).bytes.length = c.packetBytes := by
  have hroom := slotOffset_add_le hslot h
  unfold slotPacket
  rw [List.length_take, List.length_drop]
  omega

theorem payloadCapacity_slotPacket (hslot : slot < c.packetSlots)
    (h : c.frameBytes ≤ bytes.length) :
    (slotPacket c bytes slot).payloadCapacity = c.payloadWords := by
  unfold Packet.payloadCapacity
  rw [length_slotPacket hslot h]
  rfl

theorem word_slotPacket {index : Nat} (h : (index + 1) * wordBytes ≤ c.packetBytes) :
    (slotPacket c bytes slot).word index = slotWord c bytes slot index := by
  rw [Nat.succ_mul] at h
  exact ByteOrder.wordAt_part _ _ h

theorem word_slotPacket_payload (hc : c.Valid) {index : Nat} (h : index < c.payloadWords) :
    (slotPacket c bytes slot).word (c.headerWords + index) =
      slotWord c bytes slot (c.headerWords + index) := by
  have haligned := hc.packetBytes_aligned
  apply word_slotPacket
  unfold Config.payloadWords Config.wordsPerPacket at h
  rw [wordBytes] at *
  omega

theorem word_slotPacket_header (hc : c.Valid) {index : Nat} (h : index < c.headerWords) :
    (slotPacket c bytes slot).word index = slotWord c bytes slot index := by
  have hroom := hc.header_lt_packet
  apply word_slotPacket
  rw [wordBytes] at *
  omega

theorem header_slotPacket (hc : c.Valid) (hslot : slot < c.packetSlots)
    (h : c.frameBytes ≤ bytes.length) :
    (slotPacket c bytes slot).header = .ok (slotHeader c bytes slot) := by
  have hwords := hc.headerWords_ge
  have hroom := hc.header_lt_packet
  rw [Packet.header_eq, word_slotPacket_header hc (by omega), word_slotPacket_header hc (by omega)]
  · rfl
  · rw [length_slotPacket hslot h]
    rw [wordBytes] at *
    omega

theorem readPayload_slotPacket (hc : c.Valid) (hslot : slot < c.packetSlots)
    (h : c.frameBytes ≤ bytes.length) (out : List UInt64) :
    (slotPacket c bytes slot).readPayload
        (min ((slotHeader c bytes slot).payloadWords c.headerWords) c.payloadWords) out =
      .ok (out ++ slotPayload c bytes slot) := by
  have hheader : (slotPacket c bytes slot).headerWords * wordBytes ≤
      (slotPacket c bytes slot).bytes.length := by
    rw [length_slotPacket hslot h]
    exact Nat.le_of_lt hc.header_lt_packet
  rw [Packet.readPayload_eq hheader]
  · congr 2
    apply List.map_congr_left
    intro i hi
    exact word_slotPacket_payload hc
      (Nat.lt_of_lt_of_le (List.mem_range.1 hi) (Nat.min_le_right _ _))
  · rw [payloadCapacity_slotPacket hslot h]
    exact Nat.min_le_right _ _

theorem job_slotPacket (hc : c.Valid) (hslot : slot < c.packetSlots)
    (h : c.frameBytes ≤ bytes.length) :
    (slotPacket c bytes slot).job slot = .ok (slotJob c bytes slot) := by
  have hread := readPayload_slotPacket hc hslot h []
  rw [Packet.job_of_header (header_slotPacket hc hslot h), payloadCapacity_slotPacket hslot h]
  change Except.map _ ((slotPacket c bytes slot).readPayload
    (min ((slotHeader c bytes slot).payloadWords c.headerWords) c.payloadWords) []) = _
  rw [hread]
  rfl

/-- Whatever a slot of a standard frame contains, it lies in the frame and can be read. -/
theorem slot_readable (hc : c.Valid) (h : parse c bytes = .ok f) (hidle : f.idle = false)
    (hslot : slot < c.packetSlots) :
    validityOffset + slot < bytes.length ∧
      slotOffset c slot + c.packetBytes ≤ bytes.length ∧
      f.packet? slot = (if validFlag bytes slot then some (slotPacket c bytes slot) else none) ∧
      (slotPacket c bytes slot).header = .ok (slotHeader c bytes slot) ∧
      (slotPacket c bytes slot).payloadCapacity = c.payloadWords ∧
      ∀ out, (slotPacket c bytes slot).readPayload
          (min ((slotHeader c bytes slot).payloadWords c.headerWords) c.payloadWords) out =
        .ok (out ++ slotPayload c bytes slot) := by
  have hlength := (packets_of_parse h hidle).1
  refine ⟨?_, slotOffset_add_le hslot hlength, packet?_eq h hidle hslot,
    header_slotPacket hc hslot hlength, payloadCapacity_slotPacket hslot hlength,
    readPayload_slotPacket hc hslot hlength⟩
  have hheader := headerBytes_le_of_parse h
  unfold Config.headerBytes at hheader
  unfold validityOffset
  omega

end Slot

theorem jobs_eq (hc : c.Valid) (h : parse c bytes = .ok f) (hidle : f.idle = false) :
    f.jobs = ((List.range c.packetSlots).filter (validFlag bytes)).map (slotJob c bytes) := by
  have hlength := (packets_of_parse h hidle).1
  have hslots : f.packets.zipIdx = (List.range c.packetSlots).map fun slot =>
      (if validFlag bytes slot then some (slotPacket c bytes slot) else none, slot) := by
    rw [packets_eq h hidle]
    apply List.ext_getElem
    · simp
    · intro slot _ _
      simp
  have hjob : ∀ slot ∈ List.range c.packetSlots,
      ((if validFlag bytes slot then some (slotPacket c bytes slot) else none).bind
        fun p => (p.job slot).toOption) =
          if validFlag bytes slot then some (slotJob c bytes slot) else none := by
    intro slot hslot
    cases validFlag bytes slot with
    | false => rfl
    | true =>
      change ((slotPacket c bytes slot).job slot).toOption = _
      rw [job_slotPacket hc (List.mem_range.1 hslot) hlength]
      rfl
  unfold jobs
  rw [hslots, List.filterMap_map]
  refine (List.filterMap_congr hjob).trans ?_
  rw [← List.filterMap_eq_map, ← List.filterMap_eq_filter, List.filterMap_filterMap]
  apply List.filterMap_congr
  intro slot _
  cases hvalid : validFlag bytes slot with
  | false => simp [Option.guard, hvalid]
  | true => simp [Option.guard, hvalid]

/-- The header alone tells how many jobs there are and how many slots are dropped. -/
theorem validCount_eq (hc : c.Valid) (h : parse c bytes = .ok f) (hidle : f.idle = false) :
    f.validCount = f.jobs.length ∧ f.slots = c.packetSlots := by
  have hvalidity := validity_of_parse h hidle
  have hflags (slot : Nat) : (validFlag bytes slot == true) = validFlag bytes slot := by simp
  constructor
  · rw [jobs_eq hc h hidle, List.length_map, validCount, hvalidity, List.count_eq_countP,
      List.countP_map, List.countP_eq_length_filter]
    simp only [Function.comp_def, hflags]
  · rw [slots, hvalidity, List.length_map, List.length_range]

end Frame
end EventReadout
