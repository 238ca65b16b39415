import EventReadout.Assembly.Intake
import EventReadout.Job.Decode
import EventReadout.Proofs.Word.Cursor
import Mathlib.Data.List.Basic
import Mathlib.Logic.Function.Iterate

/-!
The jobs that a frame stands for, whatever jobs the pool hands out.

A frame that parses has no packet that cannot be read.
-/
namespace EventReadout

namespace Packet

/-- The job that a packet becomes, before it is decoded. -/
def job (p : Packet) (slot : Nat) : Except DecodeError Job := do
  let header ← p.header
  let words ← p.readPayload (min (header.payloadWords p.headerWords) p.payloadCapacity) []
  return (Job.blank.assign slot header).appendWords words

theorem job_of_header {p : Packet} {header : PacketHeader} (h : p.header = .ok header)
    (slot : Nat) :
    p.job slot = (p.readPayload (min (header.payloadWords p.headerWords) p.payloadCapacity) []).map
      fun words => (Job.blank.assign slot header).appendWords words := by
  rw [job, h]
  rfl

/-- A word of the packet, header words included. -/
def word (p : Packet) (index : Nat) : UInt64 := p.order.wordAt p.bytes (index * wordBytes)

theorem header_eq {p : Packet} (h : 3 * wordBytes ≤ p.bytes.length) :
    p.header = .ok (.decode (p.word 1) (p.word 2)) := by
  rw [wordBytes] at h
  unfold header
  rw [WordCursor.skip_eq_ok (by simp only [WordCursor.ofBytes, wordBytes]; omega)]
  change (WordCursor.read _ >>= _) = _
  rw [WordCursor.read_eq_ok (by
    simp only [WordCursor.rest_length_advance, WordCursor.ofBytes, wordBytes]; omega)]
  change (WordCursor.read _ >>= _) = _
  rw [WordCursor.read_eq_ok (by
    simp only [WordCursor.rest_length_advance, WordCursor.ofBytes, wordBytes]; omega)]
  have hsecond : (p.bytes.drop (1 * wordBytes)).drop wordBytes = p.bytes.drop (2 * wordBytes) :=
    List.drop_drop
  change Except.ok (PacketHeader.decode _ (p.order.decode
    (((p.bytes.drop (1 * wordBytes)).drop wordBytes).take wordBytes))) = _
  rw [hsecond]
  rfl

theorem readPayload_eq {p : Packet} {count : Nat}
    (hheader : p.headerWords * wordBytes ≤ p.bytes.length) (h : count ≤ p.payloadCapacity)
    (out : List UInt64) :
    p.readPayload count out =
      .ok (out ++ (List.range count).map fun i => p.word (p.headerWords + i)) := by
  have hcount : count * wordBytes ≤ (p.bytes.drop (p.headerWords * wordBytes)).length := by
    unfold payloadCapacity at h
    rw [List.length_drop]
    rw [wordBytes] at *
    omega
  have hword (i : Nat) : p.order.wordAt p.bytes (p.headerWords * wordBytes + i * wordBytes) =
      p.word (p.headerWords + i) := by
    rw [word, Nat.add_mul]
  unfold readPayload
  rw [WordCursor.skip_eq_ok (by simpa [WordCursor.ofBytes] using hheader)]
  change (WordCursor.readInto _ _ _ >>= _) = _
  rw [WordCursor.readInto_eq_ok hcount]
  change Except.ok (out ++ p.order.decodeAll (List.take _ (p.bytes.drop _))) = _
  rw [ByteOrder.decodeAll_drop_take p.order hcount, ByteOrder.wordsAt]
  simp only [hword]

/-- A packet with room for its header words can be read, whatever it claims. -/
theorem job_eq_ok {p : Packet} (h3 : 3 ≤ p.headerWords)
    (hheader : p.headerWords * wordBytes ≤ p.bytes.length) (slot : Nat) :
    let header := PacketHeader.decode (p.word 1) (p.word 2)
    let count := min (header.payloadWords p.headerWords) p.payloadCapacity
    p.job slot = .ok ((Job.blank.assign slot header).appendWords
      ((List.range count).map fun i => p.word (p.headerWords + i))) := by
  have hroom : 3 * wordBytes ≤ p.bytes.length := by
    rw [wordBytes] at *
    omega
  dsimp only
  rw [job_of_header (header_eq hroom), readPayload_eq hheader (Nat.min_le_right _ _)]
  rfl

end Packet

/-- The jobs of the valid slots, in slot order. -/
def Frame.jobs (f : Frame) : List Job :=
  f.packets.zipIdx.filterMap fun (packet, slot) => packet.bind fun p => (p.job slot).toOption

/-- Jobs in the pool carry nothing from earlier packets. -/
def Pool.Blank (p : Pool Job) : Prop := ∀ j ∈ p.free, j = Job.blank

namespace Pool.Blank

theorem prefilled (count : Nat) : (Pool.prefilled count : Pool Job).Blank := by
  intro j hj
  simp only [Pool.prefilled, List.mem_map] at hj
  obtain ⟨n, -, rfl⟩ := hj
  rfl

theorem release {p : Pool Job} (hp : p.Blank) (j : Job) : (p.release j).Blank := by
  intro i hi
  rcases List.mem_cons.1 hi with rfl | hi
  · rfl
  · exact hp i hi

theorem foldl_release {p : Pool Job} (hp : p.Blank) (jobs : List Job) :
    (jobs.foldl Pool.release p).Blank := by
  induction jobs generalizing p with
  | nil => exact hp
  | cons j rest ih => exact ih (hp.release j)

theorem acquire {p : Pool Job} (hp : p.Blank) : p.acquire.1 = Job.blank ∧ p.acquire.2.Blank := by
  unfold Pool.acquire
  cases hfree : p.free with
  | nil => exact ⟨rfl, fun i hi => absurd hi List.not_mem_nil⟩
  | cons j rest =>
    refine ⟨hp j (by rw [hfree]; exact List.mem_cons_self), fun i hi => hp i ?_⟩
    rw [hfree]
    exact List.mem_cons_of_mem _ hi

end Pool.Blank

namespace Intake

variable {i : Intake}

private theorem acquire_eq (hi : i.pool.Blank) :
    ∃ notices, i.acquire = (Job.blank, { i with pool := i.pool.acquire.2, notices }) := by
  obtain ⟨hjob, -⟩ := hi.acquire
  unfold acquire
  rw [← hjob]
  cases i.pool.free.isEmpty with
  | true => exact ⟨_, rfl⟩
  | false => exact ⟨_, rfl⟩

/-- A packet that can be read becomes a job from the pool; any other one counts as invalid. -/
theorem takePacket_eq (hi : i.pool.Blank) (slot : Nat) (p : Packet) :
    ∃ notices, match p.job slot with
      | .ok j => i.takePacket slot p =
          { i with pool := i.pool.acquire.2, jobs := i.jobs.push j, notices }
      | .error _ => ∃ pool : Pool Job, pool.Blank ∧
          i.takePacket slot p = { i with pool, invalid := i.invalid + 1, notices } := by
  unfold takePacket
  cases hheader : p.header with
  | error cause =>
    rw [Packet.job, hheader]
    exact ⟨_, i.pool, hi, rfl⟩
  | ok header =>
    rw [Packet.job_of_header hheader]
    dsimp only
    -- the notice of a claim that is cut down changes nothing else
    have hnote (n : Notice) (claim : Prop) [Decidable claim] :
        ∃ notices, (if claim then i.note n else i) = { i with notices } := by
      split
      · exact ⟨_, rfl⟩
      · exact ⟨_, rfl⟩
    obtain ⟨claimNotices, hclaim⟩ := hnote
      (.payloadClamped header.packetNumber.toNat (header.payloadWords p.headerWords)
        p.payloadCapacity) (p.payloadCapacity < header.payloadWords p.headerWords)
    obtain ⟨notices, hacquire⟩ := acquire_eq (i := { i with notices := claimNotices }) hi
    rw [hclaim, hacquire]
    cases p.readPayload (min (header.payloadWords p.headerWords) p.payloadCapacity) [] with
    | error cause => exact ⟨_, _, hi.acquire.2.release _, rfl⟩
    | ok words => exact ⟨_, rfl⟩

theorem takeSlot_eq (hi : i.pool.Blank) (slot : Nat) (packet : Option Packet) :
    (i.takeSlot slot packet).pool.Blank ∧
      (i.takeSlot slot packet).jobs.toList =
        i.jobs.toList ++ (packet.bind fun p => (p.job slot).toOption).toList := by
  cases packet with
  | none => exact ⟨hi, (List.append_nil _).symm⟩
  | some p =>
    obtain ⟨notices, htaken⟩ := takePacket_eq hi slot p
    change (i.takePacket slot p).pool.Blank ∧ (i.takePacket slot p).jobs.toList =
      i.jobs.toList ++ (p.job slot).toOption.toList
    cases hj : p.job slot with
    | error cause =>
      rw [hj] at htaken
      obtain ⟨pool, hpool, htaken⟩ := htaken
      rw [htaken]
      exact ⟨hpool, (List.append_nil _).symm⟩
    | ok j =>
      rw [hj] at htaken
      dsimp only at htaken
      rw [htaken]
      exact ⟨hi.acquire.2, Array.toList_push⟩

/-- Slots one after the other. -/
def takeSlots (i : Intake) (slots : List (Option Packet × Nat)) : Intake :=
  slots.foldl (fun i (packet, slot) => i.takeSlot slot packet) i

theorem takeSlots_cons (i : Intake) (packet : Option Packet) (slot : Nat)
    (rest : List (Option Packet × Nat)) :
    i.takeSlots ((packet, slot) :: rest) = (i.takeSlot slot packet).takeSlots rest := rfl

theorem takeSlots_eq (hi : i.pool.Blank) (slots : List (Option Packet × Nat)) :
    (i.takeSlots slots).pool.Blank ∧
      (i.takeSlots slots).jobs.toList = i.jobs.toList ++ slots.filterMap
        (fun (packet, slot) => packet.bind fun p => (p.job slot).toOption) := by
  induction slots generalizing i with
  | nil => exact ⟨hi, (List.append_nil _).symm⟩
  | cons entry rest ih =>
    obtain ⟨packet, slot⟩ := entry
    obtain ⟨hblank, hjobs⟩ := takeSlot_eq hi slot packet
    obtain ⟨hblank', hjobs'⟩ := ih hblank
    rw [takeSlots_cons]
    refine ⟨hblank', ?_⟩
    rw [hjobs', hjobs, List.append_assoc]
    congr 1
    cases hp : packet.bind fun p => (p.job slot).toOption <;> simp [hp]

/-- The pool decides which jobs carry the packets, not what they carry. -/
theorem ofFrame_eq {pool : Pool Job} (hpool : pool.Blank) (f : Frame) :
    (ofFrame pool f).pool.Blank ∧ (ofFrame pool f).jobs.toList = f.jobs :=
  takeSlots_eq (i := { pool }) hpool f.packets.zipIdx

/-- A slot that is empty, or whose packet can be read, takes at most a job from the pool, and never
counts as invalid. -/
theorem takeSlot_counts (hi : i.pool.Blank) (slot : Nat) (packet : Option Packet)
    (hread : ∀ p ∈ packet, ∃ j, p.job slot = .ok j) :
    let count := (packet.bind fun p => (p.job slot).toOption).toList.length
    (i.takeSlot slot packet).pool = (fun p : Pool Job => p.acquire.2)^[count] i.pool ∧
      (i.takeSlot slot packet).dropped + count = i.dropped + 1 ∧
      (i.takeSlot slot packet).invalid = i.invalid := by
  cases packet with
  | none => exact ⟨rfl, rfl, rfl⟩
  | some p =>
    obtain ⟨j, hj⟩ := hread p rfl
    obtain ⟨notices, htaken⟩ := takePacket_eq hi slot p
    rw [hj] at htaken
    dsimp only at htaken
    dsimp only [takeSlot, Option.bind_some]
    rw [htaken, hj]
    exact ⟨rfl, rfl, rfl⟩

theorem takeSlots_counts (hi : i.pool.Blank) (slots : List (Option Packet × Nat))
    (hread : ∀ p slot, (some p, slot) ∈ slots → ∃ j, p.job slot = .ok j) :
    let jobs := slots.filterMap
      (fun (packet, slot) => packet.bind fun p => (p.job slot).toOption)
    (i.takeSlots slots).pool = (fun p : Pool Job => p.acquire.2)^[jobs.length] i.pool ∧
      (i.takeSlots slots).dropped + jobs.length = i.dropped + slots.length ∧
      (i.takeSlots slots).invalid = i.invalid := by
  induction slots generalizing i with
  | nil => exact ⟨rfl, rfl, rfl⟩
  | cons entry rest ih =>
    obtain ⟨packet, slot⟩ := entry
    obtain ⟨hpool, hdropped, hinvalid⟩ := takeSlot_counts hi slot packet
      fun p hp => hread p slot (by rw [Option.mem_def.1 hp]; exact List.mem_cons_self)
    obtain ⟨hpool', hdropped', hinvalid'⟩ := ih (takeSlot_eq hi slot packet).1
      fun p slot hp => hread p slot (List.mem_cons_of_mem _ hp)
    have hjobs : (((packet, slot) :: rest).filterMap
        fun (packet, slot) => packet.bind fun p => (p.job slot).toOption) =
          (packet.bind fun p => (p.job slot).toOption).toList ++ rest.filterMap
            (fun (packet, slot) => packet.bind fun p => (p.job slot).toOption) := by
      cases hp : packet.bind fun p => (p.job slot).toOption <;> simp [hp]
    dsimp only
    rw [takeSlots_cons, hjobs, List.length_append, List.length_cons]
    refine ⟨?_, by omega, hinvalid'.trans hinvalid⟩
    rw [hpool', hpool, Nat.add_comm, Function.iterate_add_apply]

end Intake

/-- Every packet of the frame can be read. -/
def Frame.Readable (f : Frame) : Prop :=
  ∀ p, some p ∈ f.packets → ∀ slot, ∃ j, p.job slot = .ok j

namespace Intake

/-- If every packet can be read, each takes one job from the pool, the other slots count as dropped,
and nothing counts as invalid. -/
theorem ofFrame_counts {pool : Pool Job} (hpool : pool.Blank) {f : Frame} (h : f.Readable) :
    (ofFrame pool f).pool = (fun p : Pool Job => p.acquire.2)^[f.jobs.length] pool ∧
      (ofFrame pool f).dropped + f.jobs.length = f.packets.length ∧
      (ofFrame pool f).invalid = 0 := by
  obtain ⟨htaken, hdropped, hinvalid⟩ := takeSlots_counts (i := { pool }) hpool
    f.packets.zipIdx fun p slot hp => h p (List.fst_mem_of_mem_zipIdx hp) slot
  rw [List.length_zipIdx] at hdropped
  exact ⟨htaken, hdropped.trans (Nat.zero_add _), hinvalid⟩

end Intake

namespace Frame

theorem cutPackets_bytes {c : Config} {validity : List Bool} {bytes : Bytes}
    (h : validity.length * c.packetBytes ≤ bytes.length) {p : Packet}
    (hp : some p ∈ cutPackets c validity bytes) :
    p.bytes.length = c.packetBytes ∧ p.headerWords = c.headerWords := by
  induction validity generalizing bytes with
  | nil => simp [cutPackets] at hp
  | cons valid rest ih =>
    rw [List.length_cons, Nat.succ_mul] at h
    rw [cutPackets, List.mem_cons] at hp
    rcases hp with hp | hp
    · cases valid with
      | false => simp at hp
      | true =>
        rw [if_pos rfl, Option.some.injEq] at hp
        rw [hp]
        exact ⟨by rw [List.length_take]; omega, rfl⟩
    · exact ih (by rw [List.length_drop]; omega) hp

theorem idle_of_parse {c : Config} {bytes : Bytes} {f : Frame} (h : parse c bytes = .ok f) :
    f.idle = idleFlag bytes := by
  unfold parse at h
  dsimp only at h
  split at h
  · cases h
  · split at h
    · cases h
    · cases h
      rfl

theorem packets_of_parse {c : Config} {bytes : Bytes} {f : Frame} (h : parse c bytes = .ok f)
    (hidle : f.idle = false) :
    c.frameBytes ≤ bytes.length ∧ f.validity.length = c.packetSlots ∧
      f.packets = cutPackets c f.validity (bytes.drop c.headerBytes) := by
  have hflag := idle_of_parse h
  rw [hidle] at hflag
  unfold parse at h
  rw [← hflag] at h
  dsimp only at h
  split at h
  · cases h
  · next hheader =>
    split at h
    · cases h
    · next hframe =>
      cases h
      have hlength : c.frameBytes ≤ bytes.length := by simpa using hframe
      refine ⟨hlength, ?_, rfl⟩
      rw [List.length_map, List.length_take, List.length_drop, validityOffset]
      unfold Config.headerBytes at hheader
      omega

theorem readable_of_parse {c : Config} (hc : c.Valid) {bytes : Bytes} {f : Frame}
    (h : parse c bytes = .ok f) (hidle : f.idle = false) : f.Readable := by
  intro p hp slot
  obtain ⟨hlength, hslots, hpackets⟩ := packets_of_parse h hidle
  rw [hpackets] at hp
  obtain ⟨hbytes, hwords⟩ := cutPackets_bytes (by
    rw [List.length_drop, hslots]
    unfold Config.frameBytes at hlength
    omega) hp
  refine ⟨_, Packet.job_eq_ok ?_ ?_ slot⟩
  · rw [hwords]
    exact hc.headerWords_ge
  · rw [hwords, hbytes]
    exact Nat.le_of_lt hc.header_lt_packet

end Frame
end EventReadout
