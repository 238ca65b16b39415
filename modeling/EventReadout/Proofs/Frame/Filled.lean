import EventReadout.Proofs.Frame.Jobs
import EventReadout.Proofs.Frame.RoundTrip

/-! The jobs that an encoded frame becomes: one for each slot that was filled. -/
namespace EventReadout

/-- What a filled slot becomes when it is read back; of the buffer index eight bits are left. -/
def Filling.job (f : Filling) : Job :=
  (Job.blank.assign f.slot { f.header with buffer := f.header.buffer % 256 }).appendWords f.payload

namespace FrameDraft

variable {c : Config} {d : FrameDraft} {f : Filling} {bytes : Bytes}

/-- The packet in a slot of an encoded frame. -/
def filledPacket (c : Config) (s : Option Filling) : Packet :=
  ⟨slotImage c (blankSlot c) s, c.byteOrder, c.headerWords⟩

theorem job_filledPacket (hc : c.Valid) (h : f.Fits c) :
    (filledPacket c (some (f.counted c))).job f.slot = .ok f.job := by
  obtain ⟨header, hheader, -, heq, hcount, hread⟩ := packet_of_fits hc h
  have hlength := (slotImage_eq (f := f.counted c) hc h.1).1
  have hcapacity : (filledPacket c (some (f.counted c))).payloadCapacity = c.payloadWords := by
    unfold Packet.payloadCapacity filledPacket
    rw [hlength]
    rfl
  have hclaim : min (header.payloadWords c.headerWords) c.payloadWords =
      header.payloadWords c.headerWords := by
    rw [hcount]
    exact Nat.min_eq_left h.1
  have hwords : (filledPacket c (some (f.counted c))).readPayload
      (header.payloadWords c.headerWords) [] = .ok ([] ++ f.payload) := hread []
  have hfirst : (filledPacket c (some (f.counted c))).header = .ok header := hheader
  rw [Packet.job_of_header hfirst, hcapacity]
  change Except.map _ ((filledPacket c (some (f.counted c))).readPayload
    (min (header.payloadWords c.headerWords) c.payloadWords) []) = _
  rw [hclaim, hwords, heq]
  rfl

theorem jobs_of_encode (hc : c.Valid) (hidle : d.idle = false) (h : d.encode c = .ok bytes) :
    bytes.length = c.frameBytes ∧
      ∃ frame, Frame.parse c bytes = .ok frame ∧ frame.idle = false ∧
        frame.jobs = (List.range c.packetSlots).filterMap fun slot =>
          (d.filling? slot).map Filling.job := by
  obtain ⟨hlength, hparse⟩ := parse_encode_standard hc hidle h
  obtain ⟨-, hfits, -⟩ := encode_eq_ok_iff.1 h
  refine ⟨hlength, _, hparse, rfl, ?_⟩
  have hslots : ((d.countedSlots c).map fun s => s.map fun _ => filledPacket c s).zipIdx =
      (List.range c.packetSlots).map fun slot =>
        ((d.filling? slot).map fun f => filledPacket c (some (f.counted c)), slot) := by
    apply List.ext_getElem
    · simp
    · intro slot _ _
      cases hf : d.filling? slot <;> simp [countedSlots, hf]
  unfold Frame.jobs
  change List.filterMap _
    ((d.countedSlots c).map fun s => s.map fun _ => filledPacket c s).zipIdx = _
  rw [hslots, List.filterMap_map]
  apply List.filterMap_congr
  intro slot _
  cases hf : d.filling? slot with
  | none => simp [hf]
  | some f =>
    obtain ⟨-, rfl⟩ := slot_of_filling? hf
    have hjob := job_filledPacket hc (hfits hidle _ f hf)
    simp [hf, hjob, Except.toOption]

end FrameDraft
end EventReadout
