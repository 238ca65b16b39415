import EventReadout.Error
import EventReadout.Word.ByteOrder

/-! Frame geometry and the sizing of the reconstruction. -/
namespace EventReadout

structure Config where
  /-- Primary packet slots in a frame. -/
  packetSlots : Nat := 16
  /-- Bytes of one primary packet. -/
  packetBytes : Nat := 8000
  /-- Words of a packet before its payload. -/
  headerWords : Nat := 3
  /-- Time-slice buffers in a wrap generation. -/
  sliceBuffers : Nat := 4
  /-- Events in a full output frame. -/
  frameCapacity : Nat := 524288
  /-- Decode workers. -/
  threads : Nat := 8
  byteOrder : ByteOrder := .little
  deriving DecidableEq, Repr, Inhabited

namespace Config

/-- A number of workers asked for takes the place of the configured one. -/
def withThreads (c : Config) (threads : Option Nat) : Config :=
  { c with threads := threads.getD c.threads }

/-- A step of a check: whatever follows matters only if the condition holds. -/
def demand (condition : Prop) [Decidable condition] (cause : ConfigError) :
    Except ConfigError Unit :=
  if condition then .ok () else .error cause

theorem demand_bind_eq_ok {condition : Prop} [Decidable condition] {cause : ConfigError}
    {rest : Unit → Except ConfigError Unit} :
    (demand condition cause >>= rest) = .ok () ↔ condition ∧ rest () = .ok () := by
  by_cases h : condition <;> simp [demand, h, bind, Except.bind]

/-- The first fault found is the one reported; the packet must be longer than its header. -/
def checkAgainst (c : Config) (packetHeaderBytes : Nat) : Except ConfigError Unit := do
  demand (0 < c.packetSlots) .noPackets
  demand (3 ≤ c.headerWords) (.headerTooShort c.headerWords)
  demand (c.packetBytes % wordBytes = 0) (.unalignedPacket c.packetBytes)
  demand (packetHeaderBytes < c.packetBytes) (.noPayload c.packetBytes c.headerWords)
  demand (0 < c.sliceBuffers ∧ c.sliceBuffers ≤ 256) (.sliceBuffers c.sliceBuffers)
  demand (0 < c.frameCapacity) .noCapacity
  demand (0 < c.threads) .noThreads
  return ()

def check (c : Config) : Except ConfigError Unit := c.checkAgainst (c.headerWords * wordBytes)

/-- The check in machine arithmetic, where the size of the packet header can wrap. -/
def validate (c : Config) : Except ConfigError Unit :=
  c.checkAgainst (UInt64.ofNat c.headerWords * UInt64.ofNat wordBytes).toNat

/-- A usable geometry. -/
structure Valid (c : Config) : Prop where
  packetSlots_pos : 0 < c.packetSlots
  headerWords_ge : 3 ≤ c.headerWords
  packetBytes_aligned : c.packetBytes % wordBytes = 0
  header_lt_packet : c.headerWords * wordBytes < c.packetBytes
  sliceBuffers_pos : 0 < c.sliceBuffers
  sliceBuffers_le : c.sliceBuffers ≤ 256
  frameCapacity_pos : 0 < c.frameCapacity
  threads_pos : 0 < c.threads

theorem check_eq_ok_iff (c : Config) : c.check = .ok () ↔ c.Valid := by
  simp only [check, checkAgainst, demand_bind_eq_ok, pure, Except.pure, and_true]
  constructor
  · rintro ⟨slots, header, aligned, payload, ⟨one, limit⟩, capacity, threads⟩
    exact ⟨slots, header, aligned, payload, one, limit, capacity, threads⟩
  · intro v
    exact ⟨v.packetSlots_pos, v.headerWords_ge, v.packetBytes_aligned, v.header_lt_packet,
      ⟨v.sliceBuffers_pos, v.sliceBuffers_le⟩, v.frameCapacity_pos, v.threads_pos⟩

theorem toNat_packetHeader (c : Config) :
    (UInt64.ofNat c.headerWords * UInt64.ofNat wordBytes).toNat =
      c.headerWords * wordBytes % UInt64.size := (Nat.mul_mod _ _ _).symm

theorem validate_eq_check {c : Config} (h : c.headerWords * wordBytes < UInt64.size) :
    c.validate = c.check := by
  rw [validate, toNat_packetHeader, Nat.mod_eq_of_lt h, check]

/-- A size that wraps is smaller, and so refuses nothing that is valid. -/
theorem validate_of_valid {c : Config} (h : c.Valid) : c.validate = .ok () := by
  have hwrapped : c.headerWords * wordBytes % UInt64.size < c.packetBytes :=
    Nat.lt_of_le_of_lt (Nat.mod_le _ _) h.header_lt_packet
  simp only [validate, toNat_packetHeader, checkAgainst, demand_bind_eq_ok, pure, Except.pure,
    and_true]
  exact ⟨h.packetSlots_pos, h.headerWords_ge, h.packetBytes_aligned, hwrapped,
    ⟨h.sliceBuffers_pos, h.sliceBuffers_le⟩, h.frameCapacity_pos, h.threads_pos⟩

instance (c : Config) : Decidable c.Valid :=
  match h : c.check with
  | .ok () => isTrue (c.check_eq_ok_iff.1 h)
  | .error _ => isFalse fun v => by rw [c.check_eq_ok_iff.2 v] at h; contradiction

def wordsPerPacket (c : Config) : Nat := c.packetBytes / wordBytes

/-- Payload words that one packet can hold. -/
def payloadWords (c : Config) : Nat := c.wordsPerPacket - c.headerWords

/-- Sixteen bytes and one validity byte per slot, padded to whole words. -/
def headerBytes (c : Config) : Nat := 16 + (c.packetSlots + 7) / 8 * 8

/-- Bytes of a standard frame. -/
def frameBytes (c : Config) : Nat := c.headerBytes + c.packetSlots * c.packetBytes

/-- Bytes of a frame header in machine arithmetic. -/
def frameHeaderSize (c : Config) : UInt64 := 16 + (UInt64.ofNat c.packetSlots + 7) / 8 * 8

/-- Bytes of a standard frame in machine arithmetic. -/
def frameSize (c : Config) : UInt64 :=
  c.frameHeaderSize + UInt64.ofNat c.packetSlots * UInt64.ofNat c.packetBytes

theorem headerBytes_le_frameBytes (c : Config) : c.headerBytes ≤ c.frameBytes :=
  Nat.le_add_right _ _

theorem toNat_frameHeaderSize {c : Config} (h : c.headerBytes < UInt64.size) :
    c.frameHeaderSize.toNat = c.headerBytes := by
  have hsize : UInt64.size = 2 ^ 64 := rfl
  have hslots : (UInt64.ofNat c.packetSlots).toNat = c.packetSlots % 2 ^ 64 := rfl
  have hseven : (7 : UInt64).toNat = 7 := rfl
  have height : (8 : UInt64).toNat = 8 := rfl
  have hsixteen : (16 : UInt64).toNat = 16 := rfl
  unfold headerBytes at *
  simp only [frameHeaderSize, UInt64.toNat_add, UInt64.toNat_mul, UInt64.toNat_div, hslots,
    hseven, height, hsixteen]
  omega

/-- Machine arithmetic is exact as long as the frame's size fits. -/
theorem toNat_frameSize {c : Config} (h : c.frameBytes < UInt64.size) :
    c.frameSize.toNat = c.frameBytes := by
  have hheader := toNat_frameHeaderSize (Nat.lt_of_le_of_lt c.headerBytes_le_frameBytes h)
  have hproduct : (UInt64.ofNat c.packetSlots * UInt64.ofNat c.packetBytes).toNat =
      c.packetSlots * c.packetBytes % 2 ^ 64 := (Nat.mul_mod _ _ _).symm
  have hsize : UInt64.size = 2 ^ 64 := rfl
  unfold frameBytes at *
  rw [frameSize, UInt64.toNat_add, hheader, hproduct]
  omega

end Config
end EventReadout
