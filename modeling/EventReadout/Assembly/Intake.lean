import EventReadout.Frame.Basic
import EventReadout.Job.Pool
import EventReadout.Notice

/-! From a frame's slots to jobs that are ready to be decoded. -/
namespace EventReadout

/-- What has been taken from a frame so far. -/
structure Intake where
  pool : Pool Job
  /-- In slot order. -/
  jobs : Array Job := #[]
  dropped : Nat := 0
  invalid : Nat := 0
  notices : Array Notice := #[]

namespace Intake

def drop (i : Intake) : Intake := { i with dropped := i.dropped + 1 }

def refuse (i : Intake) (n : Notice) : Intake :=
  { i with invalid := i.invalid + 1, notices := i.notices.push n }

def note (i : Intake) (n : Notice) : Intake := { i with notices := i.notices.push n }

/-- Takes a job from the pool, which grows if it has none left. -/
def acquire (i : Intake) : Job × Intake :=
  let (job, pool) := i.pool.acquire
  let grown := i.pool.free.isEmpty
  let i := { i with pool }
  (job, if grown then i.note (.poolGrown pool.allocated) else i)

/-- The header's claim is cut down to what the packet holds. -/
def takePacket (i : Intake) (slot : Nat) (packet : Packet) : Intake :=
  match packet.header with
  | .error cause => i.refuse (.headerUnreadable slot cause)
  | .ok header =>
    let number := header.packetNumber.toNat
    let claimed := header.payloadWords packet.headerWords
    let capacity := packet.payloadCapacity
    let i := if capacity < claimed then i.note (.payloadClamped number claimed capacity) else i
    let (job, i) := i.acquire
    match packet.readPayload (min claimed capacity) [] with
    | .error cause =>
      { i.refuse (.payloadUnreadable number cause) with pool := i.pool.release job }
    | .ok words => { i with jobs := i.jobs.push ((job.assign slot header).appendWords words) }

def takeSlot (i : Intake) (slot : Nat) : Option Packet → Intake
  | none => i.drop
  | some packet => i.takePacket slot packet

def ofFrame (pool : Pool Job) (f : Frame) : Intake :=
  f.packets.zipIdx.foldl (fun i (packet, slot) => i.takeSlot slot packet) { pool }

end Intake
end EventReadout
