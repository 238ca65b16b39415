import EventReadout.Channel.Buffer
import EventReadout.Event

/-! The three channel buffers of one reconstruction. -/
namespace EventReadout

structure Outputs where
  timestamps : ChannelBuffer UInt64
  ids : ChannelBuffer UInt32
  energies : ChannelBuffer UInt32
  deriving DecidableEq, Repr

namespace Outputs

def ofCapacity (capacity : Nat) : Outputs where
  timestamps := .ofCapacity .timeOffset capacity
  ids := .ofCapacity .id capacity
  energies := .ofCapacity .energy capacity

def configure (o : Outputs) (processes rank : Nat) : Outputs where
  timestamps := o.timestamps.configure processes rank
  ids := o.ids.configure processes rank
  energies := o.energies.configure processes rank

def restart (o : Outputs) : Outputs where
  timestamps := o.timestamps.restart
  ids := o.ids.restart
  energies := o.energies.restart

/-- Frames filled by one batch: timestamps, then ids, then energies. -/
def write (o : Outputs) (batch : EventBatch) : List OutputFrame × Outputs :=
  let ⟨timestamps, ids, energies⟩ := o
  let (timeFrames, timestamps) := timestamps.append batch.timestamps
  let (idFrames, ids) := ids.append batch.ids
  let (energyFrames, energies) := energies.append batch.energies
  (timeFrames ++ idFrames ++ energyFrames, { timestamps, ids, energies })

/-- Batches one after the other. -/
def writeAll : (o : Outputs) → List EventBatch → List OutputFrame × Outputs
  | o, [] => ([], o)
  | o, batch :: rest =>
    let (frames, o) := o.write batch
    let (later, o) := o.writeAll rest
    (frames ++ later, o)

def flush (o : Outputs) : List OutputFrame × Outputs :=
  let (timeFrames, timestamps) := o.timestamps.flush
  let (idFrames, ids) := o.ids.flush
  let (energyFrames, energies) := o.energies.flush
  (timeFrames ++ idFrames ++ energyFrames, { timestamps, ids, energies })

end Outputs
end EventReadout
