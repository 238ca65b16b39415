import EventReadout.Assembly.Basic
import EventReadout.Dump.Basic
import EventReadout.Frame.Draft
import EventReadout.Json.Basic
import EventReadout.Text.Decimal

/-! Dumps played back through the reconstruction, and the summary of it. -/
namespace EventReadout

/-- Output frames of one channel and the values in them. -/
structure ChannelTally where
  channel : Channel
  frames : Nat := 0
  values : Nat := 0
  deriving DecidableEq, Repr

namespace ChannelTally

def blank : List ChannelTally := Channel.all.map fun channel => { channel }

def add (tallies : List ChannelTally) (f : OutputFrame) : List ChannelTally :=
  tallies.map fun t =>
    if t.channel = f.channel then
      { t with frames := t.frames + 1, values := t.values + f.size }
    else t

end ChannelTally

/-- A reconstruction under way and what it has put out so far. -/
structure Replay where
  assembler : Assembler
  tallies : List ChannelTally := ChannelTally.blank
  notices : List Notice := []

structure ReplaySummary where
  frames : Nat
  tallies : List ChannelTally
  statistics : Statistics
  notices : List Notice

namespace Replay

def feed (r : Replay) (bytes : Bytes) : Except ProcessError Replay :=
  let (result, assembler) := r.assembler.feed bytes
  match result with
  | .error cause => .error cause
  | .ok report =>
    .ok {
      assembler
      tallies := report.frames.foldl ChannelTally.add r.tallies
      notices := r.notices ++ Notice.upTo .debug report.notices }

/-- A dump that does not end idle is closed by an idle frame of its own. -/
def closing (c : Config) (d : Dump) : Except CommandError (List Bytes) :=
  if d.endsIdle then .ok []
  else (FrameDraft.encode { idle := true } c).mapError .decode >>= fun bytes => .ok [bytes]

def configured (processes rank : Nat) (assembler : Assembler) : Except ProcessError Replay := do
  let (result, configured) := assembler.configure processes rank
  let report ← result
  return { assembler := configured, notices := assembler.startupNotices ++ report.notices }

def start (c : Config) (processes rank : Nat) : Except ProcessError Replay :=
  Assembler.ofConfig c >>= configured processes rank

/-- The frames of the dump itself; the one that closes it is announced. -/
def play (d : Dump) (r : Replay) : Except CommandError Replay := do
  let r ← (d.frames.foldlM feed r).mapError .process
  return { r with notices := r.notices ++ if d.endsIdle then [] else [.dumpUnclosed] }

def finish (d : Dump) (r : Replay) (last : List Bytes) : Except CommandError ReplaySummary := do
  let r ← (last.foldlM feed r).mapError .process
  return {
    frames := d.frames.length
    tallies := r.tallies
    statistics := r.assembler.statistics
    notices := r.notices }

def run (c : Config) (processes rank : Nat) (d : Dump) : Except CommandError ReplaySummary := do
  let r ← (start c processes rank).mapError .process
  let r ← play d r
  finish d r (← closing c d)

section Hosted

variable (h : Host) (c : Config) (processes rank : Nat) (d : Dump)

def startOn : Except Halt (Except ProcessError Replay) := do
  return (← Assembler.launch h c) >>= configured processes rank

def closingOn : Except Halt (Except CommandError (List Bytes)) := do
  if d.endsIdle then return .ok []
  let built ← FrameDraft.build h { idle := true } c
  return built.mapError .decode >>= fun bytes => .ok [bytes]

/-- A replay on a machine that may not have what it needs, first to start and then to close. -/
def runOn : Except Halt (Except CommandError ReplaySummary) := do
  match (← startOn h c processes rank).mapError .process >>= play d with
  | .error cause => return .error cause
  | .ok r => return (← closingOn h c d) >>= finish d r

end Hosted

end Replay

namespace ReplaySummary

/-- The time taken is a text of its own, left out if there is none. -/
def lines (s : ReplaySummary) (input : String) (elapsed : Option String) : List String :=
  let n := s.statistics
  [s!"Processed {s.frames} frames from " ++ input ++
      (elapsed.map (" in " ++ · ++ "s")).getD "",
    s!"Packets: {n.packetsSubmitted} submitted, {n.droppedPackets} dropped, " ++
      s!"{n.stalePackets} stale, {n.invalidPackets} invalid",
    s!"Events: {n.eventsDecoded} decoded, {n.timestampMismatches} timestamp mismatches, " ++
      s!"{n.controlWords} control words"] ++
  (if 0 < n.malformedJobs then [s!"Packets not starting with a timestamp: {n.malformedJobs}"]
    else []) ++
  s.tallies.map (fun t =>
    Text.padRight 18 t.channel.dataset ++ " " ++ Text.padLeft 8 (toString t.frames) ++
      " frames " ++ Text.padLeft 12 (toString t.values) ++ " values") ++
  [s!"Job pool: {n.poolAllocated} jobs allocated"]

def count (n : Nat) : Json.Value := .number (toString n)

def statisticsDocument (s : Statistics) : Json.Value :=
  .object [
    (some "frames_processed", count s.framesProcessed),
    (some "idle_frames", count s.idleFrames),
    (some "packets_submitted", count s.packetsSubmitted),
    (some "dropped_packets", count s.droppedPackets),
    (some "stale_packets", count s.stalePackets),
    (some "invalid_packets", count s.invalidPackets),
    (some "events_decoded", count s.eventsDecoded),
    (some "control_words", count s.controlWords),
    (some "timestamp_mismatches", count s.timestampMismatches),
    (some "malformed_jobs", count s.malformedJobs),
    (some "output_frames", count s.outputFrames),
    (some "pool_allocated", count s.poolAllocated)]

def tallyDocument (t : ChannelTally) : Json.Value :=
  .object [
    (some "dataset", .string (some t.channel.dataset)),
    (some "frames", count t.frames),
    (some "values", count t.values)]

def document (s : ReplaySummary) (input : String) (elapsed : Option String) : Json.Value :=
  .object ([(some "input", .string (some input)), (some "frames", count s.frames)] ++
    (elapsed.map fun t => (some "elapsed_seconds", Json.Value.number t)).toList ++
    [(some "channels", .array (s.tallies.map tallyDocument)),
      (some "statistics", statisticsDocument s.statistics)])

end ReplaySummary
end EventReadout
