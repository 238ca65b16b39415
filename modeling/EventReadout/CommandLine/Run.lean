import EventReadout.CommandLine.Command
import EventReadout.Config.Document
import EventReadout.Dump.Replay
import EventReadout.Dump.Survey
import EventReadout.Json.Printer

/-! Commands carried out on the files that their paths lead to. -/
namespace EventReadout.CommandLine

/-- What a command found out. -/
inductive Outcome
  | simulated (output : String) (frames events : Nat)
  | surveyed (input : String) (dump : Dump) (survey : Survey)
  | replayed (input : String) (summary : ReplaySummary) (json : Bool)

/-- A file that a command writes comes to be even if the command fails later. -/
structure Effect where
  written : Option (String × Bytes) := none
  result : Except CommandError Outcome

def loadConfig (files : String → FileState) : Option String → Except CommandError Config
  | none => .ok {}
  | some path => (Config.ofFile (files path)).mapError .decode

/-- A directory has a size, but never that of a dump. -/
def openDump (c : Config) : FileState → Except CommandError Dump
  | .content bytes => Dump.ofBytes c bytes
  | .directory => .error (.truncatedDump 0 c.frameBytes)
  | .absent => .error (.file .notFound)
  | .unreachable cause => .error (.file cause)

/-- The output file is emptied before anything else can fail. -/
def simulate (c : Config) (output : String) (state : FileState) (s : Simulation) : Effect :=
  match state with
  | .directory => { result := .error (.file .isDirectory) }
  | .unreachable cause => { result := .error (.file cause) }
  | .content _ | .absent =>
    match s.encode c with
    | .error cause => { written := some (output, []), result := .error cause }
    | .ok (bytes, events) =>
      { written := some (output, bytes)
        result := .ok (.simulated output (s.frames + 1) events.toNat) }

def info (c : Config) (input : String) (state : FileState) : Except CommandError Outcome := do
  let dump ← openDump c state
  return .surveyed input dump (← Survey.ofDump c dump)

def process (c : Config) (input : String) (state : FileState) (threads : Option Nat)
    (processes rank : Nat) (json : Bool) : Except CommandError Outcome := do
  let c := c.withThreads threads
  let dump ← openDump c state
  return .replayed input (← Replay.run c processes rank dump) json

/-- The same on a machine that may not have what a replay needs. -/
def processOn (h : Host) (c : Config) (input : String) (state : FileState) (threads : Option Nat)
    (processes rank : Nat) (json : Bool) : Except Halt (Except CommandError Outcome) := do
  let c := c.withThreads threads
  match openDump c state with
  | .error cause => return .error cause
  | .ok dump =>
    return (← Replay.runOn h c processes rank dump).map fun summary =>
      .replayed input summary json

def Command.run (command : Command) (files : String → FileState) : Effect :=
  match loadConfig files command.config with
  | .error cause => { result := .error cause }
  | .ok c =>
    match command.action with
    | .simulate output s => simulate c output (files output) s
    | .info input => { result := info c input (files input) }
    | .process input threads processes rank json =>
      { result := process c input (files input) threads processes rank json }

namespace Outcome

/-- Lines for standard output; the time taken is known only to the caller. -/
def lines (o : Outcome) (elapsed : Option String) : List String :=
  match o with
  | simulated output frames events =>
    [s!"Wrote {frames} frames to " ++ output, s!"Events: {events}"]
  | surveyed input dump survey => survey.lines input dump
  | replayed input summary false => summary.lines input elapsed
  | replayed input summary true => (summary.document input elapsed).lines 0

/-- Notices for the log, at the level that the command asks for. -/
def notices (o : Outcome) (verbose : Bool) : List Notice :=
  match o with
  | replayed _ summary _ => Notice.upTo (if verbose then .debug else .warn) summary.notices
  | _ => []

end Outcome
end EventReadout.CommandLine
