import EventReadout.CommandLine.Run

/-! The command line program: files and clock on one side, pure commands on the other. -/
namespace EventReadout.CommandLine

def usage : List String := [
  "Usage: event-readout [OPTIONS] <COMMAND>",
  "",
  "Commands:",
  "  simulate <OUTPUT>  Write a synthetic frame dump ending in an idle frame",
  "      -f, --frames <FRAMES>  Number of standard frames [default: 16]",
  "      -e, --events <EVENTS>  Events per packet [default: 64]",
  "      --dropped <DROPPED>    Trailing packet slots to mark dropped [default: 0]",
  "  info <INPUT>       Show information about a frame dump",
  "  process <INPUT>    Replay a frame dump through the reconstruction",
  "      -t, --threads <THREADS>  Override the number of decode threads",
  "      --processes <PROCESSES>  Number of cooperating processes [default: 1]",
  "      --rank <RANK>            Rank of this process [default: 0]",
  "      --json                   Print the summary as JSON",
  "",
  "Options:",
  "  -c, --config <CONFIG>  Detector configuration (JSON)",
  "  -v, --verbose          Log progress",
  "  -h, --help             Print help",
  "  -V, --version          Print version"]

/-- A path that cannot be looked at leads nowhere. -/
def stateOf (path : String) : IO FileState := do
  try
    return .content (← IO.FS.readBinFile path).toList
  catch
    | .noFileOrDirectory .. => return .absent
    | .inappropriateType .. | .illegalOperation .. => return .directory
    | _ => return .unreachable .other

/-- The files that a command reads, looked up once; a file to be written counts as absent. -/
def gather (command : Command) : IO (String → FileState) := do
  let configState ← match command.config with
    | some config => stateOf config
    | none => pure .absent
  let state ← match command.action with
    | .simulate .. => pure .absent
    | .info input => stateOf input
    | .process input .. => stateOf input
  return fun path => if some path == command.config then configState else state

def seconds (milliseconds : Nat) : String := Text.fixed 2 milliseconds 1000

def execute (command : Command) : IO UInt32 := do
  let files ← gather command
  let start ← IO.monoMsNow
  let effect ← IO.lazyPure fun _ => command.run files
  let elapsed := (← IO.monoMsNow) - start
  let result ← match effect.written with
    | none => pure effect.result
    | some (path, bytes) =>
      try
        IO.FS.writeBinFile path ⟨bytes.toArray⟩
        pure effect.result
      catch _ => pure (.error (.file .other))
  match result with
  | .error cause =>
    IO.eprintln ("Error: " ++ cause.message)
    return 1
  | .ok outcome =>
    for notice in outcome.notices command.verbose do
      IO.eprintln ("[" ++ notice.level.name ++ "] " ++ notice.text)
    for line in outcome.lines (some (seconds elapsed)) do
      IO.println line
    return 0

def start (arguments : List String) : IO UInt32 := do
  match Command.parse arguments with
  | .ok command => execute command
  | .error .help =>
    usage.forM fun line => IO.println line
    return 0
  | .error .version =>
    IO.println "event-readout 0.3.0"
    return 0
  | .error .usage =>
    usage.forM fun line => IO.eprintln line
    return 2

end EventReadout.CommandLine

def main (arguments : List String) : IO UInt32 := EventReadout.CommandLine.start arguments
