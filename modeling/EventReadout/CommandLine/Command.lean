import EventReadout.CommandLine.Options
import EventReadout.Dump.Simulation

/-! The commands `simulate`, `info` and `process`, and how they are written. -/
namespace EventReadout.CommandLine

inductive Action
  | simulate (output : String) (simulation : Simulation)
  | info (input : String)
  | process (input : String) (threads : Option Nat) (processes rank : Nat) (json : Bool)
  deriving DecidableEq, Repr

structure Command where
  /-- Path of the configuration document. -/
  config : Option String
  verbose : Bool
  action : Action
  deriving DecidableEq, Repr

namespace Command

/-- Options that may stand before or after the name of the action. -/
def globalSpecs : List OptionSpec := [
  ⟨"config", some 'c', .value .path⟩,
  ⟨"verbose", some 'v', .flag⟩,
  ⟨"help", some 'h', .stop .help⟩]

def topSpecs : List OptionSpec := globalSpecs ++ [⟨"version", some 'V', .stop .version⟩]

def simulateSpecs : List OptionSpec := globalSpecs ++ [
  ⟨"frames", some 'f', .value .count⟩,
  ⟨"events", some 'e', .value .count⟩,
  ⟨"dropped", none, .value .count⟩]

def processSpecs : List OptionSpec := globalSpecs ++ [
  ⟨"threads", some 't', .value .count⟩,
  ⟨"processes", none, .value .count⟩,
  ⟨"rank", none, .value .count⟩,
  ⟨"json", none, .flag⟩]

/-- The name closest to the action decides. -/
def ofAction (top own : Arguments) (action : Action) : Command where
  config := own.value? "config" <|> top.value? "config"
  verbose := own.has "verbose" || top.has "verbose"
  action

/-- Help on an action, or on the program as a whole. -/
def helpOn : List String → Refusal
  | [] | ["simulate"] | ["info"] | ["process"] | ["help"] => .help
  | _ => .usage

/-- Every action has exactly one path. -/
def ofArguments (specs : List OptionSpec) (build : Arguments → String → Action) (top : Arguments)
    (texts : List String) : Except Refusal Command := do
  let own ← Arguments.readAll specs 1 texts
  match own.positionals with
  | [path] => return ofAction top own (build own path)
  | _ => throw .usage

def simulateAction (a : Arguments) (output : String) : Action :=
  .simulate output {
    frames := (a.count? "frames").getD 16
    eventsPerPacket := (a.count? "events").getD 64
    droppedSlots := (a.count? "dropped").getD 0 }

def processAction (a : Arguments) (input : String) : Action :=
  .process input (a.count? "threads") ((a.count? "processes").getD 1) ((a.count? "rank").getD 0)
    (a.has "json")

def parse (texts : List String) : Except Refusal Command := do
  let (top, rest) ← Arguments.readOptions topSpecs {} texts
  match rest with
  | "simulate" :: rest => ofArguments simulateSpecs simulateAction top rest
  | "info" :: rest => ofArguments globalSpecs (fun _ => .info) top rest
  | "process" :: rest => ofArguments processSpecs processAction top rest
  | "help" :: rest => throw (helpOn rest)
  | _ => throw .usage

end Command
end EventReadout.CommandLine
