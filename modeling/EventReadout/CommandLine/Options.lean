/-!
Arguments of one command: options with long and short names, and positional values.

`--name=value`, `--name value`, `-n=value`, `-nvalue` and `-n value` give an option its value, and
flags may share one dash. Nothing may be given twice, and `--` makes all that follows positional.
-/
namespace EventReadout.CommandLine

/-- Why a command line does not lead to a command. -/
inductive Refusal
  | usage
  | help
  | version
  deriving DecidableEq, Repr

/-- What a value may be. -/
inductive ValueKind
  | path
  | count
  deriving DecidableEq, Repr

inductive OptionKind
  | flag
  | value (kind : ValueKind)
  /-- Ends the reading at once. -/
  | stop (reason : Refusal)
  deriving DecidableEq, Repr

structure OptionSpec where
  long : String
  short : Option Char := none
  kind : OptionKind
  deriving DecidableEq, Repr

/-- Counts fit in 64 bits; a plus sign may lead. -/
def count? (text : String) : Option Nat :=
  let digits := match text.toList with
    | '+' :: rest => rest
    | rest => rest
  if digits.isEmpty || !digits.all Char.isDigit then none
  else
    let n := digits.foldl (fun n c => n * 10 + (c.toNat - '0'.toNat)) 0
    if n < UInt64.size then some n else none

def ValueKind.accepts (kind : ValueKind) (text : String) : Bool :=
  match kind with
  | path => !text.isEmpty
  | count => (count? text).isSome

/-- What has been read so far, in the order of the command line. -/
structure Arguments where
  options : List (String × String) := []
  positionals : List String := []
  deriving DecidableEq, Repr, Inhabited

namespace Arguments

def value? (a : Arguments) (long : String) : Option String := a.options.lookup long

def has (a : Arguments) (long : String) : Bool := (a.value? long).isSome

def count? (a : Arguments) (long : String) : Option Nat := a.value? long >>= CommandLine.count?

def addOption (a : Arguments) (spec : OptionSpec) (text : String) : Except Refusal Arguments :=
  if a.has spec.long then .error .usage
  else .ok { a with options := a.options ++ [(spec.long, text)] }

def addFlag (a : Arguments) (spec : OptionSpec) : Except Refusal Arguments := a.addOption spec ""

def addValue (a : Arguments) (spec : OptionSpec) (kind : ValueKind) (text : String) :
    Except Refusal Arguments :=
  if kind.accepts text then a.addOption spec text else .error .usage

def addPositional (a : Arguments) (text : String) : Arguments :=
  { a with positionals := a.positionals ++ [text] }

/-- An option after its name has been read: settled, or in want of the next argument. -/
inductive Pending
  | settled (a : Arguments)
  | awaiting (a : Arguments) (spec : OptionSpec) (kind : ValueKind)

/-- The part before the first equals sign, and the part after it if there is one. -/
def splitAtEquals (text : List Char) : List Char × Option (List Char) :=
  match text.dropWhile (· != '=') with
  | [] => (text, none)
  | _ :: value => (text.takeWhile (· != '='), some value)

def readLong (specs : List OptionSpec) (a : Arguments) (text : List Char) :
    Except Refusal Pending := do
  let (name, attached) := splitAtEquals text
  match specs.find? (·.long == String.ofList name) with
  | none => throw .usage
  | some spec =>
    match spec.kind, attached with
    | .flag, none => return .settled (← a.addFlag spec)
    | .value kind, some value => return .settled (← a.addValue spec kind (String.ofList value))
    | .value kind, none => return .awaiting a spec kind
    | .stop reason, none => throw reason
    | _, some _ => throw .usage

/-- The letters after one dash: flags, up to a letter that takes the rest as its value. -/
def readShort (specs : List OptionSpec) : Arguments → List Char → Except Refusal Pending
  | a, [] => return .settled a
  | a, letter :: rest => do
    match specs.find? (·.short == some letter) with
    | none => throw .usage
    | some spec =>
      match spec.kind with
      | .flag => readShort specs (← a.addFlag spec) rest
      | .stop reason => throw reason
      | .value kind =>
        match rest with
        | [] => return .awaiting a spec kind
        | '=' :: value => return .settled (← a.addValue spec kind (String.ofList value))
        | value => return .settled (← a.addValue spec kind (String.ofList value))

/-- A lone dash is a value; anything else that starts with one is an option. -/
def isOption (text : String) : Bool :=
  match text.toList with
  | '-' :: _ :: _ => true
  | _ => false

/-- Reads options until the first positional argument, which is left to the caller. -/
def readOptions (specs : List OptionSpec) (a : Arguments) :
    List String → Except Refusal (Arguments × List String)
  | [] => .ok (a, [])
  | text :: rest => do
    match text.toList with
    | ['-', '-'] => return (a, text :: rest)
    | '-' :: '-' :: name =>
      match ← readLong specs a name, rest with
      | .settled a, rest => readOptions specs a rest
      | .awaiting .., [] => throw .usage
      | .awaiting a spec kind, value :: rest =>
        if isOption value then throw .usage
        readOptions specs (← a.addValue spec kind value) rest
    | '-' :: letter :: letters =>
      match ← readShort specs a (letter :: letters), rest with
      | .settled a, rest => readOptions specs a rest
      | .awaiting .., [] => throw .usage
      | .awaiting a spec kind, value :: rest =>
        if isOption value then throw .usage
        readOptions specs (← a.addValue spec kind value) rest
    | _ => return (a, text :: rest)

def addPath (limit : Nat) (a : Arguments) (text : String) : Except Refusal Arguments :=
  if a.positionals.length < limit ∧ ValueKind.path.accepts text then .ok (a.addPositional text)
  else .error .usage

/-- Every round takes one positional argument, so the rounds never exceed the arguments. -/
def readRounds (specs : List OptionSpec) (limit : Nat) (a : Arguments) :
    (rounds : Nat) → List String → Except Refusal Arguments
  | 0, _ => .error .usage
  | rounds + 1, texts => do
    match ← readOptions specs a texts with
    | (a, []) => return a
    | (a, "--" :: rest) => rest.foldlM (addPath limit) a
    | (a, text :: rest) => readRounds specs limit (← addPath limit a text) rounds rest

/-- Reads everything: options wherever they stand, and at most `limit` positional paths. -/
def readAll (specs : List OptionSpec) (limit : Nat) (texts : List String) :
    Except Refusal Arguments :=
  readRounds specs limit {} (texts.length + 1) texts

end Arguments
end EventReadout.CommandLine
