import EventReadout.Json.Token

/-! JSON values; they may nest to any depth. -/
namespace EventReadout.Json

inductive Value
  | null
  | bool (value : Bool)
  | number (literal : String)
  | string (text : Option String)
  | array (items : List Value)
  /-- In the order of the text, with every repetition of a name. -/
  | object (members : List (Option String × Value))
  deriving Repr, Inhabited

/-- A container that is still open, its parts latest first. -/
inductive Layer
  | array (items : List Value)
  | object (key : Option String) (members : List (Option String × Value))

/-- What may come next. `fresh` right after an opening bracket, where the closing one may follow. -/
inductive Builder
  | value (fresh : Bool) (layers : List Layer)
  | key (fresh : Bool) (members : List (Option String × Value)) (layers : List Layer)
  | colon (key : Option String) (members : List (Option String × Value)) (layers : List Layer)
  | afterItem (items : List Value) (layers : List Layer)
  | afterMember (members : List (Option String × Value)) (layers : List Layer)
  | complete (value : Value)

namespace Builder

/-- A finished value joins the innermost open container. -/
def place (value : Value) : List Layer → Builder
  | [] => .complete value
  | .array items :: layers => .afterItem (value :: items) layers
  | .object label members :: layers => .afterMember ((label, value) :: members) layers

def step : Builder → Token → Option Builder
  | .value _ layers, .null => some (place .null layers)
  | .value _ layers, .bool b => some (place (.bool b) layers)
  | .value _ layers, .number literal => some (place (.number literal) layers)
  | .value _ layers, .string text => some (place (.string text) layers)
  | .value _ layers, .openArray => some (.value true (.array [] :: layers))
  | .value _ layers, .openObject => some (.key true [] layers)
  | .value true (.array _ :: layers), .closeArray => some (place (.array []) layers)
  | .key _ members layers, .string text => some (.colon text members layers)
  | .key true _ layers, .closeObject => some (place (.object []) layers)
  | .colon label members layers, .colon => some (.value false (.object label members :: layers))
  | .afterItem items layers, .comma => some (.value false (.array items :: layers))
  | .afterItem items layers, .closeArray => some (place (.array items.reverse) layers)
  | .afterMember members layers, .comma => some (.key false members layers)
  | .afterMember members layers, .closeObject => some (place (.object members.reverse) layers)
  | _, _ => none

end Builder

/-- One value, with nothing but blanks around it. -/
def parse? (bytes : Bytes) : Option Value := do
  match ← (← Token.scan? bytes).foldlM Builder.step (.value false []) with
  | .complete value => some value
  | _ => none

namespace Value

/-- A natural number is written with digits only. -/
def natural? : Value → Option Nat
  | .number literal => if literal.all Char.isDigit then literal.toNat? else none
  | _ => none

/-- Sizes fit in 64 bits. -/
def size? (value : Value) : Option Nat := value.natural?.filter (· < UInt64.size)

/-- A variant without data is its name, alone or as the only member of an object. -/
def variant? (names : List String) : Value → Option String
  | .string (some name) => if name ∈ names then some name else none
  | .object [(some name, .null)] => if name ∈ names then some name else none
  | _ => none

def text? : Value → Option String
  | .string text => text
  | _ => none

/--
The values of the named fields: by name from an object, by position from an array.

An object may not repeat one of the names, and an array may not be longer than they are.
-/
def fields? (names : List String) : Value → Option (List (Option Value))
  | .array items =>
    if names.length < items.length then none
    else some ((List.range names.length).map (items[·]?))
  | .object members => do
    let named ← members.mapM fun (name, value) => name.map (·, value)
    names.mapM fun name =>
      match named.filter (·.1 == name) with
      | [] => some none
      | [(_, value)] => some (some value)
      | _ => none
  | _ => none

end Value

/-- A library that reads documents: from text, from a file, and from the parsed document the parts
that structures, numbers and enumerations are made of. -/
structure Reader where
  text? : Bytes → Option Value
  file? : Bytes → Option Value
  fields? : List String → Value → Option (List (Option Value))
  size? : Value → Option Nat
  variant? : List String → Value → Option String

/-- The reader of the command line. -/
def Reader.standard : Reader where
  text? := parse?
  file? := parse?
  fields? := Value.fields?
  size? := Value.size?
  variant? := Value.variant?

end EventReadout.Json
