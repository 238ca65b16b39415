import EventReadout.Json.Basic
import EventReadout.Text.Hex

/-! JSON text over several lines, with two blanks for each level. -/
namespace EventReadout.Json.Value

def escapeChar (c : Char) : List Char :=
  match c with
  | '"' => ['\\', '"']
  | '\\' => ['\\', '\\']
  | '\n' => ['\\', 'n']
  | '\r' => ['\\', 'r']
  | '\t' => ['\\', 't']
  | '\x08' => ['\\', 'b']
  | '\x0c' => ['\\', 'f']
  | _ =>
    if c.toNat < 0x20 then
      ['\\', 'u', '0', '0'] ++ (if c.toNat < 0x10 then ['0'] else []) ++ Nat.toDigits 16 c.toNat
    else [c]

/-- Text that a string token lost prints as empty. -/
def quote (text : Option String) : String :=
  "\"" ++ String.ofList ((text.getD "").toList.flatMap escapeChar) ++ "\""

def indent (depth : Nat) : String := String.ofList (List.replicate (2 * depth) ' ')

/-- Puts `head` before the first line and, unless it is the last part, a comma after the last. -/
def joinLines (head : String) (body : List String) (isLast : Bool) : List String :=
  let body := if isLast then body else body.dropLast ++ (body.getLast?.map (· ++ ",")).toList
  match body with
  | [] => []
  | first :: rest => (head ++ first) :: rest

mutual

/-- Lines of a value that starts at the given depth; the first one is not indented. -/
def lines (depth : Nat) : Value → List String
  | .null => ["null"]
  | .bool true => ["true"]
  | .bool false => ["false"]
  | .number literal => [literal]
  | .string text => [quote text]
  | .array [] => ["[]"]
  | .array (item :: items) => "[" :: itemLines (depth + 1) (item :: items) ++ [indent depth ++ "]"]
  | .object [] => ["\x7b\x7d"]
  | .object (member :: members) =>
    "\x7b" :: memberLines (depth + 1) (member :: members) ++ [indent depth ++ "\x7d"]

def itemLines (depth : Nat) : List Value → List String
  | [] => []
  | item :: rest =>
    joinLines (indent depth) (lines depth item) (rest.isEmpty) ++ itemLines depth rest

def memberLines (depth : Nat) : List (Option String × Value) → List String
  | [] => []
  | (key, value) :: rest =>
    joinLines (indent depth ++ quote key ++ ": ") (lines depth value) (rest.isEmpty) ++
      memberLines depth rest

end

end EventReadout.Json.Value
