import EventReadout.Word.ByteOrder

/-!
Tokens of a JSON text.

A string token keeps no text if its escapes or bytes do not spell Unicode scalar values: such a
string is well formed, but no name can equal it.
-/
namespace EventReadout.Json

inductive Token
  | openArray
  | closeArray
  | openObject
  | closeObject
  | comma
  | colon
  | null
  | bool (value : Bool)
  | number (literal : String)
  | string (text : Option String)
  deriving DecidableEq, Repr

/-- Part of a string: a byte as it stands, or a UTF-16 unit from a hexadecimal escape. -/
inductive Piece
  | byte (b : UInt8)
  | unit (u : Nat)
  deriving DecidableEq, Repr

namespace Piece

def isHigh (u : Nat) : Bool := 0xD800 ≤ u && u < 0xDC00

def isLow (u : Nat) : Bool := 0xDC00 ≤ u && u < 0xE000

def utf8 (scalar : Nat) : Bytes := String.utf8EncodeChar (Char.ofNat scalar)

/-- Surrogates have to come in pairs. -/
def bytes? : List Piece → Option Bytes
  | [] => some []
  | .byte b :: rest => (b :: ·) <$> bytes? rest
  | .unit high :: .unit low :: rest =>
    if isHigh high then
      if isLow low then
        (utf8 (0x10000 + (high - 0xD800) * 0x400 + (low - 0xDC00)) ++ ·) <$> bytes? rest
      else none
    else if isLow high then none
    else (utf8 high ++ ·) <$> bytes? (.unit low :: rest)
  | .unit u :: rest => if isHigh u || isLow u then none else (utf8 u ++ ·) <$> bytes? rest

def text? (pieces : List Piece) : Option String := do
  String.fromUTF8? ⟨(← bytes? pieces).toArray⟩

end Piece

/-- What the scanner is in the middle of; text collected so far is latest first. -/
inductive Scan
  | between
  | name (text : List Char)
  | number (text : List Char)
  | string (pieces : List Piece)
  | escape (pieces : List Piece)
  | unicode (pieces : List Piece) (left value : Nat)
  deriving DecidableEq, Repr

structure Scanner where
  scan : Scan := .between
  tokens : Array Token := #[]

namespace Scanner

/-- Digits from the front, at least one of them. -/
def digits? (text : List Char) : Option (List Char) :=
  match text with
  | c :: rest => if c.isDigit then some (rest.dropWhile Char.isDigit) else none
  | [] => none

def fraction? : List Char → Option (List Char)
  | '.' :: rest => digits? rest
  | text => some text

def exponent? : List Char → Option (List Char)
  | 'e' :: '+' :: rest | 'E' :: '+' :: rest | 'e' :: '-' :: rest | 'E' :: '-' :: rest =>
    digits? rest
  | 'e' :: rest | 'E' :: rest => digits? rest
  | text => some text

/-- No leading zeros; fraction and exponent have digits of their own. -/
def isNumber (text : List Char) : Bool :=
  let unsigned := match text with
    | '-' :: rest => rest
    | rest => rest
  let afterInteger := match unsigned with
    | '0' :: rest => some rest
    | rest => digits? rest
  (afterInteger >>= fraction? >>= exponent?) = some []

def token? : Scan → Option (Option Token)
  | .between => some none
  | .name text =>
    match String.ofList text.reverse with
    | "null" => some (some .null)
    | "true" => some (some (.bool true))
    | "false" => some (some (.bool false))
    | _ => none
  | .number text =>
    let text := text.reverse
    if isNumber text then some (some (.number (String.ofList text))) else none
  | _ => none

/-- Closes a name or a number at the byte that does not belong to it. -/
def finish (s : Scanner) : Option Scanner := do
  match ← token? s.scan with
  | none => return s
  | some t => return { tokens := s.tokens.push t }

def isNumberChar (c : Char) : Bool :=
  c.isDigit || c == '-' || c == '+' || c == '.' || c == 'e' || c == 'E'

/-- A byte outside strings, names and numbers. -/
def start (s : Scanner) (b : UInt8) : Option Scanner :=
  let c := Char.ofNat b.toNat
  let punctuation (t : Token) : Option Scanner := some { tokens := s.tokens.push t }
  match c with
  | ' ' | '\t' | '\n' | '\r' => some { s with scan := .between }
  | '[' => punctuation .openArray
  | ']' => punctuation .closeArray
  | '\x7b' => punctuation .openObject
  | '\x7d' => punctuation .closeObject
  | ',' => punctuation .comma
  | ':' => punctuation .colon
  | '"' => some { s with scan := .string [] }
  | _ =>
    if c.isLower then some { s with scan := .name [c] }
    else if c.isDigit || c == '-' then some { s with scan := .number [c] }
    else none

def escaped? : Char → Option UInt8
  | '"' => some 0x22
  | '\\' => some 0x5C
  | '/' => some 0x2F
  | 'b' => some 0x08
  | 'f' => some 0x0C
  | 'n' => some 0x0A
  | 'r' => some 0x0D
  | 't' => some 0x09
  | _ => none

def hexValue? (c : Char) : Option Nat :=
  if c.isDigit then some (c.toNat - '0'.toNat)
  else if 'a' ≤ c ∧ c ≤ 'f' then some (c.toNat - 'a'.toNat + 10)
  else if 'A' ≤ c ∧ c ≤ 'F' then some (c.toNat - 'A'.toNat + 10)
  else none

/-- Control characters have to be escaped inside a string. -/
def step (s : Scanner) (b : UInt8) : Option Scanner :=
  let ⟨scan, tokens⟩ := s
  let c := Char.ofNat b.toNat
  match scan with
  | .between => start ⟨.between, tokens⟩ b
  | .name text =>
    if c.isLower then some ⟨.name (c :: text), tokens⟩
    else (finish ⟨.name text, tokens⟩).bind (·.start b)
  | .number text =>
    if isNumberChar c then some ⟨.number (c :: text), tokens⟩
    else (finish ⟨.number text, tokens⟩).bind (·.start b)
  | .string pieces =>
    if c = '"' then some ⟨.between, tokens.push (.string (Piece.text? pieces.reverse))⟩
    else if c = '\\' then some ⟨.escape pieces, tokens⟩
    else if b < 0x20 then none
    else some ⟨.string (.byte b :: pieces), tokens⟩
  | .escape pieces =>
    if c = 'u' then some ⟨.unicode pieces 3 0, tokens⟩
    else (escaped? c).map fun e => ⟨.string (.byte e :: pieces), tokens⟩
  | .unicode pieces left value =>
    (hexValue? c).map fun digit =>
      let value := value * 16 + digit
      match left with
      | 0 => ⟨.string (.unit value :: pieces), tokens⟩
      | left + 1 => ⟨.unicode pieces left value, tokens⟩

end Scanner

/-- All tokens of a text, or nothing if some part of it is none. -/
def Token.scan? (bytes : Bytes) : Option (List Token) := do
  let s ← (← bytes.foldlM Scanner.step {}).finish
  return s.tokens.toList

end EventReadout.Json
