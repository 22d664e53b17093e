import TreeLowering.Json.Value
import TreeLowering.Text.Reader

/-!
Strict JSON text. Blanks may stand around every token and nothing else may; numbers have no leading
zero, strings hold no raw control character, and lists no comma at their end. Nesting has no limit
here.
-/
namespace TreeLowering.Json

open Text Text.Reader

def isBlank (c : Char) : Bool := c == ' ' || c == '\n' || c == '\t' || c == '\r'

def blanks : Reader Unit := do let _ ← takeWhile isBlank

/-- A character between blanks. -/
def token (c : Char) : Reader Unit := do
  blanks
  char c
  blanks

/-- A part of a string: a character, or half of a surrogate pair. -/
inductive StringPart where
  | char (c : Char)
  | surrogate (unit : Nat)

def escaped? : Char → Option Char
  | '"' => some '"'
  | '\\' => some '\\'
  | '/' => some '/'
  | 'b' => some '\x08'
  | 'f' => some '\x0c'
  | 'n' => some '\n'
  | 'r' => some '\r'
  | 't' => some '\t'
  | _ => none

/-- The part that a sixteen-bit unit stands for. -/
def StringPart.ofUnit (n : Nat) : StringPart :=
  match charOf? n with
  | some c => .char c
  | none => .surrogate n

/-- The parts of a string up to its closing quote. -/
def stringParts : List StringPart → List Char → Option (List StringPart × List Char)
  | acc, '"' :: rest => some (acc.reverse, rest)
  | acc, '\\' :: 'u' :: a :: b :: c :: d :: rest => do
    let unit ← numberOf? 16 [a, b, c, d]
    stringParts (.ofUnit unit :: acc) rest
  | acc, '\\' :: c :: rest => do
    let c ← escaped? c
    stringParts (.char c :: acc) rest
  | acc, c :: rest => if c.val < 0x20 then none else stringParts (.char c :: acc) rest
  | _, [] => none

/-- The characters of a string, if each high half of a pair is followed by a low half. -/
def joinParts : List StringPart → Option (List Char)
  | [] => some []
  | .char c :: rest => do return c :: (← joinParts rest)
  | .surrogate high :: .surrogate low :: rest => do
    if high < 0xDC00 ∧ 0xDC00 ≤ low then
      let c ← charOf? (0x10000 + (high - 0xD800) * 0x400 + (low - 0xDC00))
      return c :: (← joinParts rest)
    else none
  | .surrogate _ :: _ => none

/-- A string literal. -/
def stringLiteral : Reader (Option String) := do
  char '"'
  let parts ← stringParts []
  return (joinParts parts).map String.ofList

def digits : Reader (List Char) := takeWhile1 Char.isDigit

/-- The whole part of a number: a zero, or digits that do not start with one. -/
def wholePart : Reader (List Char) := do
  let ds ← digits
  check (ds.length == 1 || ds.head? != some '0')
  return ds

def fractionPart : Reader (List Char) := do
  char '.'
  digits

def exponentPart : Reader (Bool × List Char) := do
  let _ ← satisfy fun c => c == 'e' || c == 'E'
  let sign ← option (satisfy fun c => c == '+' || c == '-')
  return (sign == some '-', ← digits)

def numeral : Reader Numeral := do
  let sign ← option (char '-')
  let whole ← wholePart
  let fraction ← option fractionPart
  let exponent ← option exponentPart
  return ⟨sign.isSome, whole, fraction, exponent⟩

/-- Items between brackets, divided by commas. -/
def bracketed {α : Type} (opening closing : Char) (item : Reader α) : Reader (List α) := do
  char opening
  blanks
  (do
    char closing
    return []) <|> (do
    let items ← sepBy1 item (token ',')
    blanks
    char closing
    return items)

/-- A value with at most so many levels of nesting. -/
def valueWithin : Nat → Reader Value
  | 0 => fail
  | levels + 1 =>
    let member : Reader (Option String × Value) := do
      let key ← stringLiteral
      token ':'
      return (key, ← valueWithin levels)
    (do
      exactly ['n', 'u', 'l', 'l']
      return .null) <|> (do
      exactly ['t', 'r', 'u', 'e']
      return .bool true) <|> (do
      exactly ['f', 'a', 'l', 's', 'e']
      return .bool false) <|> (do
      return .string (← stringLiteral)) <|> (do
      return .number (← numeral)) <|> (do
      return .array (← bracketed '[' ']' (valueWithin levels))) <|> (do
      return .object (← bracketed '\x7b' '\x7d' member))

/-- A text that is one value. Each level of nesting takes a character of the text. -/
def Value.ofText? (s : String) : Option Value :=
  let document : Reader Value := do
    blanks
    let v ← valueWithin (s.length + 1)
    blanks
    return v
  document.run s

end TreeLowering.Json
