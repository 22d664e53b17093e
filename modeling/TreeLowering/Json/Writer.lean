import TreeLowering.Json.Value

/-!
JSON text of a value, without blanks. A string without text cannot be written and becomes `null`.
-/
namespace TreeLowering.Json

def hexDigit (n : Nat) : Char := (Nat.toDigits 16 n).headD '0'

/-- A character inside a string literal. -/
def escapeChar (c : Char) : List Char :=
  if c = '"' then ['\\', '"']
  else if c = '\\' then ['\\', '\\']
  else if c.val < 0x20 then
    ['\\', 'u', '0', '0', hexDigit (c.toNat / 16), hexDigit (c.toNat % 16)]
  else [c]

def quoted (s : String) : String :=
  "\"" ++ String.ofList (s.toList.flatMap escapeChar) ++ "\""

namespace Numeral

def render (n : Numeral) : String :=
  let fraction := (n.fraction.map fun ds => "." ++ String.ofList ds).getD ""
  let exponent := (n.exponent.map fun (negative, ds) =>
    (if negative then "e-" else "e") ++ String.ofList ds).getD ""
  (if n.negative then "-" else "") ++ String.ofList n.whole ++ fraction ++ exponent

end Numeral

namespace Value

mutual

def render : Value → String
  | .null => "null"
  | .bool true => "true"
  | .bool false => "false"
  | .number n => n.render
  | .string (some s) => quoted s
  | .string none => "null"
  | .array items => "[" ++ ",".intercalate (renderItems items) ++ "]"
  | .object members => "\x7b" ++ ",".intercalate (renderMembers members) ++ "\x7d"

def renderItems : List Value → List String
  | [] => []
  | v :: vs => v.render :: renderItems vs

def renderMembers : List (Option String × Value) → List String
  | [] => []
  | (key, v) :: rest => (quoted (key.getD "") ++ ":" ++ v.render) :: renderMembers rest

end

end Value

end TreeLowering.Json
