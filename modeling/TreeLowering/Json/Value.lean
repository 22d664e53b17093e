import TreeLowering.Number

/-!
JSON values as they are written: members in order, a repeated key kept, numbers by their digits.

A string literal may escape half of a surrogate pair. Such a literal is well-formed but stands for
no text, so the text of a string is optional.
-/
namespace TreeLowering.Json

/-- A number as it is written. The digits are decimal; the whole part has at least one. -/
structure Numeral where
  negative : Bool
  whole : List Char
  fraction : Option (List Char)
  /-- Whether the exponent is negative, and its digits. -/
  exponent : Option (Bool × List Char)
deriving DecidableEq, Repr

namespace Numeral

def digitValue (c : Char) : Nat := c.toNat - '0'.toNat

def ofDigits (digits : List Char) : Nat :=
  digits.foldl (fun n c => n * 10 + digitValue c) 0

/-- The numeral of an integer. -/
def ofInt (n : Int) : Numeral :=
  { negative := n < 0
    whole := Nat.toDigits 10 n.natAbs
    fraction := none
    exponent := none }

/-- The integer of a numeral without fraction and exponent. `-0` is the number minus zero, which is
no integer. -/
def toInt? (n : Numeral) : Option Int :=
  match n.fraction, n.exponent with
  | none, none =>
    let value := ofDigits n.whole
    if n.negative then if value = 0 then none else some (-(value : Int)) else some value
  | _, _ => none

/-- The largest significand that is kept. -/
def significandLimit : Nat := UInt64.size - 1

/-- Takes digits into a significand as long as it stays in its limit, and counts the digits that
were taken and those that were left. -/
def takeDigits (significand : Nat) : List Char → Nat × Nat × Nat
  | [] => (significand, 0, 0)
  | c :: cs =>
    let next := significand * 10 + digitValue c
    if significandLimit < next then (significand, 0, cs.length + 1)
    else
      let (s, taken, left) := takeDigits next cs
      (s, taken + 1, left)

/-- The double of a numeral, or nothing when it lies past the largest one. Digits past the limit of
the significand count for their place only. -/
def toBinary64? (n : Numeral) : Option Binary64 := do
  let (s, _, wholeLeft) := takeDigits 0 n.whole
  let (s, fractionTaken, _) := takeDigits s (n.fraction.getD [])
  let power : Int := match n.exponent with
    | none => 0
    | some (true, digits) => -(ofDigits digits : Int)
    | some (false, digits) => ofDigits digits
  let x ← Binary64.ofDecimal? s (wholeLeft - fractionTaken + power)
  return if n.negative then x.neg else x

end Numeral

inductive Value where
  | null
  | bool (value : Bool)
  | number (numeral : Numeral)
  | string (text : Option String)
  | array (items : List Value)
  | object (members : List (Option String × Value))

namespace Value

def text (s : String) : Value := .string (some s)

def int (n : Int) : Value := .number (.ofInt n)

/-- An object whose keys are texts. -/
def record (fields : List (String × Value)) : Value :=
  .object (fields.map fun (name, value) => (some name, value))

/-- An object of one member. -/
def tagged (tag : String) (payload : Value) : Value := .record [(tag, payload)]

/-- The value of the first member of that name. -/
def member? (name : String) : Value → Option Value
  | .object members => members.lookup (some name)
  | _ => none

end Value

end TreeLowering.Json
