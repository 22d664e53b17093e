import Mathlib.Algebra.Group.Nat.Defs
import TreeLowering.Pattern
import TreeLowering.Proofs.Value

/-!
What patterns mean in the source, and what the tests made from them mean in the target.

`Matches` says when a value matches a pattern under an assignment of values to the variables of
the pattern. It is stated by recursion on the pattern alone: a variable that occurs twice is the
same variable twice, and nothing is said about an order of tests.

`evaluate` reads the expressions that patterns are compiled to. It gives nothing when an operation
is applied to a value of the wrong kind, such as the size of what is not a tuple, an item past the
end of a list, or the rest of a text that would begin inside of a character. A missing entry of a
map reads as `undefined`, which is no value of the source.
-/
namespace TreeLowering.Matching

open Source Target

/-- What a pattern refers to outside of itself. -/
structure Reading where
  /-- The values of the variables that it may pin. -/
  pinned : String → Option Value
  /-- The full name of the module that a name stands for. -/
  fullName : List String → List String

abbrev Assignment := String → Value

namespace Reading

variable (r : Reading)

def moduleAtom (segments : List String) : String := Identifier.moduleAtom (r.fullName segments)

/-- The key that a map pattern asks for: a text, an atom that is no constant, a module name, or
what a pinned variable holds. -/
def key? : Node → Option Key
  | .string text => some (.text text)
  | .binary segments => (segmentsText? segments).map .text
  | .atom name => (Value.ofAtom name).key?
  | .moduleName segments => some (.atom (r.moduleAtom segments))
  | .pin (.var name) => (r.pinned name).bind Value.key?
  | _ => none

mutual

/-- The value matches the pattern when its variables have the assigned values. -/
def Matches (θ : Assignment) : Node → Value → Prop
  | .integer n, v => v = .integer n.toInt
  | .string text, v => v = .string text
  | .boolean b, v => v = .boolean b
  | .nil, v => v = .nil
  | .atom name, v => v = .ofAtom name
  | .unaryOp "-" (.integer n), v => v = .integer (-n.toInt)
  | .binary segments, v => ∃ text, segmentsText? segments = some text ∧ v = .string text
  | .moduleName segments, v => v = .atom (r.moduleAtom segments)
  | .var name, v => name = "_" ∨ v = θ name
  | .pin (.var name), v => r.pinned name = some v
  | .tuple items, v => ∃ vs, v = .tuple vs ∧ MatchesEach θ items vs
  | .list items, v => ∃ vs, v = .list vs ∧ MatchesEach θ items vs
  | .cons head tail, v =>
    ∃ front rest, v = .list (front ++ rest) ∧ MatchesEach θ head front ∧ Matches θ tail (.list rest)
  | .map entries, v => v.isMap = true ∧ MatchesEntries θ entries v
  | .struct tag fields none, v =>
    (∃ w, v.get? (.atom "__struct__") = some w ∧ Matches θ tag w) ∧ MatchesEntries θ fields v
  | .bind pattern other, v => Matches θ pattern v ∧ Matches θ other v
  | .binaryOp "<>" (.string start) rest, v =>
    ∃ text, v = .string (start ++ text) ∧ Matches θ rest (.string text)
  | _, _ => False

/-- As many values as patterns, each matching its own. -/
def MatchesEach (θ : Assignment) : List Node → List Value → Prop
  | [], [] => True
  | pattern :: patterns, v :: vs => Matches θ pattern v ∧ MatchesEach θ patterns vs
  | _, _ => False

/-- The value has an entry under every key, matching the pattern beside it. -/
def MatchesEntries (θ : Assignment) : List (Node × Node) → Value → Prop
  | [], _ => True
  | (key, pattern) :: rest, v =>
    (∃ k w, r.key? key = some k ∧ v.get? k = some w ∧ Matches θ pattern w) ∧
      MatchesEntries θ rest v

end

mutual

/-- The patterns that are spoken of here: without floats, structs being of a named module, the keys
of maps being such as maps have, pinned variables being bound, and no sequence being longer than a
signed 64-bit number can count. -/
def Covers : Node → Prop
  | .float _ => False
  | .unaryOp _ operand => Covers operand
  | .pin (.var name) => (r.pinned name).isSome = true
  | .tuple items => items.length < 2 ^ 63 ∧ CoversEach items
  | .list items => items.length < 2 ^ 63 ∧ CoversEach items
  | .cons head tail => head.length < 2 ^ 63 ∧ CoversEach head ∧ Covers tail
  | .map entries => CoversEntries entries
  | .struct (.moduleName _) fields _ => CoversEntries fields
  | .struct _ _ _ => False
  | .bind pattern other => Covers pattern ∧ Covers other
  | .binaryOp _ (.string start) rest => utf16Length start < 2 ^ 63 ∧ Covers rest
  | _ => True

def CoversEach : List Node → Prop
  | [] => True
  | pattern :: patterns => Covers pattern ∧ CoversEach patterns

def CoversEntries : List (Node × Node) → Prop
  | [] => True
  | (key, pattern) :: rest => (r.key? key).isSome = true ∧ Covers pattern ∧ CoversEntries rest

end

end Reading

/-- What an expression of the target gives. -/
inductive Operand where
  | value (v : Value)
  | undefined

namespace Operand

def isTuple : Operand → Bool
  | .value (.tuple _) => true
  | _ => false

def isArray : Operand → Bool
  | .value (.list _) => true
  | _ => false

def isMap : Operand → Bool
  | .value v => v.isMap
  | .undefined => false

/-- The answer of `typeof`. -/
def typeName : Operand → String
  | .value (.integer _) => "number"
  | .value (.string _) => "string"
  | .value (.boolean _) => "boolean"
  | .value (.atom _) => "symbol"
  | .value _ => "object"
  | .undefined => "undefined"

def isScalar : Operand → Bool
  | .value v => v.isScalar
  | .undefined => true

/-- `===`; whether two compound values are one object is not known. -/
def identical (a b : Operand) : Option Bool :=
  if a.isScalar || b.isScalar then
    match a, b with
    | .value v, .value w => some (v.same w)
    | .undefined, .undefined => some true
    | _, _ => some false
  else none

end Operand

def ofBool (b : Bool) : Operand := .value (.boolean b)

/-- A property that is read by name. -/
def propertyOf (name : String) : Operand → Option Operand
  | .value (.tuple items) => if name = "size" then some (.value (.integer items.length)) else none
  | .value (.list items) => if name = "length" then some (.value (.integer items.length)) else none
  | _ => none

/-- An entry that is read in brackets. -/
def entryOf : Operand → Operand → Option Operand
  | .value (.list items), .value (.integer n) =>
    if 0 ≤ n then (items[n.toNat]?).map .value else none
  | .value (.map keys entry), .value k =>
    k.key?.map fun k => (((Value.map keys entry).get? k).map .value).getD .undefined
  | _, _ => none

/-- A call of a method. -/
def methodOf (name : String) : Operand → List Operand → Option Operand
  | .value (.tuple items), [.value (.integer n)] =>
    if name = "get" ∧ 0 ≤ n then (items[n.toNat]?).map .value else none
  | .value (.list items), [.value (.integer n)] =>
    if name = "slice" ∧ 0 ≤ n then some (.value (.list (items.drop n.toNat))) else none
  | .value (.string text), [.value (.integer n)] =>
    if name = "slice" ∧ 0 ≤ n then (dropUnits n.toNat text).map (.value ∘ .string) else none
  | .value (.string text), [.value (.string start)] =>
    if name = "startsWith" then some (ofBool (beginsWith text start)) else none
  | _, _ => none

/-- Functions that do not belong to a value. -/
inductive Global where
  | symbolFor
  | isArray
  | equals
  | isMap
deriving DecidableEq, Repr

/-- The function behind a dotted name; `Patterns` is a namespace of the runtime library. -/
def global? (lib : RuntimeLibrary) : Expr → String → Option Global
  | .ident "Symbol", "for" => some .symbolFor
  | .ident "Array", "isArray" => some .isArray
  | .member (.ident root) (.literal (.string "Patterns")) false, "equals" =>
    if root = lib.name then some .equals else none
  | .member (.ident root) (.literal (.string "Patterns")) false, "is_map" =>
    if root = lib.name then some .isMap else none
  | _, _ => none

def applyGlobal : Global → List Operand → Option Operand
  | .symbolFor, [.value (.string name)] => some (.value (.atom name))
  | .isArray, [x] => some (ofBool x.isArray)
  | .equals, [.value v, .value w] => some (ofBool (v.same w))
  | .isMap, [.value v] => some (ofBool v.isMap)
  | _, _ => none

def isTupleClass (lib : RuntimeLibrary) : Expr → Bool
  | .member (.ident root) (.literal (.string "Tuple")) false => root == lib.name
  | _ => false

def literalOf : Literal → Option Operand
  | .null => some (.value .nil)
  | .bool b => some (ofBool b)
  | .integer n => some (.value (.integer n.toInt))
  | .float _ => none
  | .string text => some (.value (.string text))

section Evaluation

variable (lib : RuntimeLibrary) (σ : String → Option Value)

mutual

/-- What an expression gives when the identifiers hold the given values. -/
@[simp] def evaluate : Expr → Option Operand
  | .literal l => literalOf l
  | .ident name => (σ name).map .value
  | .unary .typeOf e => do return .value (.string (← evaluate e).typeName)
  | .binary a .and b => do
    match ← evaluate a with
    | .value (.boolean true) => evaluate b
    | .value (.boolean false) => return ofBool false
    | _ => none
  | .binary a .eq b => do return ofBool (← (← evaluate a).identical (← evaluate b))
  | .binary a .ge b => do
    match ← evaluate a, ← evaluate b with
    | .value (.integer m), .value (.integer n) => return ofBool (n ≤ m)
    | _, _ => none
  | .binary a .in_ b => do
    match ← evaluate a, ← evaluate b with
    | .value k, .value (.map keys _) => do return ofBool ((← k.key?) ∈ keys)
    | _, _ => none
  | .binary a .instanceOf b => do
    if isTupleClass lib b then return ofBool (← evaluate a).isTuple else none
  | .member object (.literal (.string name)) false => do propertyOf name (← evaluate object)
  | .member object key true => do entryOf (← evaluate object) (← evaluate key)
  | .call (.member object (.literal (.string name)) false) args =>
    match global? lib object name with
    | some f => do applyGlobal f (← evaluateEach args)
    | none => do methodOf name (← evaluate object) (← evaluateEach args)
  | _ => none

@[simp] def evaluateEach : List Expr → Option (List Operand)
  | [] => some []
  | e :: es => do return (← evaluate e) :: (← evaluateEach es)

end

/-- Whether a test holds. -/
def test? (e : Expr) : Option Bool :=
  match evaluate lib σ e with
  | some (.value (.boolean b)) => some b
  | _ => none

/-- The outcome of a plan's test: with nothing to test, the patterns match. -/
def outcome? : Option Expr → Option Bool
  | none => some true
  | some e => test? lib σ e

end Evaluation

end TreeLowering.Matching
