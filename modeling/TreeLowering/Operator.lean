import TreeLowering.Pattern

/-!
Operators and truthiness.

Most operators have one counterpart in the target; the others are calls of the runtime. Only
`false` and `nil` are falsy in the source, so a condition goes through the runtime's truthiness
unless its form alone makes it a boolean.
-/
namespace TreeLowering

open Source Target

/-- Operators that are one operator of the target. -/
def directOperator? : String → Option BinaryOp
  | "+" => some .add
  | "-" => some .sub
  | "*" => some .mul
  | "/" => some .div
  | "==" | "===" => some .eq
  | "!=" | "!==" => some .ne
  | "<" => some .lt
  | "<=" => some .le
  | ">" => some .gt
  | ">=" => some .ge
  | "and" => some .and
  | "or" => some .or
  | _ => none

/-- Whether a name starts as those of the type tests do. -/
def isTypeTestName (name : String) : Bool := ['i', 's', '_'].isPrefixOf name.toList

/-- Whether the node can only evaluate to a boolean. `and` and `or` give their right operand. -/
def isBoolean : Node → Bool
  | .boolean _ => true
  | .atom name => name == "true" || name == "false"
  | .binaryOp op _ right =>
    if op = "and" ∨ op = "or" then isBoolean right
    else op == "in" || (directOperator? op).any (·.isBoolean)
  | .unaryOp op _ => op == "not" || op == "!"
  | .call name _ info => isTypeTestName name && info.resolution == .qualified ["Kernel"]
  | _ => false

/-- A function without parameters that gives the value. -/
def delayed (value : Expr) : Expr := .function (.anonymous [] [.return_ value])

/-- The value as a string; a string literal is one already. -/
def asString (value : Expr) : Expr :=
  if value.isStringLiteral then value else .call (.ident "String") [value]

/-- Operators that take more than one operator of the target. -/
def indirectOperator? (lib : RuntimeLibrary) (op : String) (left right : Expr) : Option Expr :=
  match op with
  | "&&" => some (lib.call ["Kernel", "relaxed_and"] [left, delayed right])
  | "||" => some (lib.call ["Kernel", "relaxed_or"] [left, delayed right])
  | "<>" => some (.binary (asString left) .add (asString right))
  | "++" => some (left.method "concat" [right])
  | "--" => some (lib.call ["List", "subtract"] [left, right])
  | "in" => some (lib.call ["Kernel", "in"] [left, right])
  | _ => none

namespace LowerM

/-- The operands are lowered before the operator is looked up. -/
def binaryOperation (op : String) (left right : LowerM Expr) : LowerM Expr := do
  let left ← left
  let right ← right
  match directOperator? op with
  | some direct => return .binary left direct right
  | none =>
    match indirectOperator? (← library) op left right with
    | some value => return value
    | none => unsupported (.operator op)

/-- A node as a branch condition, from its value. -/
def condition (node : Node) (value : LowerM Expr) : LowerM Expr := do
  let value ← value
  if isBoolean node then return value else return (← library).truthy value

/-- The negation of an operand: of a literal, the negated literal. -/
def negation (operand : Node) (value : LowerM Expr) : LowerM Expr :=
  match operand with
  | .integer n =>
    match negated? n with
    | some m => pure (.integer m)
    | none => pure (.unary .neg (.integer n))
  | .float x => pure (.float x.neg)
  | _ => do return .unary .neg (← value)

def unaryOperation (op : String) (operand : Node) (value : LowerM Expr) : LowerM Expr :=
  match op with
  | "-" => negation operand value
  | "+" => value
  | "not" => do return .not (← value)
  | "!" => do return .not (← condition operand value)
  | _ => unsupported (.unaryOperator op)

def range (first last : LowerM Expr) (step : Option (LowerM Expr)) : LowerM Expr := do
  let first ← first
  let last ← last
  let step ← optional step
  return (← library).range first last step

end LowerM

end TreeLowering
