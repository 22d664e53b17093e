import TreeLowering.Operator

/-!
The positions a node can stand in.

Every node can be asked for a value. As the last of a body it becomes statements that return or
throw, and before the last it becomes statements run for their effect. What is an expression by
nature returns its value, and what is a sequence of statements by nature becomes a value as the
body of a function called where it stands.
-/
namespace TreeLowering

open Source Target

/-- What a node becomes in each position. -/
structure Positions where
  /-- In expression position. -/
  value : LowerM Expr
  /-- At the end of a body. -/
  tail : LowerM (List Stmt)
  /-- Before the end of a body. -/
  effect : LowerM (List Stmt)

namespace LowerM

/-- Statements of their own scope, as an expression. -/
def immediately (stmts : LowerM (List Stmt)) : LowerM Expr := do
  return .immediate (← inScope stmts)

end LowerM

namespace Positions

open LowerM

def returned (value : LowerM Expr) : LowerM (List Stmt) := do return [.return_ (← value)]

def evaluated (value : LowerM Expr) : LowerM (List Stmt) := do return [.expr (← value)]

/-- A node that is an expression by nature. -/
def ofValue (value : LowerM Expr) : Positions :=
  { value, tail := returned value, effect := evaluated value }

/-- A node that is a sequence of statements by nature. -/
def ofStatements (tail effect : LowerM (List Stmt)) : Positions :=
  { value := immediately tail, tail, effect }

/-- A node that cannot be lowered here. -/
def misplaced (what : Malformed) : Positions := ofValue (malformed what)

/-- A body: everything in order, the last returned; an empty body returns nil. -/
def body : List Positions → LowerM (List Stmt)
  | [] => pure [.return_ .null]
  | [last] => last.tail
  | first :: second :: rest => do
    let stmts ← first.effect
    let more ← body (second :: rest)
    return stmts ++ more

/-- The value of a body in expression position. -/
def bodyValue : List Positions → LowerM Expr
  | [] => pure .null
  | [only] => inScope only.value
  | items => immediately (body items)

/-- `pattern = value`. -/
def binding (pattern : Node) (value : LowerM Expr) : Positions :=
  ofStatements
    (do
      let (stmts, result) ← bindPattern pattern value
      return stmts ++ [.return_ result])
    (do
      let (stmts, _) ← bindPattern pattern value
      return stmts)

/-- Expressions in order, without a scope of their own when they are run for their effect. -/
def sequenced (items : List Positions) : Positions :=
  ofStatements (body items) (concat (items.map (·.effect)))

/-- `raise`. -/
def raising (value : LowerM Expr) : Positions :=
  let thrown : LowerM (List Stmt) := do return [.throws (← value)]
  ofStatements thrown thrown

/-- Statements that end in a return or a throw whatever the position. -/
def closed (stmts : LowerM (List Stmt)) : Positions :=
  ofStatements stmts (evaluated (immediately stmts))

/-- The two branches of an `if` in the order of the target; `unless` takes them the other way. -/
def branches {α : Type} (negated : Bool) (body otherwise : α) : α × α :=
  if negated then (otherwise, body) else (body, otherwise)

/-- `if` and `unless`. The body is lowered before the alternative. -/
def conditional (negated : Bool) (test : LowerM Expr) (thenItems elseItems : List Positions) :
    Positions :=
  { ofValue (do
      let test ← test
      let thenValue ← bodyValue thenItems
      let elseValue ← bodyValue elseItems
      let (consequent, alternate) := branches negated thenValue elseValue
      return .conditional test consequent alternate) with
    tail := do
      let test ← test
      let thenStmts ← inScope (body thenItems)
      let elseStmts ← inScope (body elseItems)
      let (consequent, alternate) := branches negated thenStmts elseStmts
      return [.ifElse test (.block consequent) (some (.block alternate))] }

end Positions

end TreeLowering
