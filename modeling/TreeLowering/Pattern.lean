import TreeLowering.Source.Text
import TreeLowering.State

/-!
Patterns as tests and bindings.

A pattern applied to a subject becomes a list of tests, all of which must hold, and a list of
bindings from source names to the accessors of the matched parts. The tests come in an order in
which each makes the next one safe: first the kind of the subject, then its size, then its parts.
A variable that occurs again is a test for equality with its first occurrence.
-/
namespace TreeLowering

open Source Target

/-- The target constant of an atom: `true`, `false` and `nil` are constants of the target. -/
def atomValue (name : String) : Expr :=
  if name = "true" then .bool true
  else if name = "false" then .bool false
  else if name = "nil" then .null
  else atomSymbol name

/-- The value of a module name. -/
def moduleValue (segments : List String) : Expr := atomSymbol (Identifier.moduleAtom segments)

/-- The opposite integer, if it is an integer of 64 bits. -/
def negated? (n : Int64) : Option Int64 := if n = Int64.minValue then none else some (-n)

namespace Pattern

/-- What patterns have come to so far. -/
structure Plan where
  tests : List Expr := []
  bindings : List (String × Expr) := []

namespace Plan

/-- The conjunction of the tests; nothing if the patterns match every subject. -/
def test (p : Plan) : Option Expr := Expr.all p.tests

def require (p : Plan) (test : Expr) : Plan := { p with tests := p.tests ++ [test] }

def requireAll (p : Plan) (tests : List Expr) : Plan := { p with tests := p.tests ++ tests }

def bind (p : Plan) (name : String) (accessor : Expr) : Plan :=
  { p with bindings := p.bindings ++ [(name, accessor)] }

end Plan

/-- What a pattern may refer to: the runtime library, and the names in force before the match. -/
structure Surroundings where
  library : RuntimeLibrary
  state : State

/-- The constant of a literal, as a pattern compares with it. -/
def constant? : Node → Option Expr
  | .integer n => some (.integer n)
  | .float x => some (.float x)
  | .string s => some (.string s)
  | .boolean b => some (.bool b)
  | .nil => some .null
  | .atom name => some (atomValue name)
  | .unaryOp "-" (.integer n) => (negated? n).map .integer
  | .unaryOp "-" (.float x) => some (.float x.neg)
  | .binary segments => (segmentsText? segments).map .string
  | _ => none

def isArray (value : Expr) : Expr := .method (.ident "Array") "isArray" [value]

namespace Surroundings

variable (env : Surroundings)

def pinned (name : String) : Expr := .ident (env.state.resolve name)

def moduleValue (segments : List String) : Expr :=
  TreeLowering.moduleValue (env.state.resolveModule segments)

end Surroundings

/-- The key of a map pattern's entry. -/
def key (env : Surroundings) (node : Node) : Except LowerError Expr :=
  match constant? node with
  | some value => .ok value
  | none =>
    match node with
    | .moduleName segments => .ok (env.moduleValue segments)
    | .pin (.var name) => .ok (env.pinned name)
    | .pin other => .error (.malformed (.mapKeyPin other.formName))
    | other => .error (.malformed (.mapKey other.formName))

/-- A literal: the subject must be the constant. -/
def compileConstant (node : Node) (subject : Expr) (plan : Plan) : Except LowerError Plan :=
  match constant? node with
  | some value => .ok (plan.require (.eq subject value))
  | none => .error (.unsupported (.pattern node.formName))

/-- A variable: bound when it is new, compared when it is not. -/
def compileVariable (env : Surroundings) (name : String) (subject : Expr) (plan : Plan) : Plan :=
  if name = "_" then plan
  else
    match plan.bindings.lookup name with
    | some first => plan.require (env.library.equals subject first)
    | none => plan.bind name subject

mutual

/-- Adds the tests and bindings of a pattern on a subject. -/
def compile (env : Surroundings) : Node → Expr → Plan → Except LowerError Plan
  | .float x, subject, plan => .ok (plan.require (env.library.equals subject (.float x)))
  | .unaryOp "-" (.float x), subject, plan =>
    .ok (plan.require (env.library.equals subject (.float x.neg)))
  | .moduleName segments, subject, plan =>
    .ok (plan.require (.eq subject (env.moduleValue segments)))
  | .var name, subject, plan => .ok (compileVariable env name subject plan)
  | .pin (.var name), subject, plan =>
    .ok (plan.require (env.library.equals subject (env.pinned name)))
  | .pin other, _, _ => .error (.malformed (.pinOperand other.formName))
  | .tuple items, subject, plan =>
    compileItems env (fun i => subject.method "get" [.natural i]) 0 items
      (plan.requireAll
        [env.library.isTuple subject, .eq (subject.property "size") (.natural items.length)])
  | .list items, subject, plan =>
    compileItems env (fun i => subject.index (.natural i)) 0 items
      (plan.requireAll [isArray subject, .eq (subject.property "length") (.natural items.length)])
  | .cons head tail, subject, plan => do
    let plan ← compileItems env (fun i => subject.index (.natural i)) 0 head
      (plan.requireAll
        [isArray subject, .binary (subject.property "length") .ge (.natural head.length)])
    compile env tail (subject.method "slice" [.natural head.length]) plan
  | .map entries, subject, plan =>
    compileEntries env subject entries (plan.require (env.library.isMap subject))
  | .struct tag fields none, subject, plan => do
    let plan ← compile env tag (subject.index (atomSymbol "__struct__"))
      (plan.require (env.library.isMap subject))
    compileEntries env subject fields plan
  | .bind pattern value, subject, plan => do
    let plan ← compile env pattern subject plan
    compile env value subject plan
  | .binaryOp "<>" (.string start) rest, subject, plan =>
    compile env rest (subject.method "slice" [.natural (utf16Length start)])
      (plan.requireAll
        [.eq (.unary .typeOf subject) (.string "string"),
         subject.method "startsWith" [.string start]])
  | .binaryOp "<>" _ _, _, _ => .error (.unsupported .stringPatternStart)
  | node, subject, plan => compileConstant node subject plan

/-- The items of a tuple or list, each on its own slot of the subject. -/
def compileItems (env : Surroundings) (slot : Nat → Expr) :
    Nat → List Node → Plan → Except LowerError Plan
  | _, [], plan => .ok plan
  | i, item :: rest, plan => do
    let plan ← compile env item (slot i) plan
    compileItems env slot (i + 1) rest plan

/-- The entries of a map: each key must be there, and its value must match. -/
def compileEntries (env : Surroundings) (subject : Expr) :
    List (Node × Node) → Plan → Except LowerError Plan
  | [], plan => .ok plan
  | (k, value) :: rest, plan => do
    let k ← key env k
    let plan ← compile env value (subject.index k) (plan.require (.binary k .in_ subject))
    compileEntries env subject rest plan

end

/-- Patterns on as many subjects, as one plan. -/
def compileAll (env : Surroundings) : List Node → List Expr → Plan → Except LowerError Plan
  | pattern :: patterns, subject :: subjects, plan => do
    let plan ← compile env pattern subject plan
    compileAll env patterns subjects plan
  | _, _, plan => .ok plan

end Pattern

namespace LowerM

/-- The plan of patterns under the names in force. -/
def plan (patterns : List Node) (subjects : List Expr) : LowerM Pattern.Plan := do
  let env : Pattern.Surroundings := ⟨← library, ← state⟩
  ofExcept (Pattern.compileAll env patterns subjects {})

/-- Declares bindings in the current scope. -/
def declare (bindings : List (String × Expr)) : LowerM (List Stmt) :=
  sequence <| bindings.map fun (name, accessor) => do
    return .const (← bindVariable name) accessor

/-- An identifier that holds the value, with the declaration that it may need: a value that is an
identifier already is its own holder. -/
def hold (stem : String) (value : Expr) : LowerM (List Stmt × Expr) :=
  match value with
  | .ident name => pure ([], .ident name)
  | value => do
    let name ← invent stem
    return ([.const name value], .ident name)

/-- `pattern = value`: the statements that match and bind, and the value matched. A value that does
not match raises a match error. -/
def bindPattern (pattern : Node) (value : LowerM Expr) : LowerM (List Stmt × Expr) := do
  let value ← value
  match pattern with
  | .var name =>
    if name = "_" then general pattern value
    else
      let target ← bindVariable name
      return ([.const target value], .ident target)
  | pattern => general pattern value
where
  general (pattern : Node) (value : Expr) : LowerM (List Stmt × Expr) := do
    let (held, subject) ← hold "m" value
    let plan ← plan [pattern] [subject]
    let failure ← match plan.test with
      | none => pure []
      | some test => do
        let error := (← library).error "MatchError" [subject]
        pure [Stmt.when_ (.not test) (.throws error)]
    let declared ← declare plan.bindings
    return (held ++ failure ++ declared, subject)

end LowerM

end TreeLowering
