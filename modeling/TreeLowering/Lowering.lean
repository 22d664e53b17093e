import TreeLowering.Call
import TreeLowering.Collection
import TreeLowering.Comprehension
import TreeLowering.ModuleBody
import TreeLowering.Position
import TreeLowering.Source.Pipe

/-!
Lowering of whole trees.

`positions` gives a node's meaning in every position from the meanings of its parts, by recursion on
the tree; the rules themselves are those of the modules imported here. `lowerExpr` and
`lowerProgram` write out the pipes first and start from the empty state, and a `Session` runs
several such requests under one configuration.
-/
namespace TreeLowering

open Source Target

namespace Lowering

mutual

/-- What a node becomes in each position. -/
def positions : Node → Positions
  | .integer n => .ofValue (pure (.integer n))
  | .float x => .ofValue (pure (.float x))
  | .string s => .ofValue (pure (.string s))
  | .boolean b => .ofValue (pure (.bool b))
  | .nil => .ofValue (pure .null)
  | .atom name => .ofValue (pure (atomValue name))
  | .var name => .ofValue do return .ident (← LowerM.resolve name)
  | .moduleName segments => .ofValue do return moduleValue (← LowerM.resolveModule segments)
  | .list items => .ofValue do return .array (← LowerM.sequence (values items))
  | .cons head tail => .ofValue (LowerM.consList (values head) (positions tail).value)
  | .tuple items => .ofValue (LowerM.tuple (values items))
  | .binary segments => .ofValue (LowerM.binary (segmentValues segments))
  | .map entries => .ofValue (LowerM.object (properties entries))
  | .mapUpdate base updates =>
    .ofValue (LowerM.mapUpdate (positions base).value (properties updates))
  | .struct module fields update =>
    .ofValue (LowerM.struct module (properties fields) (optionValue update))
  | .bind pattern value => .binding pattern (positions value).value
  | .binaryOp op left right =>
    .ofValue (LowerM.binaryOperation op (positions left).value (positions right).value)
  | .unaryOp op operand => .ofValue (LowerM.unaryOperation op operand (positions operand).value)
  | .range first last step =>
    .ofValue (LowerM.range (positions first).value (positions last).value (optionValue step))
  | .call name args info => .ofValue (LowerM.namedCall name info (values args))
  | .dot target name args info =>
    .ofValue (LowerM.dotted target (positions target).value name (optionValues args) info)
  | .apply callee args => .ofValue (LowerM.applied (positions callee).value (values args))
  | .capture owner name _ => .ofValue (LowerM.captured owner name)
  | .fn clauses => .ofValue (LowerM.anonymousFunction (clauseParts clauses))
  | .caseOf subject clauses =>
    .closed (LowerM.caseOf (positions subject).value (clauseParts clauses))
  | .cond clauses => .closed (LowerM.cond (conditionParts clauses))
  | .ifElse condition body otherwise =>
    .conditional false (LowerM.condition condition (positions condition).value)
      (all body) (optionAll otherwise)
  | .unlessElse condition body otherwise =>
    .conditional true (LowerM.condition condition (positions condition).value)
      (all body) (optionAll otherwise)
  | .comprehension qualifiers body into =>
    .ofValue (LowerM.comprehension (qualifierParts qualifiers) (Positions.bodyValue (all body))
      (optionValue into))
  | .block items => .sequenced (all items)
  | .raise exception attributes =>
    .raising (LowerM.raised exception (positions exception).value (optionValue attributes))
  | .attributeRead name => .ofValue (LowerM.attributeValue name)
  | .pipe _ _ => .misplaced .pipeLeft
  | .pin _ => .misplaced .pinOutsidePattern
  | .guarded _ _ => .misplaced .guardOutsideHead
  | node => .misplaced (.misplaced node.formName)

def all : List Node → List Positions
  | [] => []
  | n :: ns => positions n :: all ns

def optionAll : Option (List Node) → List Positions
  | none => []
  | some ns => all ns

def values : List Node → List (LowerM Expr)
  | [] => []
  | n :: ns => (positions n).value :: values ns

def optionValue : Option Node → Option (LowerM Expr)
  | none => none
  | some n => some (positions n).value

def optionValues : Option (List Node) → Option (List (LowerM Expr))
  | none => none
  | some ns => some (values ns)

def segmentValues : List (Segment Node) → List (Segment Node × LowerM Expr)
  | [] => []
  | .plain n :: rest => (.plain n, (positions n).value) :: segmentValues rest
  | .interpolated n :: rest => (.interpolated n, (positions n).value) :: segmentValues rest

def properties : List (Node × Node) → List (LowerM Property)
  | [] => []
  | (key, value) :: rest =>
    LowerM.entry key (positions key).value (positions value).value :: properties rest

/-- The tests of a guard's alternatives; `p` is what the guard itself becomes. -/
def guardTests (p : Positions) : Node → List (LowerM Expr)
  | .guarded (first :: _) rest =>
    LowerM.condition first (positions first).value :: guardTests (positions rest) rest
  | guard => [LowerM.condition guard p.value]

/-- The tests of the guards of a clause head. -/
def headTests : List Node → List (LowerM Expr)
  | [.guarded _ guard] => guardTests (positions guard) guard
  | _ => []

def clauseParts : List (Clause Node) → List (Except LowerError ClauseParts)
  | [] => []
  | ⟨head, body⟩ :: rest =>
    ((splitHead head).map fun (patterns, _) =>
      { patterns, guards := headTests head, body := Positions.body (all body) })
    :: clauseParts rest

def conditions : List Node → List (LowerM Expr)
  | [] => []
  | n :: ns => LowerM.condition n (positions n).value :: conditions ns

def conditionParts : List (Clause Node) → List ConditionParts
  | [] => []
  | ⟨head, body⟩ :: rest =>
    { head, tests := conditions head, body := Positions.body (all body) } :: conditionParts rest

def qualifierParts : List (Qualifier Node) → List QualifierParts
  | [] => []
  | .generator pattern collection :: rest =>
    .generator pattern (positions collection).value :: qualifierParts rest
  | .filter condition :: rest =>
    .filter (LowerM.condition condition (positions condition).value) :: qualifierParts rest

def fieldValues : List (String × Node) → List (String × LowerM Expr)
  | [] => []
  | (name, value) :: rest => (name, (positions value).value) :: fieldValues rest

/-- The tests of the guards of a definition's head. -/
def definitionTests : Node → List (LowerM Expr)
  | .guarded _ guard => guardTests (positions guard) guard
  | _ => []

/-- A node as an item of a module body; `p` is what the node itself becomes. -/
def item (p : Positions) : Node → ModuleItem
  | .define visibility head body =>
    .definition visibility (definitionHead head) (definitionTests head) (Positions.body (all body))
  | .attributeSet name value => .attributeSet name (positions value).value
  | .defStruct fields => .struct (fieldValues fields) false
  | .defException fields => .struct (fieldValues fields) true
  | .module name body => .module name fun full => LowerM.moduleDef full body (items body)
  | .importAll module => .importing (LowerM.importDeclaration (.importAll module))
  | .importOnly module only => .importing (LowerM.importDeclaration (.importOnly module only))
  | .aliasAs module rename => .importing (LowerM.importDeclaration (.aliasAs module rename))
  | .require module rename => .importing (LowerM.importDeclaration (.require module rename))
  | _ => .statements p.effect

def items : List Node → List ModuleItem
  | [] => []
  | n :: ns => item (positions n) n :: items ns

end

/-- The statements of a form at the top of a program. -/
def topLevel (node : Node) : LowerM (List Stmt) :=
  match item (positions node) node with
  | .module name lowered => do return [.module (← lowered name)]
  | .importing declaration => do return (← declaration).toList.map .imports
  | _ => (positions node).effect

end Lowering

/-- One expression, pipes and all. -/
def lowerExprM (node : Node) : LowerM Expr := do
  let node ← LowerM.ofExcept node.removePipes
  (Lowering.positions node).value

/-- The forms of a program; all pipes are written out before anything is lowered. -/
def lowerProgramM (nodes : List Node) : LowerM Program := do
  let nodes ← LowerM.ofExcept (Node.removePipesList nodes)
  return ⟨← LowerM.concat (nodes.map Lowering.topLevel)⟩

/-- Several requests under one configuration; the state is what the last request left. -/
structure Session where
  config : Config
  state : State := {}

namespace Session

/-- Runs a request from the empty state. -/
def request {α : Type} (session : Session) (x : LowerM α) : Except LowerError α × Session :=
  let out := x session.config {}
  (out.1, { session with state := out.2 })

def lowerExpr (session : Session) (node : Node) : Except LowerError Expr × Session :=
  session.request (lowerExprM node)

def lowerProgram (session : Session) (nodes : List Node) : Except LowerError Program × Session :=
  session.request (lowerProgramM nodes)

end Session

/-- The target expression of a node. -/
def lowerExpr (config : Config) (node : Node) : Except LowerError Expr :=
  ((Session.mk config {}).lowerExpr node).1

/-- The target program of top-level forms. -/
def lowerProgram (config : Config) (nodes : List Node) : Except LowerError Program :=
  ((Session.mk config {}).lowerProgram nodes).1

end TreeLowering
