import TreeLowering.Pattern

/-!
Clauses: heads with guards, and the statements that try clauses in order.

A clause becomes `if (tests) { bindings; if (guard) { body } }`. The body returns or throws, so
control reaches the next clause only when the tests or the guard fail. A clause that nothing can
fall through ends the list; otherwise an error is thrown after the last one.

The parts of a clause that are themselves lowered are given as steps, so nothing here recurs into a
tree.
-/
namespace TreeLowering

open Source Target

def Source.Node.isGuarded : Node → Bool
  | .guarded .. => true
  | _ => false

/-- The alternatives of a guard: `a when b when c` nests to the right, and each link of the chain
holds one expression. -/
def guardAlternatives : Node → Except LowerError (List Node)
  | .guarded [first] rest => do return first :: (← guardAlternatives rest)
  | .guarded _ _ => .error (.malformed .guardChain)
  | guard => .ok [guard]

/-- The patterns and the guards of a clause head. -/
def splitHead : List Node → Except LowerError (List Node × List Node)
  | [.guarded patterns guard] => do return (patterns, ← guardAlternatives guard)
  | head =>
    if head.any (·.isGuarded) then .error (.malformed .guardInsideHead) else .ok (head, [])

/-- A clause to be lowered: its patterns, the tests of its guards, and its body. -/
structure ClauseParts where
  patterns : List Node
  guards : List (LowerM Expr)
  body : LowerM (List Stmt)
  /-- The attribute versions where the clause is written, if it is a clause of a module. -/
  attributes : Option (NameTable Nat) := none

/-- A clause chosen by a condition alone. -/
structure ConditionParts where
  head : List Node
  tests : List (LowerM Expr)
  body : LowerM (List Stmt)

namespace LowerM

/-- The body behind a test, or the plain body when there is nothing to test. -/
def behind (test : Option Expr) (body : List Stmt) : Stmt :=
  match test with
  | some test => .when_ test (.block body)
  | none => .block body

/-- One clause on its subjects, behind preconditions. -/
def clauseBlock (preconditions : List Expr) (clause : ClauseParts) (subjects : List Expr) :
    LowerM Stmt :=
  inScope do
    let plan ← plan clause.patterns subjects
    let test := Expr.all (preconditions ++ plan.tests)
    let declared ← declare plan.bindings
    if clause.guards.isEmpty then
      let body ← clause.body
      return behind test (declared ++ body)
    else
      let guards ← sequence clause.guards
      let body ← clause.body
      let guard := (Expr.any guards).getD (.bool true)
      return behind test (declared ++ [.when_ guard (.block body)])

/-- The statements, with a last one added when control could leave them otherwise. -/
def closedBy (failure : Stmt) (stmts : List Stmt) : List Stmt :=
  if Stmt.lastIsTerminal stmts then stmts else stmts ++ [failure]

/-- The blocks of the clauses of a `case`, up to one that nothing falls through. -/
def caseBlocks (subject : Expr) : List (Except LowerError ClauseParts) → LowerM (List Stmt)
  | [] => pure []
  | clause :: rest => do
    let clause ← ofExcept clause
    if clause.patterns.length ≠ 1 then malformed (.casePatterns clause.patterns.length)
    else
      let block ← clauseBlock [] clause [subject]
      if block.isTerminal then return [block]
      else return block :: (← caseBlocks subject rest)

/-- `case`: the subject is evaluated once, and the first clause that matches runs. -/
def caseOf (subject : LowerM Expr) (clauses : List (Except LowerError ClauseParts)) :
    LowerM (List Stmt) := do
  if clauses.isEmpty then malformed .noCaseClauses
  else
    let (held, subject) ← hold "case" (← subject)
    let blocks ← caseBlocks subject clauses
    let failure := Stmt.throws ((← library).error "CaseClauseError" [subject])
    return closedBy failure (held ++ blocks)

/-- Whether a condition holds whatever happens. -/
def isAlwaysTrue : Node → Bool
  | .boolean b => b
  | .atom name => name == "true"
  | _ => false

/-- The branches of a `cond`, up to one whose condition is the constant `true`. -/
def condBranches : List ConditionParts → LowerM (List Stmt)
  | [] => do return [.throws ((← library).error "CondClauseError" [])]
  | clause :: rest =>
    match clause.head, clause.tests with
    | [condition], [test] =>
      if isAlwaysTrue condition then do
        return [.block (← inScope clause.body)]
      else do
        let test ← test
        let body ← inScope clause.body
        return .when_ test (.block body) :: (← condBranches rest)
    | head, _ => malformed (.condConditions head.length)

/-- `cond`: the first branch whose condition is truthy runs. -/
def cond (clauses : List ConditionParts) : LowerM (List Stmt) :=
  if clauses.isEmpty then malformed .noCondClauses else condBranches clauses

end LowerM

/-- The names of parameters that are plain variables, all different. -/
def plainParams? : List Node → Option (List String)
  | [] => some []
  | .var name :: rest => do
    let names ← plainParams? rest
    if name = "_" || names.contains name then none else some (name :: names)
  | _ => none

def paramName (i : Nat) : String := Identifier.invented "arg" i

/-- The tests that a call has exactly `arity` of at most `most` arguments. No value is
`undefined`, so an argument that reads so is missing. -/
def arityTests (arity most : Nat) : List Expr :=
  (if 0 < arity then [.ne (.ident (paramName (arity - 1))) (.ident "undefined")] else []) ++
  (if arity < most then [.eq (.ident (paramName arity)) (.ident "undefined")] else [])

/-- Puts a number at its place in an ascending list that may hold it already. -/
def insertDistinct (n : Nat) : List Nat → List Nat
  | [] => [n]
  | m :: ms => if n < m then n :: m :: ms else if n = m then m :: ms else m :: insertDistinct n ms

/-- The numbers that occur in a list, each once and from the least. -/
def sortedDistinct (ns : List Nat) : List Nat := ns.foldr insertDistinct []

namespace LowerM

/-- The blocks of the clauses of a function. When all clauses take as many arguments, one that
nothing falls through is the last. -/
def functionBlocks (overloaded : Bool) (most : Nat) : List ClauseParts → LowerM (List Stmt)
  | [] => pure []
  | clause :: rest => do
    let arity := clause.patterns.length
    let preconditions := if overloaded then arityTests arity most else []
    let subjects := (List.range arity).map fun i => Expr.ident (paramName i)
    let block ← withAttributes clause.attributes (clauseBlock preconditions clause subjects)
    if block.isTerminal && !overloaded then return [block]
    else return block :: (← functionBlocks overloaded most rest)

/-- A function that tries its clauses on invented parameters. -/
def dispatch (name label : String) (clauses : List ClauseParts) : LowerM FunctionDef := do
  let arities := sortedDistinct (clauses.map (·.patterns.length))
  let most := arities.getLast?.getD 0
  let params := (List.range most).map paramName
  let blocks ← functionBlocks (1 < arities.length) most clauses
  let signature := label ++ "/" ++ ",".intercalate (arities.map toString)
  let failure := Stmt.throws <| (← library).error "FunctionClauseError"
    [.string signature, .array (params.map .ident)]
  return ⟨name, params, closedBy failure blocks⟩

/-- A function whose one clause takes plain variables: the parameters keep their names. -/
def plainFunction (name : String) (params : List String) (clause : ClauseParts) :
    LowerM FunctionDef :=
  withAttributes clause.attributes do
    let params ← bindVariables params
    let body ← clause.body
    return ⟨name, params, body⟩

/-- One function from its clauses in order. -/
def clausesFunction (name label : String) (clauses : List ClauseParts) : LowerM FunctionDef :=
  match clauses with
  | [only] =>
    if only.guards.isEmpty then
      match plainParams? only.patterns with
      | some params => plainFunction name params only
      | none => dispatch name label clauses
    else dispatch name label clauses
  | clauses => dispatch name label clauses

/-- `fn`: all heads are read before anything is lowered. -/
def anonymousFunction (clauses : List (Except LowerError ClauseParts)) : LowerM Expr := do
  let clauses ← sequence (clauses.map ofExcept)
  match clauses with
  | [] => malformed .noFnClauses
  | first :: rest =>
    if rest.any fun c => c.patterns.length != first.patterns.length then malformed .fnArities
    else return .function (← inScope (clausesFunction "" "anonymous fn" clauses))

end LowerM

end TreeLowering
