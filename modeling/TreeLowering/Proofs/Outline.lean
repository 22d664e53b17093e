import TreeLowering.Call
import TreeLowering.ModuleBody
import TreeLowering.Position
import TreeLowering.Proofs.PatternNames

/-!
The outline of a source tree: what it reads and binds, in order, and which scopes it opens.

A form has one outline for each position. In expression position nothing leaks: a binding, a block,
a `case`, a `cond` or a `raise` there is a child scope. Before the end of a body a binding and a
block leave their variables to what follows. The clauses of `case` and `fn`, the branches of `if`
and `cond` and the steps of a comprehension are child scopes wherever they stand.

Some values are kept while patterns are tried on them, or while a loop runs. They have no name in
the source; `use` and `matching` refer to them by how many such values are kept inside of them.
-/
namespace TreeLowering.Scoping

open Source Pattern

inductive Event where
  /-- A variable is read. -/
  | read (name : String)
  /-- A variable is bound, for what follows in the scope. -/
  | bind (name : String)
  /-- Patterns are tried on the value kept last. Pinned variables may be read, as they were before;
  the names are bound. -/
  | matching (pins names : List String)
  /-- A value is kept for what follows. -/
  | hold (value uses : List Event)
  /-- The value kept at that depth is read. -/
  | use (depth : Nat)
  /-- A child scope; what is bound there is dropped after it. -/
  | scope (inner : List Event)
  /-- A function that keeps its arguments under parameters of these names. -/
  | params (names : List String) (inner : List Event)
  /-- A loop over a collection, keeping its items one by one. -/
  | loop (collection inner : List Event)
  /-- Loops that add to a kept list of results, which is put into a collection at last. -/
  | collect (loops into : List Event)
  /-- What may be left out because it is never reached. -/
  | optional (inner : List Event)
  /-- A function is named. -/
  | function (name : String)
  | remote (module : List String) (function : String)
  | attribute (name : String)
  | define (name : String)

/-- The outline of a form in each position. -/
structure Outline where
  value : List Event
  tail : List Event
  effect : List Event

/-- The variables that patterns bind, each once. -/
def namesBound (patterns : List Node) : List String := withNames [] (boundNamesEach patterns)

/-- Patterns tried on the value kept last: first the tests, then the bindings. -/
def tried (patterns : List Node) : List Event :=
  [.matching (pinnedNamesEach patterns) [],
   .matching (pinnedNamesEach patterns) (namesBound patterns)]

/-- The same, the bindings being in a scope with what depends on them. -/
def triedThen (patterns : List Node) (inner : List Event) : List Event :=
  [.matching (pinnedNamesEach patterns) [],
   .scope (.matching (pinnedNamesEach patterns) (namesBound patterns) :: inner)]

namespace Outline

def ofValue (value : List Event) : Outline := ⟨value, value, value⟩

def ofStatements (tail effect : List Event) : Outline := ⟨[.scope tail], tail, effect⟩

def body : List Outline → List Event
  | [] => []
  | [last] => last.tail
  | first :: second :: rest => first.effect ++ body (second :: rest)

def bodyValue : List Outline → List Event
  | [] => []
  | [only] => only.value
  | items => [.scope (body items)]

def binding (pattern : Node) (value : List Event) : Outline :=
  match pattern with
  | .var name =>
    if name = "_" then general pattern
    else ofStatements (value ++ [.bind name, .read name]) (value ++ [.bind name])
  | pattern => general pattern
where
  general (pattern : Node) : Outline :=
    ofStatements [.hold value (tried [pattern] ++ [.use 0])] [.hold value (tried [pattern])]

def sequenced (items : List Outline) : Outline :=
  ofStatements (body items) (items.flatMap (·.effect))

def raising (value : List Event) : Outline := ofStatements value value

def closed (stmts : List Event) : Outline := ofStatements stmts [.scope stmts]

def conditional (negated : Bool) (test : List Event) (thenItems elseItems : List Outline) :
    Outline :=
  let values := Positions.branches negated (bodyValue thenItems) (bodyValue elseItems)
  let scopes := Positions.branches negated [.scope (body thenItems)] [.scope (body elseItems)]
  { ofValue (test ++ values.1 ++ values.2) with tail := test ++ scopes.1 ++ scopes.2 }

end Outline

/-- The outline of a clause: its patterns, its guards and its body. -/
structure ClauseOutline where
  patterns : List Node
  guards : List (List Event)
  body : List Event

namespace ClauseOutline

/-- The clause tried on the value kept last. Clauses after one that always matches are left out. -/
def events (clause : ClauseOutline) : List Event :=
  let inner := if clause.guards.isEmpty then clause.body
    else clause.guards.flatten ++ [.scope clause.body]
  [.optional (triedThen clause.patterns inner)]

end ClauseOutline

/-- The names of the parameters of a function that tries its clauses. -/
def argumentNames (clauses : List ClauseOutline) : List String :=
  let arities := sortedDistinct (clauses.map (·.patterns.length))
  (List.range (arities.getLast?.getD 0)).map paramName

/-- Clauses tried on the arguments of a function, and the error when none matches. -/
def dispatched (clauses : List ClauseOutline) : List Event :=
  [.params (argumentNames clauses) (clauses.flatMap (·.events) ++ [.matching [] []])]

/-- A function from its clauses: one with plain variables binds them as its parameters. -/
def clausesOutline (clauses : List ClauseOutline) : List Event :=
  match clauses with
  | [only] =>
    if only.guards.isEmpty then
      match plainParams? only.patterns with
      | some params => [.scope (params.map .bind ++ only.body)]
      | none => dispatched clauses
    else dispatched clauses
  | clauses => dispatched clauses

def caseOutline (subject : List Event) (clauses : List ClauseOutline) : List Event :=
  [.hold subject (clauses.flatMap (·.events) ++ [.matching [] []])]

/-- The branches of a `cond`. -/
def condOutline (clauses : List (List Event × List Event)) : List Event :=
  clauses.flatMap fun (test, body) => [.optional (test ++ [.scope body])]

inductive QualifierOutline where
  | generator (pattern : Node) (collection : List Event)
  | filter (test : List Event)

/-- The loops of a comprehension. The results are kept outside of the items of `depth` loops. -/
def loopsOutline (body : List Event) : Nat → List QualifierOutline → List Event
  | depth, [] => .use depth :: body
  | depth, .generator pattern collection :: rest =>
    [.loop collection (triedThen [pattern] (loopsOutline body (depth + 1) rest))]
  | depth, .filter test :: rest => test ++ [.scope (loopsOutline body depth rest)]

/-- The function of a module or of a value, which is named before it is called. -/
def remoteOutline (target : Node) (value : List Event) (name : String) : List Event :=
  match target with
  | .moduleName segments => [.remote segments name]
  | .atom _ => []
  | _ => value

def calleeOutline (name : String) (info : CallMeta) : List Event :=
  match info.resolution with
  | .qualified module => [.remote module name]
  | .unqualified | .imported => [.function name]

def captureOutline (owner : Option Node) (name : String) : List Event :=
  match owner with
  | none => [.function name]
  | some (.moduleName segments) => [.remote segments name]
  | some _ => []

/-- The right operand of a relaxed operator is delayed by a function. -/
def operandsOutline (op : String) (left right : List Event) : List Event :=
  if op = "&&" ∨ op = "||" then left ++ [.scope right] else left ++ right

/-- A struct of a named module is built by the module, or updated as a map. -/
def structOutline (module : Node) (fields : List Event) (update : Option Outline) : List Event :=
  match module, update with
  | .moduleName segments, none => .remote segments "__struct__" :: fields
  | _, some base => base.value ++ fields
  | _, none => fields

def dottedOutline (target : Node) (value : List Event) (name : String)
    (args : Option (List Outline)) (info : DotMeta) : List Event :=
  match args with
  | some args => remoteOutline target value name ++ args.flatMap (·.value)
  | none =>
    if LowerM.isCallWithoutArguments target info then remoteOutline target value name else value

def raisedOutline (exception : Node) (value : List Event) (attributes : Option Outline) :
    List Event :=
  match exception with
  | .moduleName segments =>
    .remote segments "exception" :: (attributes.map (·.value)).getD []
  | _ => value

/-- The patterns of a clause's head. -/
def headPatterns : List Node → List Node
  | [.guarded patterns _] => patterns
  | head => head

mutual

def outline : Node → Outline
  | .var name => .ofValue [.read name]
  | .list items => .ofValue ((outlines items).flatMap (·.value))
  | .cons head tail => .ofValue ((outlines head).flatMap (·.value) ++ (outline tail).value)
  | .tuple items => .ofValue ((outlines items).flatMap (·.value))
  | .binary segments => .ofValue (segmentsOutline segments)
  | .map entries => .ofValue (entriesOutline entries)
  | .mapUpdate base updates => .ofValue ((outline base).value ++ entriesOutline updates)
  | .struct module fields update =>
    .ofValue (structOutline module (entriesOutline fields) (optionOutline update))
  | .bind pattern value => .binding pattern (outline value).value
  | .binaryOp op left right =>
    .ofValue (operandsOutline op (outline left).value (outline right).value)
  | .unaryOp _ operand => .ofValue (outline operand).value
  | .range first last step =>
    .ofValue ((outline first).value ++ (outline last).value ++
      ((optionOutline step).map (·.value)).getD [])
  | .call name args info => .ofValue (calleeOutline name info ++ (outlines args).flatMap (·.value))
  | .dot target name args info =>
    .ofValue (dottedOutline target (outline target).value name (optionOutlines args) info)
  | .apply callee args => .ofValue ((outline callee).value ++ (outlines args).flatMap (·.value))
  | .capture owner name _ => .ofValue (captureOutline owner name)
  | .fn clauses => .ofValue (clausesOutline (clauseOutlines clauses))
  | .caseOf subject clauses => .closed (caseOutline (outline subject).value (clauseOutlines clauses))
  | .cond clauses => .closed (condOutline (conditionOutlines clauses))
  | .ifElse condition body otherwise =>
    .conditional false (outline condition).value (outlines body)
      ((optionOutlines otherwise).getD [])
  | .unlessElse condition body otherwise =>
    .conditional true (outline condition).value (outlines body)
      ((optionOutlines otherwise).getD [])
  | .comprehension qualifiers body into =>
    .ofValue [.collect (loopsOutline (Outline.bodyValue (outlines body)) 0
      (qualifierOutlines qualifiers)) (((optionOutline into).map (·.value)).getD [])]
  | .block items => .sequenced (outlines items)
  | .raise exception attributes =>
    .raising (raisedOutline exception (outline exception).value (optionOutline attributes))
  | .attributeRead name => .ofValue [.attribute name]
  | _ => .ofValue []

def outlines : List Node → List Outline
  | [] => []
  | n :: ns => outline n :: outlines ns

def optionOutline : Option Node → Option Outline
  | none => none
  | some n => some (outline n)

def optionOutlines : Option (List Node) → Option (List Outline)
  | none => none
  | some ns => some (outlines ns)

def segmentsOutline : List (Segment Node) → List Event
  | [] => []
  | .plain n :: rest => (outline n).value ++ segmentsOutline rest
  | .interpolated n :: rest => (outline n).value ++ segmentsOutline rest

def entriesOutline : List (Node × Node) → List Event
  | [] => []
  | (key, value) :: rest => (outline key).value ++ (outline value).value ++ entriesOutline rest

/-- The alternatives of a guard; `own` is the outline of the guard itself. -/
def guardOutlines (own : List Event) : Node → List (List Event)
  | .guarded (first :: _) rest => (outline first).value :: guardOutlines (outline rest).value rest
  | _ => [own]

def headGuards : List Node → List (List Event)
  | [.guarded _ guard] => guardOutlines (outline guard).value guard
  | _ => []

def clauseOutlines : List (Clause Node) → List ClauseOutline
  | [] => []
  | ⟨head, body⟩ :: rest =>
    ⟨headPatterns head, headGuards head, Outline.body (outlines body)⟩ :: clauseOutlines rest

def conditionOutlines : List (Clause Node) → List (List Event × List Event)
  | [] => []
  | ⟨head, body⟩ :: rest =>
    ((outlines head).flatMap (·.value), Outline.body (outlines body)) :: conditionOutlines rest

def qualifierOutlines : List (Qualifier Node) → List QualifierOutline
  | [] => []
  | .generator pattern collection :: rest =>
    .generator pattern (outline collection).value :: qualifierOutlines rest
  | .filter condition :: rest => .filter (outline condition).value :: qualifierOutlines rest

end

/-- What an item of a module, or a form of a program, brings to the statements there. Imports bring
nothing, and definitions and modules are apart. -/
def itemEvents : Node → List Event
  | .attributeSet name value =>
    if documentationAttributes.contains name then [] else (outline value).value ++ [.define name]
  | .define .. | .defStruct _ | .defException _ | .module .. => []
  | .importAll _ | .importOnly .. | .aliasAs .. | .require .. => []
  | n => (outline n).effect

def definitionGuards : Node → List (List Event)
  | .guarded _ guard => guardOutlines (outline guard).value guard
  | _ => []

/-- The clause that an item adds to the function of that name. -/
def itemClauses (name : String) : Node → List ClauseOutline
  | .define _ head body =>
    match definitionHead head with
    | .ok (function, patterns, _) =>
      if function = name then [⟨patterns, definitionGuards head, Outline.body (outlines body)⟩]
      else []
    | .error _ => []
  | _ => []

/-- The clauses of a function of a module, wherever they stand in its body. -/
def definedClauses (name : String) (body : List Node) : List ClauseOutline :=
  body.flatMap (itemClauses name)

end TreeLowering.Scoping
