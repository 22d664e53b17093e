import TreeLowering.Clause

/-!
Module bodies: what their items are, and the module they make.

Items are taken in order. Attributes, statements and nested modules become statements of the module;
imports are collected; the clauses of a name are gathered into one function wherever they stand,
each with the attribute versions of its place. A struct definition adds its constructor in front of
the functions. Functions are lowered after all items have been taken.
-/
namespace TreeLowering

open Source Target

/-- Attributes that only document or give types. -/
def documentationAttributes : List String :=
  ["doc", "moduledoc", "typedoc", "spec", "type", "typep", "opaque", "callback", "macrocallback",
   "impl", "behaviour", "since", "deprecated", "dialyzer"]

/-- The name, parameters and guards of a definition's head. -/
def definitionHead : Node → Except LowerError (String × List Node × List Node)
  | .call name args _ => .ok (name, args, [])
  | .var name => .ok (name, [], [])
  | .guarded [.call name args _] guard => do return (name, args, ← guardAlternatives guard)
  | .guarded [.var name] guard => do return (name, [], ← guardAlternatives guard)
  | .guarded _ _ => .error (.malformed .definitionGuard)
  | other => .error (.malformed (.definitionHead other.formName))

/-- The functions that an item lets the module call without a module name. -/
def declaredFunctions : Node → List String
  | .define _ head _ =>
    match definitionHead head with
    | .ok (name, _, _) => [Identifier.escape name]
    | .error _ => []
  | .importOnly _ only => only.map fun (name, _) => Identifier.escape name
  | .defStruct _ => ["__struct__"]
  | .defException _ => ["__struct__", "exception"]
  | _ => []

/-- An item of a module body, its lowered parts being steps. -/
inductive ModuleItem where
  | definition (visibility : Visibility) (head : Except LowerError (String × List Node × List Node))
      (guards : List (LowerM Expr)) (body : LowerM (List Stmt))
  | attributeSet (name : String) (value : LowerM Expr)
  | importing (declaration : LowerM (Option Import))
  | struct (fields : List (String × LowerM Expr)) (isException : Bool)
  /-- A module, to be lowered under its full name. -/
  | module (name : List String) (lowered : List String → LowerM ModuleDef)
  | statements (stmts : LowerM (List Stmt))

/-- The clauses of one name, in source order. -/
structure FunctionGroup where
  name : String
  clauses : List (Visibility × ClauseParts)

namespace FunctionGroup

/-- Whether other modules may call the function, by any of its arities. -/
def isExported (g : FunctionGroup) : Bool := g.clauses.any (·.1 == .exported)

/-- The visibility that clauses of this arity were given first. -/
def visibility? (g : FunctionGroup) (arity : Nat) : Option Visibility :=
  (g.clauses.find? (·.2.patterns.length == arity)).map (·.1)

def hasArity (g : FunctionGroup) (arity : Nat) : Bool := (g.visibility? arity).isSome

end FunctionGroup

/-- Adds a clause to the group of its name. Clauses of one name and arity have one visibility. -/
def addClause (name : String) (visibility : Visibility) (clause : ClauseParts) :
    List FunctionGroup → Except LowerError (List FunctionGroup)
  | [] => .ok [⟨name, [(visibility, clause)]⟩]
  | g :: rest =>
    if g.name = name then
      let arity := clause.patterns.length
      if (g.visibility? arity).any (· != visibility) then
        .error (.malformed (.mixedVisibility name arity))
      else .ok ({ g with clauses := g.clauses ++ [(visibility, clause)] } :: rest)
    else do return g :: (← addClause name visibility clause rest)

/-- What the items of a body have come to so far. -/
structure ModuleDraft where
  imports : List Import := []
  body : List Stmt := []
  groups : List FunctionGroup := []
  structs : List (List (String × LowerM Expr) × Bool) := []

namespace LowerM

/-- The names and the module that an import declaration is about. -/
def importBinding : Node → Except LowerError (List String × ImportBinding)
  | .importAll module => .ok (module, .everything (Identifier.ofModule module))
  | .importOnly module only =>
    .ok (module, .named (only.map fun (name, _) => Identifier.escape name).eraseDups)
  | .aliasAs module rename =>
    match rename.or module.getLast? with
    | some name => .ok (module, .default (Identifier.escape name))
    | none => .error (.malformed (.emptyModuleName "alias"))
  | .require module rename =>
    .ok (module, .default ((rename.map Identifier.escape).getD (Identifier.ofModule module)))
  | other => .error (.malformed (.misplaced other.formName))

/-- The declaration of an import; a module that the runtime serves needs none. -/
def importDeclaration (node : Node) : LowerM (Option Import) := do
  let (module, binding) ← ofExcept (importBinding node)
  if module.isEmpty then malformed (.emptyModuleName node.formName)
  else if (← config).isRuntimeModule module then return none
  else return some ⟨binding, (← config).importSource (Identifier.dotted module)⟩

/-- Takes one item of the module of that name. -/
def takeItem (name : List String) (draft : ModuleDraft) : ModuleItem → LowerM ModuleDraft
  | .definition visibility head guards body => do
    let (function, patterns, _) ← ofExcept head
    let clause : ClauseParts := { patterns, guards, body, attributes := some (← attributes) }
    return { draft with groups := ← ofExcept (addClause function visibility clause draft.groups) }
  | .attributeSet key value =>
    if documentationAttributes.contains key then pure draft
    else do
      let value ← value
      let target ← defineAttribute key
      return { draft with body := draft.body ++ [.const target value] }
  | .importing declaration => do
    return { draft with imports := draft.imports ++ (← declaration).toList }
  | .struct fields isException =>
    pure { draft with structs := draft.structs ++ [(fields, isException)] }
  | .module inner lowered => do
    match inner with
    | [] => pure ()
    | first :: _ => addAlias first (name ++ [first])
    let module ← lowered (name ++ inner)
    return { draft with body := draft.body ++ [.module module] }
  | .statements stmts => do
    return { draft with body := draft.body ++ (← stmts) }

def takeItems (name : List String) : ModuleDraft → List ModuleItem → LowerM ModuleDraft
  | draft, [] => pure draft
  | draft, item :: rest => do
    let draft ← takeItem name draft item
    takeItems name draft rest

/-- The entries of a struct's defaults; an exception is marked, and always has a message. -/
def structDefaults (fields : List (String × LowerM Expr)) (isException : Bool) :
    LowerM (List Property) := do
  let given ← sequence <| fields.map fun (field, value) => do
    return Property.computed (atomValue field) (← inFunction value)
  if isException then
    let mark := Property.computed (atomSymbol "__exception__") (.bool true)
    let message := Property.computed (atomSymbol "message") .null
    let noMessage := fields.all (·.1 != "message")
    return [mark] ++ given ++ (if noMessage then [message] else [])
  else return given

/-- The functions that a struct definition adds: the constructor from defaults and given values,
and for an exception without an `exception` of its own the one that builds it. -/
def structFunctions (name : List String) (fields : List (String × LowerM Expr))
    (isException hasOwnException : Bool) : LowerM (List ModuleFunction) := do
  let defaults ← structDefaults fields isException
  let built := (← library).specialForm "struct"
    [moduleValue name, .object defaults, .ident "$values"]
  let constructor : FunctionDef := ⟨"__struct__", ["$values"], [.return_ built]⟩
  let exception : FunctionDef :=
    ⟨"exception", ["$attrs"], [.return_ (.call (.ident "__struct__") [.ident "$attrs"])]⟩
  if isException && !hasOwnException then return [⟨constructor, true⟩, ⟨exception, true⟩]
  else return [⟨constructor, true⟩]

/-- The function of a group. -/
def groupFunction (g : FunctionGroup) : LowerM ModuleFunction := do
  let clauses := g.clauses.map (·.2)
  let function ← inFunction (clausesFunction (Identifier.escape g.name) g.name clauses)
  return ⟨function, g.isExported⟩

/-- The functions of the structs of a body, of which there may be one. -/
def structsFunctions (name : List String) (draft : ModuleDraft) : LowerM (List ModuleFunction) :=
  let hasOwnException := draft.groups.any fun g => g.name == "exception" && g.hasArity 1
  match draft.structs with
  | [] => pure []
  | [(fields, isException)] => structFunctions name fields isException hasOwnException
  | _ => malformed .severalStructs

/-- The module of that full name. -/
def moduleDef (name : List String) (body : List Node) (items : List ModuleItem) :
    LowerM ModuleDef :=
  inModule name (body.flatMap declaredFunctions) do
    let draft ← takeItems name {} items
    let generated ← structsFunctions name draft
    let functions ← sequence (draft.groups.map groupFunction)
    return ⟨Identifier.ofModule name, draft.imports, draft.body, generated ++ functions⟩

end LowerM

end TreeLowering
