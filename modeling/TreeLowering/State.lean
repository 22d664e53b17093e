import TreeLowering.Config
import TreeLowering.Error
import TreeLowering.RuntimeLibrary

/-!
What a lowering carries from one form to the next, and the steps that read and change it.

A source name may be bound many times; each binding gets its own target name (`x`, `x$1`, `x$2`),
so that a closure keeps the value it was made with. `State.scope` says which binding a name means
here and is put back when a child scope ends; `State.versions` says which number comes next and is
not, so that no two bindings of one function body share a name.

A step gives a state also when it fails: what `inScope`, `inFunction` and `inModule` put back, they
put back on either outcome.
-/
namespace TreeLowering

open Target

/-- A table by name; an entry hides those behind it. -/
abbrev NameTable (α : Type) := List (String × α)

namespace NameTable

variable {α : Type}

def get? (t : NameTable α) (name : String) : Option α := t.lookup name

def set (t : NameTable α) (name : String) (a : α) : NameTable α := (name, a) :: t

/-- The number that the next binding of a name gets. -/
def next (t : NameTable Nat) (name : String) : Nat := (t.get? name).getD 0

end NameTable

/-- The module whose body is being lowered. -/
structure ModuleContext where
  name : List String
  /-- The version of each attribute that is in force. -/
  attributes : NameTable Nat := []
  attributeVersions : NameTable Nat := []
  /-- The full name behind the first segment of a nested module's name. -/
  aliases : NameTable (List String) := []
  /-- Target names of the functions that can be called without a module name. -/
  functions : List String := []
deriving DecidableEq, Repr

structure State where
  scope : NameTable Nat := []
  versions : NameTable Nat := []
  /-- How many names have been invented. -/
  invented : Nat := 0
  context : Option ModuleContext := none
deriving DecidableEq, Repr

namespace State

def attributes (s : State) : NameTable Nat := (s.context.map (·.attributes)).getD []

def attributeVersions (s : State) : NameTable Nat := (s.context.map (·.attributeVersions)).getD []

def withAttributes (s : State) (versions : NameTable Nat) : State :=
  { s with context := s.context.map fun m => { m with attributes := versions } }

/-- The target names of the functions that can be called without a module name. -/
def functions (s : State) : List String := (s.context.map (·.functions)).getD []

def aliases (s : State) : NameTable (List String) := (s.context.map (·.aliases)).getD []

/-- The target name of a variable before versions: a variable never takes a function's name. -/
def variableBase (s : State) (name : String) : String :=
  let escaped := Identifier.escape name
  if s.functions.contains escaped then Identifier.besideFunction escaped else escaped

/-- The target name that a read of the variable means; an unbound name reads as its first version. -/
def resolve (s : State) (name : String) : String :=
  Identifier.versioned (s.variableBase name) ((s.scope.get? name).getD 0)

/-- A module name with the short name of a nested module written out. -/
def resolveModule (s : State) (segments : List String) : List String :=
  match segments with
  | [] => []
  | first :: rest =>
    match s.aliases.get? first with
    | some full => full ++ rest
    | none => segments

end State

/-- A step of a lowering under a configuration: a result or an error, and the state it leaves. -/
def LowerM (α : Type) : Type := Config → State → Except LowerError α × State

namespace LowerM

variable {α β : Type}

protected def pure (a : α) : LowerM α := fun _ s => (.ok a, s)

protected def bind (x : LowerM α) (f : α → LowerM β) : LowerM β := fun c s =>
  match x c s with
  | (.ok a, s') => f a c s'
  | (.error e, s') => (.error e, s')

instance : Monad LowerM where
  pure := LowerM.pure
  bind := LowerM.bind

def fail (e : LowerError) : LowerM α := fun _ s => (.error e, s)

def malformed (what : Malformed) : LowerM α := fail (.malformed what)

def unsupported (what : Unsupported) : LowerM α := fail (.unsupported what)

def ofExcept : Except LowerError α → LowerM α
  | .ok a => pure a
  | .error e => fail e

def config : LowerM Config := fun c s => (.ok c, s)

def state : LowerM State := fun _ s => (.ok s, s)

def modify (f : State → State) : LowerM Unit := fun _ s => (.ok (), f s)

/-- The runtime library of the configuration. -/
def library : LowerM RuntimeLibrary := fun c s => (.ok ⟨c.runtimeName⟩, s)

/-- Runs steps from the first to the last. -/
def sequence : List (LowerM α) → LowerM (List α)
  | [] => pure []
  | x :: xs => do
    let a ← x
    let as ← sequence xs
    return a :: as

/-- Runs steps from the first to the last and joins what they give. -/
def concat (xs : List (LowerM (List α))) : LowerM (List α) := do
  return (← sequence xs).flatten

/-- Runs a step if there is one. -/
def optional : Option (LowerM α) → LowerM (Option α)
  | none => pure none
  | some x => do return some (← x)

/-- Runs a step in a child scope; what it binds is dropped after it. -/
def inScope (x : LowerM α) : LowerM α := fun c s =>
  let out := x c s
  (out.1, { out.2 with scope := s.scope })

/-- Runs a step as the body of a named function, with nothing bound and all numbers at zero. -/
def inFunction (x : LowerM α) : LowerM α := fun c s =>
  let out := x c { s with scope := [], versions := [], invented := 0 }
  (out.1, { out.2 with scope := s.scope, versions := s.versions, invented := s.invented })

/-- Runs a step as the body of a module, which sees the short names of the modules around it. -/
def inModule (name : List String) (functions : List String) (x : LowerM α) : LowerM α := fun c s =>
  let context : ModuleContext := { name, aliases := s.aliases, functions }
  let out := inFunction x c { s with context := some context }
  (out.1, { out.2 with context := s.context })

def modifyContext (f : ModuleContext → ModuleContext) : LowerM Unit :=
  modify fun s => { s with context := s.context.map f }

/-- The versions of the attributes in force. -/
def attributes : LowerM (NameTable Nat) := do
  return (← state).attributes

/-- Runs a step under other versions of the attributes, if such are given. -/
def withAttributes (versions : Option (NameTable Nat)) (x : LowerM α) : LowerM α :=
  match versions with
  | none => x
  | some versions => fun c s =>
    let out := x c (s.withAttributes versions)
    (out.1, out.2.withAttributes s.attributes)

def resolve (name : String) : LowerM String := do return (← state).resolve name

def resolveModule (segments : List String) : LowerM (List String) := do
  return (← state).resolveModule segments

/-- Binds a variable in the current scope and gives its target name. -/
def bindVariable (name : String) : LowerM String := do
  let s ← state
  let version := s.versions.next name
  modify fun s =>
    { s with scope := s.scope.set name version, versions := s.versions.set name (version + 1) }
  return Identifier.versioned (s.variableBase name) version

def bindVariables (names : List String) : LowerM (List String) :=
  sequence (names.map bindVariable)

/-- A name that no source name can be. -/
def invent (stem : String) : LowerM String := do
  let n := (← state).invented
  modify fun s => { s with invented := n + 1 }
  return Identifier.invented stem n

/-- Gives an attribute its next version and puts it in force. -/
def defineAttribute (name : String) : LowerM String := do
  let version := (← state).attributeVersions.next name
  modifyContext fun m =>
    { m with
      attributes := m.attributes.set name version
      attributeVersions := m.attributeVersions.set name (version + 1) }
  return Identifier.versioned (Identifier.ofAttribute name) version

/-- Lets the first segment of a nested module's name stand for its full name. -/
def addAlias (short : String) (full : List String) : LowerM Unit :=
  modifyContext fun m => { m with aliases := m.aliases.set short full }

/-- A function of a module: served by the runtime, one of the module being lowered, or a property
of another module. -/
def moduleMember (segments : List String) (function : String) : LowerM Expr := do
  let module ← resolveModule segments
  if (← config).isRuntimeModule module then
    return (← library).moduleFunction module function
  else if (← state).context.any (·.name == module) then
    return .ident (Identifier.escape function)
  else
    return (Expr.ident (Identifier.ofModule module)).property (Identifier.escape function)

end LowerM

end TreeLowering
