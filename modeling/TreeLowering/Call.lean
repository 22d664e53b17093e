import TreeLowering.Pattern

/-!
Calls, references to functions, field reads, and the values that are raised.
-/
namespace TreeLowering

open Source Target

namespace LowerM

/-- A call by an unqualified name, which the front end may have resolved to a module. -/
def namedCall (name : String) (info : CallMeta) (args : List (LowerM Expr)) : LowerM Expr := do
  let callee ← match info.resolution with
    | .qualified module => moduleMember module name
    | .unqualified | .imported => pure (.ident (Identifier.escape name))
  let args ← sequence args
  return .call callee args

/-- The function of that name of a module, or of the value of the target. -/
def remoteFunction (target : Node) (value : LowerM Expr) (name : String) : LowerM Expr :=
  match target with
  | .moduleName segments => moduleMember segments name
  | .atom module => do return (← library).atomModuleFunction module name
  | _ => do return (← value).property (Identifier.escape name)

def remoteCall (target : Node) (value : LowerM Expr) (name : String) (args : List (LowerM Expr)) :
    LowerM Expr := do
  let callee ← remoteFunction target value name
  let args ← sequence args
  return .call callee args

/-- Whether a name after a dot is called although it has no argument list: the front end may have
said so, and otherwise functions of modules are. -/
def isCallWithoutArguments (target : Node) (info : DotMeta) : Bool :=
  match info.access, target with
  | some .call, _ => true
  | some .field, _ => false
  | none, .moduleName _ => true
  | none, .atom _ => true
  | none, _ => false

def dotted (target : Node) (value : LowerM Expr) (name : String)
    (args : Option (List (LowerM Expr))) (info : DotMeta) : LowerM Expr :=
  match args with
  | some args => remoteCall target value name args
  | none =>
    if isCallWithoutArguments target info then remoteCall target value name []
    else do return (← value).index (atomValue name)

def applied (callee : LowerM Expr) (args : List (LowerM Expr)) : LowerM Expr := do
  let callee ← callee
  let args ← sequence args
  return .call callee args

/-- A reference to a function. -/
def captured (owner : Option Node) (name : String) : LowerM Expr :=
  match owner with
  | none => pure (.ident (Identifier.escape name))
  | some (.moduleName segments) => moduleMember segments name
  | some (.atom module) => do return (← library).atomModuleFunction module name
  | some other => malformed (.captureModule other.formName)

/-- The message of a runtime error, if raising the node raises one: text, plain or spliced. -/
def isMessage : Node → Bool
  | .string _ => true
  | .binary segments => segments.any (·.isInterpolated)
  | _ => false

/-- The value that `raise` throws. -/
def raised (exception : Node) (value : LowerM Expr) (attributes : Option (LowerM Expr)) :
    LowerM Expr :=
  match exception, attributes with
  | .moduleName segments, attributes => do
    let constructor ← moduleMember segments "exception"
    let attributes ← optional attributes
    return .call constructor [attributes.getD (.array [])]
  | exception, none => do
    let value ← value
    if isMessage exception then return (← library).error "RuntimeError" [value]
    else return (← library).call ["Kernel", "exception"] [value]
  | other, some _ => malformed (.raiseAttributes other.formName)

/-- The value of an attribute; one that is not set is nil. -/
def attributeValue (name : String) : LowerM Expr := do
  match (← state).context with
  | none => malformed .attributeOutsideModule
  | some context =>
    match context.attributes.get? name with
    | some version =>
      return .ident (Identifier.versioned (Identifier.ofAttribute name) version)
    | none => return .null

end LowerM

end TreeLowering
