import TreeLowering.Pattern

/-!
Values built from parts: tuples, lists with a tail, binaries, maps and structs. The parts come as
steps, in the order in which they are lowered.
-/
namespace TreeLowering

open Source Target

namespace LowerM

/-- Items put before a list. -/
def consList (head : List (LowerM Expr)) (tail : LowerM Expr) : LowerM Expr := do
  let head ← sequence head
  let tail ← tail
  return (Expr.array head).method "concat" [tail]

def tuple (items : List (LowerM Expr)) : LowerM Expr := do
  let items ← sequence items
  return (← library).tuple items

/-- One part of a text: a string as it stands, or the display text of an expression. -/
def textPart : Segment Node → LowerM Expr → LowerM Expr
  | .plain (.string s), _ => pure (.string s)
  | .plain other, _ => unsupported (.textSegment other.formName)
  | .interpolated _, value => do
    let value ← value
    return (← library).display value

/-- A binary: text if its segments are strings, a concatenation from the left if expressions are
spliced into it, and a list of its values otherwise. -/
def binary (segments : List (Segment Node × LowerM Expr)) : LowerM Expr :=
  match segmentsText? (segments.map (·.1)) with
  | some text => pure (.string text)
  | none =>
    if segments.any (·.1.isInterpolated) then do
      let parts ← sequence (segments.map fun (segment, value) => textPart segment value)
      return (Expr.joined .add parts).getD (.string "")
    else do
      return .array (← sequence (segments.map (·.2)))

/-- An entry of a map; only a string key is a name. -/
def entry (keyNode : Node) (key value : LowerM Expr) : LowerM Property :=
  match keyNode with
  | .string name => do return .named name (← value)
  | _ => do
    let key ← key
    return .computed key (← value)

def object (entries : List (LowerM Property)) : LowerM Expr := do
  return .object (← sequence entries)

def mapUpdate (base : LowerM Expr) (updates : List (LowerM Property)) : LowerM Expr := do
  let base ← base
  let updates ← object updates
  return (← library).specialForm "map_update" [base, updates]

/-- A struct of a named module: built by the module, or updated as a map. -/
def struct (module : Node) (fields : List (LowerM Property)) (update : Option (LowerM Expr)) :
    LowerM Expr :=
  match module, update with
  | .moduleName _, some base => mapUpdate base fields
  | .moduleName segments, none => do
    let constructor ← moduleMember segments "__struct__"
    let fields ← object fields
    return .call constructor [fields]
  | other, _ => malformed (.structModule other.formName)

end LowerM

end TreeLowering
