import TreeLowering.Number

/-!
The source tree: expressions, patterns and definitions of a pattern-matching functional language,
as a front end hands them over.

One type holds every form, because the language writes patterns, guards and bodies with the same
forms. Which of them may stand where is decided when a tree is lowered, not here.
-/
namespace TreeLowering.Source

/-- Whether other modules may call a function. -/
inductive Visibility where
  | exported
  | internal
deriving DecidableEq, Repr

/-- Where an unqualified call leads, as the front end found it. -/
inductive Resolution where
  | unqualified
  | qualified (module : List String)
  | imported
deriving DecidableEq, Repr

structure CallMeta where
  resolution : Resolution := .unqualified
  line : Option UInt32 := none
deriving DecidableEq, Repr

/-- What a dotted name without an argument list stands for. -/
inductive Access where
  | field
  | call
deriving DecidableEq, Repr

structure DotMeta where
  access : Option Access := none
  line : Option UInt32 := none
deriving DecidableEq, Repr

/-- A part of a binary: a plain value, or an expression spliced in by its display text. -/
inductive Segment (α : Type) where
  | plain (value : α)
  | interpolated (value : α)

/-- A head (patterns, or one guarded head, or a condition) and the body it selects. -/
structure Clause (α : Type) where
  head : List α
  body : List α

/-- A step of a comprehension. -/
inductive Qualifier (α : Type) where
  | generator (pattern collection : α)
  | filter (condition : α)

inductive Node where
  | integer (value : Int64)
  | float (value : Binary64)
  | string (text : String)
  | boolean (value : Bool)
  | nil
  | atom (name : String)
  | var (name : String)
  | moduleName (segments : List String)
  | list (items : List Node)
  | cons (head : List Node) (tail : Node)
  | tuple (items : List Node)
  | binary (segments : List (Segment Node))
  | map (entries : List (Node × Node))
  | mapUpdate (map : Node) (updates : List (Node × Node))
  | struct (module : Node) (fields : List (Node × Node)) (update : Option Node)
  | bind (pattern value : Node)
  | pin (operand : Node)
  | guarded (exprs : List Node) (guard : Node)
  | binaryOp (op : String) (left right : Node)
  | unaryOp (op : String) (operand : Node)
  | pipe (left right : Node)
  | range (first last : Node) (step : Option Node)
  | call (name : String) (args : List Node) (info : CallMeta)
  | dot (target : Node) (name : String) (args : Option (List Node)) (info : DotMeta)
  | apply (callee : Node) (args : List Node)
  | capture (module : Option Node) (name : String) (arity : UInt64)
  | fn (clauses : List (Clause Node))
  | caseOf (subject : Node) (clauses : List (Clause Node))
  | cond (clauses : List (Clause Node))
  | ifElse (condition : Node) (body : List Node) (otherwise : Option (List Node))
  | unlessElse (condition : Node) (body : List Node) (otherwise : Option (List Node))
  | comprehension (qualifiers : List (Qualifier Node)) (body : List Node) (into : Option Node)
  | block (items : List Node)
  | define (visibility : Visibility) (head : Node) (body : List Node)
  | module (name : List String) (body : List Node)
  | attributeSet (name : String) (value : Node)
  | attributeRead (name : String)
  | importAll (module : List String)
  | importOnly (module : List String) (only : List (String × UInt64))
  | aliasAs (module : List String) (rename : Option String)
  | require (module : List String) (rename : Option String)
  | defStruct (fields : List (String × Node))
  | defException (fields : List (String × Node))
  | raise (exception : Node) (attributes : Option Node)

namespace Node

/-- The name of a form, as messages give it. -/
def formName : Node → String
  | .integer _ => "integer"
  | .float _ => "float"
  | .string _ => "string"
  | .boolean _ => "boolean"
  | .nil => "nil"
  | .atom _ => "atom"
  | .var _ => "variable"
  | .moduleName _ => "alias"
  | .list _ => "list"
  | .cons .. => "cons"
  | .tuple _ => "tuple"
  | .binary _ => "binary"
  | .map _ => "map"
  | .mapUpdate .. => "map update"
  | .struct .. => "struct"
  | .bind .. => "bind"
  | .pin _ => "pin"
  | .guarded .. => "when"
  | .binaryOp .. => "binary operator"
  | .unaryOp .. => "unary operator"
  | .pipe .. => "pipe"
  | .range .. => "range"
  | .call .. => "call"
  | .dot .. => "dot"
  | .apply .. => "apply"
  | .capture .. => "capture"
  | .fn _ => "fn"
  | .caseOf .. => "case"
  | .cond _ => "cond"
  | .ifElse .. => "if"
  | .unlessElse .. => "unless"
  | .comprehension .. => "for"
  | .block _ => "block"
  | .define .. => "def"
  | .module .. => "defmodule"
  | .attributeSet .. => "module attribute"
  | .attributeRead _ => "attribute read"
  | .importAll _ => "import"
  | .importOnly .. => "import"
  | .aliasAs .. => "alias"
  | .require .. => "require"
  | .defStruct _ => "defstruct"
  | .defException _ => "defexception"
  | .raise .. => "raise"

/-- A call of a function of the given module or value. -/
def remote (target : Node) (name : String) (args : List Node) : Node :=
  .dot target name (some args) {}

end Node

end TreeLowering.Source
