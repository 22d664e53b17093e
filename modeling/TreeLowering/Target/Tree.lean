import TreeLowering.Number

/-!
The target tree: a script language with object and array literals, function expressions, calls and
statements, as a printer takes it.

The module holds the types and the short constructors that the lowering rules are written with.
`isTerminal` says of a statement that control never continues past it.
-/
namespace TreeLowering.Target

inductive Literal where
  | null
  | bool (value : Bool)
  | integer (value : Int64)
  | float (value : Binary64)
  | string (text : String)
deriving DecidableEq, Repr

inductive BinaryOp where
  | add | sub | mul | div | mod
  | eq | ne | lt | le | gt | ge
  | and | or
  | in_
  | instanceOf
deriving DecidableEq, Repr

/-- Whether the operator always gives a boolean. -/
def BinaryOp.isBoolean : BinaryOp → Bool
  | .eq | .ne | .lt | .le | .gt | .ge | .in_ | .instanceOf => true
  | _ => false

inductive UnaryOp where
  | neg
  | not
  | typeOf
deriving DecidableEq, Repr

/-- The names an import brings into scope. -/
inductive ImportBinding where
  | everything (name : String)
  | named (names : List String)
  | default (name : String)
deriving DecidableEq, Repr

structure Import where
  binding : ImportBinding
  source : String
deriving DecidableEq, Repr

mutual

inductive Expr where
  | literal (value : Literal)
  | ident (name : String)
  | binary (left : Expr) (op : BinaryOp) (right : Expr)
  | unary (op : UnaryOp) (operand : Expr)
  | call (callee : Expr) (args : List Expr)
  | construct (callee : Expr) (args : List Expr)
  | member (object property : Expr) (computed : Bool)
  | array (items : List Expr)
  | object (properties : List Property)
  | function (definition : FunctionDef)
  | conditional (test consequent alternate : Expr)

/-- The key of an object entry: a name, or an expression in brackets. -/
inductive PropertyKey where
  | name (text : String)
  | computed (key : Expr)

structure Property where
  key : PropertyKey
  value : Expr

/-- A function; an empty name marks an anonymous one. -/
structure FunctionDef where
  name : String
  params : List String
  body : List Stmt

inductive Stmt where
  | expr (value : Expr)
  | declare (name : String) (init : Option Expr) (isMutable : Bool)
  | block (body : List Stmt)
  | ifElse (test : Expr) (consequent : Stmt) (alternate : Option Stmt)
  | forOf (variable_ : String) (iterable : Expr) (body : Stmt)
  | returns (value : Option Expr)
  | throws (value : Expr)
  | function (definition : FunctionDef)
  | imports (declaration : Import)
  | module (definition : ModuleDef)

structure ModuleFunction where
  function : FunctionDef
  exported : Bool

/-- A namespace of its own: its imports, the statements run once when it is defined, and its
functions in one container. -/
structure ModuleDef where
  name : String
  imports : List Import
  body : List Stmt
  functions : List ModuleFunction

end

structure Program where
  body : List Stmt

namespace FunctionDef

def anonymous (params : List String) (body : List Stmt) : FunctionDef :=
  ⟨"", params, body⟩

end FunctionDef

namespace ModuleDef

/-- The functions other modules can call. -/
def exports (m : ModuleDef) : List FunctionDef :=
  (m.functions.filter (·.exported)).map (·.function)

def function? (m : ModuleDef) (name : String) : Option ModuleFunction :=
  m.functions.find? (·.function.name == name)

end ModuleDef

namespace Expr

def null : Expr := .literal .null
def bool (b : Bool) : Expr := .literal (.bool b)
def integer (n : Int64) : Expr := .literal (.integer n)
def natural (n : Nat) : Expr := .integer (Int64.ofNat n)
def float (x : Binary64) : Expr := .literal (.float x)
def string (s : String) : Expr := .literal (.string s)

def eq (a b : Expr) : Expr := .binary a .eq b
def ne (a b : Expr) : Expr := .binary a .ne b
def not (a : Expr) : Expr := .unary .not a

/-- The property of that name. -/
def property (object : Expr) (name : String) : Expr := .member object (.string name) false

/-- The entry under a computed key. -/
def index (object key : Expr) : Expr := .member object key true

/-- A call of a method of the receiver. -/
def method (receiver : Expr) (name : String) (args : List Expr) : Expr :=
  .call (receiver.property name) args

/-- A function without parameters, called where it stands. -/
def immediate (body : List Stmt) : Expr :=
  .call (.function (.anonymous [] body)) []

/-- Joins operands from the left; nothing when there is none. -/
def joined (op : BinaryOp) : List Expr → Option Expr
  | [] => none
  | e :: es => some (es.foldl (fun acc t => .binary acc op t) e)

/-- The conjunction of tests. -/
def all (tests : List Expr) : Option Expr := joined .and tests

/-- The disjunction of tests. -/
def any (tests : List Expr) : Option Expr := joined .or tests

def isStringLiteral : Expr → Bool
  | .literal (.string _) => true
  | _ => false

end Expr

namespace Property

def named (name : String) (value : Expr) : Property := ⟨.name name, value⟩
def computed (key value : Expr) : Property := ⟨.computed key, value⟩

end Property

namespace Stmt

/-- A constant. -/
def const (name : String) (init : Expr) : Stmt := .declare name (some init) false

/-- A variable that may be assigned. -/
def variable_ (name : String) (init : Option Expr) : Stmt := .declare name init true

def return_ (value : Expr) : Stmt := .returns (some value)

/-- One test and what it selects, without an alternative. -/
def when_ (test : Expr) (body : Stmt) : Stmt := .ifElse test body none

mutual

/-- Whether control never continues past the statement. -/
def isTerminal : Stmt → Bool
  | .returns _ => true
  | .throws _ => true
  | .block body => lastIsTerminal body
  | .ifElse _ consequent (some alternate) => consequent.isTerminal && alternate.isTerminal
  | _ => false

/-- Whether there is a last statement and it is terminal. -/
def lastIsTerminal : List Stmt → Bool
  | [] => false
  | [s] => s.isTerminal
  | _ :: s :: rest => lastIsTerminal (s :: rest)

end

end Stmt

end TreeLowering.Target
