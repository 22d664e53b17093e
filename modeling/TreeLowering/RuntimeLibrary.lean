import TreeLowering.Identifier
import TreeLowering.Target.Tree

/-!
References into the runtime library of lowered programs.

A lowered program calls a library it does not define. Every name it relies on is spelled here, as a
chain of properties from one root identifier.
-/
namespace TreeLowering

open Target

/-- The runtime library, known by the identifier of its namespace. -/
structure RuntimeLibrary where
  name : String

/-- The symbol of that name; two atoms are equal when their names are. -/
def atomSymbol (name : String) : Expr :=
  .method (.ident "Symbol") "for" [.string name]

namespace RuntimeLibrary

variable (lib : RuntimeLibrary)

def root : Expr := .ident lib.name

/-- The property reached by a chain of names. -/
def path (segments : List String) : Expr :=
  segments.foldl (fun object name => object.property name) lib.root

def call (segments : List String) (args : List Expr) : Expr := .call (lib.path segments) args

/-- A function of a module that the library serves. -/
def moduleFunction (module : List String) (function : String) : Expr :=
  (lib.path module).property (Identifier.escape function)

/-- A function of a module that is named by an atom. -/
def atomModuleFunction (module function : String) : Expr :=
  ((lib.path ["erlang"]).property module).property (Identifier.escape function)

def tuple (items : List Expr) : Expr := .construct (lib.path ["Tuple"]) items

def isTuple (value : Expr) : Expr := .binary value .instanceOf (lib.path ["Tuple"])

/-- Source truthiness: everything but `false` and `nil`. -/
def truthy (value : Expr) : Expr := lib.call ["Kernel", "truthy"] [value]

/-- The text of a value inside a string. -/
def display (value : Expr) : Expr := lib.call ["Kernel", "to_string"] [value]

/-- Structural equality. -/
def equals (a b : Expr) : Expr := lib.call ["Patterns", "equals"] [a, b]

def isMap (value : Expr) : Expr := lib.call ["Patterns", "is_map"] [value]

/-- A new error of a class of the library. -/
def error (errorClass : String) (args : List Expr) : Expr := .construct (lib.path [errorClass]) args

def range (first last : Expr) (step : Option Expr) : Expr :=
  lib.call ["Range", "new"] ([first, last] ++ step.toList)

def toList (collection : Expr) : Expr := lib.call ["Enum", "to_list"] [collection]

def specialForm (name : String) (args : List Expr) : Expr := lib.call ["SpecialForms", name] args

end RuntimeLibrary

end TreeLowering
