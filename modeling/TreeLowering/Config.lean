/-!
The settings of a lowering: what the runtime namespace is called, how import sources are spelled,
and which modules the runtime serves. A setting that is not given has a default.
-/
namespace TreeLowering

structure Config where
  runtime : Option String := none
  importPrefix : Option String := none
  importExtension : Option String := none
  runtimeModules : Option (List String) := none
deriving DecidableEq, Repr

namespace Config

/-- Standard modules and exceptions that the runtime library serves unless a list is given. -/
def defaultRuntimeModules : List String :=
  ["Kernel", "Enum", "List", "Map", "MapSet", "Keyword", "Tuple", "String", "Integer", "Float",
   "Atom", "IO", "Range", "Access", "ArgumentError", "ArithmeticError", "KeyError",
   "RuntimeError"]

/-- The identifier of the runtime namespace. -/
def runtimeName (c : Config) : String := c.runtime.getD "Runtime"

def sourceStart (c : Config) : String := c.importPrefix.getD "./"

def sourceEnd (c : Config) : String := c.importExtension.getD ".js"

/-- Whether the runtime serves the module; only a name of one segment can be served. -/
def isRuntimeModule (c : Config) : List String → Bool
  | [name] => (c.runtimeModules.getD defaultRuntimeModules).contains name
  | _ => false

/-- Where the module of a dotted name is imported from. -/
def importSource (c : Config) (path : String) : String := c.sourceStart ++ path ++ c.sourceEnd

end Config

end TreeLowering
