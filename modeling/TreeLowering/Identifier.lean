/-!
Names of the target.

Source names may end in `?` or `!`, may be words the target reserves, and module names are dotted.
No source name holds a `$`, so every change made here uses it: `valid?` becomes `valid$q`, `new`
becomes `new$`, `Foo.Bar` becomes `Foo$Bar`, and the names the lowering invents start with `$`.
-/
namespace TreeLowering.Identifier

/-- Words of the target, and globals that no binding may hide. -/
def reserved : List String :=
  ["arguments", "await", "break", "case", "catch", "class", "const", "continue", "debugger",
   "default", "delete", "do", "else", "enum", "eval", "export", "extends", "false", "finally",
   "for", "function", "if", "implements", "import", "in", "instanceof", "interface", "let", "new",
   "null", "package", "private", "protected", "public", "return", "static", "super", "switch",
   "this", "throw", "true", "try", "typeof", "undefined", "var", "void", "while", "with", "yield",
   "Symbol", "Array", "Object", "String"]

def isReserved (name : String) : Bool := reserved.contains name

/-- The spelling of one character: the three that the target cannot hold are written out. -/
def escapeChar : Char → List Char
  | '?' => ['$', 'q']
  | '!' => ['$', 'e']
  | '@' => ['$', 'a', 't']
  | c => [c]

/-- The target name of a variable or function: a reserved word gets a `$` at its end. -/
def escape (name : String) : String :=
  let spelled := String.ofList (name.toList.flatMap escapeChar)
  if isReserved spelled then spelled ++ "$" else spelled

/-- The target name of a module. -/
def ofModule (segments : List String) : String := escape ("$".intercalate segments)

/-- The dotted spelling of a module name. -/
def dotted (segments : List String) : String := ".".intercalate segments

/-- The name of the atom that a module name evaluates to. -/
def moduleAtom (segments : List String) : String := "Elixir." ++ dotted segments

/-- The name of a variable whose escaped name is also that of a function of its module. -/
def besideFunction (escaped : String) : String := escaped ++ "$v"

/-- The name that holds the value of a module attribute. -/
def ofAttribute (name : String) : String := "$attr_" ++ escape name

/-- The name of a rebinding; the first binding keeps the plain name. -/
def versioned (base : String) (version : Nat) : String :=
  if version = 0 then base else base ++ "$" ++ toString version

/-- A numbered name that no source name can be. -/
def invented (stem : String) (n : Nat) : String := "$" ++ stem ++ toString n

end TreeLowering.Identifier
