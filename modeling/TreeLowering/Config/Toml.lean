import TreeLowering.Config
import TreeLowering.Toml.Reader

/-!
Configurations in TOML: the table `lowering` of a document, all of whose settings may be left out.
Other tables and keys are passed over.
-/
namespace TreeLowering.Config

open Toml

def settingNames : List String :=
  ["runtime", "import_prefix", "import_extension", "runtime_modules"]

/-- The settings that a value holds: the entries of a table, or the items of an array in the order of
the settings. A date holds none. -/
def settings? : Value → Option (List (String × Value))
  | .table entries => some entries
  | .array items => some (settingNames.zip items)
  | .datetime _ => some []
  | _ => none

def textOf? : Value → Option String
  | .string s => some s
  | _ => none

def textsOf? : Value → Option (List String)
  | .array items => items.mapM textOf?
  | _ => none

/-- A setting that may be missing. -/
def setting? {α : Type} (entries : List (String × Value)) (name : String) (f : Value → Option α) :
    Option (Option α) :=
  match entries.lookup name with
  | none => some none
  | some v => (f v).map some

def ofEntries? (entries : List (String × Value)) : Option Config := do
  return {
    runtime := ← setting? entries "runtime" textOf?
    importPrefix := ← setting? entries "import_prefix" textOf?
    importExtension := ← setting? entries "import_extension" textOf?
    runtimeModules := ← setting? entries "runtime_modules" textsOf? }

/-- The configuration of a document. -/
def ofToml? (text : String) : Option Config := do
  match (← Toml.ofText? text).lookup "lowering" with
  | none => return {}
  | some v => ofEntries? (← settings? v)

end TreeLowering.Config
