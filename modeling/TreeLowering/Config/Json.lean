import TreeLowering.Config
import TreeLowering.Source.Json

/-!
Configurations as JSON. Every setting may be left out.
-/
namespace TreeLowering.Config

open Json Json.Decoder

def decoder : Decoder Config :=
  recordOf ["runtime", "import_prefix", "import_extension", "runtime_modules"] fun r => do
    return {
      runtime := ← r.defaulted "runtime" (optionOf text) none
      importPrefix := ← r.defaulted "import_prefix" (optionOf text) none
      importExtension := ← r.defaulted "import_extension" (optionOf text) none
      runtimeModules := ← r.defaulted "runtime_modules" (optionOf (listOf text)) none }

def toJson (c : Config) : Value :=
  .record
    [("runtime", .optional .text c.runtime), ("import_prefix", .optional .text c.importPrefix),
     ("import_extension", .optional .text c.importExtension),
     ("runtime_modules", .optional .texts c.runtimeModules)]

end TreeLowering.Config
