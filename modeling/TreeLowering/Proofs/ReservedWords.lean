import TreeLowering.Proofs.WellFormedLowering

/-!
No declaration takes a word that the target reserves.

The words are those of the target's grammar, and the globals that lowered programs read. Names come
to declarations from variables and their versions, attributes, functions, modules and imports, and
as invented ones. Each of these spellings avoids the words, whatever the source name is.
-/
namespace TreeLowering

open Source Target
open Identifier (isReserved)

/-- Some output under the configuration declares the name, at its top or anywhere inside. -/
inductive Declared (config : Config) : String → Prop
  | expr {node : Node} {e : Expr} {part : Part} {name : String}
      (lowered : lowerExpr config node = .ok e) (within : part ∈ exprParts e)
      (declares : name ∈ part.declares) : Declared config name
  | program {nodes : List Node} {program : Program} {part : Part} {name : String}
      (lowered : lowerProgram config nodes = .ok program) (within : part ∈ stmtsParts program.body)
      (declares : name ∈ part.declares) : Declared config name

/-- No name that any output declares is reserved; so none hides a global that outputs rely on. -/
theorem declared_names_unreserved (config : Config) (name : String) (h : Declared config name) :
    isReserved name = false ∧ name ∉ ["Symbol", "Array", "String", "undefined"] := by
  have hname : isReserved name = false := by
    cases h with
    | expr lowered within declares =>
      exact (wellFormed_lowerExprM _ _ _ _ _ (Prod.ext lowered rfl) _ within).2 name declares
    | program lowered within declares =>
      exact (wellFormed_lowerProgramM _ _ _ _ _ (Prod.ext lowered rfl)).names _ within name declares
  have hglobals : ∀ x ∈ ["Symbol", "Array", "String", "undefined"], isReserved x = true := by decide
  refine ⟨hname, fun hmem => ?_⟩
  rw [hglobals name hmem] at hname
  cases hname

/-- A module, its imports, an attribute, a function, a parameter and a variable, all of them called
by reserved words. -/
def wordyModule : Node :=
  .module ["Array"]
    [.importOnly ["Lists"] [("new", 1)], .aliasAs ["Shapes", "Symbol"] none,
      .attributeSet "class" (.integer 1),
      .define .exported (.call "delete" [.var "class"] {})
        [.bind (.var "undefined") (.var "class"), .bind (.var "undefined") (.integer 2),
          .fn [⟨[.var "this"], [.var "undefined"]⟩]]]

def wordyNames : List String :=
  ["Array$", "new$", "Symbol$", "$attr_class$", "delete$", "class$", "undefined$", "undefined$$1",
    "", "this$"]

theorem declared_names_unreserved_wordyModule :
    (lowerProgram {} [wordyModule]).map
        (fun program => (stmtsParts program.body).flatMap (·.declares)) = .ok wordyNames ∧
      ∀ name ∈ wordyNames,
        isReserved name = false ∧ name ∉ ["Symbol", "Array", "String", "undefined"] := by
  have hnames : (lowerProgram {} [wordyModule]).map
      (fun program => (stmtsParts program.body).flatMap (·.declares)) = .ok wordyNames := rfl
  refine ⟨hnames, fun name hname => ?_⟩
  obtain ⟨program, h⟩ := exists_ok_of_isOk (x := lowerProgram {} [wordyModule]) rfl
  rw [h] at hnames
  rw [← Except.ok.inj hnames] at hname
  obtain ⟨part, hpart, hdeclares⟩ := List.mem_flatMap.mp hname
  exact declared_names_unreserved {} name (.program h hpart hdeclares)

end TreeLowering
