import TreeLowering.Proofs.TargetParts
import TreeLowering.RuntimeLibrary

/-!
Well-formed target trees.

In a well-formed tree every function ends in a return or a throw, every declaration is a constant
with a value, a property is named by a string unless it is computed, no import or module stands
inside of an expression or a statement, and no word that the target reserves is declared. The lemmas
say what each form asks of its parts; those about forms that the lowering writes often are stated of
the form as it is written.
-/
namespace TreeLowering.Target

namespace Stmt

theorem lastIsTerminal_eq (stmts : List Stmt) :
    lastIsTerminal stmts = stmts.getLast?.any (·.isTerminal) := by
  induction stmts with
  | nil => rfl
  | cons s rest ih =>
    cases rest with
    | nil => rfl
    | cons t rest => rw [lastIsTerminal, ih, List.getLast?_cons_cons]

@[simp]
theorem lastIsTerminal_concat (stmts : List Stmt) (last : Stmt) :
    lastIsTerminal (stmts ++ [last]) = last.isTerminal := by
  simp [lastIsTerminal_eq]

theorem lastIsTerminal_append {front back : List Stmt} (h : lastIsTerminal back = true) :
    lastIsTerminal (front ++ back) = true := by
  rw [lastIsTerminal_eq] at *
  cases hback : back.getLast? with
  | none => simp [hback] at h
  | some last => simpa [List.getLast?_append, hback] using h

end Stmt

/-- What a part of a well-formed tree is like by itself. -/
@[simp]
def Part.WellFormed : Part → Prop
  | .expr (.member _ property false) => property.isStringLiteral = true
  | .expr _ => True
  | .stmt (.declare _ init isMutable) => init.isSome = true ∧ isMutable = false
  | .stmt (.imports _) => False
  | .stmt (.module _) => False
  | .stmt _ => True
  | .function f => ∃ last, f.body.getLast? = some last ∧ last.isTerminal = true

/-- The identifiers that an import declares. -/
def ImportBinding.names : ImportBinding → List String
  | .everything name => [name]
  | .named names => names
  | .default name => [name]

/-- The names that a part declares; a function without a name has the empty one. -/
@[simp]
def Part.declares : Part → List String
  | .expr _ => []
  | .stmt (.declare name _ _) => [name]
  | .stmt (.forOf name _ _) => [name]
  | .stmt (.imports declaration) => declaration.binding.names
  | .stmt (.module definition) =>
    definition.name :: definition.imports.flatMap (·.binding.names)
  | .stmt (.expr _) | .stmt (.block _) | .stmt (.ifElse ..) | .stmt (.returns _)
  | .stmt (.throws _) | .stmt (.function _) => []
  | .function f => f.name :: f.params

/-- No name that the part declares is a word that the target reserves. -/
@[simp]
def Part.Unreserved (p : Part) : Prop := ∀ x ∈ p.declares, Identifier.isReserved x = false

/-- What every part of a well-formed tree is. -/
def Part.Proper (p : Part) : Prop := p.WellFormed ∧ p.Unreserved

@[simp]
theorem Part.proper_expr {e : Expr} : (Part.expr e).Proper ↔ (Part.expr e).WellFormed := by
  simp [Part.Proper]

@[simp]
theorem Part.proper_stmt {s : Stmt} :
    (Part.stmt s).Proper ↔ (Part.stmt s).WellFormed ∧ (Part.stmt s).Unreserved :=
  Iff.rfl

def Expr.WellFormed (e : Expr) : Prop := ∀ p ∈ exprParts e, p.Proper

def Property.WellFormed (p : Property) : Prop := ∀ part ∈ propertyParts p, part.Proper

def FunctionDef.WellFormed (f : FunctionDef) : Prop := ∀ p ∈ functionParts f, p.Proper

def Stmt.WellFormed (s : Stmt) : Prop := ∀ p ∈ stmtParts s, p.Proper

section Forms

theorem forall_exprsParts {P : Part → Prop} {es : List Expr} :
    (∀ p ∈ exprsParts es, P p) ↔ ∀ e ∈ es, ∀ p ∈ exprParts e, P p := by
  simp only [exprsParts_eq, List.forall_mem_flatMap]

theorem forall_propertiesParts {P : Part → Prop} {ps : List Property} :
    (∀ p ∈ propertiesParts ps, P p) ↔ ∀ q ∈ ps, ∀ p ∈ propertyParts q, P p := by
  simp only [propertiesParts_eq, List.forall_mem_flatMap]

theorem forall_stmtsParts {P : Part → Prop} {ss : List Stmt} :
    (∀ p ∈ stmtsParts ss, P p) ↔ ∀ s ∈ ss, ∀ p ∈ stmtParts s, P p := by
  simp only [stmtsParts_eq, List.forall_mem_flatMap]

namespace Expr

@[simp]
theorem wellFormed_literal (l : Literal) : (literal l).WellFormed := by
  simp [Expr.WellFormed]

@[simp]
theorem wellFormed_ident (x : String) : (ident x).WellFormed := by
  simp [Expr.WellFormed]

@[simp]
theorem wellFormed_binary {l r : Expr} {op : BinaryOp} :
    (binary l op r).WellFormed ↔ l.WellFormed ∧ r.WellFormed := by
  simp [Expr.WellFormed, or_imp, forall_and]

@[simp]
theorem wellFormed_unary {e : Expr} {op : UnaryOp} : (unary op e).WellFormed ↔ e.WellFormed := by
  simp [Expr.WellFormed]

@[simp]
theorem wellFormed_call {f : Expr} {args : List Expr} :
    (call f args).WellFormed ↔ f.WellFormed ∧ ∀ e ∈ args, e.WellFormed := by
  simp only [Expr.WellFormed, exprParts, List.forall_mem_cons, List.forall_mem_append,
    forall_exprsParts, Part.proper_expr, Part.WellFormed, true_and]

@[simp]
theorem wellFormed_construct {f : Expr} {args : List Expr} :
    (construct f args).WellFormed ↔ f.WellFormed ∧ ∀ e ∈ args, e.WellFormed := by
  simp only [Expr.WellFormed, exprParts, List.forall_mem_cons, List.forall_mem_append,
    forall_exprsParts, Part.proper_expr, Part.WellFormed, true_and]

@[simp]
theorem wellFormed_property {e : Expr} {name : String} :
    (e.property name).WellFormed ↔ e.WellFormed := by
  simp [property, string, Expr.WellFormed, isStringLiteral, or_imp, forall_and]

@[simp]
theorem wellFormed_index {e key : Expr} :
    (e.index key).WellFormed ↔ e.WellFormed ∧ key.WellFormed := by
  simp [index, Expr.WellFormed, or_imp, forall_and]

@[simp]
theorem wellFormed_array {items : List Expr} :
    (array items).WellFormed ↔ ∀ e ∈ items, e.WellFormed := by
  simp only [Expr.WellFormed, exprParts, List.forall_mem_cons, forall_exprsParts, Part.proper_expr,
    Part.WellFormed, true_and]

@[simp]
theorem wellFormed_object {ps : List Property} :
    (object ps).WellFormed ↔ ∀ p ∈ ps, p.WellFormed := by
  simp only [Expr.WellFormed, Property.WellFormed, exprParts, List.forall_mem_cons,
    forall_propertiesParts, Part.proper_expr, Part.WellFormed, true_and]

@[simp]
theorem wellFormed_conditional {t a b : Expr} :
    (conditional t a b).WellFormed ↔ t.WellFormed ∧ a.WellFormed ∧ b.WellFormed := by
  simp [Expr.WellFormed, or_imp, forall_and]

@[simp]
theorem wellFormed_function {f : FunctionDef} : (function f).WellFormed ↔ f.WellFormed := by
  simp [Expr.WellFormed, FunctionDef.WellFormed]

end Expr

namespace Property

@[simp]
theorem wellFormed_named {name : String} {value : Expr} :
    (named name value).WellFormed ↔ value.WellFormed := by
  simp [named, Property.WellFormed, Expr.WellFormed]

@[simp]
theorem wellFormed_computed {key value : Expr} :
    (computed key value).WellFormed ↔ key.WellFormed ∧ value.WellFormed := by
  simp [computed, Property.WellFormed, Expr.WellFormed, or_imp, forall_and]

end Property

@[simp]
theorem FunctionDef.wellFormed_mk {name : String} {params : List String} {body : List Stmt} :
    FunctionDef.WellFormed ⟨name, params, body⟩ ↔
      (∀ x ∈ name :: params, Identifier.isReserved x = false) ∧
        Stmt.lastIsTerminal body = true ∧ ∀ s ∈ body, s.WellFormed := by
  have hlast : (Part.function ⟨name, params, body⟩).WellFormed ↔
      Stmt.lastIsTerminal body = true := by
    simp [Stmt.lastIsTerminal_eq, Option.any_eq_true]
  simp only [FunctionDef.WellFormed, Stmt.WellFormed, functionParts, List.forall_mem_cons,
    forall_stmtsParts, Part.Proper, hlast, Part.Unreserved, Part.declares]
  exact ⟨fun h => ⟨h.1.2, h.1.1, h.2⟩, fun h => ⟨⟨h.2.1, h.1⟩, h.2.2⟩⟩

namespace Stmt

@[simp]
theorem wellFormed_expr {e : Expr} : (expr e).WellFormed ↔ e.WellFormed := by
  simp [Stmt.WellFormed, Expr.WellFormed]

@[simp]
theorem wellFormed_const {x : String} {e : Expr} :
    (const x e).WellFormed ↔ Identifier.isReserved x = false ∧ e.WellFormed := by
  simp [const, Stmt.WellFormed, Expr.WellFormed]

@[simp]
theorem wellFormed_block {body : List Stmt} :
    (block body).WellFormed ↔ ∀ s ∈ body, s.WellFormed := by
  simp only [Stmt.WellFormed, stmtParts, List.forall_mem_cons, forall_stmtsParts]
  simp

@[simp]
theorem wellFormed_ifElse {t : Expr} {a : Stmt} {b : Stmt} :
    (ifElse t a (some b)).WellFormed ↔ t.WellFormed ∧ a.WellFormed ∧ b.WellFormed := by
  simp [Stmt.WellFormed, Expr.WellFormed, or_imp, forall_and]

@[simp]
theorem wellFormed_when {t : Expr} {a : Stmt} :
    (when_ t a).WellFormed ↔ t.WellFormed ∧ a.WellFormed := by
  simp [when_, Stmt.WellFormed, Expr.WellFormed, or_imp, forall_and]

@[simp]
theorem wellFormed_forOf {x : String} {e : Expr} {body : Stmt} :
    (forOf x e body).WellFormed ↔
      Identifier.isReserved x = false ∧ e.WellFormed ∧ body.WellFormed := by
  simp [Stmt.WellFormed, Expr.WellFormed, or_imp, forall_and]

@[simp]
theorem wellFormed_return {e : Expr} : (return_ e).WellFormed ↔ e.WellFormed := by
  simp [return_, Stmt.WellFormed, Expr.WellFormed]

@[simp]
theorem wellFormed_throws {e : Expr} : (throws e).WellFormed ↔ e.WellFormed := by
  simp [Stmt.WellFormed, Expr.WellFormed]

end Stmt

end Forms

section Written

namespace Expr

@[simp]
theorem wellFormed_null : null.WellFormed := wellFormed_literal _

@[simp]
theorem wellFormed_bool (b : Bool) : (bool b).WellFormed := wellFormed_literal _

@[simp]
theorem wellFormed_integer (n : Int64) : (integer n).WellFormed := wellFormed_literal _

@[simp]
theorem wellFormed_natural (n : Nat) : (natural n).WellFormed := wellFormed_literal _

@[simp]
theorem wellFormed_float (x : Binary64) : (float x).WellFormed := wellFormed_literal _

@[simp]
theorem wellFormed_string (s : String) : (string s).WellFormed := wellFormed_literal _

@[simp]
theorem wellFormed_method {e : Expr} {name : String} {args : List Expr} :
    (e.method name args).WellFormed ↔ e.WellFormed ∧ ∀ a ∈ args, a.WellFormed := by
  simp [method]

@[simp]
theorem wellFormed_immediate {body : List Stmt} :
    (immediate body).WellFormed ↔
      Stmt.lastIsTerminal body = true ∧ ∀ s ∈ body, s.WellFormed := by
  have hname : Identifier.isReserved "" = false := by decide
  simp [immediate, FunctionDef.anonymous, hname]

theorem wellFormed_joined {op : BinaryOp} {operands : List Expr} {e : Expr}
    (h : ∀ operand ∈ operands, operand.WellFormed) (he : joined op operands = some e) :
    e.WellFormed := by
  cases operands with
  | nil => cases he
  | cons first rest =>
    obtain ⟨hfirst, hrest⟩ := List.forall_mem_cons.mp h
    cases he
    clear h
    induction rest generalizing first with
    | nil => exact hfirst
    | cons next rest ih =>
      obtain ⟨hnext, hrest⟩ := List.forall_mem_cons.mp hrest
      exact ih _ (wellFormed_binary.mpr ⟨hfirst, hnext⟩) hrest

end Expr

end Written

end TreeLowering.Target

namespace TreeLowering

open Target

@[simp]
theorem wellFormed_atomSymbol (name : String) : (atomSymbol name).WellFormed := by
  simp [atomSymbol]

namespace RuntimeLibrary

variable (lib : RuntimeLibrary)

@[simp]
theorem wellFormed_path (segments : List String) : (lib.path segments).WellFormed := by
  have hchain : ∀ (e : Expr), e.WellFormed →
      (segments.foldl (fun object name => object.property name) e).WellFormed := by
    induction segments with
    | nil => exact fun e he => he
    | cons name rest ih => exact fun e he => ih _ (Expr.wellFormed_property.mpr he)
  exact hchain _ (Expr.wellFormed_ident _)

@[simp]
theorem wellFormed_call {segments : List String} {args : List Expr} :
    (lib.call segments args).WellFormed ↔ ∀ e ∈ args, e.WellFormed := by
  simp [call]

@[simp]
theorem wellFormed_error {errorClass : String} {args : List Expr} :
    (lib.error errorClass args).WellFormed ↔ ∀ e ∈ args, e.WellFormed := by
  simp [error]

end RuntimeLibrary

end TreeLowering
