import Mathlib.Data.List.Forall2
import TreeLowering.Proofs.NormalForm

/-!
Equality up to spelling as a relation of trees.

The relation is taken on every type of tree at once. On trees without a NaN it is an equivalence,
the one that normal forms give; it contains the equality that compares hints; and it is kept by
every constructor.
-/
namespace TreeLowering.Target

/-- The types of target trees that are compared. -/
inductive Kind where
  | program
  | stmt
  | expr
  | property
  | function
  | imports
  | module
  | moduleFunction

abbrev Tree : Kind → Type
  | .program => Program
  | .stmt => Stmt
  | .expr => Expr
  | .property => Property
  | .function => FunctionDef
  | .imports => Import
  | .module => ModuleDef
  | .moduleFunction => ModuleFunction

namespace Tree

/-- Equality of two trees of a type. An import has no hints. -/
def same (h : Hints) : (k : Kind) → Tree k → Tree k → Bool
  | .program => Program.same h
  | .stmt => Stmt.same h
  | .expr => Expr.same h
  | .property => Property.same h
  | .function => FunctionDef.same h
  | .imports => fun a b => a == b
  | .module => ModuleDef.same h
  | .moduleFunction => ModuleFunction.same h

def norm : (k : Kind) → Tree k → Tree k
  | .program => fun p => ⟨normStmts p.body⟩
  | .stmt => Stmt.norm
  | .expr => Expr.norm
  | .property => Property.norm
  | .function => FunctionDef.norm
  | .imports => id
  | .module => ModuleDef.norm
  | .moduleFunction => ModuleFunction.norm

def parts : (k : Kind) → Tree k → List Part
  | .program => fun p => stmtsParts p.body
  | .stmt => stmtParts
  | .expr => exprParts
  | .property => propertyParts
  | .function => functionParts
  | .imports => fun _ => []
  | .module => moduleParts
  | .moduleFunction => moduleFunctionParts

/-- No literal in the tree is a NaN. -/
def NaNFree (k : Kind) (t : Tree k) : Prop := ∀ p ∈ parts k t, p.NaNFree

theorem same_iff {k : Kind} {a b : Tree k} (ha : NaNFree k a) (hb : NaNFree k b) :
    same .ignored k a b = true ↔ norm k a = norm k b := by
  cases k with
  | program =>
    cases a
    cases b
    simpa [same, norm, Program.same] using sameStmts_iff _ _ ha hb
  | stmt => exact Stmt.same_iff a b ha hb
  | expr => exact Expr.same_iff a b ha hb
  | property => exact Property.same_iff a b ha hb
  | function => exact FunctionDef.same_iff a b ha hb
  | imports => exact beq_iff_eq
  | module => exact ModuleDef.same_iff a b ha hb
  | moduleFunction => exact ModuleFunction.same_iff a b ha hb

-- A NaN is not the same as itself, so the trees with one are left out.
example : same .ignored .expr (.float ⟨0x7ff8000000000000⟩) (.float ⟨0x7ff8000000000000⟩) =
    false := by cbv

/-- Equality of normal forms is an equivalence, so equality up to spelling is one. -/
theorem same_equivalence (k : Kind) :
    Equivalence fun a b : { t : Tree k // NaNFree k t } => same .ignored k a.1 b.1 = true where
  refl a := (same_iff a.2 a.2).mpr rfl
  symm {a b} h := (same_iff b.2 a.2).mpr ((same_iff a.2 b.2).mp h).symm
  trans {a b c} hab hbc :=
    (same_iff a.2 c.2).mpr (((same_iff a.2 b.2).mp hab).trans ((same_iff b.2 c.2).mp hbc))

end Tree

/-- What is the same with hints compared is the same with hints ignored: the induction is along the
comparison itself, and where a hint is compared, ignoring it only adds pairs. -/
theorem same_ignored_of_compared :
    (∀ a b : Expr, a.same .compared b = true → a.same .ignored b = true) ∧
    (∀ a b : FunctionDef, a.same .compared b = true → a.same .ignored b = true) ∧
    (∀ a b : List Stmt, sameStmts .compared a b = true → sameStmts .ignored a b = true) ∧
    (∀ a b : Stmt, a.same .compared b = true → a.same .ignored b = true) ∧
    (∀ a b : ModuleDef, a.same .compared b = true → a.same .ignored b = true) ∧
    (∀ a b : List ModuleFunction,
      sameFunctions .compared a b = true → sameFunctions .ignored a b = true) ∧
    (∀ a b : ModuleFunction, a.same .compared b = true → a.same .ignored b = true) ∧
    (∀ a b : Option Stmt,
      sameOptionStmt .compared a b = true → sameOptionStmt .ignored a b = true) ∧
    (∀ a b : Option Expr,
      sameOptionExpr .compared a b = true → sameOptionExpr .ignored a b = true) ∧
    (∀ a b : List Property,
      sameProperties .compared a b = true → sameProperties .ignored a b = true) ∧
    (∀ a b : Property, a.same .compared b = true → a.same .ignored b = true) ∧
    (∀ a b : PropertyKey, a.same .compared b = true → a.same .ignored b = true) ∧
    (∀ a b : List Expr, sameExprs .compared a b = true → sameExprs .ignored a b = true) := by
  apply Expr.same.mutual_induct <;> intros <;>
    simp_all [Expr.same, FunctionDef.same, sameStmts, Stmt.same, ModuleDef.same, sameFunctions,
      ModuleFunction.same, sameOptionStmt, sameOptionExpr, sameProperties, Property.same,
      PropertyKey.same, sameExprs, Hints.areIgnored]

theorem Tree.same_of_compared {k : Kind} {a b : Tree k} (h : same .compared k a b = true) :
    same .ignored k a b = true := by
  obtain ⟨exprs, functions, bodies, stmts, modules, -, moduleFunctions, -, -, -, properties, -⟩ :=
    same_ignored_of_compared
  cases k with
  | program => exact bodies _ _ h
  | stmt => exact stmts a b h
  | expr => exact exprs a b h
  | property => exact properties a b h
  | function => exact functions a b h
  | imports => exact h
  | module => exact modules a b h
  | moduleFunction => exact moduleFunctions a b h

/-- A relation of trees that every constructor keeps: trees built alike from related trees are
related. -/
structure IsCongruence (R : (k : Kind) → Tree k → Tree k → Prop) : Prop where
  literal {value} : (Part.expr (.literal value)).NaNFree →
    R .expr (.literal value) (.literal value)
  ident {name} : R .expr (.ident name) (.ident name)
  binary {l l' op r r'} : R .expr l l' → R .expr r r' →
    R .expr (.binary l op r) (.binary l' op r')
  unary {op e e'} : R .expr e e' → R .expr (.unary op e) (.unary op e')
  call {f f' as as'} : R .expr f f' → List.Forall₂ (R .expr) as as' →
    R .expr (.call f as) (.call f' as')
  construct {f f' as as'} : R .expr f f' → List.Forall₂ (R .expr) as as' →
    R .expr (.construct f as) (.construct f' as')
  member {o o' p p' computed} : R .expr o o' → R .expr p p' →
    R .expr (.member o p computed) (.member o' p' computed)
  array {es es'} : List.Forall₂ (R .expr) es es' → R .expr (.array es) (.array es')
  object {ps ps'} : List.Forall₂ (R .property) ps ps' → R .expr (.object ps) (.object ps')
  functionExpr {f f'} : R .function f f' → R .expr (.function f) (.function f')
  conditional {t t' e e' f f'} : R .expr t t' → R .expr e e' → R .expr f f' →
    R .expr (.conditional t e f) (.conditional t' e' f')
  named {text v v'} : R .expr v v' → R .property ⟨.name text, v⟩ ⟨.name text, v'⟩
  computed {k k' v v'} : R .expr k k' → R .expr v v' →
    R .property ⟨.computed k, v⟩ ⟨.computed k', v'⟩
  function {name params body body'} : List.Forall₂ (R .stmt) body body' →
    R .function ⟨name, params, body⟩ ⟨name, params, body'⟩
  exprStmt {e e'} : R .expr e e' → R .stmt (.expr e) (.expr e')
  declare {name init init' isMutable} : Option.Rel (R .expr) init init' →
    R .stmt (.declare name init isMutable) (.declare name init' isMutable)
  block {body body'} : List.Forall₂ (R .stmt) body body' → R .stmt (.block body) (.block body')
  ifElse {t t' s s' o o'} : R .expr t t' → R .stmt s s' → Option.Rel (R .stmt) o o' →
    R .stmt (.ifElse t s o) (.ifElse t' s' o')
  forOf {name e e' s s'} : R .expr e e' → R .stmt s s' →
    R .stmt (.forOf name e s) (.forOf name e' s')
  returns {e e'} : Option.Rel (R .expr) e e' → R .stmt (.returns e) (.returns e')
  throws {e e'} : R .expr e e' → R .stmt (.throws e) (.throws e')
  functionStmt {f f'} : R .function f f' → R .stmt (.function f) (.function f')
  importsStmt {i i'} : R .imports i i' → R .stmt (.imports i) (.imports i')
  moduleStmt {m m'} : R .module m m' → R .stmt (.module m) (.module m')
  imports {i} : R .imports i i
  module {name is is' body body' fs fs'} : List.Forall₂ (R .imports) is is' →
    List.Forall₂ (R .stmt) body body' → List.Forall₂ (R .moduleFunction) fs fs' →
    R .module ⟨name, is, body, fs⟩ ⟨name, is', body', fs'⟩
  moduleFunction {f f' exported} : R .function f f' →
    R .moduleFunction ⟨f, exported⟩ ⟨f', exported⟩
  program {body body'} : List.Forall₂ (R .stmt) body body' → R .program ⟨body⟩ ⟨body'⟩

/-- A comparison of lists that goes entry by entry holds of lists whose entries compare. -/
theorem same_of_forall₂ {α : Type} {entry : α → α → Bool} {list : List α → List α → Bool}
    (nil : list [] [] = true)
    (cons : ∀ a as b bs, list (a :: as) (b :: bs) = (entry a b && list as bs)) {as bs : List α}
    (h : List.Forall₂ (entry · · = true) as bs) : list as bs = true := by
  induction h with
  | nil => exact nil
  | cons head _ ih => rw [cons, head, ih, Bool.and_self]

section

variable {h : Hints}

theorem sameExprs_of_forall₂ {as bs : List Expr}
    (hs : List.Forall₂ (Tree.same h .expr · · = true) as bs) : sameExprs h as bs = true :=
  same_of_forall₂ (by rw [sameExprs]) (fun _ _ _ _ => by rw [sameExprs, Tree.same]) hs

theorem sameProperties_of_forall₂ {as bs : List Property}
    (hs : List.Forall₂ (Tree.same h .property · · = true) as bs) :
    sameProperties h as bs = true :=
  same_of_forall₂ (by rw [sameProperties]) (fun _ _ _ _ => by rw [sameProperties, Tree.same]) hs

theorem sameStmts_of_forall₂ {as bs : List Stmt}
    (hs : List.Forall₂ (Tree.same h .stmt · · = true) as bs) : sameStmts h as bs = true :=
  same_of_forall₂ (by rw [sameStmts]) (fun _ _ _ _ => by rw [sameStmts, Tree.same]) hs

theorem sameFunctions_of_forall₂ {as bs : List ModuleFunction}
    (hs : List.Forall₂ (Tree.same h .moduleFunction · · = true) as bs) :
    sameFunctions h as bs = true :=
  same_of_forall₂ (by rw [sameFunctions]) (fun _ _ _ _ => by rw [sameFunctions, Tree.same]) hs

end

theorem sameOptionExpr_of_rel {h : Hints} {a b : Option Expr}
    (hs : Option.Rel (Tree.same h .expr · · = true) a b) : sameOptionExpr h a b = true := by
  cases hs with
  | none => rw [sameOptionExpr]
  | some hs => rw [sameOptionExpr]; exact hs

theorem sameOptionStmt_of_rel {h : Hints} {a b : Option Stmt}
    (hs : Option.Rel (Tree.same h .stmt · · = true) a b) : sameOptionStmt h a b = true := by
  cases hs with
  | none => rw [sameOptionStmt]
  | some hs => rw [sameOptionStmt]; exact hs

theorem imports_eq_of_forall₂ {h : Hints} {is is' : List Import}
    (hs : List.Forall₂ (Tree.same h .imports · · = true) is is') : is = is' :=
  List.forall₂_eq_eq_eq ▸ hs.imp fun _ _ => eq_of_beq

theorem Literal.same_self {l : Literal} (h : (Part.expr (.literal l)).NaNFree) :
    l.same l = true :=
  (Literal.same_iff h h).mpr rfl

theorem same_isCongruence : IsCongruence (Tree.same .ignored · · · = true) where
  literal h := by simpa [Tree.same, Expr.same] using Literal.same_self h
  ident := by simp [Tree.same, Expr.same]
  binary hl hr := by simp_all [Tree.same, Expr.same]
  unary he := by simp_all [Tree.same, Expr.same]
  call hf has := by simp_all [Tree.same, Expr.same, sameExprs_of_forall₂ has]
  construct hf has := by simp_all [Tree.same, Expr.same, sameExprs_of_forall₂ has]
  member ho hp := by simp_all [Tree.same, Expr.same]
  array hes := by simp [Tree.same, Expr.same, sameExprs_of_forall₂ hes]
  object hps := by simp [Tree.same, Expr.same, sameProperties_of_forall₂ hps]
  functionExpr hf := by simp_all [Tree.same, Expr.same]
  conditional ht he hf := by simp_all [Tree.same, Expr.same]
  named hv := by simp_all [Tree.same, Property.same, PropertyKey.same]
  computed hk hv := by simp_all [Tree.same, Property.same, PropertyKey.same]
  function hbody := by simp [Tree.same, FunctionDef.same, sameStmts_of_forall₂ hbody]
  exprStmt he := by simp_all [Tree.same, Stmt.same]
  declare hinit := by simp [Tree.same, Stmt.same, sameOptionExpr_of_rel hinit]
  block hbody := by simp [Tree.same, Stmt.same, sameStmts_of_forall₂ hbody]
  ifElse ht hs ho := by simp_all [Tree.same, Stmt.same, sameOptionStmt_of_rel ho]
  forOf he hs := by simp_all [Tree.same, Stmt.same]
  returns he := by simp [Tree.same, Stmt.same, sameOptionExpr_of_rel he]
  throws he := by simp_all [Tree.same, Stmt.same]
  functionStmt hf := by simp_all [Tree.same, Stmt.same]
  importsStmt hi := by simp_all [Tree.same, Stmt.same]
  moduleStmt hm := by simp_all [Tree.same, Stmt.same]
  imports := by simp [Tree.same]
  module his hbody hfs := by
    simp [Tree.same, ModuleDef.same, imports_eq_of_forall₂ his, sameStmts_of_forall₂ hbody,
      sameFunctions_of_forall₂ hfs]
  moduleFunction hf := by simp_all [Tree.same, ModuleFunction.same]
  program hbody := by simp [Tree.same, Program.same, sameStmts_of_forall₂ hbody]

/-- Equality up to spelling is equality of normal forms on trees without a NaN, and so an
equivalence there; it holds wherever the hints agree as well, and every constructor keeps it. -/
theorem same_up_to_spelling :
    (∀ (k : Kind) (a b : Tree k), Tree.NaNFree k a → Tree.NaNFree k b →
      (Tree.same .ignored k a b = true ↔ Tree.norm k a = Tree.norm k b)) ∧
    (∀ k : Kind, Equivalence fun a b : { t : Tree k // Tree.NaNFree k t } =>
      Tree.same .ignored k a.1 b.1 = true) ∧
    (∀ (k : Kind) (a b : Tree k), Tree.same .compared k a b = true →
      Tree.same .ignored k a b = true) ∧
    IsCongruence (Tree.same .ignored · · · = true) :=
  ⟨fun _ _ _ ha hb => Tree.same_iff ha hb, Tree.same_equivalence,
    fun _ _ _ h => Tree.same_of_compared h, same_isCongruence⟩

/-- A mutable declaration that reads an entry with a dot; the entry has a name and is a negative
zero. -/
def dottedProgram : Program :=
  ⟨[.declare "x" (some (.member (.object [⟨.name "zero", .float Binary64.zero.neg⟩])
    (.string "zero") false)) true]⟩

/-- The same in constants, brackets and zeros without a sign. -/
def bracketedProgram : Program :=
  ⟨[.declare "x" (some (.member (.object [⟨.computed (.string "zero"), .float Binary64.zero⟩])
    (.string "zero") true)) false]⟩

theorem same_up_to_spelling_dottedProgram :
    Tree.NaNFree .program dottedProgram ∧ Tree.NaNFree .program bracketedProgram ∧
      Tree.same .compared .program dottedProgram bracketedProgram = false ∧
      Tree.norm .program dottedProgram = Tree.norm .program bracketedProgram := by
  have hdotted : Tree.NaNFree .program dottedProgram := by
    have hzero : Binary64.zero.neg.isNaN = false := by decide
    simp [Tree.NaNFree, Tree.parts, dottedProgram, Part.NaNFree, Expr.string, Expr.float, hzero]
  have hbracketed : Tree.NaNFree .program bracketedProgram := by
    have hzero : Binary64.zero.isNaN = false := by decide
    simp [Tree.NaNFree, Tree.parts, bracketedProgram, Part.NaNFree, Expr.string, Expr.float, hzero]
  refine ⟨hdotted, hbracketed, by cbv, ?_⟩
  exact (same_up_to_spelling.1 .program _ _ hdotted hbracketed).mp (by cbv)

end TreeLowering.Target
