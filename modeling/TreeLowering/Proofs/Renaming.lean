import TreeLowering.Clause
import TreeLowering.Operator
import TreeLowering.Proofs.WellFormed

/-!
Target trees with other identifiers.

`rename` replaces the name of every identifier that is read; the names that a tree declares, its
texts and the names of its properties stay. The forms that the lowering writes are renamed by
renaming their parts, and whether control can leave a statement is not a matter of names.
-/
namespace TreeLowering.Target

/-- The renaming of one name. -/
def replacing (old new name : String) : String := if name = old then new else name

mutual

/-- The expression with every identifier `x` replaced by `σ x`. -/
@[simp]
def Expr.rename (σ : String → String) : Expr → Expr
  | .literal value => .literal value
  | .ident name => .ident (σ name)
  | .binary left op right => .binary (left.rename σ) op (right.rename σ)
  | .unary op operand => .unary op (operand.rename σ)
  | .call callee args => .call (callee.rename σ) (renameExprs σ args)
  | .construct callee args => .construct (callee.rename σ) (renameExprs σ args)
  | .member object property computed => .member (object.rename σ) (property.rename σ) computed
  | .array items => .array (renameExprs σ items)
  | .object properties => .object (renameProperties σ properties)
  | .function definition => .function (definition.rename σ)
  | .conditional test consequent alternate =>
    .conditional (test.rename σ) (consequent.rename σ) (alternate.rename σ)

@[simp]
def renameExprs (σ : String → String) : List Expr → List Expr
  | [] => []
  | e :: es => e.rename σ :: renameExprs σ es

@[simp]
def renameOption (σ : String → String) : Option Expr → Option Expr
  | none => none
  | some e => some (e.rename σ)

@[simp]
def PropertyKey.rename (σ : String → String) : PropertyKey → PropertyKey
  | .name text => .name text
  | .computed key => .computed (key.rename σ)

@[simp]
def Property.rename (σ : String → String) : Property → Property
  | ⟨key, value⟩ => ⟨key.rename σ, value.rename σ⟩

@[simp]
def renameProperties (σ : String → String) : List Property → List Property
  | [] => []
  | p :: ps => p.rename σ :: renameProperties σ ps

@[simp]
def FunctionDef.rename (σ : String → String) : FunctionDef → FunctionDef
  | ⟨name, params, body⟩ => ⟨name, params, renameStmts σ body⟩

@[simp]
def Stmt.rename (σ : String → String) : Stmt → Stmt
  | .expr value => .expr (value.rename σ)
  | .declare name init isMutable => .declare name (renameOption σ init) isMutable
  | .block body => .block (renameStmts σ body)
  | .ifElse test consequent alternate =>
    .ifElse (test.rename σ) (consequent.rename σ) (renameOptionStmt σ alternate)
  | .forOf name iterable body => .forOf name (iterable.rename σ) (body.rename σ)
  | .returns value => .returns (renameOption σ value)
  | .throws value => .throws (value.rename σ)
  | .function definition => .function (definition.rename σ)
  | .imports declaration => .imports declaration
  | .module definition => .module (definition.rename σ)

@[simp]
def renameOptionStmt (σ : String → String) : Option Stmt → Option Stmt
  | none => none
  | some s => some (s.rename σ)

@[simp]
def renameStmts (σ : String → String) : List Stmt → List Stmt
  | [] => []
  | s :: rest => s.rename σ :: renameStmts σ rest

@[simp]
def ModuleFunction.rename (σ : String → String) : ModuleFunction → ModuleFunction
  | ⟨function, exported⟩ => ⟨function.rename σ, exported⟩

@[simp]
def renameFunctions (σ : String → String) : List ModuleFunction → List ModuleFunction
  | [] => []
  | f :: rest => f.rename σ :: renameFunctions σ rest

@[simp]
def ModuleDef.rename (σ : String → String) : ModuleDef → ModuleDef
  | ⟨name, imports, body, functions⟩ =>
    ⟨name, imports, renameStmts σ body, renameFunctions σ functions⟩

end

def Program.rename (σ : String → String) (program : Program) : Program :=
  ⟨program.body.map (Stmt.rename σ)⟩

variable {σ : String → String}

@[simp]
theorem renameExprs_eq (es : List Expr) : renameExprs σ es = es.map (Expr.rename σ) := by
  induction es with
  | nil => rfl
  | cons e es ih => rw [renameExprs, ih, List.map_cons]

@[simp]
theorem renameProperties_eq (ps : List Property) :
    renameProperties σ ps = ps.map (Property.rename σ) := by
  induction ps with
  | nil => rfl
  | cons p ps ih => rw [renameProperties, ih, List.map_cons]

@[simp]
theorem renameStmts_eq (stmts : List Stmt) : renameStmts σ stmts = stmts.map (Stmt.rename σ) := by
  induction stmts with
  | nil => rfl
  | cons s rest ih => rw [renameStmts, ih, List.map_cons]

@[simp]
theorem renameFunctions_eq (fs : List ModuleFunction) :
    renameFunctions σ fs = fs.map (ModuleFunction.rename σ) := by
  induction fs with
  | nil => rfl
  | cons f rest ih => rw [renameFunctions, ih, List.map_cons]

namespace Expr

@[simp]
theorem rename_null : null.rename σ = null := by simp [null]

@[simp]
theorem rename_bool (b : Bool) : (bool b).rename σ = bool b := by simp [bool]

@[simp]
theorem rename_integer (n : Int64) : (integer n).rename σ = integer n := by simp [integer]

@[simp]
theorem rename_natural (n : Nat) : (natural n).rename σ = natural n := by simp [natural]

@[simp]
theorem rename_float (x : Binary64) : (float x).rename σ = float x := by simp [float]

@[simp]
theorem rename_string (s : String) : (string s).rename σ = string s := by simp [string]

@[simp]
theorem rename_eq (a b : Expr) : (eq a b).rename σ = eq (a.rename σ) (b.rename σ) := by simp [eq]

@[simp]
theorem rename_ne (a b : Expr) : (ne a b).rename σ = ne (a.rename σ) (b.rename σ) := by simp [ne]

@[simp]
theorem rename_not (a : Expr) : (Expr.not a).rename σ = Expr.not (a.rename σ) := by
  simp [Expr.not]

@[simp]
theorem rename_property (e : Expr) (name : String) :
    (e.property name).rename σ = (e.rename σ).property name := by
  simp [property]

@[simp]
theorem rename_index (e key : Expr) :
    (e.index key).rename σ = (e.rename σ).index (key.rename σ) := by
  simp [index]

@[simp]
theorem rename_method (e : Expr) (name : String) (args : List Expr) :
    (e.method name args).rename σ = (e.rename σ).method name (args.map (rename σ)) := by
  simp [method]

@[simp]
theorem rename_immediate (body : List Stmt) :
    (immediate body).rename σ = immediate (body.map (Stmt.rename σ)) := by
  simp [immediate, FunctionDef.anonymous]

@[simp]
theorem rename_joined (op : BinaryOp) (es : List Expr) :
    (joined op es).map (rename σ) = joined op (es.map (rename σ)) := by
  cases es with
  | nil => rfl
  | cons e es =>
    simp only [joined, Option.map_some, List.map_cons, Option.some.injEq]
    induction es generalizing e with
    | nil => rfl
    | cons t es ih => simpa using ih (.binary e op t)

@[simp]
theorem isStringLiteral_rename (e : Expr) : (e.rename σ).isStringLiteral = e.isStringLiteral := by
  cases e <;> simp [isStringLiteral]

end Expr

@[simp]
theorem Property.rename_named (name : String) (value : Expr) :
    (named name value).rename σ = named name (value.rename σ) := by
  simp [named]

@[simp]
theorem Property.rename_computed (key value : Expr) :
    (computed key value).rename σ = computed (key.rename σ) (value.rename σ) := by
  simp [computed]

namespace Stmt

@[simp]
theorem rename_const (name : String) (init : Expr) :
    (const name init).rename σ = const name (init.rename σ) := by
  simp [const]

@[simp]
theorem rename_return_ (value : Expr) : (return_ value).rename σ = return_ (value.rename σ) := by
  simp [return_]

@[simp]
theorem rename_when_ (test : Expr) (body : Stmt) :
    (when_ test body).rename σ = when_ (test.rename σ) (body.rename σ) := by
  simp [when_]

mutual

@[simp]
theorem isTerminal_rename : ∀ s : Stmt, (s.rename σ).isTerminal = s.isTerminal
  | .block body => by simp [isTerminal, lastIsTerminal_map_rename body]
  | .ifElse _ consequent (some alternate) => by
    simp [isTerminal, isTerminal_rename consequent, isTerminal_rename alternate]
  | .ifElse _ _ none => by simp [isTerminal]
  | .expr _ | .declare .. | .forOf .. | .returns _ | .throws _ | .function _ | .imports _
  | .module _ => by simp [isTerminal]

@[simp]
theorem lastIsTerminal_map_rename :
    ∀ stmts : List Stmt, lastIsTerminal (stmts.map (rename σ)) = lastIsTerminal stmts
  | [] => rfl
  | [s] => by simp [lastIsTerminal, isTerminal_rename s]
  | _ :: s :: rest => by
    simpa [lastIsTerminal] using lastIsTerminal_map_rename (s :: rest)

end

end Stmt

end TreeLowering.Target

namespace TreeLowering

open Target

variable {σ : String → String}

namespace RuntimeLibrary

/-- The chain of properties starts at the new name. -/
theorem rename_path (lib : RuntimeLibrary) (segments : List String) :
    (lib.path segments).rename σ = RuntimeLibrary.path ⟨σ lib.name⟩ segments := by
  have hchain : ∀ e : Expr, (segments.foldl (fun object name => object.property name) e).rename σ =
      segments.foldl (fun object name => object.property name) (e.rename σ) := by
    induction segments with
    | nil => exact fun _ => rfl
    | cons name rest ih =>
      intro e
      rw [List.foldl_cons, ih, Expr.rename_property, List.foldl_cons]
  simpa [path, root] using hchain lib.root

end RuntimeLibrary

namespace LowerM

theorem map_rename_closedBy (failure : Stmt) (stmts : List Stmt) :
    (closedBy failure stmts).map (Stmt.rename σ) =
      closedBy (failure.rename σ) (stmts.map (Stmt.rename σ)) := by
  unfold closedBy
  rw [Stmt.lastIsTerminal_map_rename]
  split <;> simp

end LowerM

end TreeLowering
