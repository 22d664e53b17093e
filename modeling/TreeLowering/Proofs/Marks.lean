import TreeLowering.Pattern

/-!
What matters of a target tree for the meaning of its names.

The marks of a tree are its reads and declarations from left to right, those inside of a block, a
loop or a function being inside of a scope. A module is a namespace of its own and leaves no mark
in the statements around it.
-/
namespace TreeLowering.Scoping

open Target

inductive Mark where
  | read (name : String)
  /-- A constant or a loop variable, from here on to the end of the scope. -/
  | declare (name : String)
  | param (name : String)
  | scope (inner : List Mark)

mutual

@[simp]
def exprMarks : Expr → List Mark
  | .literal _ => []
  | .ident name => [.read name]
  | .binary left _ right => exprMarks left ++ exprMarks right
  | .unary _ operand => exprMarks operand
  | .call callee args => exprMarks callee ++ exprsMarks args
  | .construct callee args => exprMarks callee ++ exprsMarks args
  | .member object property _ => exprMarks object ++ exprMarks property
  | .array items => exprsMarks items
  | .object properties => propertiesMarks properties
  | .function definition => functionMarks definition
  | .conditional test consequent alternate =>
    exprMarks test ++ exprMarks consequent ++ exprMarks alternate

@[simp]
def exprsMarks : List Expr → List Mark
  | [] => []
  | e :: es => exprMarks e ++ exprsMarks es

@[simp]
def optionMarks : Option Expr → List Mark
  | none => []
  | some e => exprMarks e

@[simp]
def propertiesMarks : List Property → List Mark
  | [] => []
  | ⟨key, value⟩ :: rest => keyMarks key ++ exprMarks value ++ propertiesMarks rest

@[simp]
def keyMarks : PropertyKey → List Mark
  | .name _ => []
  | .computed key => exprMarks key

@[simp]
def functionMarks : FunctionDef → List Mark
  | ⟨_, params, body⟩ => [.scope (params.map .param ++ stmtsMarks body)]

@[simp]
def stmtMarks : Stmt → List Mark
  | .expr value => exprMarks value
  | .declare name init _ => optionMarks init ++ [.declare name]
  | .block body => [.scope (stmtsMarks body)]
  | .ifElse test consequent alternate =>
    exprMarks test ++ stmtMarks consequent ++ optionStmtMarks alternate
  | .forOf name iterable body => exprMarks iterable ++ [.scope (.declare name :: stmtMarks body)]
  | .returns value => optionMarks value
  | .throws value => exprMarks value
  | .function definition => functionMarks definition
  | .imports _ => []
  | .module _ => []

@[simp]
def optionStmtMarks : Option Stmt → List Mark
  | none => []
  | some s => stmtMarks s

@[simp]
def stmtsMarks : List Stmt → List Mark
  | [] => []
  | s :: rest => stmtMarks s ++ stmtsMarks rest

end

mutual

/-- The modules of statements, and the modules inside of them. -/
@[simp]
def stmtsModules : List Stmt → List ModuleDef
  | [] => []
  | s :: rest => stmtModules s ++ stmtsModules rest

@[simp]
def stmtModules : Stmt → List ModuleDef
  | .module definition => modulesWithin definition
  | _ => []

@[simp]
def modulesWithin : ModuleDef → List ModuleDef
  | ⟨name, imports, body, functions⟩ => ⟨name, imports, body, functions⟩ :: stmtsModules body

end

theorem exprsMarks_eq (es : List Expr) : exprsMarks es = es.flatMap exprMarks := by
  induction es with
  | nil => rfl
  | cons e es ih => simp [ih]

@[simp]
theorem exprsMarks_append (es fs : List Expr) :
    exprsMarks (es ++ fs) = exprsMarks es ++ exprsMarks fs := by
  simp [exprsMarks_eq]

@[simp]
theorem stmtsMarks_append (ss ts : List Stmt) :
    stmtsMarks (ss ++ ts) = stmtsMarks ss ++ stmtsMarks ts := by
  induction ss with
  | nil => rfl
  | cons s ss ih => simp [ih]

/-- Nothing is declared outside of the inner scopes. -/
def Flat (marks : List Mark) : Prop :=
  ∀ m ∈ marks, (∃ name, m = .read name) ∨ ∃ inner, m = .scope inner

theorem Flat.append {as bs : List Mark} (ha : Flat as) (hb : Flat bs) : Flat (as ++ bs) :=
  List.forall_mem_append.mpr ⟨ha, hb⟩

theorem flat_scope (inner : List Mark) : Flat [.scope inner] := by
  simp [Flat]

mutual

/-- An expression declares names only inside of the functions in it. -/
theorem flat_exprMarks : ∀ e : Expr, Flat (exprMarks e)
  | .literal _ => by simp [Flat]
  | .ident _ => by simp [Flat]
  | .binary left _ right => by
    simpa using (flat_exprMarks left).append (flat_exprMarks right)
  | .unary _ operand => by simpa using flat_exprMarks operand
  | .call callee args => by simpa using (flat_exprMarks callee).append (flat_exprsMarks args)
  | .construct callee args => by simpa using (flat_exprMarks callee).append (flat_exprsMarks args)
  | .member object property _ => by
    simpa using (flat_exprMarks object).append (flat_exprMarks property)
  | .array items => by simpa using flat_exprsMarks items
  | .object properties => by simpa using flat_propertiesMarks properties
  | .function ⟨_, params, body⟩ => by simpa using flat_scope _
  | .conditional test consequent alternate => by
    simpa using (flat_exprMarks test).append
      ((flat_exprMarks consequent).append (flat_exprMarks alternate))

theorem flat_exprsMarks : ∀ es : List Expr, Flat (exprsMarks es)
  | [] => by simp [Flat]
  | e :: es => by simpa using (flat_exprMarks e).append (flat_exprsMarks es)

theorem flat_propertiesMarks : ∀ ps : List Property, Flat (propertiesMarks ps)
  | [] => by simp [Flat]
  | ⟨.name _, value⟩ :: rest => by
    simpa using (flat_exprMarks value).append (flat_propertiesMarks rest)
  | ⟨.computed key, value⟩ :: rest => by
    simpa using (flat_exprMarks key).append
      ((flat_exprMarks value).append (flat_propertiesMarks rest))

end

theorem flat_optionMarks (o : Option Expr) : Flat (optionMarks o) := by
  cases o with
  | none => simp [Flat]
  | some e => simpa using flat_exprMarks e

/-- Nothing but reads of allowed names. -/
def ReadsOnly (allowed : String → Prop) (marks : List Mark) : Prop :=
  ∀ mark ∈ marks, ∃ t, allowed t ∧ mark = .read t

section ReadsOnly

variable {allowed : String → Prop} {as bs : List Mark}

@[simp]
theorem readsOnly_nil : ReadsOnly allowed [] := by simp [ReadsOnly]

@[simp]
theorem readsOnly_cons {t : String} : ReadsOnly allowed (.read t :: as) ↔
    allowed t ∧ ReadsOnly allowed as := by
  simp [ReadsOnly]

@[simp]
theorem readsOnly_append : ReadsOnly allowed (as ++ bs) ↔
    ReadsOnly allowed as ∧ ReadsOnly allowed bs :=
  List.forall_mem_append

end ReadsOnly

section Constructors

variable (lib : RuntimeLibrary)

@[simp]
theorem exprMarks_string (s : String) : exprMarks (.string s) = [] := by simp [Expr.string]

@[simp]
theorem exprMarks_float (x : Binary64) : exprMarks (.float x) = [] := by simp [Expr.float]

@[simp]
theorem exprMarks_integer (n : Int64) : exprMarks (.integer n) = [] := by simp [Expr.integer]

@[simp]
theorem exprMarks_natural (n : Nat) : exprMarks (.natural n) = [] := by simp [Expr.natural]

@[simp]
theorem exprMarks_bool (b : Bool) : exprMarks (.bool b) = [] := by simp [Expr.bool]

@[simp]
theorem exprMarks_null : exprMarks .null = [] := by simp [Expr.null]

@[simp]
theorem exprMarks_eq (a b : Expr) : exprMarks (.eq a b) = exprMarks a ++ exprMarks b := by
  simp [Expr.eq]

@[simp]
theorem exprMarks_property (e : Expr) (name : String) : exprMarks (e.property name) = exprMarks e := by
  simp [Expr.property]

@[simp]
theorem exprMarks_index (e key : Expr) : exprMarks (e.index key) = exprMarks e ++ exprMarks key := by
  simp [Expr.index]

@[simp]
theorem exprMarks_method (e : Expr) (name : String) (args : List Expr) :
    exprMarks (e.method name args) = exprMarks e ++ exprsMarks args := by
  simp [Expr.method]

@[simp]
theorem exprMarks_path (segments : List String) :
    exprMarks (lib.path segments) = [.read lib.name] := by
  have hfold : ∀ e : Expr, exprMarks (segments.foldl (fun o name => o.property name) e) =
      exprMarks e := by
    induction segments with
    | nil => exact fun e => rfl
    | cons name segments ih => exact fun e => by simp [ih]
  simp [RuntimeLibrary.path, hfold, RuntimeLibrary.root]

@[simp]
theorem exprMarks_libraryCall (segments : List String) (args : List Expr) :
    exprMarks (lib.call segments args) = .read lib.name :: exprsMarks args := by
  simp [RuntimeLibrary.call]

@[simp]
theorem exprMarks_immediate (body : List Stmt) :
    exprMarks (Expr.immediate body) = [.scope (stmtsMarks body)] := by
  simp [Expr.immediate, FunctionDef.anonymous]

@[simp]
theorem exprMarks_atomSymbol (name : String) : exprMarks (atomSymbol name) = [.read "Symbol"] := by
  simp [atomSymbol]

@[simp]
theorem stmtMarks_const (name : String) (init : Expr) :
    stmtMarks (.const name init) = exprMarks init ++ [.declare name] := by
  simp [Stmt.const]

@[simp]
theorem stmtMarks_return (value : Expr) : stmtMarks (.return_ value) = exprMarks value := by
  simp [Stmt.return_]

@[simp]
theorem stmtMarks_when (test : Expr) (body : Stmt) :
    stmtMarks (.when_ test body) = exprMarks test ++ stmtMarks body := by
  simp [Stmt.when_]

/-- The marks of operands joined from the left are those of the operands. -/
theorem optionMarks_joined (op : BinaryOp) (es : List Expr) :
    optionMarks (Expr.joined op es) = exprsMarks es := by
  have hfold : ∀ (es : List Expr) (e : Expr),
      exprMarks (es.foldl (fun acc t => .binary acc op t) e) = exprMarks e ++ exprsMarks es := by
    intro es
    induction es with
    | nil => simp
    | cons t es ih => simp [ih]
  cases es with
  | nil => rfl
  | cons e es => simp [Expr.joined, hfold]

theorem readsOnly_atomValue {allowed : String → Prop} (hsymbol : allowed "Symbol")
    (name : String) : ReadsOnly allowed (exprMarks (atomValue name)) := by
  unfold atomValue
  split
  · simp
  · split
    · simp
    · split
      · simp
      · simpa using hsymbol

theorem exprMarks_joined_getD (op : BinaryOp) (es : List Expr) {e : Expr} (h : exprMarks e = []) :
    exprMarks ((Expr.joined op es).getD e) = exprsMarks es := by
  rw [← optionMarks_joined op es]
  cases Expr.joined op es with
  | none => simpa using h
  | some _ => simp

end Constructors

end TreeLowering.Scoping
