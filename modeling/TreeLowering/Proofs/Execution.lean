import TreeLowering.Config
import TreeLowering.Proofs.Evaluation
import TreeLowering.Proofs.Run
import TreeLowering.RuntimeLibrary

/-!
How target trees run, as far as constants, functions and branches go.

A name is declared by a constant of its block or as a parameter. All constants of a block have their
cells from its start, and a cell is empty until its declaration is reached: an empty cell cannot be
read, and hides what the name means outside of the block. A closure keeps the cells of the names
around it, not their contents. Names that are declared twice in a block or among the parameters are
refused, and so are calls with too few or too many arguments.

The runtime's truthiness is an operation of the target: it is false for `false` and `null` only, and
its path is not looked up. What else a target tree may hold has no rule.
-/
namespace TreeLowering.Evaluation

open Target

inductive TargetValue where
  | scalar (s : Scalar)
  | closure (cells : List (String × Nat)) (params : List String) (body : List Stmt)

/-- The contents of all cells; an empty one is not initialised. -/
abbrev Heap := List (Option TargetValue)

namespace TargetValue

/-- What the target itself takes for true. -/
def toBoolean : TargetValue → Bool
  | .scalar .nil => false
  | .scalar (.boolean b) => b
  | .scalar (.integer n) => n ≠ 0
  | .scalar (.text text) => text ≠ ""
  | .closure .. => true

/-- What the runtime takes for true. -/
def isTruthy : TargetValue → Bool
  | .scalar s => s.isTruthy
  | .closure .. => true

end TargetValue

def literalValue : Literal → Option Scalar
  | .null => some .nil
  | .bool b => some (.boolean b)
  | .integer n => some (.integer n.toInt)
  | .string text => some (.text text)
  | .float _ => none

def applyOperator : BinaryOp → Scalar → Scalar → Option Scalar
  | .add, .integer a, .integer b => some (.integer (a + b))
  | .sub, .integer a, .integer b => some (.integer (a - b))
  | .lt, .integer a, .integer b => some (.boolean (a < b))
  | .le, .integer a, .integer b => some (.boolean (a ≤ b))
  | .gt, .integer a, .integer b => some (.boolean (b < a))
  | .ge, .integer a, .integer b => some (.boolean (b ≤ a))
  | .eq, a, b => some (.boolean (a = b))
  | .ne, a, b => some (.boolean (a ≠ b))
  | _, _, _ => none

/-- The constants of a block, without those of blocks and functions inside of it. -/
def constants : List Stmt → List String
  | [] => []
  | .declare t _ _ :: rest => t :: constants rest
  | _ :: rest => constants rest

/-- Names get the cells from `start` on. -/
def place (cells : NameTable Nat) (start : Nat) : List String → NameTable Nat
  | [] => cells
  | t :: ts => place (cells.set t start) (start + 1) ts

/-- The cells of a block's constants before it runs. -/
def unset (ts : List String) : Heap := List.replicate ts.length none

inductive Code where
  | expr (e : Expr)
  | exprs (es : List Expr)
  | stmts (stmts : List Stmt)

inductive Answer where
  | value (v : TargetValue)
  | values (vs : List TargetValue)
  /-- Statements that came to their end. -/
  | done
  /-- Statements that returned. -/
  | returned (v : TargetValue)

/-- A run from a heap to a heap, where names have these cells. -/
inductive Runs (c : Config) : NameTable Nat → Heap → Code → Answer → Heap → Prop
  | literal {cells : NameTable Nat} {h : Heap} {l : Literal} {s : Scalar}
      (is : literalValue l = some s) : Runs c cells h (.expr (.literal l)) (.value (.scalar s)) h
  | ident {cells : NameTable Nat} {h : Heap} {t : String} {i : Nat} {v : TargetValue}
      (declared : cells.get? t = some i) (set : h[i]? = some (some v)) :
      Runs c cells h (.expr (.ident t)) (.value v) h
  | binary {cells : NameTable Nat} {h h₁ h₂ : Heap} {left right : Expr} {op : BinaryOp}
      {a b s : Scalar} (first : Runs c cells h (.expr left) (.value (.scalar a)) h₁)
      (second : Runs c cells h₁ (.expr right) (.value (.scalar b)) h₂)
      (result : applyOperator op a b = some s) :
      Runs c cells h (.expr (.binary left op right)) (.value (.scalar s)) h₂
  | conditional {cells : NameTable Nat} {h h₁ h₂ : Heap} {e consequent alternate : Expr}
      {t v : TargetValue} (test : Runs c cells h (.expr e) (.value t) h₁)
      (branch : Runs c cells h₁ (.expr (if t.toBoolean then consequent else alternate))
        (.value v) h₂) :
      Runs c cells h (.expr (.conditional e consequent alternate)) (.value v) h₂
  | truthy {cells : NameTable Nat} {h h₁ : Heap} {e : Expr} {v : TargetValue}
      (value : Runs c cells h (.expr e) (.value v) h₁) :
      Runs c cells h (.expr (RuntimeLibrary.truthy ⟨c.runtimeName⟩ e))
        (.value (.scalar (.boolean v.isTruthy))) h₁
  | function {cells : NameTable Nat} {h : Heap} {params : List String} {body : List Stmt} :
      Runs c cells h (.expr (.function (.anonymous params body)))
        (.value (.closure cells params body)) h
  | call {cells made : NameTable Nat} {h h₁ h₂ h₃ : Heap} {callee : Expr} {args : List Expr}
      {params : List String} {body : List Stmt} {vs : List TargetValue} {v : TargetValue}
      (function : Runs c cells h (.expr callee) (.value (.closure made params body)) h₁)
      (values : Runs c cells h₁ (.exprs args) (.values vs) h₂) (arity : vs.length = params.length)
      (distinct : (params ++ constants body).Nodup)
      (result : Runs c (place made h₂.length (params ++ constants body))
        (h₂ ++ (vs.map some ++ unset (constants body))) (.stmts body) (.returned v) h₃) :
      Runs c cells h (.expr (.call callee args)) (.value v) h₃
  | noValues {cells : NameTable Nat} {h : Heap} : Runs c cells h (.exprs []) (.values []) h
  | values {cells : NameTable Nat} {h h₁ h₂ : Heap} {e : Expr} {es : List Expr} {v : TargetValue}
      {vs : List TargetValue} (first : Runs c cells h (.expr e) (.value v) h₁)
      (rest : Runs c cells h₁ (.exprs es) (.values vs) h₂) :
      Runs c cells h (.exprs (e :: es)) (.values (v :: vs)) h₂
  | ends {cells : NameTable Nat} {h : Heap} : Runs c cells h (.stmts []) .done h
  | evaluated {cells : NameTable Nat} {h h₁ h₂ : Heap} {e : Expr} {rest : List Stmt}
      {v : TargetValue} {answer : Answer} (value : Runs c cells h (.expr e) (.value v) h₁)
      (after : Runs c cells h₁ (.stmts rest) answer h₂) :
      Runs c cells h (.stmts (.expr e :: rest)) answer h₂
  | constant {cells : NameTable Nat} {h h₁ h₂ : Heap} {t : String} {e : Expr} {rest : List Stmt}
      {i : Nat} {v : TargetValue} {answer : Answer}
      (value : Runs c cells h (.expr e) (.value v) h₁) (declared : cells.get? t = some i)
      (empty : h₁[i]? = some none)
      (after : Runs c cells (h₁.set i (some v)) (.stmts rest) answer h₂) :
      Runs c cells h (.stmts (.const t e :: rest)) answer h₂
  | returns {cells : NameTable Nat} {h h₁ : Heap} {e : Expr} {rest : List Stmt} {v : TargetValue}
      (value : Runs c cells h (.expr e) (.value v) h₁) :
      Runs c cells h (.stmts (.return_ e :: rest)) (.returned v) h₁
  | ifElse {cells : NameTable Nat} {h h₁ h₂ : Heap} {e : Expr} {consequent : Stmt}
      {alternate : Option Stmt} {rest : List Stmt} {t : TargetValue} {answer : Answer}
      (test : Runs c cells h (.expr e) (.value t) h₁)
      (after : Runs c cells h₁
        (.stmts ((if t.toBoolean then [consequent] else alternate.toList) ++ rest)) answer h₂) :
      Runs c cells h (.stmts (.ifElse e consequent alternate :: rest)) answer h₂
  | blockReturns {cells : NameTable Nat} {h h₁ : Heap} {body rest : List Stmt} {v : TargetValue}
      (distinct : (constants body).Nodup)
      (inner : Runs c (place cells h.length (constants body)) (h ++ unset (constants body))
        (.stmts body) (.returned v) h₁) :
      Runs c cells h (.stmts (.block body :: rest)) (.returned v) h₁
  | blockEnds {cells : NameTable Nat} {h h₁ h₂ : Heap} {body rest : List Stmt} {answer : Answer}
      (distinct : (constants body).Nodup)
      (inner : Runs c (place cells h.length (constants body)) (h ++ unset (constants body))
        (.stmts body) .done h₁)
      (after : Runs c cells h₁ (.stmts rest) answer h₂) :
      Runs c cells h (.stmts (.block body :: rest)) answer h₂

section Runs

variable {c : Config} {cells : NameTable Nat} {h h₁ h₂ : Heap}

/-- The path of the runtime's truthiness has no value of its own. -/
theorem not_runs_truthyPath {lib : RuntimeLibrary} {v : TargetValue} :
    ¬ Runs c cells h (.expr (lib.path ["Kernel", "truthy"])) (.value v) h₁ := by
  intro r
  simp only [RuntimeLibrary.path, List.foldl, Expr.property] at r
  cases r

/-- A run has one answer and one heap at its end. -/
theorem Runs.unique {code : Code} {a b : Answer} (r : Runs c cells h code a h₁)
    (r' : Runs c cells h code b h₂) : b = a ∧ h₂ = h₁ := by
  induction r generalizing b h₂ with
  | literal is =>
    cases r' with
    | literal is' => simp_all
  | ident declared set =>
    cases r' with
    | ident declared' set' => simp_all
  | binary first second result ih₁ ih₂ =>
    cases r' with
    | binary first' second' result' =>
      obtain ⟨ha, rfl⟩ := ih₁ first'
      obtain ⟨hb, rfl⟩ := ih₂ second'
      simp_all
  | conditional test branch ih₁ ih₂ =>
    cases r' with
    | conditional test' branch' =>
      obtain ⟨ht, rfl⟩ := ih₁ test'
      cases ht
      exact ih₂ branch'
  | truthy value ih =>
    generalize he : RuntimeLibrary.truthy _ _ = e at r'
    cases r' with
    | truthy value' =>
      cases he
      obtain ⟨hv, rfl⟩ := ih value'
      cases hv
      exact ⟨rfl, rfl⟩
    | call function =>
      cases he
      exact (not_runs_truthyPath function).elim
    | _ => cases he
  | function =>
    cases r'
    exact ⟨rfl, rfl⟩
  | call function values arity distinct result ih₁ ih₂ ih₃ =>
    generalize he : Expr.call _ _ = e at r'
    cases r' with
    | truthy value' =>
      cases he
      exact (not_runs_truthyPath function).elim
    | call function' values' arity' distinct' result' =>
      cases he
      obtain ⟨hf, rfl⟩ := ih₁ function'
      cases hf
      obtain ⟨hvs, rfl⟩ := ih₂ values'
      cases hvs
      obtain ⟨hv, rfl⟩ := ih₃ result'
      cases hv
      exact ⟨rfl, rfl⟩
    | _ => cases he
  | noValues =>
    cases r'
    exact ⟨rfl, rfl⟩
  | values first rest ih₁ ih₂ =>
    cases r' with
    | values first' rest' =>
      obtain ⟨hv, rfl⟩ := ih₁ first'
      obtain ⟨hvs, rfl⟩ := ih₂ rest'
      cases hv
      cases hvs
      exact ⟨rfl, rfl⟩
  | ends =>
    cases r'
    exact ⟨rfl, rfl⟩
  | evaluated value after ih₁ ih₂ =>
    cases r' with
    | evaluated value' after' =>
      obtain ⟨-, rfl⟩ := ih₁ value'
      exact ih₂ after'
  | constant value declared empty after ih₁ ih₂ =>
    cases r' with
    | constant value' declared' empty' after' =>
      obtain ⟨hv, rfl⟩ := ih₁ value'
      cases hv
      cases declared.symm.trans declared'
      exact ih₂ after'
  | returns value ih =>
    cases r' with
    | returns value' =>
      obtain ⟨hv, rfl⟩ := ih value'
      cases hv
      exact ⟨rfl, rfl⟩
  | ifElse test after ih₁ ih₂ =>
    cases r' with
    | ifElse test' after' =>
      obtain ⟨ht, rfl⟩ := ih₁ test'
      cases ht
      exact ih₂ after'
  | blockReturns distinct inner ih =>
    cases r' with
    | blockReturns distinct' inner' => exact ih inner'
    | blockEnds distinct' inner' after' =>
      obtain ⟨hdone, -⟩ := ih inner'
      cases hdone
  | blockEnds distinct inner after ih₁ ih₂ =>
    cases r' with
    | blockReturns distinct' inner' =>
      obtain ⟨hdone, -⟩ := ih₁ inner'
      cases hdone
    | blockEnds distinct' inner' after' =>
      obtain ⟨-, rfl⟩ := ih₁ inner'
      exact ih₂ after'

end Runs

section Cells

variable {cells : NameTable Nat} {t : String}

theorem get?_place_of_not_mem {ts : List String} (ht : t ∉ ts) (start : Nat) :
    (place cells start ts).get? t = cells.get? t := by
  induction ts generalizing cells start with
  | nil => rfl
  | cons u ts ih =>
    rw [List.mem_cons, not_or] at ht
    rw [place, ih ht.2, NameTable.get?_set, if_neg ht.1]

theorem get?_place {ts : List String} (distinct : ts.Nodup) {i : Nat} (ht : ts[i]? = some t)
    (start : Nat) : (place cells start ts).get? t = some (start + i) := by
  induction ts generalizing cells start i with
  | nil => simp at ht
  | cons u ts ih =>
    obtain ⟨hu, hts⟩ := List.nodup_cons.mp distinct
    cases i with
    | zero =>
      rw [List.getElem?_cons_zero, Option.some.injEq] at ht
      rw [place, get?_place_of_not_mem (ht ▸ hu), NameTable.get?_set, if_pos ht.symm, Nat.add_zero]
    | succ i =>
      rw [List.getElem?_cons_succ] at ht
      rw [place, ih hts ht, Nat.add_right_comm, Nat.add_assoc]

end Cells

end TreeLowering.Evaluation
