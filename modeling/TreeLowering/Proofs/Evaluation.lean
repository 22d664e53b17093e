import TreeLowering.Proofs.Naming
import TreeLowering.Source.Node

/-!
What forms with variables and closures evaluate to.

`IsCore` picks the forms: constants, variables, `name = value`, sequences, `if` and `unless`,
arithmetic and comparisons, functions of one clause with plain parameters, and their application.
`Evaluates` gives their values. A scope says which value each name has; a binding adds to it for
what follows in the same body. A closure keeps the scope where it was made, and a branch, the body
of a closure and every operand start from a scope and leave nothing behind in it.
-/
namespace TreeLowering.Evaluation

open Source Identifier

/-- Values without parts, of forms and of targets alike. -/
inductive Scalar where
  | nil
  | boolean (b : Bool)
  | integer (n : Int)
  | text (text : String)
deriving DecidableEq, Repr

/-- Only `false` and `nil` do not count as true. -/
def Scalar.isTruthy : Scalar → Bool
  | .nil | .boolean false => false
  | _ => true

/-- An operator on scalars. Integers are exact; only integers have an order. -/
def operate : String → Scalar → Scalar → Option Scalar
  | "+", .integer a, .integer b => some (.integer (a + b))
  | "-", .integer a, .integer b => some (.integer (a - b))
  | "<", .integer a, .integer b => some (.boolean (a < b))
  | "<=", .integer a, .integer b => some (.boolean (a ≤ b))
  | ">", .integer a, .integer b => some (.boolean (b < a))
  | ">=", .integer a, .integer b => some (.boolean (b ≤ a))
  | "==", a, b => some (.boolean (a = b))
  | "===", a, b => some (.boolean (a = b))
  | "!=", a, b => some (.boolean (a ≠ b))
  | "!==", a, b => some (.boolean (a ≠ b))
  | _, _, _ => none

def operators : List String := ["+", "-", "<", "<=", ">", ">=", "==", "===", "!=", "!=="]

inductive Value where
  | scalar (s : Scalar)
  | closure (scope : List (String × Value)) (params : List String) (body : List Node)

namespace Value

def nil : Value := .scalar .nil

def isTruthy : Value → Bool
  | .scalar s => s.isTruthy
  | .closure .. => true

end Value

/-- The values that names have; a later binding of a name hides an earlier one. -/
abbrev Scope := NameTable Value

namespace Scope

/-- `name = value`; the name `_` stands for no variable. -/
def bind (scope : Scope) (x : String) (v : Value) : Scope :=
  if x = "_" then scope else scope.set x v

def bindAll (scope : Scope) : List String → List Value → Scope
  | x :: xs, v :: vs => bindAll (scope.set x v) xs vs
  | _, _ => scope

end Scope

/-- The forms. Names are as a front end hands them over; parameters are variables, all different. -/
inductive IsCore : Node → Prop
  | integer (n : Int64) : IsCore (.integer n)
  | string (text : String) : IsCore (.string text)
  | boolean (b : Bool) : IsCore (.boolean b)
  | nil : IsCore .nil
  | var {x : String} (named : IsSourceName x) : IsCore (.var x)
  | bind {x : String} {e : Node} (named : IsSourceName x) (value : IsCore e) :
      IsCore (.bind (.var x) e)
  | block {ns : List Node} (items : ∀ n ∈ ns, IsCore n) : IsCore (.block ns)
  | ifElse {condition : Node} {body : List Node} {otherwise : Option (List Node)}
      (test : IsCore condition) (items : ∀ n ∈ body, IsCore n)
      (others : ∀ n ∈ otherwise.getD [], IsCore n) : IsCore (.ifElse condition body otherwise)
  | unlessElse {condition : Node} {body : List Node} {otherwise : Option (List Node)}
      (test : IsCore condition) (items : ∀ n ∈ body, IsCore n)
      (others : ∀ n ∈ otherwise.getD [], IsCore n) : IsCore (.unlessElse condition body otherwise)
  | operator {op : String} {left right : Node} (known : op ∈ operators) (first : IsCore left)
      (second : IsCore right) : IsCore (.binaryOp op left right)
  | fn {params : List String} {body : List Node}
      (named : ∀ x ∈ params, IsSourceName x ∧ x ≠ "_") (distinct : params.Nodup)
      (items : ∀ n ∈ body, IsCore n) : IsCore (.fn [⟨params.map .var, body⟩])
  | apply {callee : Node} {args : List Node} (function : IsCore callee)
      (values : ∀ n ∈ args, IsCore n) : IsCore (.apply callee args)

/-- What is asked of forms. -/
inductive Task where
  /-- The value of a form in expression position. -/
  | value (n : Node)
  | values (ns : List Node)
  /-- The value of the last form of a body. -/
  | body (ns : List Node)
  /-- The scope after a form that others follow. -/
  | effect (n : Node)
  | effects (ns : List Node)

inductive Outcome where
  | value (v : Value)
  | values (vs : List Value)
  | scope (scope : Scope)

/-- Forms that may leave bindings behind when others follow them. -/
def binds : Node → Bool
  | .bind .. | .block _ => true
  | _ => false

/-- Evaluation in a scope. -/
inductive Evaluates : Scope → Task → Outcome → Prop
  | integer {ρ : Scope} {n : Int64} :
      Evaluates ρ (.value (.integer n)) (.value (.scalar (.integer n.toInt)))
  | string {ρ : Scope} {text : String} :
      Evaluates ρ (.value (.string text)) (.value (.scalar (.text text)))
  | boolean {ρ : Scope} {b : Bool} :
      Evaluates ρ (.value (.boolean b)) (.value (.scalar (.boolean b)))
  | nil {ρ : Scope} : Evaluates ρ (.value .nil) (.value .nil)
  | var {ρ : Scope} {x : String} {v : Value} (found : ρ.get? x = some v) :
      Evaluates ρ (.value (.var x)) (.value v)
  | bind {ρ : Scope} {x : String} {e : Node} {v : Value}
      (value : Evaluates ρ (.value e) (.value v)) : Evaluates ρ (.value (.bind (.var x) e)) (.value v)
  | block {ρ : Scope} {ns : List Node} {v : Value} (items : Evaluates ρ (.body ns) (.value v)) :
      Evaluates ρ (.value (.block ns)) (.value v)
  | ifElse {ρ : Scope} {condition : Node} {body : List Node} {otherwise : Option (List Node)}
      {t v : Value} (test : Evaluates ρ (.value condition) (.value t))
      (branch : Evaluates ρ (.body (if t.isTruthy then body else otherwise.getD [])) (.value v)) :
      Evaluates ρ (.value (.ifElse condition body otherwise)) (.value v)
  | unlessElse {ρ : Scope} {condition : Node} {body : List Node} {otherwise : Option (List Node)}
      {t v : Value} (test : Evaluates ρ (.value condition) (.value t))
      (branch : Evaluates ρ (.body (if t.isTruthy then otherwise.getD [] else body)) (.value v)) :
      Evaluates ρ (.value (.unlessElse condition body otherwise)) (.value v)
  | operator {ρ : Scope} {op : String} {left right : Node} {a b s : Scalar}
      (first : Evaluates ρ (.value left) (.value (.scalar a)))
      (second : Evaluates ρ (.value right) (.value (.scalar b))) (result : operate op a b = some s) :
      Evaluates ρ (.value (.binaryOp op left right)) (.value (.scalar s))
  | fn {ρ : Scope} {params : List String} {body : List Node} :
      Evaluates ρ (.value (.fn [⟨params.map .var, body⟩])) (.value (.closure ρ params body))
  | apply {ρ made : Scope} {callee : Node} {args : List Node} {params : List String}
      {body : List Node} {vs : List Value} {v : Value}
      (function : Evaluates ρ (.value callee) (.value (.closure made params body)))
      (values : Evaluates ρ (.values args) (.values vs)) (arity : vs.length = params.length)
      (result : Evaluates (made.bindAll params vs) (.body body) (.value v)) :
      Evaluates ρ (.value (.apply callee args)) (.value v)
  | noValues {ρ : Scope} : Evaluates ρ (.values []) (.values [])
  | values {ρ : Scope} {n : Node} {ns : List Node} {v : Value} {vs : List Value}
      (first : Evaluates ρ (.value n) (.value v)) (rest : Evaluates ρ (.values ns) (.values vs)) :
      Evaluates ρ (.values (n :: ns)) (.values (v :: vs))
  | emptyBody {ρ : Scope} : Evaluates ρ (.body []) (.value .nil)
  | lastOfBody {ρ : Scope} {n : Node} {v : Value} (last : Evaluates ρ (.value n) (.value v)) :
      Evaluates ρ (.body [n]) (.value v)
  | body {ρ after : Scope} {n m : Node} {ns : List Node} {v : Value}
      (first : Evaluates ρ (.effect n) (.scope after))
      (rest : Evaluates after (.body (m :: ns)) (.value v)) :
      Evaluates ρ (.body (n :: m :: ns)) (.value v)
  | binding {ρ : Scope} {x : String} {e : Node} {v : Value}
      (value : Evaluates ρ (.value e) (.value v)) :
      Evaluates ρ (.effect (.bind (.var x) e)) (.scope (ρ.bind x v))
  | sequence {ρ after : Scope} {ns : List Node} (items : Evaluates ρ (.effects ns) (.scope after)) :
      Evaluates ρ (.effect (.block ns)) (.scope after)
  | ignored {ρ : Scope} {n : Node} {v : Value} (form : binds n = false)
      (value : Evaluates ρ (.value n) (.value v)) : Evaluates ρ (.effect n) (.scope ρ)
  | noEffects {ρ : Scope} : Evaluates ρ (.effects []) (.scope ρ)
  | effects {ρ middle after : Scope} {n : Node} {ns : List Node}
      (first : Evaluates ρ (.effect n) (.scope middle))
      (rest : Evaluates middle (.effects ns) (.scope after)) :
      Evaluates ρ (.effects (n :: ns)) (.scope after)

end TreeLowering.Evaluation
