import TreeLowering.State
import TreeLowering.Target.Tree

/-!
What target statements do.

A `Machine` says what expressions evaluate to, and what statements do follows from that. Evaluation
may change a store, throw a value, or not end. A machine is free in what it gives, but for the
operators that clauses are put together with: the logical ones, which leave out their right operand,
equality with `undefined`, and identifiers that are bound.
-/
namespace TreeLowering.Target

/-- A computation: it may not end, it may throw a value, and it changes the store. -/
abbrev Run (Store Value α : Type) := ExceptT Value (StateT Store Option) α

namespace Run

variable {Store Value α β : Type}

/-- Some run of the computation ends with the result. -/
def Gives (x : Run Store Value α) (a : α) : Prop := ∃ σ σ', x.run.run σ = some (.ok a, σ')

theorem gives_pure {a b : α} (h : (pure a : Run Store Value α).Gives b) : b = a := by
  obtain ⟨σ, σ', h⟩ := h
  cases h
  rfl

theorem not_gives_throw {v : Value} {a : α} : ¬ (throw v : Run Store Value α).Gives a := by
  rintro ⟨σ, σ', h⟩
  cases h

theorem gives_bind {x : Run Store Value α} {f : α → Run Store Value β} {b : β}
    (h : (x >>= f).Gives b) : ∃ a, x.Gives a ∧ (f a).Gives b := by
  obtain ⟨σ, σ', h⟩ := h
  rw [ExceptT.run_bind, StateT.run_bind] at h
  obtain ⟨⟨outcome, σ₁⟩, hx, h⟩ := Option.bind_eq_some_iff.mp h
  cases outcome with
  | ok a => exact ⟨a, ⟨σ, σ₁, hx⟩, ⟨σ₁, σ', h⟩⟩
  | error v => cases h

/-- What follows a computation matters only on the results that it gives. -/
theorem bind_congr_of_gives {x : Run Store Value α} {f g : α → Run Store Value β}
    (h : ∀ a, x.Gives a → f a = g a) : x >>= f = x >>= g := by
  apply ExceptT.ext
  apply StateT.ext
  intro σ
  rw [ExceptT.run_bind, ExceptT.run_bind, StateT.run_bind, StateT.run_bind]
  cases hx : x.run.run σ with
  | none => rfl
  | some out =>
    obtain ⟨outcome, σ₁⟩ := out
    cases outcome with
    | error v => rfl
    | ok a =>
      show (f a).run.run σ₁ = (g a).run.run σ₁
      rw [h a ⟨σ, σ₁, hx⟩]

end Run

/-- How a statement completes when it does not throw. -/
inductive Completion (Value : Type) where
  /-- Control goes on, under these names. -/
  | normal (env : NameTable Value)
  | returned (value : Value)

namespace Completion

variable {Store Value : Type}

/-- Control goes on under the names from before a block. -/
def leave (env : NameTable Value) : Completion Value → Completion Value
  | .normal _ => .normal env
  | .returned v => .returned v

/-- What is run next, if control goes on. -/
def next (k : NameTable Value → Run Store Value (Completion Value)) :
    Completion Value → Run Store Value (Completion Value)
  | .normal env => k env
  | .returned v => pure (.returned v)

end Completion

namespace Run

variable {Store Value : Type} {x y : Run Store Value (Completion Value)}

/-- The computation never completes normally. -/
def Leaves (x : Run Store Value (Completion Value)) : Prop :=
  ∀ completion, x.Gives completion → ∃ v, completion = .returned v

theorem Leaves.bind_returned (h : x.Leaves)
    {f : Completion Value → Run Store Value (Completion Value)}
    (hf : ∀ v, f (.returned v) = pure (.returned v)) : x >>= f = x := by
  calc
    x >>= f = x >>= pure := by
      refine bind_congr_of_gives fun completion hx => ?_
      obtain ⟨v, rfl⟩ := h completion hx
      exact hf v
    _ = x := bind_pure x

theorem Leaves.bind_next (h : x.Leaves) (k : NameTable Value → Run Store Value (Completion Value)) :
    x >>= Completion.next k = x :=
  h.bind_returned fun _ => rfl

theorem Leaves.bind_leave (h : x.Leaves) (env : NameTable Value) :
    (x >>= fun completion => pure (completion.leave env)) = x :=
  h.bind_returned fun _ => rfl

theorem leaves_bind {α : Type} {z : Run Store Value α}
    {f : α → Run Store Value (Completion Value)} (h : ∀ a, (f a).Leaves) : (z >>= f).Leaves := by
  intro completion hz
  obtain ⟨a, -, hf⟩ := gives_bind hz
  exact h a completion hf

theorem leaves_throw (v : Value) : (throw v : Run Store Value (Completion Value)).Leaves :=
  fun _ h => (not_gives_throw h).elim

theorem leaves_returned (v : Value) :
    (pure (.returned v) : Run Store Value (Completion Value)).Leaves :=
  fun _ h => ⟨v, gives_pure h⟩

theorem Leaves.leave (h : x.Leaves) (env : NameTable Value) :
    (x >>= fun completion => pure (completion.leave env)).Leaves := by
  rw [h.bind_leave]
  exact h

end Run

/-- What expressions evaluate to. -/
structure Machine where
  Value : Type
  Store : Type
  undefined : Value
  boolean : Bool → Value
  truthy : Value → Bool
  same : Value → Value → Bool
  eval : Expr → NameTable Value → Run Store Value Value
  /-- The values that a loop goes through. -/
  iterate : Value → Run Store Value (List Value)
  /-- The names after a function, an import or a module. -/
  establish : Stmt → NameTable Value → Run Store Value (NameTable Value)
  truthy_boolean : ∀ b, truthy (boolean b) = b
  same_undefined : ∀ v, same v undefined = true ↔ v = undefined
  eval_bool : ∀ b env, eval (.bool b) env = pure (boolean b)
  eval_ident : ∀ x env v, env.get? x = some v → eval (.ident x) env = pure v
  eval_undefined : ∀ env, env.get? "undefined" = none →
    eval (.ident "undefined") env = pure undefined
  eval_and : ∀ l r env, eval (.binary l .and r) env =
    (do let v ← eval l env; if truthy v then eval r env else pure v)
  eval_or : ∀ l r env, eval (.binary l .or r) env =
    (do let v ← eval l env; if truthy v then pure v else eval r env)
  eval_eq : ∀ l r env, eval (.eq l r) env =
    (do let v ← eval l env; let w ← eval r env; pure (boolean (same v w)))
  eval_ne : ∀ l r env, eval (.ne l r) env =
    (do let v ← eval l env; let w ← eval r env; pure (boolean (!same v w)))

namespace Machine

variable (M : Machine)

abbrev Env := NameTable M.Value

/-- How statements complete under a machine. -/
abbrev Step := Run M.Store M.Value (Completion M.Value)

/-- Whether the expression is truthy. -/
def holds (e : Expr) (env : M.Env) : Run M.Store M.Value Bool := do
  return M.truthy (← M.eval e env)

def evalOption (e : Option Expr) (env : M.Env) : Run M.Store M.Value M.Value :=
  match e with
  | some e => M.eval e env
  | none => pure M.undefined

/-- Runs the body of a loop on each value, until one leaves. -/
def loop (body : M.Value → M.Step) (env : M.Env) : List M.Value → M.Step
  | [] => pure (.normal env)
  | v :: vs => body v >>= Completion.next fun _ => loop body env vs

mutual

def exec : Stmt → M.Env → M.Step
  | .expr value, env => do
    let _ ← M.eval value env
    return .normal env
  | .declare name init _, env => do
    let v ← M.evalOption init env
    return .normal (env.set name v)
  | .block body, env => do
    return (← execAll body env).leave env
  | .ifElse test consequent none, env => do
    if ← M.holds test env then return (← exec consequent env).leave env
    else return .normal env
  | .ifElse test consequent (some alternate), env => do
    if ← M.holds test env then return (← exec consequent env).leave env
    else return (← exec alternate env).leave env
  | .forOf name iterable body, env => do
    let values ← M.iterate (← M.eval iterable env)
    M.loop (fun v => exec body (env.set name v)) env values
  | .returns value, env => do
    return .returned (← M.evalOption value env)
  | .throws value, env => do
    throw (← M.eval value env)
  | .function definition, env => do
    return .normal (← M.establish (.function definition) env)
  | .imports declaration, env => do
    return .normal (← M.establish (.imports declaration) env)
  | .module definition, env => do
    return .normal (← M.establish (.module definition) env)

def execAll : List Stmt → M.Env → M.Step
  | [], env => pure (.normal env)
  | s :: rest, env => exec s env >>= Completion.next (execAll rest)

end

/-- The names of a call: parameters without an argument are undefined. -/
def bindParams : List String → List M.Value → M.Env → M.Env
  | [], _, env => env
  | x :: xs, [], env => bindParams xs [] (env.set x M.undefined)
  | x :: xs, v :: vs, env => bindParams xs vs (env.set x v)

/-- A call: how the body completes. -/
def call (f : FunctionDef) (args : List M.Value) (env : M.Env) : M.Step :=
  M.execAll f.body (M.bindParams f.params args env)

theorem execAll_append (front back : List Stmt) (env : M.Env) :
    M.execAll (front ++ back) env = M.execAll front env >>= Completion.next (M.execAll back) := by
  induction front generalizing env with
  | nil =>
    simp only [List.nil_append, execAll, pure_bind]
    rfl
  | cons s rest ih =>
    simp only [List.cons_append, execAll, bind_assoc]
    congr 1
    funext completion
    cases completion with
    | normal env' => exact ih env'
    | returned v => simp [Completion.next]

mutual

/-- Control never continues past a terminal statement. -/
theorem exec_leaves : ∀ (s : Stmt) (env : M.Env), s.isTerminal = true → (M.exec s env).Leaves
  | .returns value, env, _ => by
    rw [exec]
    exact Run.leaves_bind fun v => Run.leaves_returned v
  | .throws value, env, _ => by
    rw [exec]
    exact Run.leaves_bind fun v => Run.leaves_throw v
  | .block body, env, h => by
    rw [exec]
    exact (execAll_leaves body env h).leave env
  | .ifElse test consequent (some alternate), env, h => by
    rw [Stmt.isTerminal, Bool.and_eq_true] at h
    rw [exec]
    refine Run.leaves_bind fun b => ?_
    split
    · exact (exec_leaves consequent env h.1).leave env
    · exact (exec_leaves alternate env h.2).leave env
  | .ifElse _ _ none, _, h | .expr _, _, h | .declare _ _ _, _, h | .forOf _ _ _, _, h
  | .function _, _, h | .imports _, _, h | .module _, _, h => by cases h

theorem execAll_leaves :
    ∀ (stmts : List Stmt) (env : M.Env), Stmt.lastIsTerminal stmts = true →
      (M.execAll stmts env).Leaves
  | [], _, h => by cases h
  | [s], env, h => by
    have hs := exec_leaves s env h
    rw [execAll, hs.bind_next]
    exact hs
  | s :: t :: rest, env, h => by
    rw [execAll]
    refine Run.leaves_bind fun completion => ?_
    cases completion with
    | normal env' => exact execAll_leaves (t :: rest) env' h
    | returned v => exact Run.leaves_returned v

end

section Symbolic

/-- Values of a machine that does not compute. -/
inductive Symbol where
  | undefined
  | boolean (b : Bool)
  | of (e : Expr)

/-- The value of an expression is the expression, and whether it is truthy is given; the store is
the list of what was evaluated, the last first. -/
def evalSymbolic (outcome : Expr → Bool) :
    Expr → NameTable Symbol → Run (List Expr) Symbol Symbol
  | .literal (.bool b), _ => pure (.boolean b)
  | .ident x, env =>
    match env.get? x with
    | some v => pure v
    | none => pure (if x = "undefined" then .undefined else .of (.ident x))
  | .binary l .and r, env => do
    let v ← evalSymbolic outcome l env
    if truthy v then evalSymbolic outcome r env else pure v
  | .binary l .or r, env => do
    let v ← evalSymbolic outcome l env
    if truthy v then pure v else evalSymbolic outcome r env
  | .binary l .eq r, env => do
    let v ← evalSymbolic outcome l env
    let w ← evalSymbolic outcome r env
    pure (.boolean (same v w))
  | .binary l .ne r, env => do
    let v ← evalSymbolic outcome l env
    let w ← evalSymbolic outcome r env
    pure (.boolean (!same v w))
  | e, _ => do
    modify (e :: ·)
    return .of e
where
  truthy : Symbol → Bool
    | .undefined => false
    | .boolean b => b
    | .of e => outcome e
  same : Symbol → Symbol → Bool
    | .undefined, .undefined => true
    | .of a, .of b => outcome (.eq a b)
    | _, _ => false

/-- The machine under which tests come out as given. -/
def symbolic (outcome : Expr → Bool) : Machine where
  Value := Symbol
  Store := List Expr
  undefined := .undefined
  boolean := .boolean
  truthy := evalSymbolic.truthy outcome
  same := evalSymbolic.same outcome
  eval := evalSymbolic outcome
  iterate v := pure [v]
  establish _ env := pure env
  truthy_boolean _ := rfl
  same_undefined v := by cases v <;> simp [evalSymbolic.same]
  eval_bool _ _ := by rw [Expr.bool, evalSymbolic]
  eval_ident x env v h := by rw [evalSymbolic, h]
  eval_undefined env h := by rw [evalSymbolic, h]; rfl
  eval_and _ _ _ := by rw [evalSymbolic]
  eval_or _ _ _ := by rw [evalSymbolic]
  eval_eq _ _ _ := by rw [Expr.eq, evalSymbolic]
  eval_ne _ _ _ := by rw [Expr.ne, evalSymbolic]

end Symbolic

end Machine

end TreeLowering.Target
