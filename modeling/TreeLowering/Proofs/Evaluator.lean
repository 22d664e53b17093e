import TreeLowering.Proofs.Arms

/-!
Machines on which functions and conditionals run.

An `Evaluator` is a machine on which a function without parameters that is called where it stands
runs its body, and on which a conditional evaluates its test and then one branch. `Returns` says of
statements that they come to the same as an expression on all of these: they return its value, throw
what it throws, change the store as it does, and end when it does.

`Operations` give an evaluator for what they leave open: literals, operators, calls of anything but
a function where it stands, and unbound names. `sampleOperations` are such, on numbers, texts and
arrays.
-/
namespace TreeLowering.Target

/-- What a call gives whose body completes so. -/
def Completion.valueOr {Value : Type} (undefined : Value) : Completion Value → Value
  | .normal _ => undefined
  | .returned v => v

/-- A machine that runs the bodies of functions where they are called at once. -/
structure Evaluator extends Machine where
  eval_immediate : ∀ body env, eval (.immediate body) env =
    (do return (← toMachine.execAll body env).valueOr undefined)
  eval_conditional : ∀ test consequent alternate env,
    eval (.conditional test consequent alternate) env =
      (do if ← toMachine.holds test env then eval consequent env else eval alternate env)

/-- Wherever they run, the statements return what the expression evaluates to. -/
def Returns (stmts : List Stmt) (e : Expr) : Prop :=
  ∀ (M : Evaluator) (env : M.Env), M.execAll stmts env = (do return .returned (← M.eval e env))

section Returns

theorem returns_return (e : Expr) : Returns [.return_ e] e := by
  intro M env
  rw [M.execAll_singleton, Stmt.return_, Machine.exec, Machine.evalOption]

/-- Statements that control never leaves at their end, as the body of a function. -/
theorem returns_immediate {stmts : List Stmt} (h : Stmt.lastIsTerminal stmts = true) :
    Returns stmts (.immediate stmts) := by
  intro M env
  rw [M.eval_immediate]
  simp only [bind_assoc, pure_bind]
  have hleaves := M.execAll_leaves stmts env h
  exact (hleaves.bind_returned
    (f := fun completion => pure (.returned (completion.valueOr M.undefined))) fun _ => rfl).symm

theorem returns_conditional {test e e' : Expr} {stmts stmts' : List Stmt} (h : Returns stmts e)
    (h' : Returns stmts' e') :
    Returns [.ifElse test (.block stmts) (some (.block stmts'))] (.conditional test e e') := by
  intro M env
  rw [M.execAll_singleton, Machine.exec, M.eval_conditional, Machine.exec, Machine.exec, h, h']
  simp only [bind_assoc, pure_bind]
  refine bind_congr fun b => ?_
  cases b <;> simp [Completion.leave]

end Returns

/-- What an evaluator is free in. -/
structure Operations where
  Value : Type
  Store : Type
  undefined : Value
  boolean : Bool → Value
  truthy : Value → Bool
  same : Value → Value → Bool
  literal : Literal → Value
  /-- The value of a name that is not bound. -/
  global : String → Run Store Value Value
  operator : BinaryOp → Value → Value → Run Store Value Value
  array : List Value → Run Store Value Value
  /-- A call, by what is called and the values of the arguments. -/
  call : Expr → List Value → NameTable Value → Run Store Value Value
  /-- Every other expression. -/
  other : Expr → NameTable Value → Run Store Value Value
  iterate : Value → Run Store Value (List Value)
  truthy_boolean : ∀ b, truthy (boolean b) = b
  same_undefined : ∀ v, same v undefined = true ↔ v = undefined

namespace Operations

variable (ops : Operations)

abbrev Env := NameTable ops.Value

abbrev Step := Run ops.Store ops.Value (Completion ops.Value)

def loop (body : ops.Value → ops.Step) (env : ops.Env) : List ops.Value → ops.Step
  | [] => pure (.normal env)
  | v :: vs => body v >>= Completion.next fun _ => loop body env vs

mutual

def eval : Expr → ops.Env → Run ops.Store ops.Value ops.Value
  | .literal (.bool b), _ => pure (ops.boolean b)
  | .literal l, _ => pure (ops.literal l)
  | .ident x, env =>
    match env.get? x with
    | some v => pure v
    | none => if x = "undefined" then pure ops.undefined else ops.global x
  | .binary l .and r, env => do
    let v ← eval l env
    if ops.truthy v then eval r env else pure v
  | .binary l .or r, env => do
    let v ← eval l env
    if ops.truthy v then pure v else eval r env
  | .binary l .eq r, env => do
    let v ← eval l env
    let w ← eval r env
    pure (ops.boolean (ops.same v w))
  | .binary l .ne r, env => do
    let v ← eval l env
    let w ← eval r env
    pure (ops.boolean (!ops.same v w))
  | .binary l op r, env => do
    let v ← eval l env
    let w ← eval r env
    ops.operator op v w
  | .array items, env => do ops.array (← evalAll items env)
  | .conditional test consequent alternate, env => do
    if ops.truthy (← eval test env) then eval consequent env else eval alternate env
  | .call (.function ⟨_, [], body⟩) [], env => do
    return (← execAll body env).valueOr ops.undefined
  | .call callee args, env => do ops.call callee (← evalAll args env) env
  | e, env => ops.other e env

def evalAll : List Expr → ops.Env → Run ops.Store ops.Value (List ops.Value)
  | [], _ => pure []
  | e :: es, env => do
    let v ← eval e env
    let vs ← evalAll es env
    return v :: vs

def exec : Stmt → ops.Env → ops.Step
  | .expr value, env => do
    let _ ← eval value env
    return .normal env
  | .declare name (some init) _, env => do
    let v ← eval init env
    return .normal (env.set name v)
  | .declare name none _, env => return .normal (env.set name ops.undefined)
  | .block body, env => do
    return (← execAll body env).leave env
  | .ifElse test consequent none, env => do
    if ops.truthy (← eval test env) then return (← exec consequent env).leave env
    else return .normal env
  | .ifElse test consequent (some alternate), env => do
    if ops.truthy (← eval test env) then return (← exec consequent env).leave env
    else return (← exec alternate env).leave env
  | .forOf name iterable body, env => do
    let values ← ops.iterate (← eval iterable env)
    ops.loop (fun v => exec body (env.set name v)) env values
  | .returns (some value), env => do return .returned (← eval value env)
  | .returns none, _ => return .returned ops.undefined
  | .throws value, env => do throw (← eval value env)
  | .function _, env | .imports _, env | .module _, env => return .normal env

def execAll : List Stmt → ops.Env → ops.Step
  | [], env => pure (.normal env)
  | s :: rest, env => exec s env >>= Completion.next (execAll rest)

end

theorem evalAll_eq_mapM (es : List Expr) (env : ops.Env) :
    ops.evalAll es env = es.mapM (ops.eval · env) := by
  induction es with
  | nil => rw [evalAll, List.mapM_nil]
  | cons e es ih => rw [evalAll, ih, List.mapM_cons]

theorem eval_call {callee : Expr} (h : ∀ f, callee ≠ .function f) (args : List Expr)
    (env : ops.Env) :
    ops.eval (.call callee args) env = (do ops.call callee (← args.mapM (ops.eval · env)) env) := by
  rw [← evalAll_eq_mapM, eval]
  rintro name body rfl
  exact (h _ rfl).elim

/-- The machine of the operations. -/
abbrev machine : Machine where
  Value := ops.Value
  Store := ops.Store
  undefined := ops.undefined
  boolean := ops.boolean
  truthy := ops.truthy
  same := ops.same
  eval := ops.eval
  iterate := ops.iterate
  establish _ env := pure env
  truthy_boolean := ops.truthy_boolean
  same_undefined := ops.same_undefined
  eval_bool _ _ := by rw [Expr.bool, eval]
  eval_ident x env v h := by rw [eval, h]
  eval_undefined env h := by rw [eval, h]; rfl
  eval_and _ _ _ := by rw [eval]
  eval_or _ _ _ := by rw [eval]
  eval_eq _ _ _ := by rw [Expr.eq, eval]
  eval_ne _ _ _ := by rw [Expr.ne, eval]

theorem machine_loop (body : ops.Value → ops.Step) (env : ops.Env) (vs : List ops.Value) :
    ops.machine.loop body env vs = ops.loop body env vs := by
  induction vs with
  | nil => rfl
  | cons v vs ih => rw [Machine.loop, loop, ← ih]

mutual

/-- Statements run on the machine as they do inside of functions. -/
theorem machine_exec : ∀ (s : Stmt) (env : ops.Env), ops.machine.exec s env = ops.exec s env
  | .expr _, env | .throws _, env => by rw [Machine.exec, exec]
  | .declare _ (some _) _, env | .declare _ none _, env | .returns (some _), env
  | .returns none, env | .function _, env | .imports _, env | .module _, env => by
    rw [Machine.exec, exec]
    rfl
  | .block body, env => by rw [Machine.exec, exec, machine_execAll body]
  | .ifElse _ consequent none, env => by
    rw [Machine.exec, exec, machine_exec consequent, Machine.holds, bind_assoc]
    simp only [pure_bind]
  | .ifElse _ consequent (some alternate), env => by
    rw [Machine.exec, exec, machine_exec consequent, machine_exec alternate, Machine.holds,
      bind_assoc]
    simp only [pure_bind]
  | .forOf name iterable body, env => by
    rw [Machine.exec, exec]
    simp only [machine_exec body, machine_loop]

theorem machine_execAll :
    ∀ (stmts : List Stmt) (env : ops.Env), ops.machine.execAll stmts env = ops.execAll stmts env
  | [], env => by rw [Machine.execAll, execAll]
  | s :: rest, env => by
    have hrest : ops.machine.execAll rest = ops.execAll rest := funext (machine_execAll rest)
    rw [Machine.execAll, execAll, machine_exec s, hrest]

end

/-- The evaluator of the operations. -/
def evaluator : Evaluator where
  toMachine := ops.machine
  eval_immediate body env := by
    show ops.eval (.immediate body) env = _
    rw [ops.machine_execAll, Expr.immediate, FunctionDef.anonymous, eval]
  eval_conditional test consequent alternate env := by
    show ops.eval (.conditional test consequent alternate) env = _
    rw [eval, Machine.holds, bind_assoc]
    simp only [pure_bind]

end Operations

section Sample

/-- Values of a small machine; an array is known by its place in the memory. -/
inductive Datum where
  | undefined
  | null
  | boolean (b : Bool)
  | integer (n : Int)
  | text (s : String)
  | array (place : Nat)
deriving DecidableEq, Repr

structure Memory where
  arrays : List (List Datum) := []
  /-- The calls of functions that are not known, in order. -/
  calls : List (String × List Datum) := []
deriving DecidableEq, Repr

namespace Datum

def truthy : Datum → Bool
  | .undefined | .null | .boolean false | .integer 0 | .text "" => false
  | _ => true

/-- What the runtime takes for true. -/
def counts : Datum → Bool
  | .null | .boolean false => false
  | _ => true

def literal : Literal → Datum
  | .bool b => .boolean b
  | .integer n => .integer n.toInt
  | .string s => .text s
  | .null => .null
  | .float _ => .undefined

def operator : BinaryOp → Datum → Datum → Datum
  | .add, .integer a, .integer b => .integer (a + b)
  | .mul, .integer a, .integer b => .integer (a * b)
  | .lt, .integer a, .integer b => .boolean (a < b)
  | _, _, _ => .undefined

end Datum

namespace Memory

def items (m : Memory) : Datum → List Datum
  | .array place => m.arrays.getD place []
  | _ => []

/-- The memory with one more array, and that array. -/
def add (m : Memory) (items : List Datum) : Datum × Memory :=
  (.array m.arrays.length, { m with arrays := m.arrays ++ [items] })

def push (m : Memory) (v : Datum) : Datum → Memory
  | .array place => { m with arrays := m.arrays.modify place (· ++ [v]) }
  | _ => m

end Memory

/-- The functions of the runtime that the machine knows. -/
def sampleRuntime : String → String → List Datum → Run Memory Datum Datum
  | "Kernel", "truthy", [v] => pure (.boolean v.counts)
  | "Enum", "to_list", [v] => pure v
  | "Enum", "into", [v, w] => do
    let m ← get
    modifyGet fun _ => m.add (m.items w ++ m.items v)
  | _, _, _ => pure .undefined

def sampleCall (lib : RuntimeLibrary) :
    Expr → List Datum → NameTable Datum → Run Memory Datum Datum
  | .ident f, vs, _ => do
    modify fun m => { m with calls := m.calls ++ [(f, vs)] }
    return .undefined
  | .member (.ident x) (.literal (.string "push")) false, [v], env => do
    modify fun m => m.push v ((env.get? x).getD .undefined)
    return .undefined
  | .member (.member (.ident root) (.literal (.string part)) false) (.literal (.string f)) false,
      vs, _ =>
    if root = lib.name then sampleRuntime part f vs else pure .undefined
  | _, _, _ => pure .undefined

/-- A machine with numbers, texts and arrays, which records the calls of functions that it does not
know. -/
def sampleOperations (lib : RuntimeLibrary) : Operations where
  Value := Datum
  Store := Memory
  undefined := .undefined
  boolean := .boolean
  truthy := Datum.truthy
  same v w := v == w
  literal := Datum.literal
  global _ := pure .undefined
  operator op v w := pure (Datum.operator op v w)
  array vs := modifyGet fun m => m.add vs
  call := sampleCall lib
  other _ _ := pure .undefined
  iterate v := do return (← get).items v
  truthy_boolean b := by cases b <;> rfl
  same_undefined v := beq_iff_eq

def sampleEvaluator (lib : RuntimeLibrary) : Evaluator := (sampleOperations lib).evaluator

end Sample

end TreeLowering.Target
