import TreeLowering.Proofs.Comprehensions
import TreeLowering.Proofs.Data

/-!
Conditions follow the truthiness of the source.

A condition is the value of a node where the node is a boolean by its form, and the runtime's
truthiness of the value elsewhere. A `Judge` is a machine whose runtime takes `false` and null for
false and nothing else, and whose comparisons, negations and type tests give booleans. By its form a
node becomes an expression that `Decides`; on a judge such an expression gives a boolean as long as
the operands left of its logical operators do, since `and` and `or` give one of their operands. So a
condition always gives a boolean, which is `false` exactly if the value of the node is `false` or
null.
-/
namespace TreeLowering

open Source Target LowerM Lowering

/-- The operators that compare by order. -/
def Target.BinaryOp.isOrder : BinaryOp → Bool
  | .lt | .le | .gt | .ge => true
  | _ => false

/-- The functions of the runtime that answer by a boolean: membership and the tests of types. -/
def isKernelTest (name : String) : Bool := name == "in" || isTypeTestName name

namespace Target

/-- A machine with null, and with the operations that conditions are made of. -/
structure Judge (lib : RuntimeLibrary) extends Machine where
  null : Value
  /-- What the runtime takes for true. -/
  counts : Value → Bool
  compare : BinaryOp → Value → Value → Run Store Value Bool
  kernelTest : String → List Value → Run Store Value Bool
  truthy_null : truthy null = false
  counts_eq_false_iff : ∀ v, counts v = false ↔ v = boolean false ∨ v = null
  eval_truthy : ∀ e env, eval (lib.truthy e) env = (do return boolean (counts (← eval e env)))
  eval_not : ∀ e env, eval (.not e) env = (do return boolean !truthy (← eval e env))
  eval_order : ∀ l op r env, op.isOrder = true → eval (.binary l op r) env =
    (do let v ← eval l env; let w ← eval r env; return boolean (← compare op v w))
  eval_kernelTest : ∀ name args env, isKernelTest name = true →
    eval (lib.call ["Kernel", name] args) env =
      (do let vs ← args.mapM (eval · env); return boolean (← kernelTest name vs))

/-- Expressions that give a boolean by their form, if the operands left of logical operators do. -/
inductive Decides (lib : RuntimeLibrary) : Expr → Prop
  | bool (b : Bool) : Decides lib (.bool b)
  | not (e : Expr) : Decides lib (.not e)
  | eq (l r : Expr) : Decides lib (.eq l r)
  | ne (l r : Expr) : Decides lib (.ne l r)
  | order {op : BinaryOp} (l r : Expr) (compares : op.isOrder = true) :
      Decides lib (.binary l op r)
  | kernelTest {name : String} (args : List Expr) (tests : isKernelTest name = true) :
      Decides lib (lib.call ["Kernel", name] args)
  | and {r : Expr} (l : Expr) (right : Decides lib r) : Decides lib (.binary l .and r)
  | or {r : Expr} (l : Expr) (right : Decides lib r) : Decides lib (.binary l .or r)

namespace Judge

variable {lib : RuntimeLibrary} (M : Judge lib)

/-- When the expression is run from the store, the left operands of its logical operators give
booleans, down to the operand that the expression gives. -/
def LeftsAreBoolean (env : M.Env) : Expr → M.Store → Prop
  | .binary l .and r, σ => ∀ v σ₁, (M.eval l env).run.run σ = some (.ok v, σ₁) →
      (∃ b, v = M.boolean b) ∧ (M.truthy v = true → LeftsAreBoolean env r σ₁)
  | .binary l .or r, σ => ∀ v σ₁, (M.eval l env).run.run σ = some (.ok v, σ₁) →
      (∃ b, v = M.boolean b) ∧ (M.truthy v = false → LeftsAreBoolean env r σ₁)
  | _, _ => True

variable {M} {env : M.Env} {e : Expr} {v : M.Value} {σ σ' : M.Store}

/-- What ends by giving a boolean gives one. -/
theorem boolean_of_bind {α : Type} {x : Run M.Store M.Value α} {f : α → Bool}
    (h : (do return M.boolean (f (← x))).run.run σ = some (.ok v, σ')) : ∃ b, v = M.boolean b := by
  obtain ⟨a, σ₁, -, hdone⟩ := Run.exists_of_bind h
  cases hdone
  exact ⟨f a, rfl⟩

/-- Of the booleans only `false` is `false` or null. -/
theorem eq_false_iff (M : Judge lib) (b : Bool) :
    b = false ↔ M.boolean b = M.boolean false ∨ M.boolean b = M.null := by
  constructor
  · rintro rfl
    exact .inl rfl
  · rintro (h | h)
    · rw [← M.truthy_boolean b, h, M.truthy_boolean]
    · rw [← M.truthy_boolean b, h, M.truthy_null]

theorem boolean_of_decides (h : Decides lib e) (hlefts : M.LeftsAreBoolean env e σ)
    (hrun : (M.eval e env).run.run σ = some (.ok v, σ')) : ∃ b, v = M.boolean b := by
  induction h generalizing σ with
  | bool b =>
    rw [M.eval_bool] at hrun
    cases hrun
    exact ⟨b, rfl⟩
  | not e =>
    rw [M.eval_not] at hrun
    exact boolean_of_bind hrun
  | eq l r =>
    rw [M.eval_eq] at hrun
    obtain ⟨x, σ₁, -, hrun⟩ := Run.exists_of_bind hrun
    exact boolean_of_bind hrun
  | ne l r =>
    rw [M.eval_ne] at hrun
    obtain ⟨x, σ₁, -, hrun⟩ := Run.exists_of_bind hrun
    exact boolean_of_bind (f := fun w => !M.same x w) hrun
  | order l r compares =>
    rw [M.eval_order _ _ _ _ compares] at hrun
    obtain ⟨x, σ₁, -, hrun⟩ := Run.exists_of_bind hrun
    obtain ⟨y, σ₂, -, hrun⟩ := Run.exists_of_bind hrun
    exact boolean_of_bind (f := id) hrun
  | kernelTest args tests =>
    rw [M.eval_kernelTest _ _ _ tests] at hrun
    obtain ⟨vs, σ₁, -, hrun⟩ := Run.exists_of_bind hrun
    exact boolean_of_bind (f := id) hrun
  | and l right ih =>
    rw [M.eval_and] at hrun
    obtain ⟨x, σ₁, hleft, hrun⟩ := Run.exists_of_bind hrun
    obtain ⟨hx, hright⟩ := hlefts x σ₁ hleft
    split at hrun
    next htrue => exact ih (hright htrue) hrun
    next =>
      cases hrun
      exact hx
  | or l right ih =>
    rw [M.eval_or] at hrun
    obtain ⟨x, σ₁, hleft, hrun⟩ := Run.exists_of_bind hrun
    obtain ⟨hx, hright⟩ := hlefts x σ₁ hleft
    split at hrun
    next =>
      cases hrun
      exact hx
    next hfalse => exact ih (hright (Bool.eq_false_iff.mpr hfalse)) hrun

end Judge

end Target

section Lowering

variable {c : Config} {s s' : State} {e : Expr}

/-- An operator that has a counterpart which gives a boolean compares. -/
theorem directOperator?_compares {op : String} {d : BinaryOp} (h : directOperator? op = some d)
    (hd : d.isBoolean = true) : d = .eq ∨ d = .ne ∨ d.isOrder = true := by
  unfold directOperator? at h
  split at h
  all_goals cases h
  all_goals simp_all [BinaryOp.isBoolean, BinaryOp.isOrder]

theorem binaryOperation_run {op : String} {left right : LowerM Expr}
    (h : binaryOperation op left right c s = (.ok e, s')) :
    ∃ l s₁ r, left c s = (.ok l, s₁) ∧ right c s₁ = (.ok r, s') ∧
      ((∃ d, directOperator? op = some d ∧ e = .binary l d r) ∨
        directOperator? op = none ∧ indirectOperator? ⟨c.runtimeName⟩ op l r = some e) := by
  obtain ⟨l, s₁, hl, h⟩ := bind_run.mp h
  obtain ⟨r, s₂, hr, h⟩ := bind_run.mp h
  cases hdirect : directOperator? op with
  | some d =>
    rw [hdirect] at h
    obtain ⟨rfl, rfl⟩ := pure_run.mp h
    exact ⟨l, s₁, r, hl, hr, .inl ⟨d, rfl, rfl⟩⟩
  | none =>
    rw [hdirect] at h
    obtain ⟨lib, s₃, hlib, hrest⟩ := bind_run.mp h
    obtain ⟨rfl, rfl⟩ := library_run.mp hlib
    cases hindirect : indirectOperator? ⟨c.runtimeName⟩ op l r with
    | some value =>
      rw [hindirect] at hrest
      obtain ⟨rfl, rfl⟩ := pure_run.mp hrest
      exact ⟨l, s₁, r, hl, hr, .inr ⟨rfl, hindirect⟩⟩
    | none =>
      rw [hindirect] at hrest
      exact (fail_run hrest).elim

theorem isTypeTestName_escape {name : String} (h : isTypeTestName name = true) :
    isTypeTestName (Identifier.escape name) = true := by
  obtain ⟨rest, hrest⟩ := List.isPrefixOf_iff_prefix.mp h
  apply List.isPrefixOf_iff_prefix.mpr
  rw [Identifier.toList_escape, ← hrest, List.flatMap_append, List.append_assoc]
  exact List.prefix_append _ _

/-- Where `Kernel` is the runtime's, its functions are reached through the runtime. -/
theorem moduleMember_kernel (hkernel : c.isRuntimeModule ["Kernel"] = true)
    (halias : s.aliases.get? "Kernel" = none) (name : String) :
    moduleMember ["Kernel"] name c s =
      (.ok (RuntimeLibrary.path ⟨c.runtimeName⟩ ["Kernel", Identifier.escape name]), s) := by
  have hmodule : s.resolveModule ["Kernel"] = ["Kernel"] := by
    rw [State.resolveModule, halias]
  unfold moduleMember
  rw [bind_of_ok (rfl : resolveModule ["Kernel"] c s = (.ok (s.resolveModule ["Kernel"]), s)),
    bind_of_ok (rfl : config c s = (.ok c, s)), hmodule, if_pos hkernel]
  rfl

/-- A node that is a boolean by its form becomes an expression that decides. -/
theorem decides_of_isBoolean {n : Node} (hkernel : c.isRuntimeModule ["Kernel"] = true)
    (halias : s.aliases.get? "Kernel" = none) (hn : isBoolean n = true)
    (h : (positions n).value c s = (.ok e, s')) : Decides ⟨c.runtimeName⟩ e := by
  fun_induction isBoolean n generalizing s s' e with
  | case1 b =>
    rw [positions] at h
    obtain ⟨rfl, -⟩ := pure_run.mp h
    exact .bool b
  | case2 name =>
    rw [positions] at h
    obtain ⟨rfl, -⟩ := pure_run.mp h
    rcases (Bool.or_eq_true _ _).mp hn with hname | hname
    · rw [beq_iff_eq.mp hname]
      exact .bool true
    · rw [beq_iff_eq.mp hname]
      exact .bool false
  | case3 op left right hlogical ih =>
    rw [positions] at h
    obtain ⟨l, s₁, r, hl, hr, hop⟩ := binaryOperation_run h
    -- the right operand is lowered in the module of the left one
    have halias₁ : s₁.aliases.get? "Kernel" = none := by
      rw [State.aliases, (value_leaves hl).1.context]
      exact halias
    have hright := ih halias₁ hn hr
    rcases hlogical with rfl | rfl
    · obtain ⟨d, hd, rfl⟩ | ⟨hnone, -⟩ := hop
      · cases hd
        exact .and l hright
      · cases hnone
    · obtain ⟨d, hd, rfl⟩ | ⟨hnone, -⟩ := hop
      · cases hd
        exact .or l hright
      · cases hnone
  | case4 op left right hlogical =>
    rw [positions] at h
    obtain ⟨l, s₁, r, -, -, hop⟩ := binaryOperation_run h
    rcases (Bool.or_eq_true _ _).mp hn with hin | hdirect
    · rw [beq_iff_eq.mp hin] at hop
      obtain ⟨d, hd, -⟩ | ⟨-, hindirect⟩ := hop
      · cases hd
      · cases hindirect
        exact .kernelTest _ rfl
    · obtain ⟨d, hd, hboolean⟩ := (Option.any_eq_true _ _).mp hdirect
      rw [hd] at hop
      obtain ⟨d, hsame, rfl⟩ | ⟨hnone, -⟩ := hop
      · cases hsame
        rcases directOperator?_compares hd hboolean with rfl | rfl | horder
        · exact .eq l r
        · exact .ne l r
        · exact .order l r horder
      · cases hnone
  | case5 op operand =>
    rw [positions] at h
    rcases (Bool.or_eq_true _ _).mp hn with hop | hop
    · rw [beq_iff_eq.mp hop] at h
      obtain ⟨value, s₁, -, hdone⟩ := bind_run.mp h
      obtain ⟨rfl, -⟩ := pure_run.mp hdone
      exact .not value
    · rw [beq_iff_eq.mp hop] at h
      obtain ⟨value, s₁, -, hdone⟩ := bind_run.mp h
      obtain ⟨rfl, -⟩ := pure_run.mp hdone
      exact .not value
  | case6 name args info =>
    rw [positions] at h
    obtain ⟨hname, hresolution⟩ := (Bool.and_eq_true _ _).mp hn
    change namedCall name info (values args) c s = (.ok e, s') at h
    simp only [namedCall, beq_iff_eq.mp hresolution, bind_run, pure_run] at h
    obtain ⟨callee, s₁, hcallee, args, s₂, -, rfl, rfl⟩ := h
    rw [moduleMember_kernel hkernel halias] at hcallee
    cases hcallee
    refine .kernelTest args ?_
    rw [isKernelTest, isTypeTestName_escape hname, Bool.or_true]
  | case7 => cases hn

end Lowering

/-- Wherever `Kernel` is the runtime's, a condition runs as the value of its node does and gives a
boolean, which is `false` exactly if the value is `false` or null; the value of a node that is a
boolean by its form is that boolean. -/
theorem condition_follows_truthiness (c : Config) (s s' : State) (node : Node) (test : Expr)
    (hkernel : c.isRuntimeModule ["Kernel"] = true) (halias : s.aliases.get? "Kernel" = none)
    (h : condition node (positions node).value c s = (.ok test, s')) :
    ∃ value, (positions node).value c s = (.ok value, s') ∧
      ∀ (M : Judge ⟨c.runtimeName⟩) (env : M.Env) (σ σ' : M.Store) (w : M.Value),
        (M.eval test env).run.run σ = some (.ok w, σ') → M.LeftsAreBoolean env test σ →
        ∃ v b, (M.eval value env).run.run σ = some (.ok v, σ') ∧ w = M.boolean b ∧
          (b = false ↔ v = M.boolean false ∨ v = M.null) ∧
          (isBoolean node = true → v = M.boolean b) := by
  obtain ⟨value, hvalue, rfl⟩ := condition_run h
  refine ⟨value, hvalue, fun M env σ σ' w hrun hlefts => ?_⟩
  cases hnode : isBoolean node with
  | true =>
    rw [hnode, if_pos rfl] at hrun hlefts
    have hdecides := decides_of_isBoolean hkernel halias hnode hvalue
    obtain ⟨b, rfl⟩ := Judge.boolean_of_decides hdecides hlefts hrun
    exact ⟨_, b, hrun, rfl, M.eq_false_iff b, fun _ => rfl⟩
  | false =>
    rw [hnode, if_neg (by simp), M.eval_truthy] at hrun
    obtain ⟨v, σ₁, hv, hdone⟩ := Run.exists_of_bind hrun
    cases hdone
    exact ⟨v, M.counts v, hv, rfl, M.counts_eq_false_iff v, fun h => by cases h⟩

namespace Target

section Sample

/-- Only integers have an order. -/
def Datum.compare : BinaryOp → Datum → Datum → Option Bool
  | .lt, .integer a, .integer b => some (a < b)
  | .le, .integer a, .integer b => some (a ≤ b)
  | .gt, .integer a, .integer b => some (a > b)
  | .ge, .integer a, .integer b => some (a ≥ b)
  | _, _, _ => none

/-- The answers of the runtime's kernel. -/
def Datum.kernelAnswer : String → List Datum → Bool
  | "truthy", [v] => v.counts
  | "is_integer", [.integer _] => true
  | "is_boolean", [.boolean _] => true
  | "is_nil", [.null] => true
  | _, _ => false

def Datum.applyKernel (lib : RuntimeLibrary) : Expr → List Datum → Option Datum
  | .member (.member (.ident root) (.literal (.string "Kernel")) false)
      (.literal (.string name)) false, vs =>
    if root = lib.name then some (.boolean (kernelAnswer name vs)) else none
  | _, _ => none

mutual

/-- What conditions on variables evaluate to. -/
def judged (lib : RuntimeLibrary) (env : NameTable Datum) : Expr → Option Datum
  | .literal l => some (.literal l)
  | .ident x => (env.get? x).or (if x = "undefined" then some .undefined else none)
  | .unary .not e => do return .boolean !(← judged lib env e).truthy
  | .binary l .and r => do
    let v ← judged lib env l
    if v.truthy then judged lib env r else return v
  | .binary l .or r => do
    let v ← judged lib env l
    if v.truthy then return v else judged lib env r
  | .binary l .eq r => do return .boolean ((← judged lib env l) == (← judged lib env r))
  | .binary l .ne r => do return .boolean ((← judged lib env l) != (← judged lib env r))
  | .binary l op r => do
    let v ← judged lib env l
    let w ← judged lib env r
    return .boolean (← Datum.compare op v w)
  | .call callee args => do Datum.applyKernel lib callee (← judgedEach lib env args)
  | _ => none

def judgedEach (lib : RuntimeLibrary) (env : NameTable Datum) : List Expr → Option (List Datum)
  | [] => some []
  | e :: es => do return (← judged lib env e) :: (← judgedEach lib env es)

end

open Data (settled settled_some settled_bind)

theorem settled_judgedEach (lib : RuntimeLibrary) (env : NameTable Datum) (es : List Expr) :
    (settled (judgedEach lib env es) : Run Unit Datum (List Datum)) =
      es.mapM fun e => settled (judged lib env e) := by
  induction es with
  | nil => rw [judgedEach, List.mapM_nil, settled_some]
  | cons e es ih =>
    rw [judgedEach, List.mapM_cons, settled_bind, ← ih]
    refine bind_congr fun v => ?_
    rw [settled_bind]
    rfl

theorem settled_judged_kernel (lib : RuntimeLibrary) (name : String) (args : List Expr)
    (env : NameTable Datum) :
    (settled (judged lib env (lib.call ["Kernel", name] args)) : Run Unit Datum Datum) =
      (do let vs ← args.mapM fun e => settled (judged lib env e)
          return .boolean (Datum.kernelAnswer name vs)) := by
  rw [RuntimeLibrary.call, judged, settled_bind, settled_judgedEach]
  refine bind_congr fun vs => ?_
  simp [RuntimeLibrary.path, RuntimeLibrary.root, Expr.property, Expr.string, Datum.applyKernel,
    settled_some]

theorem Datum.truthy_boolean (b : Bool) : (Datum.boolean b).truthy = b := by
  cases b <;> rfl

theorem Datum.same_undefined (v : Datum) : (v == Datum.undefined) = true ↔ v = .undefined :=
  beq_iff_eq

/-- A judge on which conditions on variables are evaluated. -/
def sampleJudge (lib : RuntimeLibrary) : Judge lib where
  Value := Datum
  Store := Unit
  undefined := .undefined
  boolean := .boolean
  truthy := Datum.truthy
  same v w := v == w
  eval e env := settled (judged lib env e)
  iterate _ := settled none
  establish _ _ := settled none
  truthy_boolean := Datum.truthy_boolean
  same_undefined := Datum.same_undefined
  eval_bool b env := by rw [Expr.bool, judged]; rfl
  eval_ident x env v h := by rw [judged, h]; rfl
  eval_undefined env h := by rw [judged, h]; rfl
  eval_and l r env := by
    rw [judged, settled_bind]
    refine bind_congr fun v => ?_
    cases v.truthy <;> rfl
  eval_or l r env := by
    rw [judged, settled_bind]
    refine bind_congr fun v => ?_
    cases v.truthy <;> rfl
  eval_eq l r env := by
    rw [Expr.eq, judged, settled_bind]
    refine bind_congr fun v => ?_
    rw [settled_bind]
    rfl
  eval_ne l r env := by
    rw [Expr.ne, judged, settled_bind]
    refine bind_congr fun v => ?_
    rw [settled_bind]
    rfl
  null := .null
  counts := Datum.counts
  compare op v w := settled (Datum.compare op v w)
  kernelTest name vs := pure (Datum.kernelAnswer name vs)
  truthy_null := rfl
  counts_eq_false_iff v := by
    unfold Datum.counts
    split <;> simp_all
  eval_truthy e env := by
    rw [RuntimeLibrary.truthy, settled_judged_kernel]
    simp
    rfl
  eval_not e env := by
    rw [Expr.not, judged, settled_bind]
    rfl
  eval_order l op r env h := by
    rw [judged, settled_bind]
    · refine bind_congr fun v => ?_
      rw [settled_bind]
      refine bind_congr fun w => ?_
      rw [settled_bind]
      rfl
    all_goals
      rintro rfl
      cases h
  eval_kernelTest name args env _ := by
    rw [settled_judged_kernel]
    rfl

theorem sampleJudge_eval {lib : RuntimeLibrary} {e : Expr} {env : NameTable Datum} {v : Datum}
    (h : judged lib env e = some v) : (sampleJudge lib).eval e env = pure v := by
  show settled (judged lib env e) = pure v
  rw [h, settled_some]

end Sample

end Target

/-- `not done and (is_boolean(x) or x < 3)`. -/
def guardNode : Node :=
  .binaryOp "and" (.unaryOp "not" (.var "done"))
    (.binaryOp "or" (.call "is_boolean" [.var "x"] { resolution := .qualified ["Kernel"] })
      (.binaryOp "<" (.var "x") (.integer 3)))

def guardTest : Expr :=
  .binary (.not (.ident "done")) .and
    (.binary (RuntimeLibrary.call ⟨({} : Config).runtimeName⟩ ["Kernel", "is_boolean"]
        [.ident "x"]) .or (.binary (.ident "x") .lt (.integer 3)))

def guardNames : NameTable Datum := [("done", .boolean false), ("x", .integer 2)]

theorem condition_guardNode :
    condition guardNode (positions guardNode).value {} {} = (.ok guardTest, {}) := by
  simp only [guardNode, positions, values]
  rfl

/-- The operand left of the logical operators is `true`, then `false`. -/
theorem leftsAreBoolean_guardTest :
    (sampleJudge ⟨({} : Config).runtimeName⟩).LeftsAreBoolean guardNames guardTest () := by
  have hdone : judged ⟨({} : Config).runtimeName⟩ guardNames (.not (.ident "done")) =
      some (.boolean true) := rfl
  have htest : judged ⟨({} : Config).runtimeName⟩ guardNames
      (RuntimeLibrary.call ⟨({} : Config).runtimeName⟩ ["Kernel", "is_boolean"] [.ident "x"]) =
      some (.boolean false) := rfl
  rintro v σ hv
  rw [sampleJudge_eval hdone] at hv
  cases hv
  refine ⟨⟨true, rfl⟩, ?_⟩
  rintro - v σ hv
  rw [sampleJudge_eval htest] at hv
  cases hv
  exact ⟨⟨false, rfl⟩, fun _ => trivial⟩

theorem eval_guardTest :
    ((sampleJudge ⟨({} : Config).runtimeName⟩).eval guardTest guardNames).run.run () =
      some (.ok (.boolean true), ()) := by
  have h : judged ⟨({} : Config).runtimeName⟩ guardNames guardTest = some (.boolean true) := rfl
  rw [sampleJudge_eval h]
  rfl

theorem condition_follows_truthiness_guardNode :
    condition guardNode (positions guardNode).value {} {} = (.ok guardTest, {}) ∧
      ∃ value, (positions guardNode).value {} {} = (.ok value, {}) ∧
        ∃ v b, ((sampleJudge ⟨({} : Config).runtimeName⟩).eval value guardNames).run.run () =
            some (.ok v, ()) ∧ (.boolean true : Datum) = .boolean b ∧
          (b = false ↔ v = .boolean false ∨ v = .null) ∧
          (isBoolean guardNode = true → v = .boolean b) := by
  refine ⟨condition_guardNode, ?_⟩
  obtain ⟨value, hvalue, hruns⟩ :=
    condition_follows_truthiness {} {} {} guardNode guardTest rfl rfl condition_guardNode
  exact ⟨value, hvalue, hruns (sampleJudge _) guardNames () () (.boolean true) eval_guardTest
    leftsAreBoolean_guardTest⟩

end TreeLowering
