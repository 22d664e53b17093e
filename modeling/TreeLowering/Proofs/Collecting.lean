import TreeLowering.Comprehension
import TreeLowering.Proofs.Evaluator

/-!
Loops that collect.

A `Collector` is an evaluator whose runtime lists the elements of collections and decides what
counts as true, and whose arrays grow by what is pushed onto them. `combinations` says what a
comprehension is to compute: for each element of the first collection that matches, in order, the
combinations of the qualifiers behind it under the names that the element has brought. Nested loops
that push onto an accumulator run through these combinations and nothing else (`exec_nest`), and as
long as the parts of the comprehension leave the accumulator alone it holds the results in order
(`held_gather`).
-/
namespace TreeLowering

open Target LowerM

namespace Target

/-- A machine with arrays, and with the functions of the runtime that comprehensions use. -/
structure Collector (lib : RuntimeLibrary) extends Evaluator where
  null : Value
  /-- What the runtime takes for true. -/
  counts : Value → Bool
  /-- The elements of a collection, in order. -/
  elements : Value → Run Store Value (List Value)
  /-- Puts what an array holds into a collection. -/
  into : Value → Value → Run Store Value Value
  /-- What an array of the store holds. -/
  held : Store → Value → Option (List Value)
  /-- A new array. -/
  fresh : Store → Value × Store
  pushed : Value → Value → Store → Store
  truthy_null : truthy null = false
  counts_eq_false_iff : ∀ v, counts v = false ↔ v = boolean false ∨ v = null
  eval_truthy : ∀ e env, eval (lib.truthy e) env =
    (do return boolean (counts (← eval e env)))
  iterate_toList : ∀ e env, (do iterate (← eval (lib.toList e) env)) =
    (do elements (← eval e env))
  eval_into : ∀ results collection env, eval (lib.call ["Enum", "into"] [results, collection]) env =
    (do into (← eval results env) (← eval collection env))
  eval_empty : ∀ env, eval (.array []) env = modifyGet fresh
  eval_push : ∀ x array e env, env.get? x = some array →
    (do let _ ← eval ((Expr.ident x).method "push" [e]) env) =
      (do let v ← eval e env; modify (pushed array v))
  held_of_fresh : ∀ σ, held σ (fresh σ).1 = none
  held_fresh : ∀ σ, held (fresh σ).2 (fresh σ).1 = some []
  held_fresh_other : ∀ σ array, array ≠ (fresh σ).1 → held (fresh σ).2 array = held σ array
  held_pushed : ∀ σ array v items, held σ array = some items →
    held (pushed array v σ) array = some (items ++ [v])
  held_pushed_other : ∀ σ array other v, other ≠ array →
    held (pushed array v σ) other = held σ other

/-- Runs through values and joins what they give. -/
def Run.joinEach {Store Value α : Type} (f : α → Run Store Value (List Value)) :
    List α → Run Store Value (List Value)
  | [] => pure []
  | a :: as => do
    let first ← f a
    let rest ← joinEach f as
    return first ++ rest

/-- A computation that ends with a result has gone through its parts. -/
theorem Run.exists_of_bind {Store Value α β : Type} {x : Run Store Value α}
    {f : α → Run Store Value β} {b : β} {σ σ' : Store}
    (h : (x >>= f).run.run σ = some (.ok b, σ')) :
    ∃ a σ₁, x.run.run σ = some (.ok a, σ₁) ∧ (f a).run.run σ₁ = some (.ok b, σ') := by
  rw [ExceptT.run_bind, StateT.run_bind] at h
  obtain ⟨⟨outcome, σ₁⟩, hx, h⟩ := Option.bind_eq_some_iff.mp h
  cases outcome with
  | ok a => exact ⟨a, σ₁, hx, h⟩
  | error v => cases h

end Target

/-- A qualifier of a comprehension in the target. -/
inductive LoopStep where
  /-- An element is held under a name, tested, and taken apart. -/
  | generator (collection : Expr) (item : String) (tests : List Expr)
      (bindings : List (String × Expr))
  /-- A filter; one that is a boolean by its form is tested as it is. -/
  | filter (value : Expr) (isBoolean : Bool)

namespace LoopStep

/-- The names that a step declares. -/
def names : LoopStep → List String
  | .generator _ item _ bindings => item :: bindings.map (·.1)
  | .filter _ _ => []

/-- The expressions that a step evaluates. -/
def parts : LoopStep → List Expr
  | .generator collection _ tests bindings => collection :: (tests ++ bindings.map (·.2))
  | .filter value _ => [value]

/-- The loops and tests of the steps around the statement that pushes a result. -/
def nest (lib : RuntimeLibrary) (accumulator : String) (value : Expr) : List LoopStep → Stmt
  | [] => .expr ((Expr.ident accumulator).method "push" [value])
  | .generator collection item tests bindings :: rest =>
    .forOf item (lib.toList collection)
      (behind (Expr.all tests)
        ((bindings.map fun (x, e) => .const x e) ++ [nest lib accumulator value rest]))
  | .filter value' isBoolean :: rest =>
    .when_ (if isBoolean then value' else lib.truthy value')
      (.block [nest lib accumulator value rest])

/-- What the comprehension gives: its accumulator, or what the runtime puts it into. -/
def delivered (lib : RuntimeLibrary) (accumulator : String) : Option Expr → Expr
  | none => .ident accumulator
  | some collection => lib.call ["Enum", "into"] [.ident accumulator, collection]

end LoopStep

namespace Target.Collector

variable {lib : RuntimeLibrary} (M : Collector lib)

/-- Whether a filter of that value is passed. -/
def passes (isBoolean : Bool) (v : M.Value) : Bool := if isBoolean then M.truthy v else M.counts v

/-- Only what is false or null does not pass, also where a boolean is tested as it is. -/
theorem passes_eq_false_iff {isBoolean : Bool} {v : M.Value}
    (h : isBoolean = true → ∃ b, v = M.boolean b) :
    M.passes isBoolean v = false ↔ v = M.boolean false ∨ v = M.null := by
  cases isBoolean with
  | false => exact M.counts_eq_false_iff v
  | true =>
    obtain ⟨b, rfl⟩ := h rfl
    show M.truthy (M.boolean b) = false ↔ _
    constructor
    · intro hb
      rw [M.truthy_boolean] at hb
      exact .inl (hb ▸ rfl)
    · rintro (hb | hb)
      · rw [hb, M.truthy_boolean]
      · rw [hb, M.truthy_null]

/-- What goes on under the bindings if the tests hold, and nothing if they do not. -/
def matching (tests : List Expr) (bindings : List (String × Expr))
    (inner : M.Env → Run M.Store M.Value (List M.Value)) (env : M.Env) :
    Run M.Store M.Value (List M.Value) := do
  if ← M.holdsAll tests env then inner (← M.bindAll bindings env) else return []

/-- What the results are, combination by combination: leftmost generator outermost, elements in
order, later steps under the names of the earlier ones. -/
def combinations (result : M.Env → Run M.Store M.Value (List M.Value)) :
    List LoopStep → M.Env → Run M.Store M.Value (List M.Value)
  | [], env => result env
  | .generator collection item tests bindings :: rest, env => do
    let vs ← M.elements (← M.eval collection env)
    Run.joinEach (fun v => M.matching tests bindings (combinations result rest) (env.set item v)) vs
  | .filter value isBoolean :: rest, env => do
    if M.passes isBoolean (← M.eval value env) then combinations result rest env else return []

/-- Evaluates the value once and pushes it. -/
def keep (array : M.Value) (value : Expr) (env : M.Env) : Run M.Store M.Value (List M.Value) := do
  let v ← M.eval value env
  modify (M.pushed array v)
  return [v]

/-- Makes the accumulator, runs through the combinations, and gives the accumulator with the results
in order. -/
def gather (accumulator : String) (steps : List LoopStep) (value : Expr) (env : M.Env) :
    Run M.Store M.Value (M.Value × List M.Value) := do
  let array ← M.eval (.array []) env
  let vs ← M.combinations (M.keep array value) steps (env.set accumulator array)
  return (array, vs)

/-- The accumulator itself, or what the runtime puts it into. -/
def deliver (target : Option Expr) (array : M.Value) (env : M.Env) : Run M.Store M.Value M.Value :=
  match target with
  | none => pure array
  | some collection => do M.into array (← M.eval collection env)

section Loops

/-- A loop whose body goes on to the next value runs through all of them. -/
theorem loop_eq_joinEach {body : M.Value → M.Step}
    {f : M.Value → Run M.Store M.Value (List M.Value)} {after : M.Value → M.Env}
    (h : ∀ v, body v = (do let _ ← f v; return .normal (after v)))
    (env : M.Env) (vs : List M.Value) :
    M.loop body env vs = (do let _ ← Run.joinEach f vs; return .normal env) := by
  induction vs with
  | nil => simp only [Machine.loop, Run.joinEach, pure_bind]
  | cons v vs ih =>
    simp only [Machine.loop, Run.joinEach, h, ih, bind_assoc, pure_bind, Completion.next]

theorem get?_of_bindAll {bindings : List (String × Expr)} {env inner : M.Env} {x : String}
    (hx : x ∉ bindings.map (·.1)) (h : (M.bindAll bindings env).Gives inner) :
    inner.get? x = env.get? x := by
  induction bindings generalizing env with
  | nil => rw [Run.gives_pure h]
  | cons b rest ih =>
    rw [List.map_cons, List.mem_cons, not_or] at hx
    obtain ⟨v, -, hrest⟩ := Run.gives_bind h
    rw [ih hx.2 hrest, NameTable.get?_set, if_neg hx.1]

/-- Declarations in front of a statement that goes on. -/
theorem execAll_bindings (bindings : List (String × Expr)) (s : Stmt) (env : M.Env) :
    M.execAll ((bindings.map fun (x, e) => .const x e) ++ [s]) env =
      (do M.exec s (← M.bindAll bindings env)) := by
  have hbindings : M.execAll (bindings.map fun (x, e) => .const x e) env =
      (do return .normal (← M.bindAll bindings env)) :=
    M.execAll_declarations { bindings, body := [] } env
  rw [M.execAll_append, hbindings]
  simp only [bind_assoc, pure_bind, Completion.next, M.execAll_singleton]

theorem holds_filter (value : Expr) (isBoolean : Bool) (env : M.Env) :
    M.holds (if isBoolean then value else lib.truthy value) env =
      (do return M.passes isBoolean (← M.eval value env)) := by
  cases isBoolean with
  | true => rfl
  | false =>
    simp only [Machine.holds, Bool.false_eq_true, if_false, M.eval_truthy, bind_assoc, pure_bind,
      M.truthy_boolean]
    rfl

theorem exec_forOf_toList (item : String) (collection : Expr) (body : Stmt) (env : M.Env) :
    M.exec (.forOf item (lib.toList collection) body) env = (do
      let vs ← M.elements (← M.eval collection env)
      M.loop (fun v => M.exec body (env.set item v)) env vs) := by
  have hloop := congrArg (fun x : Run M.Store M.Value (List M.Value) =>
    x >>= M.loop (fun v => M.exec body (env.set item v)) env) (M.iterate_toList collection env)
  simp only [bind_assoc] at hloop
  rw [Machine.exec]
  exact hloop

/-- One element: what comes behind its tests and bindings goes on, so this does as well. -/
theorem exec_matching {accumulator : String} {array : M.Value} {s : Stmt}
    {inner : M.Env → Run M.Store M.Value (List M.Value)}
    (hinner : ∀ env, env.get? accumulator = some array →
      M.exec s env = (do let _ ← inner env; return .normal env))
    (tests : List Expr) {bindings : List (String × Expr)}
    (hnames : accumulator ∉ bindings.map (·.1)) {env : M.Env}
    (henv : env.get? accumulator = some array) :
    M.exec (behind (Expr.all tests) ((bindings.map fun (x, e) => .const x e) ++ [s])) env =
      (do let _ ← M.matching tests bindings inner env; return .normal env) := by
  rw [M.exec_behind, M.execAll_bindings, matching]
  simp only [bind_assoc]
  refine bind_congr fun b => ?_
  cases b with
  | false => simp
  | true =>
    simp only [if_true, bind_assoc]
    refine Run.bind_congr_of_gives fun env' henv' => ?_
    have hget : env'.get? accumulator = some array := (M.get?_of_bindAll hnames henv').trans henv
    rw [hinner env' hget]
    simp only [bind_assoc, pure_bind, Completion.leave]

/-- The loops run through the combinations, and control goes on under the names from before. -/
theorem exec_nest {accumulator : String} {array : M.Value} {steps : List LoopStep} (value : Expr)
    (hnames : ∀ step ∈ steps, accumulator ∉ step.names) {env : M.Env}
    (henv : env.get? accumulator = some array) :
    M.exec (LoopStep.nest lib accumulator value steps) env =
      (do let _ ← M.combinations (M.keep array value) steps env; return .normal env) := by
  induction steps generalizing env with
  | nil =>
    have hpush := congrArg (fun x => x >>= fun _ => pure (Completion.normal env))
      (M.eval_push accumulator array value env henv)
    simp only [bind_assoc, pure_bind] at hpush
    simp only [LoopStep.nest, Machine.exec, combinations, keep, bind_assoc, pure_bind]
    exact hpush
  | cons step rest ih =>
    obtain ⟨hstep, hrest⟩ := List.forall_mem_cons.mp hnames
    cases step with
    | generator collection item tests bindings =>
      obtain ⟨hitem, hbindings⟩ : accumulator ≠ item ∧ accumulator ∉ bindings.map (·.1) := by
        simpa [LoopStep.names] using hstep
      have hset : ∀ v, NameTable.get? (NameTable.set env item v) accumulator = some array := by
        intro v
        rw [NameTable.get?_set, if_neg hitem, henv]
      have hbody := fun v =>
        M.exec_matching (fun _ henv => ih hrest henv) tests hbindings (hset v)
      rw [LoopStep.nest, M.exec_forOf_toList, combinations]
      simp only [M.loop_eq_joinEach hbody, bind_assoc]
    | filter value' isBoolean =>
      have hblock : M.exec (.block [LoopStep.nest lib accumulator value rest]) env =
          (do let _ ← M.combinations (M.keep array value) rest env; return .normal env) := by
        rw [Machine.exec, M.execAll_singleton, ih hrest henv]
        simp only [bind_assoc, pure_bind, Completion.leave]
      rw [LoopStep.nest, Stmt.when_, Machine.exec, M.holds_filter, hblock, combinations]
      simp only [bind_assoc, pure_bind]
      refine bind_congr fun v => ?_
      cases M.passes isBoolean v <;> simp [Completion.leave]

theorem eval_delivered {accumulator : String} {array : M.Value} (target : Option Expr) {env : M.Env}
    (henv : env.get? accumulator = some array) :
    M.eval (LoopStep.delivered lib accumulator target) env = M.deliver target array env := by
  cases target with
  | none => exact M.eval_ident accumulator env array henv
  | some collection =>
    rw [LoopStep.delivered, M.eval_into, M.eval_ident accumulator env array henv, pure_bind]
    rfl

/-- A comprehension gathers its results and delivers them. -/
theorem eval_comprehension {accumulator : String} {steps : List LoopStep} (value : Expr)
    (target : Option Expr) (hnames : ∀ step ∈ steps, accumulator ∉ step.names) (env : M.Env) :
    M.eval (.immediate [.const accumulator (.array []), LoopStep.nest lib accumulator value steps,
        .return_ (LoopStep.delivered lib accumulator target)]) env =
      (do
        let out ← M.gather accumulator steps value env
        M.deliver target out.1 (env.set accumulator out.1)) := by
  have hset : ∀ array : M.Value,
      NameTable.get? (NameTable.set env accumulator array) accumulator = some array := by
    intro array
    rw [NameTable.get?_set, if_pos rfl]
  rw [M.eval_immediate, gather]
  simp only [Machine.execAll, Stmt.const, Stmt.return_, Machine.exec, Machine.evalOption,
    bind_assoc, pure_bind, Completion.next]
  refine bind_congr fun array => ?_
  rw [M.exec_nest value hnames (hset array)]
  simp only [bind_assoc, pure_bind, M.eval_delivered target (hset array), Completion.valueOr,
    bind_pure]

end Loops

section Accumulator

variable {α β : Type}

/-- When the computation ends with a result, the array has got what the result stands for. -/
def Grows (array : M.Value) (growth : α → List M.Value) (x : Run M.Store M.Value α) : Prop :=
  ∀ σ a σ' items, M.held σ array = some items → x.run.run σ = some (.ok a, σ') →
    M.held σ' array = some (items ++ growth a)

/-- The computation leaves the array as it is. -/
def Keeps (array : M.Value) (x : Run M.Store M.Value α) : Prop := M.Grows array (fun _ => []) x

/-- Evaluating the parts of a comprehension leaves the array as it is. -/
structure PartsKeep (array : M.Value) (steps : List LoopStep) (value : Expr) : Prop where
  elements : ∀ v, M.Keeps array (M.elements v)
  parts : ∀ e ∈ steps.flatMap LoopStep.parts, ∀ env, M.Keeps array (M.eval e env)
  value : ∀ env, M.Keeps array (M.eval value env)

variable {M} {array : M.Value} {growth : List M.Value → List M.Value}

theorem grows_pure {a : α} {growth : α → List M.Value} (h : growth a = []) :
    M.Grows array growth (pure a) := by
  intro σ b σ' items hheld hrun
  cases hrun
  rw [h, List.append_nil, hheld]

theorem Keeps.bind {x : Run M.Store M.Value α} {f : α → Run M.Store M.Value β}
    {growth : β → List M.Value} (hx : M.Keeps array x) (hf : ∀ a, M.Grows array growth (f a)) :
    M.Grows array growth (x >>= f) := by
  intro σ b σ' items hheld hrun
  obtain ⟨a, σ₁, hrunx, hrunf⟩ := Run.exists_of_bind hrun
  have hkept := hx σ a σ₁ items hheld hrunx
  rw [List.append_nil] at hkept
  exact hf a σ₁ b σ' items hkept hrunf

theorem grows_joinEach (hnil : growth [] = [])
    (happend : ∀ vs ws, growth (vs ++ ws) = growth vs ++ growth ws)
    {f : α → Run M.Store M.Value (List M.Value)} (hf : ∀ a, M.Grows array growth (f a))
    (as : List α) : M.Grows array growth (Run.joinEach f as) := by
  induction as with
  | nil => exact grows_pure hnil
  | cons a as ih =>
    intro σ out σ' items hheld hrun
    obtain ⟨first, σ₁, hfirst, hrun⟩ := Run.exists_of_bind hrun
    obtain ⟨rest, σ₂, hrest, hrun⟩ := Run.exists_of_bind hrun
    cases hrun
    rw [happend, ← List.append_assoc]
    exact ih σ₁ rest _ _ (hf a σ first σ₁ items hheld hfirst) hrest

theorem keeps_holdsAll {tests : List Expr} (h : ∀ e ∈ tests, ∀ env, M.Keeps array (M.eval e env))
    (env : M.Env) : M.Keeps array (M.holdsAll tests env) := by
  induction tests with
  | nil => exact grows_pure rfl
  | cons test tests ih =>
    obtain ⟨htest, htests⟩ := List.forall_mem_cons.mp h
    have hholds : M.Keeps array (M.holds test env) := (htest env).bind fun _ => grows_pure rfl
    refine hholds.bind fun b => ?_
    cases b with
    | true => exact ih htests
    | false => exact grows_pure rfl

theorem keeps_bindAll {bindings : List (String × Expr)}
    (h : ∀ b ∈ bindings, ∀ env, M.Keeps array (M.eval b.2 env)) (env : M.Env) :
    M.Keeps array (M.bindAll bindings env) := by
  induction bindings generalizing env with
  | nil => exact grows_pure rfl
  | cons b rest ih =>
    obtain ⟨hb, hrest⟩ := List.forall_mem_cons.mp h
    exact (hb env).bind fun v => ih hrest _

/-- The combinations do to an array what their results do. -/
theorem grows_combinations {result : M.Env → Run M.Store M.Value (List M.Value)}
    (hnil : growth [] = []) (happend : ∀ vs ws, growth (vs ++ ws) = growth vs ++ growth ws)
    (hresult : ∀ env, M.Grows array growth (result env))
    (helements : ∀ v, M.Keeps array (M.elements v)) {steps : List LoopStep}
    (hparts : ∀ e ∈ steps.flatMap LoopStep.parts, ∀ env, M.Keeps array (M.eval e env))
    (env : M.Env) : M.Grows array growth (M.combinations result steps env) := by
  induction steps generalizing env with
  | nil => exact hresult env
  | cons step rest ih =>
    rw [List.flatMap_cons, List.forall_mem_append] at hparts
    obtain ⟨hstep, hrest⟩ := hparts
    cases step with
    | generator collection item tests bindings =>
      rw [LoopStep.parts, List.forall_mem_cons, List.forall_mem_append] at hstep
      obtain ⟨hcollection, htests, hbindings⟩ := hstep
      refine (hcollection env).bind fun c => (helements c).bind fun vs => ?_
      refine grows_joinEach hnil happend (fun v => ?_) vs
      refine (keeps_holdsAll htests _).bind fun b => ?_
      cases b with
      | true =>
        exact (keeps_bindAll (List.forall_mem_map.mp hbindings) _).bind fun inner => ih hrest inner
      | false => exact grows_pure hnil
    | filter value isBoolean =>
      have hvalue := hstep value (by simp [LoopStep.parts])
      refine (hvalue env).bind fun v => ?_
      split
      · exact ih hrest env
      · exact grows_pure hnil

/-- A value that is pushed is the one that the array gets. -/
theorem grows_keep {value : Expr} (hvalue : ∀ env, M.Keeps array (M.eval value env)) (env : M.Env) :
    M.Grows array id (M.keep array value env) := by
  refine (hvalue env).bind fun v => ?_
  intro σ vs σ' items hheld hrun
  cases hrun
  exact M.held_pushed σ array v items hheld

/-- Other arrays get nothing by it. -/
theorem keeps_keep {other : M.Value} (hother : other ≠ array) {value : Expr}
    (hvalue : ∀ env, M.Keeps other (M.eval value env)) (env : M.Env) :
    M.Keeps other (M.keep array value env) := by
  refine (hvalue env).bind fun v => ?_
  intro σ vs σ' items hheld hrun
  cases hrun
  rw [List.append_nil, ← hheld]
  exact M.held_pushed_other σ array other v hother

/-- The results are gathered from where the accumulator is new. -/
theorem run_gather {accumulator : String} {steps : List LoopStep} {value : Expr} {env : M.Env}
    {σ σ' : M.Store} {out : M.Value × List M.Value}
    (h : (M.gather accumulator steps value env).run.run σ = some (.ok out, σ')) :
    out.1 = (M.fresh σ).1 ∧ (M.combinations (M.keep out.1 value) steps
      (env.set accumulator out.1)).run.run (M.fresh σ).2 = some (.ok out.2, σ') := by
  obtain ⟨array, σ₁, hempty, h⟩ := Run.exists_of_bind h
  obtain ⟨vs, σ₂, hresults, h⟩ := Run.exists_of_bind h
  cases h
  rw [M.eval_empty] at hempty
  cases hempty
  exact ⟨rfl, hresults⟩

/-- The accumulator holds the results in order. -/
theorem held_gather {accumulator : String} {steps : List LoopStep} {value : Expr} {env : M.Env}
    {σ σ' : M.Store} {vs : List M.Value}
    (hrun : (M.gather accumulator steps value env).run.run σ = some (.ok (array, vs), σ'))
    (hparts : M.PartsKeep array steps value) : M.held σ' array = some vs := by
  obtain ⟨rfl, hresults⟩ := run_gather hrun
  have hgrows := grows_combinations rfl (fun _ _ => rfl) (grows_keep hparts.value) hparts.elements
    hparts.parts
  exact hgrows _ _ vs _ [] (M.held_fresh σ) hresults

/-- A comprehension leaves the arrays alone that were there before it, if its parts do. -/
theorem keeps_comprehension {accumulator : String} {steps : List LoopStep} {value : Expr}
    {target : Option Expr} {env : M.Env} (hparts : M.PartsKeep array steps value)
    (hdeliver : ∀ results env, M.Keeps array (M.deliver target results env)) :
    M.Keeps array (do
      let out ← M.gather accumulator steps value env
      M.deliver target out.1 (env.set accumulator out.1)) := by
  refine Keeps.bind ?_ fun out => hdeliver out.1 _
  intro σ out σ' items hheld hrun
  obtain ⟨hout, hresults⟩ := run_gather hrun
  have hother : array ≠ out.1 := by
    rintro rfl
    rw [hout, M.held_of_fresh] at hheld
    cases hheld
  have hfresh : M.held (M.fresh σ).2 array = some items :=
    (M.held_fresh_other σ array (hout ▸ hother)).trans hheld
  exact grows_combinations rfl (fun _ _ => rfl) (keeps_keep hother hparts.value) hparts.elements
    hparts.parts _ _ out.2 _ items hfresh hresults

end Accumulator

end Target.Collector

section Sample

namespace Target

theorem Datum.counts_eq_false_iff (v : Datum) :
    v.counts = false ↔ v = .boolean false ∨ v = .null := by
  cases v with
  | boolean b => cases b <;> simp [counts]
  | _ => simp [counts]

namespace Memory

/-- What an array of the memory holds. -/
def held (m : Memory) : Datum → Option (List Datum)
  | .array place => m.arrays[place]?
  | _ => none

theorem held_of_add (m : Memory) (items : List Datum) : m.held (m.add items).1 = none := by
  simp [held, add]

theorem held_add (m : Memory) (items : List Datum) :
    (m.add items).2.held (m.add items).1 = some items := by
  simp [held, add]

theorem held_add_other (m : Memory) (items : List Datum) {array : Datum}
    (h : array ≠ (m.add items).1) : (m.add items).2.held array = m.held array := by
  cases array with
  | array place =>
    have h : place ≠ m.arrays.length := fun heq => h (heq ▸ rfl)
    simp only [held, add, List.getElem?_append]
    grind
  | _ => rfl

theorem held_push {m : Memory} {array : Datum} {items : List Datum} (v : Datum)
    (h : m.held array = some items) : (m.push v array).held array = some (items ++ [v]) := by
  cases array with
  | array place =>
    have h : m.arrays[place]? = some items := h
    simp [held, push, h]
  | _ => cases h

theorem held_push_other (m : Memory) {array other : Datum} (v : Datum) (h : other ≠ array) :
    (m.push v array).held other = m.held other := by
  cases array with
  | array place =>
    cases other with
    | array place' =>
      have h : place ≠ place' := fun heq => h (heq ▸ rfl)
      simp [held, push, h]
    | _ => rfl
  | _ => rfl

end Memory

variable (lib : RuntimeLibrary)

/-- Evaluation on the sample machine. -/
def sampleEval : Expr → NameTable Datum → Run Memory Datum Datum := (sampleOperations lib).eval

theorem sampleEval_call {callee : Expr} (h : ∀ f, callee ≠ .function f) (args : List Expr)
    (env : NameTable Datum) : sampleEval lib (.call callee args) env =
      (do sampleCall lib callee (← args.mapM (sampleEval lib · env)) env) :=
  (sampleOperations lib).eval_call h args env

theorem sampleEval_runtime (part f : String) (args : List Expr) (env : NameTable Datum) :
    sampleEval lib (lib.call [part, f] args) env =
      (do sampleRuntime part f (← args.mapM (sampleEval lib · env))) := by
  rw [RuntimeLibrary.call, sampleEval_call lib (by rintro f ⟨⟩)]
  exact bind_congr fun vs => if_pos rfl

theorem sampleEval_truthy (e : Expr) (env : NameTable Datum) :
    sampleEval lib (lib.truthy e) env =
      (do return .boolean (Datum.counts (← sampleEval lib e env))) := by
  rw [RuntimeLibrary.truthy, sampleEval_runtime]
  simp only [List.mapM_cons, List.mapM_nil, bind_assoc, pure_bind, sampleRuntime]

theorem sampleEval_toList (e : Expr) (env : NameTable Datum) :
    sampleEval lib (lib.toList e) env = sampleEval lib e env := by
  rw [RuntimeLibrary.toList, sampleEval_runtime]
  simp only [List.mapM_cons, List.mapM_nil, bind_assoc, pure_bind, sampleRuntime, bind_pure]

theorem sampleEval_into (results collection : Expr) (env : NameTable Datum) :
    sampleEval lib (lib.call ["Enum", "into"] [results, collection]) env =
      (do
        let v ← sampleEval lib results env
        sampleRuntime "Enum" "into" [v, ← sampleEval lib collection env]) := by
  rw [sampleEval_runtime]
  simp only [List.mapM_cons, List.mapM_nil, bind_assoc, pure_bind]

theorem sampleEval_push (x : String) (array : Datum) (e : Expr) (env : NameTable Datum)
    (h : env.get? x = some array) :
    (do let _ ← sampleEval lib ((Expr.ident x).method "push" [e]) env) =
      (do let v ← sampleEval lib e env; modify fun m => m.push v array) := by
  have hpush : ∀ v, sampleCall lib ((Expr.ident x).property "push") [v] env =
      (do modify fun m => m.push v array; return .undefined) := by
    intro v
    rw [← Option.getD_some (a := array) (b := .undefined), ← h]
    rfl
  rw [Expr.method, sampleEval_call lib (by rintro f ⟨⟩)]
  simp only [List.mapM_cons, List.mapM_nil, bind_assoc, pure_bind, hpush]
  rfl

/-- The sample machine collects. -/
def sampleCollector : Collector lib where
  toEvaluator := sampleEvaluator lib
  null := Datum.null
  counts := Datum.counts
  elements v := do return (← get).items v
  into v w := sampleRuntime "Enum" "into" [v, w]
  held := Memory.held
  fresh m := m.add []
  pushed array v m := m.push v array
  truthy_null := rfl
  counts_eq_false_iff := Datum.counts_eq_false_iff
  eval_truthy := sampleEval_truthy lib
  iterate_toList e env := congrArg
    (fun x : Run Memory Datum Datum => x >>= fun v => do return (← get).items v)
    (sampleEval_toList lib e env)
  eval_into := sampleEval_into lib
  eval_empty _ := rfl
  eval_push := sampleEval_push lib
  held_of_fresh m := m.held_of_add []
  held_fresh m := m.held_add []
  held_fresh_other m _ h := m.held_add_other [] h
  held_pushed _ _ v _ h := Memory.held_push v h
  held_pushed_other m _ _ v h := m.held_push_other v h

end Target

end Sample

end TreeLowering
