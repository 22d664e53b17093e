import TreeLowering.Proofs.Collecting
import TreeLowering.Proofs.Dispatch
import TreeLowering.Proofs.FootprintLowering
import TreeLowering.Proofs.NamingScheme

/-!
Comprehensions compute the list comprehension.

`LowersTo` says what the qualifiers of a comprehension become, from the left: each collection and
each filter is lowered where the variables of the generators before it are bound, and reads them
under the names that the loops declare. What the loops then do is said for all machines in terms of
these steps.
-/
namespace TreeLowering

open Source Target LowerM Lowering

namespace Identifier

/-- Only a variable that has the name of an accumulator gets the name of one. -/
theorem eq_of_ofVariable_eq_accumulator {functions : List String} {x : String} {m n : Nat}
    (h : ofVariable functions x m = invented "acc" n) : x = invented "acc" n := by
  have hdigits : '$' ∉ "acc".toList ++ (toString n).toList := by
    intro hmem
    have hmem : '$' ∈ (toString n).toList := by simpa using hmem
    exact absurd (isDigit_of_mem_toString hmem) (by decide)
  -- marks behind a spelling begin with a `$`, and this name has one only in front
  have hends := endsName_marks functions x m
  rw [← String.toList_inj, toList_ofVariable, toList_invented] at h
  generalize reservedMark x ++ functionMark functions x ++ versionMark m = marks at h hends
  rw [← String.toList_inj, toList_invented]
  cases hx : x.toList with
  | nil =>
    rw [hx] at h
    obtain rfl : marks = _ := h
    exact absurd rfl hends.2.2
  | cons c rest =>
    rw [hx, List.flatMap_cons] at h
    have hplain : escapeChar c = [c] := by
      generalize rest.flatMap escapeChar = spelled at h
      unfold escapeChar at h ⊢
      split at h <;> simp_all
    rw [hplain, List.singleton_append, List.cons_append] at h
    obtain ⟨rfl, hrest⟩ := List.cons.inj h
    have hfree : '$' ∉ rest.flatMap escapeChar ++ marks := hrest ▸ hdigits
    rw [List.mem_append, not_or] at hfree
    obtain rfl : marks = [] := by
      unfold EndsName at hends
      split at hends <;> simp_all
    have hkept : ∀ c ∈ rest, c ∉ ['?', '!', '@'] := by
      intro c hc hmarked
      refine hfree.1 (List.mem_flatMap.mpr ⟨c, hc, ?_⟩)
      simp only [List.mem_cons, List.not_mem_nil, or_false] at hmarked
      rcases hmarked with rfl | rfl | rfl <;> decide
    rw [List.append_nil, flatMap_escapeChar hkept] at hrest
    rw [hrest]

end Identifier

section Bindings

variable {c : Config} {s s' : State}

theorem resolve_of_bindVariable {x y target : String}
    (h : bindVariable x c s = (.ok target, s')) :
    s'.resolve y = if y = x then target else s.resolve y := by
  simp only [bindVariable, bind_run, state_run, modify_run, pure_run] at h
  obtain ⟨_, _, ⟨rfl, rfl⟩, _, _, rfl, rfl, rfl⟩ := h
  by_cases hy : y = x
  · subst hy
    simp [State.resolve, State.variableBase, State.functions, NameTable.get?_set]
  · simp [State.resolve, State.variableBase, State.functions, NameTable.get?_set, hy]

theorem resolve_of_bindVariables {xs targets : List String}
    (h : bindVariables xs c s = (.ok targets, s')) {y : String} (hy : y ∉ xs) :
    s'.resolve y = s.resolve y := by
  induction xs generalizing s targets with
  | nil =>
    obtain ⟨-, rfl⟩ := pure_run.mp h
    rfl
  | cons x xs ih =>
    rw [List.mem_cons, not_or] at hy
    simp only [bindVariables, List.map_cons, LowerM.sequence, bind_run, pure_run] at h
    obtain ⟨target, s₁, htarget, rest, s₂, hrest, rfl, rfl⟩ := h
    rw [ih hrest hy.2, resolve_of_bindVariable htarget, if_neg hy.1]

/-- A value leaves the variables as they were. -/
theorem resolve_of_value {n : Node} {e : Expr} (h : (positions n).value c s = (.ok e, s'))
    (x : String) : s'.resolve x = s.resolve x := by
  obtain ⟨hadvances, hscope⟩ := value_leaves h
  have hbase : s'.variableBase x = s.variableBase x := by
    rw [State.variableBase, State.functions, hadvances.context]
    rfl
  rw [State.resolve, State.resolve, hbase, hscope]

/-- Variables that are bound together are each read under their own name. -/
theorem resolve_zip_of_bindVariables {xs targets : List String} (hnodup : xs.Nodup)
    (h : bindVariables xs c s = (.ok targets, s')) :
    ∀ b ∈ xs.zip targets, s'.resolve b.1 = b.2 := by
  induction xs generalizing s targets with
  | nil => simp
  | cons x xs ih =>
    obtain ⟨hx, hnodup⟩ := List.nodup_cons.mp hnodup
    simp only [bindVariables, List.map_cons, LowerM.sequence, bind_run, pure_run] at h
    obtain ⟨target, s₁, htarget, rest, s₂, hrest, rfl, rfl⟩ := h
    rw [List.zip_cons_cons, List.forall_mem_cons]
    refine ⟨?_, ih hnodup hrest⟩
    rw [resolve_of_bindVariables hrest hx, resolve_of_bindVariable htarget, if_pos rfl]

end Bindings

/-- What qualifiers become, from one state to another. Behind a generator its variables are read
under the names that its loop declares, and all other ones as before. -/
inductive LowersTo (c : Config) : State → List (Qualifier Node) → List LoopStep → State → Prop
  | nil {s : State} : LowersTo c s [] [] s
  | generator {s s₁ s₂ s' : State} {pattern collection : Node} {rest : List (Qualifier Node)}
      {e : Expr} {item : String} {plan : Pattern.Plan} {targets : List String}
      {steps : List LoopStep}
      (collects : (positions collection).value c s = (.ok e, s₁))
      (invents : item = Identifier.invented "gen" s₁.invented)
      (plans : LowerM.plan [pattern] [.ident item] c { s₁ with invented := s₁.invented + 1 } =
        (.ok plan, { s₁ with invented := s₁.invented + 1 }))
      (bound : ∀ x, x ∈ plan.bindings.map (·.1) ↔ x ∈ Pattern.boundNames pattern)
      (binds : bindVariables (plan.bindings.map (·.1)) c
        { s₁ with invented := s₁.invented + 1 } = (.ok targets, s₂))
      (sees : ∀ b ∈ (plan.bindings.map (·.1)).zip targets, s₂.resolve b.1 = b.2)
      (keeps : ∀ x, x ∉ Pattern.boundNames pattern → s₂.resolve x = s.resolve x)
      (behind : LowersTo c s₂ rest steps s') :
      LowersTo c s (.generator pattern collection :: rest)
        (.generator e item plan.tests (targets.zip (plan.bindings.map (·.2))) :: steps) s'
  | filter {s s₁ s' : State} {test : Node} {rest : List (Qualifier Node)} {e : Expr}
      {steps : List LoopStep} (evaluates : (positions test).value c s = (.ok e, s₁))
      (keeps : ∀ x, s₁.resolve x = s.resolve x) (behind : LowersTo c s₁ rest steps s') :
      LowersTo c s (.filter test :: rest) (.filter e (isBoolean test) :: steps) s'

section Lowering

variable {c : Config} {s s' : State}

theorem invent_run {stem name : String} :
    invent stem c s = (.ok name, s') ↔
      name = Identifier.invented stem s.invented ∧ s' = { s with invented := s.invented + 1 } := by
  simp only [invent, bind_run, state_run, modify_run, pure_run]
  constructor
  · rintro ⟨_, _, ⟨rfl, rfl⟩, _, _, rfl, rfl, rfl⟩
    exact ⟨rfl, rfl⟩
  · rintro ⟨rfl, rfl⟩
    exact ⟨_, _, ⟨rfl, rfl⟩, (), _, rfl, rfl, rfl⟩

theorem condition_run {test : Node} {x : LowerM Expr} {e : Expr}
    (h : condition test x c s = (.ok e, s')) :
    ∃ value, x c s = (.ok value, s') ∧
      e = if isBoolean test then value else RuntimeLibrary.truthy ⟨c.runtimeName⟩ value := by
  obtain ⟨value, s₁, hvalue, h⟩ := bind_run.mp h
  split at h
  next hboolean =>
    obtain ⟨rfl, rfl⟩ := pure_run.mp h
    exact ⟨e, hvalue, (if_pos hboolean).symm⟩
  next hboolean =>
    simp only [bind_run, library_run, pure_run] at h
    obtain ⟨lib, s₂, ⟨rfl, rfl⟩, rfl, rfl⟩ := h
    exact ⟨value, hvalue, (if_neg hboolean).symm⟩

/-- A generator from the runs of its parts: what they give decides how its variables are read. -/
theorem LowersTo.generator_of_runs {s₁ s₂ : State} {pattern collection : Node}
    {rest : List (Qualifier Node)} {e : Expr} {plan : Pattern.Plan} {targets : List String}
    {steps : List LoopStep} (collects : (positions collection).value c s = (.ok e, s₁))
    (plans : LowerM.plan [pattern] [.ident (Identifier.invented "gen" s₁.invented)] c
      { s₁ with invented := s₁.invented + 1 } = (.ok plan, { s₁ with invented := s₁.invented + 1 }))
    (binds : bindVariables (plan.bindings.map (·.1)) c { s₁ with invented := s₁.invented + 1 } =
      (.ok targets, s₂))
    (behind : LowersTo c s₂ rest steps s') :
    LowersTo c s (.generator pattern collection :: rest)
      (.generator e (Identifier.invented "gen" s₁.invented) plan.tests
        (targets.zip (plan.bindings.map (·.2))) :: steps) s' := by
  obtain ⟨-, hnames, -⟩ := Scoping.plan_reads [] [Identifier.invented "gen" s₁.invented]
    [Identifier.invented "gen" s₁.invented] plans (by simp) (by simp)
  have hbound : ∀ x, x ∈ plan.bindings.map (·.1) ↔ x ∈ Pattern.boundNames pattern := by
    intro x
    rw [hnames, Scoping.namesBound, Pattern.mem_withNames]
    simp [Pattern.boundNamesEach]
  have hnodup : (plan.bindings.map (·.1)).Nodup := by
    rw [hnames]
    exact Pattern.nodup_withNames List.nodup_nil _
  have hkept : ∀ x, x ∉ Pattern.boundNames pattern → s₂.resolve x = s.resolve x := by
    intro x hx
    rw [resolve_of_bindVariables binds (mt (hbound x).mp hx), ← resolve_of_value collects x]
    rfl
  exact .generator collects rfl plans hbound binds (resolve_zip_of_bindVariables hnodup binds) hkept
    behind

/-- The loops are those of the steps around the body, which is lowered behind them. -/
theorem loops_run {accumulator : String} {body : LowerM Expr} {qualifiers : List (Qualifier Node)}
    {stmt : Stmt} (h : loops accumulator body (qualifierParts qualifiers) c s = (.ok stmt, s')) :
    ∃ steps s₁ value, LowersTo c s qualifiers steps s₁ ∧ body c s₁ = (.ok value, s') ∧
      stmt = LoopStep.nest ⟨c.runtimeName⟩ accumulator value steps := by
  induction qualifiers generalizing s stmt with
  | nil =>
    simp only [qualifierParts, loops, bind_run, pure_run] at h
    obtain ⟨value, s₁, hvalue, rfl, rfl⟩ := h
    exact ⟨[], s, value, .nil, hvalue, rfl⟩
  | cons q qualifiers ih =>
    cases q with
    | generator pattern collection =>
      simp only [qualifierParts, loops, declare_eq, bind_run, pure_run, library_run] at h
      obtain ⟨e, s₁, he, lib, s₂, ⟨rfl, rfl⟩, item, s₃, hitem, plan, s₄, hplan, declared, s₅,
        ⟨targets, s₆, htargets, rfl, rfl⟩, inner, s₇, hinner, rfl, rfl⟩ := h
      obtain ⟨rfl, -, -⟩ := Scoping.plan_reads [] [item] [item] hplan (by simp) (by simp)
      obtain ⟨rfl, rfl⟩ := invent_run.mp hitem
      obtain ⟨steps, s₁, value, hsteps, hvalue, rfl⟩ := ih hinner
      exact ⟨_, s₁, value, .generator_of_runs he hplan htargets hsteps, hvalue, rfl⟩
    | filter test =>
      simp only [qualifierParts, loops, bind_run, pure_run] at h
      obtain ⟨e, s₁, he, inner, s₂, hinner, rfl, rfl⟩ := h
      obtain ⟨e', he', rfl⟩ := condition_run he
      obtain ⟨steps, s₂, value, hsteps, hvalue, rfl⟩ := ih hinner
      exact ⟨_, s₂, value, .filter he' (resolve_of_value he') hsteps, hvalue, rfl⟩

/-- The variables that the generators among the qualifiers bind. -/
def generatorNames : List (Qualifier Node) → List String
  | [] => []
  | .generator pattern _ :: rest => Pattern.boundNames pattern ++ generatorNames rest
  | .filter _ :: rest => generatorNames rest

/-- Source names never are names of accumulators. -/
theorem accumulator_not_mem {names : List String} (named : ∀ x ∈ names, Identifier.IsSourceName x)
    (n : Nat) : Identifier.invented "acc" n ∉ names := by
  intro hmem
  refine (named _ hmem).2.1 ?_
  rw [Identifier.toList_invented]
  exact List.mem_cons_self

/-- No step declares the name of an accumulator that no generator binds. -/
theorem LowersTo.names {qualifiers : List (Qualifier Node)} {steps : List LoopStep}
    (h : LowersTo c s qualifiers steps s') {n : Nat}
    (hfree : Identifier.invented "acc" n ∉ generatorNames qualifiers) :
    ∀ step ∈ steps, Identifier.invented "acc" n ∉ step.names := by
  induction h with
  | nil => simp
  | @generator s s₁ s₂ s' pattern collection rest e item plan targets steps collects invents plans
      bound binds sees keeps behind ih =>
    rw [generatorNames, List.mem_append, not_or] at hfree
    refine List.forall_mem_cons.mpr ⟨?_, ih hfree.2⟩
    have hitem : Identifier.invented "acc" n ≠ item := by
      rw [invents]
      intro heq
      exact absurd (Identifier.invented_inj (by decide) (by decide) heq).1 (by decide)
    have htargets : Identifier.invented "acc" n ∉ targets := by
      intro hmem
      obtain ⟨x, hx, s₃, s₄, hbind⟩ := exists_of_mem_sequence binds hmem
      have hname := (Scoping.bindVariable_names hbind).1
      obtain rfl := Identifier.eq_of_ofVariable_eq_accumulator hname.symm
      exact hfree.1 ((bound _).mp hx)
    rw [LoopStep.names, List.mem_cons, not_or]
    refine ⟨hitem, fun hmem => htargets ?_⟩
    obtain ⟨b, hb, heq⟩ := List.mem_map.mp hmem
    exact heq ▸ (List.of_mem_zip hb).1
  | filter evaluates keeps behind ih =>
    exact List.forall_mem_cons.mpr ⟨by simp [LoopStep.names], ih hfree⟩

/-- A comprehension that lowers is the loops of its steps, around its body. -/
theorem comprehension_run {qualifiers : List (Qualifier Node)} {body : List Node}
    {into : Option Node} {e : Expr}
    (h : (positions (.comprehension qualifiers body into)).value c s = (.ok e, s')) :
    ∃ target s₁ steps s₂ value s₃,
      optional (optionValue into) c s = (.ok target, s₁) ∧
      LowersTo c { s₁ with invented := s₁.invented + 1 } qualifiers steps s₂ ∧
      Positions.bodyValue (all body) c s₂ = (.ok value, s₃) ∧
      e = .immediate [.const (Identifier.invented "acc" s₁.invented) (.array []),
        LoopStep.nest ⟨c.runtimeName⟩ (Identifier.invented "acc" s₁.invented) value steps,
        .return_ (LoopStep.delivered ⟨c.runtimeName⟩ (Identifier.invented "acc" s₁.invented)
          target)] := by
  have hvalue : (positions (.comprehension qualifiers body into)).value =
      comprehension (qualifierParts qualifiers) (Positions.bodyValue (all body))
        (optionValue into) := by rw [positions]; rfl
  rw [hvalue, comprehension] at h
  split at h
  · exact (fail_run h).elim
  · obtain ⟨target, s₁, htarget, h⟩ := bind_run.mp h
    obtain ⟨s₂, hinner, -⟩ := inScope_run.mp h
    obtain ⟨accumulator, s₃, haccumulator, hinner⟩ := bind_run.mp hinner
    obtain ⟨rfl, rfl⟩ := invent_run.mp haccumulator
    obtain ⟨stmt, s₄, hloops, hinner⟩ := bind_run.mp hinner
    obtain ⟨steps, s₅, value, hsteps, hbody, rfl⟩ := loops_run hloops
    refine ⟨target, s₁, steps, s₅, value, s₄, htarget, hsteps, hbody, ?_⟩
    cases target with
    | none =>
      simp only [bind_run, pure_run] at hinner
      obtain ⟨_, _, ⟨rfl, rfl⟩, rfl, rfl⟩ := hinner
      rfl
    | some collection =>
      simp only [bind_run, library_run, pure_run] at hinner
      obtain ⟨lib, s₆, ⟨rfl, rfl⟩, _, _, ⟨rfl, rfl⟩, rfl, rfl⟩ := hinner
      rfl

end Lowering

section Sample

/-- Two generators around a filter, the second over a list that has the variable of the first. -/
def pairsQualifiers : List (Qualifier Node) :=
  [.generator (.var "x") (.list [.nil, .integer 2, .integer 3]), .filter (.var "x"),
    .generator (.var "y") (.list [.var "x", .integer 10])]

def pairsSteps : List LoopStep :=
  [.generator (.array [.literal .null, .integer 2, .integer 3]) "$gen1" [] [("x", .ident "$gen1")],
    .filter (.ident "x") false,
    .generator (.array [.ident "x", .integer 10]) "$gen2" [] [("y", .ident "$gen2")]]

theorem pairsSteps_of_lowersTo {steps : List LoopStep} {s' : State}
    (h : LowersTo {} { invented := 1 } pairsQualifiers steps s') :
    steps = pairsSteps ∧ s'.resolve "y" = "y" := by
  cases h with
  | generator collects invents plans bound binds sees keeps behind =>
    cases collects
    cases invents
    cases plans
    cases binds
    cases behind with
    | filter evaluates keeps behind =>
      cases evaluates
      cases behind with
      | generator collects invents plans bound binds sees keeps behind =>
        cases collects
        cases invents
        cases plans
        cases binds
        cases behind
        exact ⟨rfl, rfl⟩

variable {lib : RuntimeLibrary} {array : Datum}

theorem Target.Operations.exists_eval_ident (ops : Operations)
    (h : ∀ x, ∃ v, ops.global x = pure v) (x : String) (env : ops.Env) :
    ∃ v, ops.eval (.ident x) env = pure v := by
  rw [Operations.eval]
  split
  · exact ⟨_, rfl⟩
  · split
    · exact ⟨_, rfl⟩
    · exact h x

theorem keeps_sampleEval_ident (x : String) (env : NameTable Datum) :
    (sampleCollector lib).Keeps array (sampleEval lib (.ident x) env) := by
  obtain ⟨v, hv⟩ := (sampleOperations lib).exists_eval_ident (fun _ => ⟨_, rfl⟩) x env
  have hv : sampleEval lib (.ident x) env = pure v := hv
  rw [hv]
  exact Collector.grows_pure rfl

theorem keeps_sampleEval_literal (l : Literal) (env : NameTable Datum) :
    (sampleCollector lib).Keeps array (sampleEval lib (.literal l) env) := by
  cases l <;> exact Collector.grows_pure rfl

/-- A new array leaves the other ones alone. -/
theorem keeps_sampleEval_array {es : List Expr} {env : NameTable Datum}
    (h : ∀ e ∈ es, (sampleCollector lib).Keeps array (sampleEval lib e env)) :
    (sampleCollector lib).Keeps array (sampleEval lib (.array es) env) := by
  have hitems : (sampleCollector lib).Keeps array ((sampleOperations lib).evalAll es env) := by
    induction es with
    | nil => exact Collector.grows_pure rfl
    | cons e es ih =>
      obtain ⟨he, hes⟩ := List.forall_mem_cons.mp h
      exact he.bind fun v => (ih hes).bind fun vs => Collector.grows_pure rfl
  refine hitems.bind fun vs => ?_
  intro m v m' items hheld hrun
  cases hrun
  have hother : array ≠ (Memory.add m vs).1 := by
    rintro rfl
    cases (Memory.held_of_add m vs).symm.trans hheld
  rw [List.append_nil, ← hheld]
  exact Memory.held_add_other m vs hother

theorem partsKeep_pairsSteps :
    (sampleCollector lib).PartsKeep array pairsSteps (.ident "y") where
  elements v := by
    intro m vs m' items hheld hrun
    cases hrun
    rw [hheld, List.append_nil]
  parts e he env := by
    simp only [pairsSteps, LoopStep.parts, List.flatMap_cons, List.flatMap_nil, List.map_cons,
      List.map_nil, List.nil_append, List.append_nil, List.cons_append, List.mem_cons,
      List.not_mem_nil, or_false] at he
    rcases he with rfl | rfl | rfl | rfl | rfl
    · refine keeps_sampleEval_array ?_
      simp only [List.forall_mem_cons]
      exact ⟨keeps_sampleEval_literal _ _, keeps_sampleEval_literal _ _,
        keeps_sampleEval_literal _ _, List.forall_mem_nil _⟩
    · exact keeps_sampleEval_ident _ _
    · exact keeps_sampleEval_ident _ _
    · refine keeps_sampleEval_array ?_
      simp only [List.forall_mem_cons]
      exact ⟨keeps_sampleEval_ident _ _, keeps_sampleEval_literal _ _, List.forall_mem_nil _⟩
    · exact keeps_sampleEval_ident _ _
  value env := keeps_sampleEval_ident _ _

end Sample

/-- On the sample machine the results of the comprehension are the first ones, and the array that it
evaluates to holds the other ones. -/
def Delivers (qualifiers : List (Qualifier Node)) (body : List Node) (results held : List Datum) :
    Prop :=
  ∃ e s' steps s₁ value s₂ σ σ',
    (positions (.comprehension qualifiers body none)).value {} {} = (.ok e, s') ∧
    LowersTo {} { invented := 1 } qualifiers steps s₁ ∧
    Positions.bodyValue (all body) {} s₁ = (.ok value, s₂) ∧
    ((sampleCollector ⟨"Runtime"⟩).gather "$acc0" steps value []).run.run {} =
      some (.ok (.array 0, results), σ) ∧
    ((sampleCollector ⟨"Runtime"⟩).eval e []).run.run {} = some (.ok (Datum.array 0), σ') ∧
    Memory.held σ' (.array 0) = some held

end TreeLowering
