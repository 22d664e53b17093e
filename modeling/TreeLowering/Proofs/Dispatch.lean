import TreeLowering.Proofs.Allocation
import TreeLowering.Proofs.EmissionClauses
import TreeLowering.Proofs.Selection

/-!
The clauses of a function, of one arity or of several.

A function of several arities tells its clauses apart by which of its parameters are undefined. No
argument is, so exactly the clauses that take as many arguments as were given are tried, in order.
-/
namespace TreeLowering

open Source Target LowerM Lowering Scoping
open Identifier (IsSourceName)

namespace Target.Machine

variable (M : Machine)

section Parameters

theorem get?_bindParams_of_not_mem {names : List String} {x : String} (h : x ∉ names)
    (args : List M.Value) (env : M.Env) : (M.bindParams names args env).get? x = env.get? x := by
  induction names generalizing args env with
  | nil => rfl
  | cons y names ih =>
    have hne := List.ne_of_not_mem_cons h
    have hrest := List.not_mem_of_not_mem_cons h
    cases args <;> simp [bindParams, ih hrest, NameTable.get?_set, hne]

/-- A parameter holds its argument, or is undefined. -/
theorem get?_bindParams {names : List String} (distinct : names.Nodup) {i : Nat} {x : String}
    (hx : names[i]? = some x) (args : List M.Value) (env : M.Env) :
    (M.bindParams names args env).get? x = some (args[i]?.getD M.undefined) := by
  induction names generalizing i args env with
  | nil => simp at hx
  | cons y names ih =>
    obtain ⟨hfirst, hrest⟩ := List.nodup_cons.mp distinct
    cases i with
    | zero =>
      obtain rfl : y = x := by simpa using hx
      cases args <;>
        simp [bindParams, M.get?_bindParams_of_not_mem hfirst, NameTable.get?_set]
    | succ i =>
      rw [List.getElem?_cons_succ] at hx
      cases args <;> simp [bindParams, ih hrest hx]

theorem paramName_ne_undefined (i : Nat) : paramName i ≠ "undefined" := by
  intro h
  have hlist := congrArg String.toList h
  rw [paramName, Identifier.toList_invented] at hlist
  have hhead : some '$' = "undefined".toList.head? := congrArg List.head? hlist
  revert hhead
  decide

/-- The names of a call of a function with that many invented parameters. -/
def argumentEnv (most : Nat) (args : List M.Value) (env : M.Env) : M.Env :=
  M.bindParams ((List.range most).map paramName) args env

theorem get?_argumentEnv {most i : Nat} (hi : i < most) (args : List M.Value) (env : M.Env) :
    (M.argumentEnv most args env).get? (paramName i) = some (args[i]?.getD M.undefined) :=
  M.get?_bindParams (nodup_paramNames most) (by simp [hi]) args env

end Parameters

section Arities

variable {M} {args : List M.Value} {env : M.Env}

/-- Reading a parameter beside `undefined` tells whether its argument was given. -/
theorem same_argument (defined : ∀ a ∈ args, a ≠ M.undefined) (i : Nat) :
    M.same (args[i]?.getD M.undefined) M.undefined = decide (args.length ≤ i) := by
  by_cases hi : i < args.length
  · have hne : args[i] ≠ M.undefined := defined _ (List.getElem_mem hi)
    have hfalse : M.same args[i] M.undefined = false :=
      Bool.eq_false_iff.mpr fun h => hne ((M.same_undefined _).mp h)
    simpa [List.getElem?_eq_getElem hi, hfalse] using hi
  · have hlength : args.length ≤ i := Nat.le_of_not_lt hi
    simpa [List.getElem?_eq_none hlength, hlength] using (M.same_undefined _).mpr rfl

theorem eval_undefined_argumentEnv (hidden : env.get? "undefined" = none) (most : Nat) :
    M.eval (.ident "undefined") (M.argumentEnv most args env) = pure M.undefined := by
  refine M.eval_undefined _ ?_
  have hnames : "undefined" ∉ (List.range most).map paramName := by
    rintro hmem
    obtain ⟨i, -, hi⟩ := List.mem_map.mp hmem
    exact paramName_ne_undefined i hi
  rw [argumentEnv, M.get?_bindParams_of_not_mem hnames, hidden]

theorem holds_given {most i : Nat} (hi : i < most) (defined : ∀ a ∈ args, a ≠ M.undefined)
    (hidden : env.get? "undefined" = none) :
    M.holds (.ne (.ident (paramName i)) (.ident "undefined")) (M.argumentEnv most args env) =
      pure (decide (i < args.length)) := by
  rw [holds, M.eval_ne, M.eval_ident _ _ _ (M.get?_argumentEnv hi args env),
    eval_undefined_argumentEnv hidden]
  simp only [pure_bind, M.truthy_boolean, same_argument defined, ← decide_not, Nat.not_le]

theorem holds_missing {most i : Nat} (hi : i < most) (defined : ∀ a ∈ args, a ≠ M.undefined)
    (hidden : env.get? "undefined" = none) :
    M.holds (.eq (.ident (paramName i)) (.ident "undefined")) (M.argumentEnv most args env) =
      pure (decide (args.length ≤ i)) := by
  rw [holds, M.eval_eq, M.eval_ident _ _ _ (M.get?_argumentEnv hi args env),
    eval_undefined_argumentEnv hidden]
  simp [M.truthy_boolean, same_argument defined]

theorem holdsAll_append (tests tests' : List Expr) (env : M.Env) :
    M.holdsAll (tests ++ tests') env =
      (do if ← M.holdsAll tests env then M.holdsAll tests' env else return false) := by
  induction tests with
  | nil => simp [holdsAll]
  | cons test tests ih =>
    rw [List.cons_append, holdsAll, holdsAll, bind_assoc]
    congr 1
    funext b
    cases b
    · simp
    · simpa using ih

/-- The tests of an arity hold of calls with that many arguments. -/
theorem holdsAll_arityTests {arity most : Nat} (harity : arity ≤ most) (hargs : args.length ≤ most)
    (defined : ∀ a ∈ args, a ≠ M.undefined) (hidden : env.get? "undefined" = none) :
    M.holdsAll (arityTests arity most) (M.argumentEnv most args env) =
      pure (decide (arity = args.length)) := by
  have hfront : M.holdsAll
      (if 0 < arity then [.ne (.ident (paramName (arity - 1))) (.ident "undefined")] else [])
      (M.argumentEnv most args env) = pure (decide (arity ≤ args.length)) := by
    split
    next hpos =>
      rw [holdsAll, holds_given (by omega) defined hidden, pure_bind]
      have hiff : arity - 1 < args.length ↔ arity ≤ args.length := by omega
      by_cases h : arity ≤ args.length <;> simp [holdsAll, hiff, h]
    next hzero =>
      have hle : arity ≤ args.length := by omega
      simp [holdsAll, hle]
  have hback : M.holdsAll
      (if arity < most then [.eq (.ident (paramName arity)) (.ident "undefined")] else [])
      (M.argumentEnv most args env) = pure (decide (args.length ≤ arity)) := by
    split
    next hlt =>
      rw [holdsAll, holds_missing hlt defined hidden, pure_bind]
      by_cases h : args.length ≤ arity <;> simp [holdsAll, h]
    next hge =>
      have hle : args.length ≤ arity := by omega
      simp [holdsAll, hle]
  rw [arityTests, holdsAll_append, hfront, pure_bind, hback]
  by_cases h : arity ≤ args.length
  · simpa [h] using congrArg pure (decide_eq_decide.mpr ⟨fun h' => by omega, fun h' => by omega⟩)
  · simpa [h] using congrArg pure (by simp; omega)

theorem enter_requiring (arm : Arm) (tests : List Expr) (env : M.Env) :
    M.enter (arm.requiring tests) env =
      (do if ← M.holdsAll tests env then M.enter arm env else return none) := by
  rw [enter, Arm.requiring, holdsAll_append, bind_assoc]
  congr 1
  funext b
  cases b
  · simp
  · simp [enter]

/-- Behind the tests of their arities, only the clauses of the arity of the call are tried. -/
theorem select_requiring {most : Nat} (hargs : args.length ≤ most)
    (defined : ∀ a ∈ args, a ≠ M.undefined) (hidden : env.get? "undefined" = none)
    {arms : List (ClauseParts × Arm)} (harities : ∀ p ∈ arms, p.1.patterns.length ≤ most)
    (failure : M.Env → M.Step) :
    M.select failure (arms.map fun p => p.2.requiring (arityTests p.1.patterns.length most))
        (M.argumentEnv most args env) =
      M.select failure ((arms.filter fun p => p.1.patterns.length == args.length).map (·.2))
        (M.argumentEnv most args env) := by
  induction arms with
  | nil => rfl
  | cons p arms ih =>
    obtain ⟨hp, harms⟩ := List.forall_mem_cons.mp harities
    rw [List.map_cons, select, enter_requiring, holdsAll_arityTests hp hargs defined hidden,
      pure_bind]
    by_cases h : p.1.patterns.length = args.length
    · simp only [h, decide_true, if_true, beq_self_eq_true, List.filter_cons_of_pos, List.map_cons,
        select, ih harms]
      rfl
    · simp [h, ih harms]

end Arities

end Target.Machine

section Functions

variable {c : Config} {s s' : State}

theorem withAttributes_bind_pure {α β : Type} (versions : Option (NameTable Nat)) (x : LowerM α)
    (f : α → β) :
    withAttributes versions (x >>= fun a => pure (f a)) =
      withAttributes versions x >>= fun a => pure (f a) := by
  cases versions with
  | none => rfl
  | some versions =>
    funext c s
    show (let out := LowerM.bind x _ c (s.withAttributes versions)
      (out.1, out.2.withAttributes s.attributes)) = LowerM.bind (withAttributes _ x) _ c s
    dsimp only [LowerM.bind, withAttributes]
    rcases x c (s.withAttributes versions) with ⟨_ | _, _⟩ <;> rfl

/-- What a clause of that many patterns is tried on. -/
def argumentSubjects (arity : Nat) : List Expr :=
  (List.range arity).map fun i => .ident (paramName i)

/-- The arm is what the clause of a function is lowered to on the parameters. -/
def FunctionArm (c : Config) (clause : ClauseParts) (arm : Arm) : Prop :=
  ∃ s s', withAttributes clause.attributes
    (lowerArm clause (argumentSubjects clause.patterns.length)) c s = (.ok arm, s')

theorem FunctionArm.closed {clause : ClauseParts} {arm : Arm} (h : FunctionArm c clause arm)
    (closed : clause.body.Ensures Closed) : Stmt.lastIsTerminal arm.body = true := by
  obtain ⟨s, s', hrun⟩ := h
  exact (lowerArm_closed closed _).withAttributes c s arm s' hrun

/-- What is tested before the patterns of a clause. -/
def preconditions (overloaded : Bool) (most : Nat) (clause : ClauseParts) : List Expr :=
  if overloaded then arityTests clause.patterns.length most else []

/-- The blocks are those of the arms of the first clauses, which are all clauses unless all take
as many arguments and nothing falls through the last one. -/
theorem functionBlocks_arms {overloaded : Bool} {most : Nat} {clauses : List ClauseParts}
    {blocks : List Stmt}
    (hrun : functionBlocks overloaded most clauses c s = (.ok blocks, s')) :
    ∃ (tried : List (ClauseParts × Arm)) (omitted : List ClauseParts),
      clauses = tried.map (·.1) ++ omitted ∧
      blocks =
        (tried.map fun p => p.2.requiring (preconditions overloaded most p.1)).map Arm.block ∧
      (∀ p ∈ tried, FunctionArm c p.1 p.2) ∧
      (omitted = [] ∨ overloaded = false ∧
        ∃ front last, tried = front ++ [last] ∧ last.2.IsExhaustive) := by
  induction clauses generalizing s blocks with
  | nil =>
    obtain ⟨rfl, rfl⟩ := pure_run.mp hrun
    exact ⟨[], [], rfl, rfl, by simp, .inl rfl⟩
  | cons clause rest ih =>
    have hblock : functionBlocks overloaded most (clause :: rest) = (do
        let block ← withAttributes clause.attributes
          (clauseBlock (preconditions overloaded most clause) clause
            (argumentSubjects clause.patterns.length))
        if block.isTerminal && !overloaded then return [block]
        else return block :: (← functionBlocks overloaded most rest)) := rfl
    rw [hblock, clauseBlock_eq, withAttributes_bind_pure] at hrun
    simp only [bind_run, pure_run] at hrun
    obtain ⟨block, _, ⟨arm, _, harm, rfl, rfl⟩, hrun⟩ := hrun
    have hfirst : FunctionArm c clause arm := ⟨_, _, harm⟩
    split at hrun
    next hlast =>
      obtain ⟨hterminal, hsingle⟩ := Bool.and_eq_true_iff.mp hlast
      obtain rfl : overloaded = false := by simpa using hsingle
      obtain ⟨rfl, rfl⟩ := pure_run.mp hrun
      have hexhaustive : arm.IsExhaustive := Arm.isExhaustive_of_isTerminal hterminal
      exact ⟨[(clause, arm)], rest, rfl, rfl, by simpa using hfirst,
        .inr ⟨rfl, [], _, rfl, hexhaustive⟩⟩
    next =>
      simp only [bind_run, pure_run] at hrun
      obtain ⟨blocks, _, hblocks, rfl, rfl⟩ := hrun
      obtain ⟨tried, omitted, rfl, rfl, htried, hend⟩ := ih hblocks
      refine ⟨(clause, arm) :: tried, omitted, rfl, rfl,
        List.forall_mem_cons.mpr ⟨hfirst, htried⟩, hend.imp_right ?_⟩
      rintro ⟨hsingle, front, last, rfl, hlast⟩
      exact ⟨hsingle, (clause, arm) :: front, last, rfl, hlast⟩

/-- How many arguments callers may give: at most as many as some clause takes, and as many as all
of them take if they take the same number. -/
structure Callable (clauses : List ClauseParts) (count : Nat) : Prop where
  atMost : ∃ clause ∈ clauses, count ≤ clause.patterns.length
  exact : (∀ a ∈ clauses, ∀ b ∈ clauses, a.patterns.length = b.patterns.length) →
    ∀ clause ∈ clauses, clause.patterns.length = count

/-- Calling the function with arguments, none of which is undefined, selects the first of the
clauses that take as many: those that were lowered, and those that were left out, whatever they
would have been lowered to. -/
def DispatchSelects (c : Config) (clauses : List ClauseParts) (f : FunctionDef) : Prop :=
  ∃ (details : List Expr) (tried : List (ClauseParts × Arm)) (omitted : List ClauseParts),
    clauses = tried.map (·.1) ++ omitted ∧ (∀ p ∈ tried, FunctionArm c p.1 p.2) ∧
    ∀ (M : Machine) (args : List M.Value) (env : M.Env) (others : List Arm),
      others.length = omitted.length → Callable clauses args.length →
      (∀ a ∈ args, a ≠ M.undefined) → env.get? "undefined" = none →
      M.call f args env =
        M.select (M.throwing (RuntimeLibrary.error ⟨c.runtimeName⟩ "FunctionClauseError" details))
          (((tried ++ omitted.zip others).filter fun p => p.1.patterns.length == args.length).map
            (·.2))
          (M.bindParams f.params args env)

/-- Clauses of fewer than two arities take the same number of arguments. -/
theorem arity_eq_of_single {clauses : List ClauseParts}
    (h : ¬ 1 < (sortedDistinct (clauses.map (·.patterns.length))).length) :
    ∀ a ∈ clauses, ∀ b ∈ clauses, a.patterns.length = b.patterns.length := by
  intro a ha b hb
  have hmem : ∀ clause ∈ clauses,
      clause.patterns.length ∈ sortedDistinct (clauses.map (·.patterns.length)) :=
    fun clause hclause => mem_sortedDistinct.mpr (List.mem_map_of_mem hclause)
  generalize sortedDistinct (clauses.map (·.patterns.length)) = arities at h hmem
  match arities, h with
  | [], _ => cases hmem a ha
  | _ :: _ :: _, h => simp at h
  | [n], _ => rw [List.mem_singleton.mp (hmem a ha), List.mem_singleton.mp (hmem b hb)]

/-- The arms behind their preconditions, as `DispatchSelects` says. -/
theorem select_preconditions {overloaded : Bool} {most : Nat} {tried : List (ClauseParts × Arm)}
    {omitted : List ClauseParts}
    (hmost : ∀ clause ∈ tried.map (·.1) ++ omitted, clause.patterns.length ≤ most)
    (hsingle : overloaded = false → ∀ a ∈ tried.map (·.1) ++ omitted,
      ∀ b ∈ tried.map (·.1) ++ omitted, a.patterns.length = b.patterns.length)
    (hend : omitted = [] ∨ overloaded = false ∧
      ∃ front last, tried = front ++ [last] ∧ last.2.IsExhaustive)
    {M : Machine} {args : List M.Value} {env : M.Env} {others : List Arm}
    (hothers : others.length = omitted.length)
    (hcount : Callable (tried.map (·.1) ++ omitted) args.length)
    (defined : ∀ a ∈ args, a ≠ M.undefined) (hidden : env.get? "undefined" = none)
    (failure : M.Env → M.Step) :
    M.select failure (tried.map fun p => p.2.requiring (preconditions overloaded most p.1))
        (M.argumentEnv most args env) =
      M.select failure
        (((tried ++ omitted.zip others).filter
          fun p => p.1.patterns.length == args.length).map (·.2))
        (M.argumentEnv most args env) := by
  cases overloaded with
  | true =>
    obtain rfl : omitted = [] := by simpa using hend
    obtain ⟨longest, hlongest, hargs⟩ := hcount.atMost
    have harities : ∀ p ∈ tried, p.1.patterns.length ≤ most :=
      fun p hp => hmost p.1 (by simpa using ⟨p.2, hp⟩)
    simpa [preconditions] using M.select_requiring
      (Nat.le_trans hargs (hmost longest hlongest)) defined hidden harities failure
  | false =>
    have hexact := hcount.exact (hsingle rfl)
    have hfilter : (tried ++ omitted.zip others).filter
        (fun p => p.1.patterns.length == args.length) = tried ++ omitted.zip others := by
      refine List.filter_eq_self.mpr fun p hp => beq_iff_eq.mpr (hexact p.1 ?_)
      rcases List.mem_append.mp hp with hp | hp
      · exact List.mem_append_left _ (List.mem_map_of_mem hp)
      · exact List.mem_append_right _ (List.of_mem_zip hp).1
    have hleft : others = [] ∨
        ∃ front last, tried.map (·.2) = front ++ [last] ∧ last.IsExhaustive := by
      rcases hend with rfl | ⟨-, front, last, rfl, hlast⟩
      · exact .inl (List.length_eq_zero_iff.mp hothers)
      · exact .inr ⟨front.map (·.2), last.2, by simp, hlast⟩
    rw [hfilter, List.map_append, List.map_snd_zip (Nat.le_of_eq hothers), M.select_append hleft]
    rfl

/-- What a function that tries its clauses is made of. -/
theorem dispatch_run {name label : String} {clauses : List ClauseParts} {f : FunctionDef}
    (hrun : dispatch name label clauses c s = (.ok f, s')) :
    ∃ overloaded most details blocks,
      functionBlocks overloaded most clauses c s = (.ok blocks, s') ∧
      f = ⟨name, (List.range most).map paramName, closedBy
        (.throws (RuntimeLibrary.error ⟨c.runtimeName⟩ "FunctionClauseError" details)) blocks⟩ ∧
      (∀ clause ∈ clauses, clause.patterns.length ≤ most) ∧
      (overloaded = false →
        ∀ a ∈ clauses, ∀ b ∈ clauses, a.patterns.length = b.patterns.length) := by
  simp only [dispatch, bind_run, pure_run, library_run] at hrun
  obtain ⟨blocks, _, hblocks, lib, _, ⟨rfl, rfl⟩, rfl, rfl⟩ := hrun
  exact ⟨_, _, _, blocks, hblocks, rfl,
    fun clause hclause => le_getLast_sortedDistinct (List.mem_map_of_mem hclause),
    fun h => arity_eq_of_single (of_decide_eq_false h)⟩

theorem dispatch_selects {name label : String} {clauses : List ClauseParts} {f : FunctionDef}
    (closed : ∀ clause ∈ clauses, clause.body.Ensures Closed)
    (hrun : dispatch name label clauses c s = (.ok f, s')) : DispatchSelects c clauses f := by
  obtain ⟨overloaded, most, details, blocks, hblocks, rfl, hmost, hsingle⟩ := dispatch_run hrun
  obtain ⟨tried, omitted, rfl, rfl, htried, hend⟩ := functionBlocks_arms hblocks
  refine ⟨details, tried, omitted, rfl, htried,
    fun M args env others hothers hcount defined hidden => ?_⟩
  have hclosed : ∀ arm ∈ tried.map fun p => p.2.requiring (preconditions overloaded most p.1),
      Stmt.lastIsTerminal arm.body = true := by
    intro arm harm
    obtain ⟨p, hp, rfl⟩ := List.mem_map.mp harm
    exact (htried p hp).closed (closed p.1 (List.mem_append_left _ (List.mem_map_of_mem hp)))
  exact (M.execAll_closedBy hclosed _ _).trans
    (select_preconditions hmost hsingle hend hothers hcount defined hidden _)

end Functions

section PlainParameters

open Pattern

variable {c : Config} {s s' : State}

theorem cons_of_plainParams {pattern : Node} {patterns : List Node} {params : List String}
    (h : plainParams? (pattern :: patterns) = some params) :
    ∃ x rest, pattern = .var x ∧ plainParams? patterns = some rest ∧ x ≠ "_" ∧ x ∉ rest ∧
      params = x :: rest := by
  unfold plainParams? at h
  split at h
  · contradiction
  next x patterns' heq =>
    obtain ⟨rfl, rfl⟩ := List.cons.inj heq
    obtain ⟨rest, hrest, h⟩ := Option.bind_eq_some_iff.mp h
    split at h
    · cases h
    next hnew =>
      cases h
      obtain ⟨hname, hmem⟩ : x ≠ "_" ∧ x ∉ rest := by simpa using hnew
      exact ⟨x, rest, rfl, hrest, hname, hmem, rfl⟩
  · cases h

theorem length_of_plainParams {patterns : List Node} {params : List String}
    (h : plainParams? patterns = some params) : params.length = patterns.length := by
  induction patterns generalizing params with
  | nil =>
    cases h
    rfl
  | cons pattern patterns ih =>
    obtain ⟨x, rest, rfl, hrest, -, -, rfl⟩ := cons_of_plainParams h
    rw [List.length_cons, List.length_cons, ih hrest]

/-- Distinct variables test nothing and bind their subjects. -/
theorem compileAll_plain {env : Surroundings} {patterns : List Node} {params : List String}
    (h : plainParams? patterns = some params) {subjects : List Expr}
    (hlength : subjects.length = patterns.length) {plan : Plan}
    (hnew : ∀ x ∈ params, ∀ b ∈ plan.bindings, b.1 ≠ x) :
    compileAll env patterns subjects plan =
      .ok { plan with bindings := plan.bindings ++ params.zip subjects } := by
  induction patterns generalizing params subjects plan with
  | nil =>
    cases h
    simp [compileAll]
  | cons pattern patterns ih =>
    obtain ⟨x, rest, rfl, hrest, hname, hmem, rfl⟩ := cons_of_plainParams h
    obtain ⟨hx, hrestNew⟩ := List.forall_mem_cons.mp hnew
    match subjects with
    | [] => cases hlength
    | subject :: subjects =>
      have hlookup : plan.bindings.lookup x = none :=
        List.lookup_eq_none_iff.mpr fun b hb => by simpa using (hx b hb).symm
      have hfirst : compile env (.var x) subject plan = .ok (plan.bind x subject) := by
        rw [compile, compileVariable, if_neg hname, hlookup]
      have hnew' : ∀ y ∈ rest, ∀ b ∈ (plan.bind x subject).bindings, b.1 ≠ y := by
        intro y hy
        refine List.forall_mem_append.mpr ⟨hrestNew y hy, List.forall_mem_singleton.mpr ?_⟩
        rintro rfl
        exact hmem hy
      rw [compileAll, hfirst]
      show compileAll env patterns subjects _ = _
      rw [ih hrest (by simpa using hlength) hnew']
      simp [Plan.bind]

/-- A clause of plain variables: the names they get, and the body under them. -/
def plainParts (params : List String) (clause : ClauseParts) :
    LowerM (List String × List Stmt) := do
  let targets ← bindVariables params
  let body ← clause.body
  return (targets, body)

theorem lowerArm_plain {clause : ClauseParts} {params : List String} (hguards : clause.guards = [])
    (hparams : plainParams? clause.patterns = some params) :
    lowerArm clause (argumentSubjects clause.patterns.length) = (do
      let parts ← inScope (plainParts params clause)
      return {
        bindings := parts.1.zip (argumentSubjects clause.patterns.length)
        body := parts.2 }) := by
  have hlength : (argumentSubjects clause.patterns.length).length = clause.patterns.length := by
    simp [argumentSubjects]
  have hplan : LowerM.plan clause.patterns (argumentSubjects clause.patterns.length) =
      pure { bindings := params.zip (argumentSubjects clause.patterns.length) } := by
    funext c s
    rw [plan_run, compileAll_plain hparams hlength (by simp)]
    rfl
  have hnames : (params.zip (argumentSubjects clause.patterns.length)).map (·.1) = params :=
    List.map_fst_zip (Nat.le_of_eq (by rw [hlength, length_of_plainParams hparams]))
  have haccessors : (params.zip (argumentSubjects clause.patterns.length)).map (·.2) =
      argumentSubjects clause.patterns.length :=
    List.map_snd_zip (Nat.le_of_eq (by rw [hlength, length_of_plainParams hparams]))
  rw [lowerArm, ← inScope_bind_pure, plainParts, hplan, hguards]
  simp only [pure_bind, bind_assoc, LowerM.sequence, hnames, haccessors]

theorem plainFunction_eq (name : String) (params : List String) (clause : ClauseParts) :
    plainFunction name params clause = (do
      let parts ← withAttributes clause.attributes (plainParts params clause)
      return ⟨name, parts.1, parts.2⟩) := by
  rw [← withAttributes_bind_pure, plainParts]
  simp only [bind_assoc, pure_bind]
  rfl

/-- The function that tries a clause of plain variables on invented parameters. -/
theorem dispatch_plain (name label : String) {clause : ClauseParts} {params targets : List String}
    {body : List Stmt} (hguards : clause.guards = [])
    (hparams : plainParams? clause.patterns = some params)
    (hrun : withAttributes clause.attributes (plainParts params clause) c s =
      (.ok (targets, body), s')) :
    ∃ error s₁, dispatch name label [clause] c s =
      (.ok ⟨name, (List.range clause.patterns.length).map paramName, closedBy (.throws error)
        [Arm.block { bindings := targets.zip (argumentSubjects clause.patterns.length), body }]⟩,
        s₁) := by
  have hblocks : functionBlocks false clause.patterns.length [clause] = (do
      let block ← withAttributes clause.attributes
        (clauseBlock [] clause (argumentSubjects clause.patterns.length))
      return [block]) := by
    show (withAttributes clause.attributes (clauseBlock [] clause _) >>= fun block => _) = _
    congr 1
    funext block
    cases block.isTerminal <;> rfl
  have hscope : ∃ s₁, withAttributes clause.attributes (inScope (plainParts params clause)) c s =
      (.ok (targets, body), s₁) := by
    cases hattributes : clause.attributes with
    | none =>
      rw [hattributes] at hrun
      exact ⟨_, inScope_run.mpr ⟨s', hrun, rfl⟩⟩
    | some versions =>
      rw [hattributes] at hrun
      exact ⟨_, Prod.ext (Prod.mk.inj hrun).1 rfl⟩
  obtain ⟨s₁, hscope⟩ := hscope
  have hrunBlocks : functionBlocks false clause.patterns.length [clause] c s =
      (.ok [Arm.block { bindings := targets.zip (argumentSubjects clause.patterns.length), body }],
        s₁) := by
    rw [hblocks, clauseBlock_eq, lowerArm_plain hguards hparams]
    simp only [withAttributes_bind_pure, bind_assoc, pure_bind]
    exact bind_run.mpr ⟨_, s₁, hscope, rfl⟩
  exact ⟨_, s₁, bind_run.mpr ⟨_, s₁, hrunBlocks, rfl⟩⟩

/-- Constants that read names which they do not hide, in order. -/
theorem bindAll_idents {M : Machine} {names targets : List String} {values : List M.Value}
    {env : M.Env} (hread : ∀ p ∈ names.zip values, env.get? p.1 = some p.2)
    (hvalues : values.length = names.length) (htargets : targets.length = names.length)
    (hother : ∀ x ∈ names, x ∉ targets) :
    M.bindAll (targets.zip (names.map .ident)) env = pure (M.bindParams targets values env) := by
  induction names generalizing targets values env with
  | nil =>
    obtain rfl := List.length_eq_zero_iff.mp htargets
    rfl
  | cons x names ih =>
    match targets, values with
    | target :: targets, v :: values =>
      obtain ⟨hx, hnames⟩ := List.forall_mem_cons.mp hother
      obtain ⟨hfirst, hrest⟩ := List.forall_mem_cons.mp hread
      have hrest : ∀ p ∈ names.zip values, (env.set target v).get? p.1 = some p.2 := by
        intro p hp
        have hne : p.1 ≠ target := by
          rintro rfl
          exact hnames p.1 (List.of_mem_zip hp).1 List.mem_cons_self
        rw [NameTable.get?_set, if_neg hne, hrest p hp]
      have hothers : ∀ y ∈ names, y ∉ targets :=
        fun y hy hmem => hnames y hy (List.mem_cons_of_mem _ hmem)
      simp only [List.map_cons, List.zip_cons_cons, Machine.bindAll, M.eval_ident _ _ _ hfirst,
        pure_bind, Machine.bindParams]
      exact ih hrest (by simpa using hvalues) (by simpa using htargets) hothers

/-- The variables of a source never get the name of an invented parameter. -/
theorem targets_not_params {params targets : List String} (named : ∀ x ∈ params, IsSourceName x)
    (hrun : bindVariables params c s = (.ok targets, s')) (i : Nat) : paramName i ∉ targets := by
  intro hmem
  obtain ⟨x, hx, s₁, s₂, hbind⟩ := exists_of_mem_sequence hrun hmem
  exact Identifier.ofVariable_ne_invented (named x hx) (bindVariable_names hbind).1.symm

/-- Trying a clause of plain variables on invented parameters is running its body under the
variables, where the invented parameters are bound as well. -/
theorem call_dispatch_plain {M : Machine} {arity : Nat} {targets : List String} {body : List Stmt}
    {error : Expr} {name : String} (hlength : targets.length = arity)
    (hother : ∀ i, paramName i ∉ targets) (closed : Stmt.lastIsTerminal body = true)
    {args : List M.Value} (hargs : args.length = arity) (env : M.Env) :
    M.call ⟨name, (List.range arity).map paramName, closedBy (.throws error)
        [Arm.block { bindings := targets.zip (argumentSubjects arity), body }]⟩ args env =
      M.execAll body (M.bindParams targets args (M.argumentEnv arity args env)) := by
  have hclosed : ∀ arm ∈ [({ bindings := targets.zip (argumentSubjects arity), body } : Arm)],
      Stmt.lastIsTerminal arm.body = true := by simpa using closed
  have hsubjects : argumentSubjects arity = ((List.range arity).map paramName).map .ident := by
    simp [argumentSubjects]
  have hread : ∀ p ∈ ((List.range arity).map paramName).zip args,
      (M.argumentEnv arity args env).get? p.1 = some p.2 := by
    intro p hp
    obtain ⟨i, hi, rfl⟩ := List.mem_iff_getElem.mp hp
    have hi' : i < arity := by simpa [hargs] using hi
    simpa [hargs, hi'] using M.get?_argumentEnv hi' args env
  have hbound : M.bindAll (targets.zip (argumentSubjects arity)) (M.argumentEnv arity args env) =
      pure (M.bindParams targets args (M.argumentEnv arity args env)) := by
    rw [hsubjects]
    refine bindAll_idents hread (by simpa using hargs) (by simpa using hlength) fun x hx => ?_
    obtain ⟨i, -, rfl⟩ := List.mem_map.mp hx
    exact hother i
  refine (M.execAll_closedBy hclosed error (M.argumentEnv arity args env)).trans ?_
  rw [Machine.select, M.enter_of_isExhaustive ⟨rfl, rfl⟩]
  simp only [hbound, pure_bind]

end PlainParameters

/-- The function keeps the names of its variables as parameters. Trying its clause on invented
parameters, as `g` does, is calling it where those are bound as well. -/
def KeepsParameters (c : Config) (s : State) (clauses : List ClauseParts) (f g : FunctionDef) :
    Prop :=
  ∃ clause params s', clauses = [clause] ∧ clause.guards = [] ∧
    plainParams? clause.patterns = some params ∧
    withAttributes clause.attributes (plainParts params clause) c s =
      (.ok (f.params, f.body), s') ∧
    ((∀ x ∈ params, IsSourceName x) → ∀ (M : Machine) (args : List M.Value) (env : M.Env),
      args.length = params.length →
      M.call g args env = M.call f args (M.bindParams g.params args env))

theorem keepsParameters_of_plain {c : Config} {s s' : State} {name : String} (label : String)
    {clause : ClauseParts} {params : List String} {f : FunctionDef} (hguards : clause.guards = [])
    (hparams : plainParams? clause.patterns = some params)
    (closed : clause.body.Ensures Closed)
    (hrun : plainFunction name params clause c s = (.ok f, s')) :
    ∃ g s₁, dispatch name label [clause] c s = (.ok g, s₁) ∧ KeepsParameters c s [clause] f g := by
  rw [plainFunction_eq] at hrun
  simp only [bind_run, pure_run] at hrun
  obtain ⟨⟨targets, body⟩, _, hparts, rfl, rfl⟩ := hrun
  obtain ⟨error, s₁, hdispatch⟩ := dispatch_plain name label hguards hparams hparts
  refine ⟨_, s₁, hdispatch, clause, params, _, rfl, hguards, hparams, hparts,
    fun named M args env hargs => ?_⟩
  obtain ⟨s₂, s₃, -, hplain, -⟩ := withAttributes_names hparts
  simp only [plainParts, bind_run, pure_run] at hplain
  obtain ⟨_, s₄, htargets, _, s₅, hbody, hpair, -⟩ := hplain
  cases hpair
  have hlength : targets.length = clause.patterns.length := by
    rw [length_of_sequence htargets, List.length_map, length_of_plainParams hparams]
  exact call_dispatch_plain hlength (targets_not_params named htargets) (closed _ _ _ _ hbody).1
    (by rw [hargs, length_of_plainParams hparams]) env

/-- Clauses of three arities, out of order; the two of arity one differ in a guard. -/
def overloadedClauses : List ClauseParts :=
  [sourceClause [.var "x"] [.binaryOp ">" (.var "x") (.integer 0)] [.var "x"],
    sourceClause [] [] [.integer 0],
    sourceClause [.tuple [.var "x"], .var "y"] [] [.var "y"],
    sourceClause [.var "z"] [] [.nil]]

/-- A machine where no number exceeds another. -/
def nothingGreater : Machine :=
  .symbolic fun
    | .binary _ .gt _ => false
    | _ => true

end TreeLowering
