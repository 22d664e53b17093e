import TreeLowering.Clause
import TreeLowering.Proofs.Machine
import TreeLowering.Proofs.Run
import TreeLowering.Proofs.WellFormed

/-!
Clauses as they are tried.

An arm is what a clause is lowered to, by its parts: the tests of its patterns, the bindings, the
guards and the body. `Machine.select` says how arms are to be tried: the first one whose tests all
hold and that some guard admits runs its body, and no other body is run. The statements of a clause
do what `select` says because bodies leave: control reaches the next clause only if the body was not
run.
-/
namespace TreeLowering

open Source Target

structure Arm where
  tests : List Expr := []
  bindings : List (String × Expr) := []
  guards : List Expr := []
  body : List Stmt

namespace Arm

/-- The arm behind further tests. -/
def requiring (arm : Arm) (tests : List Expr) : Arm := { arm with tests := tests ++ arm.tests }

def declarations (arm : Arm) : List Stmt := arm.bindings.map fun (x, e) => .const x e

/-- The body behind the guards. -/
def guardedBody (arm : Arm) : List Stmt :=
  match Expr.any arm.guards with
  | some guard => [.when_ guard (.block arm.body)]
  | none => arm.body

/-- The statement of an arm. -/
def block (arm : Arm) : Stmt :=
  LowerM.behind (Expr.all arm.tests) (arm.declarations ++ arm.guardedBody)

/-- An arm that nothing falls through. -/
def IsExhaustive (arm : Arm) : Prop := arm.tests = [] ∧ arm.guards = []

theorem isExhaustive_of_isTerminal {arm : Arm} (h : arm.block.isTerminal = true) :
    arm.IsExhaustive := by
  obtain ⟨tests, bindings, guards, body⟩ := arm
  cases tests with
  | cons test tests => cases h
  | nil =>
    cases guards with
    | nil => exact ⟨rfl, rfl⟩
    | cons guard guards =>
      have hlast : Stmt.lastIsTerminal (declarations ⟨[], bindings, guard :: guards, body⟩ ++
          guardedBody ⟨[], bindings, guard :: guards, body⟩) = true := h
      rw [guardedBody, Expr.any, Expr.joined, Stmt.lastIsTerminal_concat] at hlast
      cases hlast

end Arm

namespace Target.Machine

variable (M : Machine)

/-- Whether all tests hold; those after one that fails are not evaluated. -/
def holdsAll : List Expr → M.Env → Run M.Store M.Value Bool
  | [], _ => pure true
  | test :: tests, env => do
    if ← M.holds test env then holdsAll tests env else return false

/-- Whether some test holds; those after one that does are not evaluated. -/
def holdsAny : List Expr → M.Env → Run M.Store M.Value Bool
  | [], _ => pure false
  | test :: tests, env => do
    if ← M.holds test env then return true else holdsAny tests env

/-- Declares the bindings in order. -/
def bindAll : List (String × Expr) → M.Env → Run M.Store M.Value M.Env
  | [], env => pure env
  | (x, e) :: rest, env => do
    let v ← M.eval e env
    bindAll rest (env.set x v)

/-- Whether no guard is given, or one of them holds. -/
def admits (guards : List Expr) (env : M.Env) : Run M.Store M.Value Bool :=
  if guards.isEmpty then pure true else M.holdsAny guards env

/-- The names under which the body of an arm runs, if the arm is the one to run: the bindings are
declared when the tests hold, and the guards are evaluated under them. -/
def enter (arm : Arm) (env : M.Env) : Run M.Store M.Value (Option M.Env) := do
  if ← M.holdsAll arm.tests env then
    let env ← M.bindAll arm.bindings env
    if ← M.admits arm.guards env then return some env else return none
  else return none

/-- Runs the body of the first arm that is entered, and the failure if there is none. -/
def select (failure : M.Env → M.Step) : List Arm → M.Env → M.Step
  | [], env => failure env
  | arm :: rest, env => do
    match ← M.enter arm env with
    | some inner => M.execAll arm.body inner
    | none => select failure rest env

/-- Throws the value of the expression. -/
def throwing (error : Expr) (env : M.Env) : M.Step := do throw (← M.eval error env)

section Operators

theorem holds_and (l r : Expr) (env : M.Env) :
    M.holds (.binary l .and r) env =
      (do if ← M.holds l env then M.holds r env else return false) := by
  simp only [holds, M.eval_and, bind_assoc, pure_bind]
  congr 1
  funext v
  cases hv : M.truthy v <;> simp [hv]

theorem holds_or (l r : Expr) (env : M.Env) :
    M.holds (.binary l .or r) env =
      (do if ← M.holds l env then return true else M.holds r env) := by
  simp only [holds, M.eval_or, bind_assoc, pure_bind]
  congr 1
  funext v
  cases hv : M.truthy v <;> simp [hv]

theorem bind_ite_pure (x : Run M.Store M.Value Bool) :
    (do if ← x then return true else return false) = x := by
  have hpure : (fun b => if b = true then pure true else pure false :
      Bool → Run M.Store M.Value Bool) = pure := by
    funext b
    cases b <;> rfl
  rw [hpure, bind_pure]

/-- The conjunction of tests holds as they do from the left. -/
theorem holds_all {tests : List Expr} {e : Expr} (h : Expr.all tests = some e) (env : M.Env) :
    M.holds e env = M.holdsAll tests env := by
  cases tests with
  | nil => cases h
  | cons first rest =>
    cases h
    rw [holdsAll]
    induction rest generalizing first with
    | nil => exact (M.bind_ite_pure _).symm
    | cons next rest ih =>
      rw [List.foldl_cons, ih, holds_and, holdsAll, bind_assoc]
      congr 1
      funext b
      cases b <;> simp

theorem holds_any {tests : List Expr} {e : Expr} (h : Expr.any tests = some e) (env : M.Env) :
    M.holds e env = M.holdsAny tests env := by
  cases tests with
  | nil => cases h
  | cons first rest =>
    cases h
    rw [holdsAny]
    induction rest generalizing first with
    | nil => exact (M.bind_ite_pure _).symm
    | cons next rest ih =>
      rw [List.foldl_cons, ih, holds_or, holdsAny, bind_assoc]
      congr 1
      funext b
      cases b <;> simp

end Operators

section Blocks

theorem execAll_singleton (s : Stmt) (env : M.Env) : M.execAll [s] env = M.exec s env := by
  have hnext : Completion.next (M.execAll []) = pure := by
    funext completion
    cases completion <;> simp [Completion.next, execAll]
  rw [execAll, hnext, bind_pure]

/-- Statements behind a test, where control goes on under the names from before. -/
theorem exec_behind (tests : List Expr) (body : List Stmt) (env : M.Env) :
    M.exec (LowerM.behind (Expr.all tests) body) env = (do
      if ← M.holdsAll tests env then return (← M.execAll body env).leave env
      else return .normal env) := by
  cases htest : Expr.all tests with
  | none =>
    cases tests with
    | nil => simp [LowerM.behind, exec, holdsAll]
    | cons => cases htest
  | some test =>
    rw [LowerM.behind, Stmt.when_, exec, M.holds_all htest]
    congr 1
    funext b
    cases b
    · rfl
    · simp only [if_true, exec, bind_assoc, pure_bind]
      congr 1
      funext completion
      cases completion <;> rfl

theorem execAll_declarations (arm : Arm) (env : M.Env) :
    M.execAll arm.declarations env = (do return .normal (← M.bindAll arm.bindings env)) := by
  rw [Arm.declarations]
  generalize arm.bindings = bindings
  induction bindings generalizing env with
  | nil => simp only [List.map_nil, execAll, bindAll, pure_bind]
  | cons b rest ih =>
    simp only [List.map_cons, execAll, bindAll, Stmt.const, exec, evalOption, bind_assoc, pure_bind,
      Completion.next]
    congr 1
    funext v
    exact ih _

theorem execAll_guardedBody {arm : Arm} (closed : Stmt.lastIsTerminal arm.body = true)
    (env : M.Env) :
    M.execAll arm.guardedBody env = (do
      if ← M.admits arm.guards env then M.execAll arm.body env else return .normal env) := by
  unfold Arm.guardedBody admits
  cases hguard : Expr.any arm.guards with
  | none =>
    cases hguards : arm.guards with
    | nil => simp
    | cons => simp [hguards, Expr.any, Expr.joined] at hguard
  | some guard =>
    have hguards : arm.guards.isEmpty = false := by
      cases hguards : arm.guards with
      | nil => simp [hguards, Expr.any, Expr.joined] at hguard
      | cons => rfl
    have hbody := M.execAll_leaves arm.body env closed
    have hblock : M.exec (.block arm.body) env = M.execAll arm.body env := by
      rw [exec]
      exact hbody.bind_leave env
    rw [execAll_singleton, Stmt.when_, exec, M.holds_any hguard, hguards, hblock]
    congr 1
    funext b
    cases b
    · rfl
    · exact hbody.bind_leave env

/-- The statement of an arm runs the body if the arm is entered, and does nothing else. -/
theorem exec_block {arm : Arm} (closed : Stmt.lastIsTerminal arm.body = true) (env : M.Env) :
    M.exec arm.block env = (do
      match ← M.enter arm env with
      | some inner => M.execAll arm.body inner
      | none => return .normal env) := by
  rw [Arm.block, exec_behind, enter, bind_assoc]
  congr 1
  funext b
  cases b
  · simp
  · rw [execAll_append, execAll_declarations]
    simp only [if_true, bind_assoc, pure_bind, Completion.next]
    congr 1
    funext inner
    rw [execAll_guardedBody M closed, bind_assoc]
    congr 1
    funext admitted
    cases admitted
    · simp [Completion.leave]
    · simpa using (M.execAll_leaves arm.body inner closed).bind_leave env

end Blocks

section Selection

/-- The statements of arms, and what follows them. -/
theorem execAll_blocks {arms : List Arm}
    (closed : ∀ arm ∈ arms, Stmt.lastIsTerminal arm.body = true) (rest : List Stmt) (env : M.Env) :
    M.execAll (arms.map Arm.block ++ rest) env = M.select (M.execAll rest) arms env := by
  induction arms generalizing env with
  | nil => rfl
  | cons arm arms ih =>
    obtain ⟨hclosed, harms⟩ := List.forall_mem_cons.mp closed
    rw [List.map_cons, List.cons_append, execAll, M.exec_block hclosed, select, bind_assoc]
    congr 1
    funext entered
    cases entered with
    | none => simpa [Completion.next] using ih harms env
    | some inner => exact (M.execAll_leaves arm.body inner hclosed).bind_next _

theorem enter_of_isExhaustive {arm : Arm} (h : arm.IsExhaustive) (env : M.Env) :
    M.enter arm env = (do return some (← M.bindAll arm.bindings env)) := by
  rw [enter, h.1, h.2]
  rfl

/-- Neither the arms after one that nothing falls through nor the failure matter. -/
theorem select_of_isExhaustive {front more more' : List Arm} {last : Arm} (h : last.IsExhaustive)
    (failure failure' : M.Env → M.Step) (env : M.Env) :
    M.select failure (front ++ last :: more) env =
      M.select failure' (front ++ last :: more') env := by
  induction front generalizing env with
  | nil => simp only [List.nil_append, select, M.enter_of_isExhaustive h, bind_assoc, pure_bind]
  | cons arm front ih =>
    simp only [List.cons_append, select]
    congr 1
    funext entered
    cases entered with
    | none => exact ih env
    | some inner => rfl

/-- Arms may be left out after one that nothing falls through. -/
theorem select_append {tried others : List Arm}
    (h : others = [] ∨ ∃ front last, tried = front ++ [last] ∧ last.IsExhaustive)
    (failure : M.Env → M.Step) (env : M.Env) :
    M.select failure (tried ++ others) env = M.select failure tried env := by
  rcases h with rfl | ⟨front, last, rfl, hlast⟩
  · rw [List.append_nil]
  · rw [List.append_assoc]
    exact M.select_of_isExhaustive hlast _ _ env

/-- Arms that end in a throw unless nothing falls through the last one. -/
theorem execAll_closedBy {arms : List Arm}
    (closed : ∀ arm ∈ arms, Stmt.lastIsTerminal arm.body = true) (error : Expr) (env : M.Env) :
    M.execAll (LowerM.closedBy (.throws error) (arms.map Arm.block)) env =
      M.select (M.throwing error) arms env := by
  unfold LowerM.closedBy
  split
  next hlast =>
    rw [Stmt.lastIsTerminal_eq, List.getLast?_map] at hlast
    obtain ⟨block, hblock, hterminal⟩ := (Option.any_eq_true _ _).mp hlast
    obtain ⟨last, hgetLast, rfl⟩ := Option.map_eq_some_iff.mp hblock
    obtain ⟨front, rfl⟩ := List.getLast?_eq_some_iff.mp hgetLast
    have hblocks := M.execAll_blocks closed [] env
    rw [List.append_nil] at hblocks
    rw [hblocks]
    exact M.select_of_isExhaustive (Arm.isExhaustive_of_isTerminal hterminal) _ _ env
  next =>
    have hthrow : M.execAll [.throws error] = M.throwing error := by
      funext env
      rw [execAll_singleton, exec, throwing]
    rw [M.execAll_blocks closed, hthrow]

end Selection

end Target.Machine

namespace LowerM

instance : LawfulMonad LowerM :=
  LawfulMonad.mk' LowerM
    (by
      intro α x
      funext c s
      show LowerM.bind x LowerM.pure c s = x c s
      unfold LowerM.bind
      split <;> simp_all [LowerM.pure])
    (fun _ _ => rfl)
    (by
      intro α β γ x f g
      funext c s
      show LowerM.bind (LowerM.bind x f) g c s = LowerM.bind x (fun a => LowerM.bind (f a) g) c s
      unfold LowerM.bind
      split
      next a s₁ h => split at h <;> simp_all
      next e s₁ h => split at h <;> simp_all)

theorem inScope_bind_pure {α β : Type} (x : LowerM α) (f : α → β) :
    inScope (x >>= fun a => pure (f a)) = inScope x >>= fun a => pure (f a) := by
  funext c s
  show (let out := LowerM.bind x _ c s; (out.1, { out.2 with scope := s.scope })) =
    LowerM.bind (inScope x) _ c s
  unfold LowerM.bind inScope
  rcases x c s with ⟨_ | _, _⟩ <;> rfl

/-- Bindings are declared under the names that their variables get, in order. -/
theorem declare_eq (bindings : List (String × Expr)) :
    declare bindings = (do
      let names ← bindVariables (bindings.map (·.1))
      return (names.zip (bindings.map (·.2))).map fun (x, e) => .const x e) := by
  induction bindings with
  | nil => rfl
  | cons b rest ih =>
    simp only [declare, bindVariables, List.map_cons, sequence, bind_assoc, pure_bind] at ih ⊢
    congr 1
    funext target
    rw [ih, bind_assoc]
    simp

/-- A clause on its subjects, by its parts. -/
def lowerArm (clause : ClauseParts) (subjects : List Expr) : LowerM Arm :=
  inScope do
    let plan ← plan clause.patterns subjects
    let names ← bindVariables (plan.bindings.map (·.1))
    let guards ← sequence clause.guards
    let body ← clause.body
    return ⟨plan.tests, names.zip (plan.bindings.map (·.2)), guards, body⟩

/-- The statement of a clause is that of its arm. -/
theorem clauseBlock_eq (preconditions : List Expr) (clause : ClauseParts) (subjects : List Expr) :
    clauseBlock preconditions clause subjects = (do
      let arm ← lowerArm clause subjects
      return (arm.requiring preconditions).block) := by
  rw [lowerArm, ← inScope_bind_pure, clauseBlock]
  congr 1
  simp only [declare_eq, bind_assoc, pure_bind]
  congr 1
  funext plan
  congr 1
  funext names
  cases hguards : clause.guards with
  | nil => simp [sequence, Arm.block, Arm.requiring, Arm.declarations, Arm.guardedBody, Expr.any,
      Expr.joined]
  | cons guard guards =>
    simp [sequence, Arm.block, Arm.requiring, Arm.declarations, Arm.guardedBody, Expr.any,
      Expr.joined]

end LowerM

end TreeLowering
