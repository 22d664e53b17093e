import TreeLowering.Proofs.Arms
import TreeLowering.Proofs.WellFormedLowering

/-!
First match wins, in `case` and in `cond`.
-/
namespace TreeLowering

open Source Target LowerM Lowering

section Clauses

/-- A clause as it is lowered, from what its head was read as. -/
def sourceClause (patterns alternatives body : List Node) : ClauseParts where
  patterns
  guards := alternatives.map fun g => condition g (positions g).value
  body := Positions.body (all body)

theorem clauseParts_eq (clauses : List (Clause Node)) :
    clauseParts clauses = clauses.map fun clause => do
      let (patterns, alternatives) ← splitHead clause.head
      return sourceClause patterns alternatives clause.body := by
  induction clauses with
  | nil => rfl
  | cons clause rest ih =>
    obtain ⟨head, body⟩ := clause
    rw [clauseParts, ih, List.map_cons]
    congr 1
    cases hhead : splitHead head with
    | error e => rfl
    | ok read =>
      obtain ⟨patterns, alternatives⟩ := read
      show Except.ok _ = Except.ok _
      rw [headTests_eq hhead, sourceClause]

/-- The body of an arm that a clause with a closed body is lowered to is closed. -/
theorem lowerArm_closed {clause : ClauseParts} (h : clause.body.Ensures Closed)
    (subjects : List Expr) :
    (lowerArm clause subjects).Ensures fun arm => Stmt.lastIsTerminal arm.body = true :=
  .inScope <| .after fun _ => .after fun _ => .after fun _ => .bind h fun _ hbody => .pure hbody.1

theorem closed_sourceBody (body : List Node) : (Positions.body (all body)).Ensures Closed :=
  closed_body (wellFormed_all fun m _ => lowersWellFormed m)

end Clauses

/-- The arm is what the clause of a `case` is lowered to on its subject. -/
def CaseArm (c : Config) (subject : Expr) (clause : Clause Node) (arm : Arm) : Prop :=
  ∃ pattern alternatives s s', splitHead clause.head = .ok ([pattern], alternatives) ∧
    lowerArm (sourceClause [pattern] alternatives clause.body) [subject] c s = (.ok arm, s')

/-- The arm is what the clause of a `cond` is lowered to. -/
def CondArm (c : Config) (clause : Clause Node) (arm : Arm) : Prop :=
  ∃ test s s₁ s₂, clause.head = [test] ∧ arm.bindings = [] ∧ arm.guards = [] ∧
    (∃ lowered, arm.tests = [lowered] ∧
      condition test (positions test).value c s = (.ok lowered, s₁)) ∧
    inScope (Positions.body (all clause.body)) c s₁ = (.ok arm.body, s₂)

/-- Evaluates the subject and keeps it under a name; an identifier is kept by its own. -/
def Target.Machine.hold (M : Machine) (subject : Expr) (name : String) (env : M.Env) :
    Run M.Store M.Value M.Env :=
  match subject with
  | .ident _ => pure env
  | subject => do return env.set name (← M.eval subject env)

section Case

variable {c : Config} {s s' : State}

theorem CaseArm.closed {subject : Expr} {clause : Clause Node} {arm : Arm}
    (h : CaseArm c subject clause arm) : Stmt.lastIsTerminal arm.body = true := by
  obtain ⟨pattern, alternatives, s, s', -, hrun⟩ := h
  exact lowerArm_closed (closed_sourceBody clause.body) [subject] c s arm s' hrun

/-- The blocks are those of the arms of the first clauses, which are all clauses unless nothing
falls through the last one. -/
theorem caseBlocks_arms {subject : Expr} {clauses : List (Clause Node)} {blocks : List Stmt}
    (hrun : caseBlocks subject (clauseParts clauses) c s = (.ok blocks, s')) :
    ∃ (tried : List (Clause Node × Arm)) (omitted : List (Clause Node)),
      clauses = tried.map (·.1) ++ omitted ∧ blocks = tried.map (·.2.block) ∧
      (∀ p ∈ tried, CaseArm c subject p.1 p.2) ∧
      (omitted = [] ∨ ∃ front last, tried = front ++ [last] ∧ last.2.IsExhaustive) := by
  rw [clauseParts_eq] at hrun
  induction clauses generalizing s blocks with
  | nil =>
    obtain ⟨rfl, rfl⟩ := pure_run.mp hrun
    exact ⟨[], [], rfl, rfl, by simp, .inl rfl⟩
  | cons clause rest ih =>
    simp only [List.map_cons, caseBlocks, bind_run, ofExcept_run, Prod.mk.injEq] at hrun
    obtain ⟨parts, _, ⟨hparts, rfl⟩, hrun⟩ := hrun
    obtain ⟨⟨patterns, alternatives⟩, hhead, hparts⟩ := exists_ok_of_bind hparts
    cases hparts
    split at hrun
    · exact (fail_run hrun).elim
    next hone =>
      obtain ⟨pattern, rfl⟩ := List.length_eq_one_iff.mp (Decidable.not_not.mp hone)
      rw [clauseBlock_eq] at hrun
      simp only [bind_run, pure_run] at hrun
      obtain ⟨block, s₁, ⟨arm, _, harm, rfl, rfl⟩, hrun⟩ := hrun
      have hfirst : CaseArm c subject clause arm := ⟨pattern, alternatives, _, _, hhead, harm⟩
      split at hrun
      next hterminal =>
        obtain ⟨rfl, rfl⟩ := pure_run.mp hrun
        exact ⟨[(clause, arm)], rest, rfl, rfl, by simpa using hfirst,
          .inr ⟨[], _, rfl, Arm.isExhaustive_of_isTerminal hterminal⟩⟩
      · simp only [bind_run, pure_run] at hrun
        obtain ⟨blocks, _, hblocks, rfl, rfl⟩ := hrun
        obtain ⟨tried, omitted, rfl, rfl, htried, hend⟩ := ih hblocks
        refine ⟨(clause, arm) :: tried, omitted, rfl, rfl,
          List.forall_mem_cons.mpr ⟨hfirst, htried⟩, hend.imp_right ?_⟩
        rintro ⟨front, last, rfl, hlast⟩
        exact ⟨(clause, arm) :: front, last, rfl, hlast⟩

/-- The subject of a `case` is kept under an identifier before the clauses are tried. -/
theorem hold_execAll {stem : String} {value subject : Expr} {held : List Stmt}
    (hrun : LowerM.hold stem value c s = (.ok (held, subject), s')) :
    ∃ name, subject = .ident name ∧ (∀ x, value = .ident x → name = x) ∧
      ∀ (M : Machine) (rest : List Stmt) (env : M.Env),
        M.execAll (held ++ rest) env = M.hold value name env >>= M.execAll rest := by
  unfold LowerM.hold at hrun
  split at hrun
  next x =>
    obtain ⟨hpair, -⟩ := pure_run.mp hrun
    cases hpair
    refine ⟨x, rfl, fun y hy => by cases hy; rfl, fun M rest env => ?_⟩
    rw [List.nil_append, Machine.hold, pure_bind]
  next hother =>
    simp only [bind_run, pure_run] at hrun
    obtain ⟨name, _, -, hpair, -⟩ := hrun
    cases hpair
    refine ⟨name, rfl, fun x hx => (hother x hx).elim, fun M rest env => ?_⟩
    have hhold : M.hold value name env = (do return env.set name (← M.eval value env)) := by
      unfold Machine.hold
      split
      · exact (hother _ rfl).elim
      · rfl
    rw [hhold, List.singleton_append, Machine.execAll, Stmt.const, Machine.exec, bind_assoc,
      bind_assoc]
    simp only [Machine.evalOption, pure_bind, Completion.next]

theorem closedBy_append {failure : Stmt} {front back : List Stmt} (h : back ≠ []) :
    closedBy failure (front ++ back) = front ++ closedBy failure back := by
  have hlast : Stmt.lastIsTerminal (front ++ back) = Stmt.lastIsTerminal back := by
    rw [← List.dropLast_concat_getLast h]
    rw [← List.append_assoc, Stmt.lastIsTerminal_concat, Stmt.lastIsTerminal_concat]
  unfold closedBy
  rw [hlast]
  split
  · rfl
  · rw [List.append_assoc]

/-- Executing the statements of a `case` evaluates the subject, once unless it is an identifier,
and selects the first clause: those that were lowered, and those that were left out, whatever they
would have been lowered to. -/
def CaseSelects (c : Config) (s : State) (subject : Node) (clauses : List (Clause Node))
    (stmts : List Stmt) : Prop :=
  ∃ (value : Expr) (s₀ : State) (name : String) (tried : List (Clause Node × Arm))
    (omitted : List (Clause Node)),
    (positions subject).value c s = (.ok value, s₀) ∧ (∀ x, value = .ident x → name = x) ∧
    clauses = tried.map (·.1) ++ omitted ∧ (∀ p ∈ tried, CaseArm c (.ident name) p.1 p.2) ∧
    ∀ (M : Machine) (env : M.Env) (others : List Arm), others.length = omitted.length →
      M.execAll stmts env = M.hold value name env >>=
        M.select (M.throwing (RuntimeLibrary.error ⟨c.runtimeName⟩ "CaseClauseError" [.ident name]))
          (tried.map (·.2) ++ others)

theorem caseOf_selects {subject : Node} {clauses : List (Clause Node)} {stmts : List Stmt}
    (hrun : caseOf (positions subject).value (clauseParts clauses) c s = (.ok stmts, s')) :
    CaseSelects c s subject clauses stmts := by
  unfold caseOf at hrun
  split at hrun
  · exact (fail_run hrun).elim
  next hnonempty =>
    simp only [bind_run, pure_run, library_run] at hrun
    obtain ⟨value, s₀, hvalue, ⟨held, holder⟩, s₁, hheld, blocks, s₂, hblocks, lib, s₃,
      ⟨rfl, rfl⟩, rfl, rfl⟩ := hrun
    obtain ⟨name, rfl, hname, hexec⟩ := hold_execAll hheld
    obtain ⟨tried, omitted, rfl, rfl, htried, hend⟩ := caseBlocks_arms hblocks
    refine ⟨value, s₀, name, tried, omitted, hvalue, hname, rfl, htried,
      fun M env others hothers => ?_⟩
    have hsome : tried.map (·.2.block) ≠ [] := by
      rintro hnone
      obtain rfl := List.map_eq_nil_iff.mp hnone
      rcases hend with rfl | ⟨front, last, hlast, -⟩
      · exact hnonempty rfl
      · simp at hlast
    have hblocks : tried.map (·.2.block) = (tried.map (·.2)).map Arm.block := by
      rw [List.map_map]
      rfl
    have hclosed : ∀ arm ∈ tried.map (·.2), Stmt.lastIsTerminal arm.body = true := by
      intro arm harm
      obtain ⟨p, hp, rfl⟩ := List.mem_map.mp harm
      exact (htried p hp).closed
    have hothers : others = [] ∨
        ∃ front last, tried.map (·.2) = front ++ [last] ∧ last.IsExhaustive := by
      rcases hend with rfl | ⟨front, last, rfl, hlast⟩
      · exact .inl (List.length_eq_zero_iff.mp hothers)
      · exact .inr ⟨front.map (·.2), last.2, by simp, hlast⟩
    rw [closedBy_append hsome, hexec, hblocks]
    congr 1
    funext inner
    rw [M.execAll_closedBy hclosed, M.select_append hothers]

end Case

section Cond

variable {c : Config} {s s' : State}

/-- Executing the statements of a `cond` selects the first clause whose condition is truthy. -/
def CondSelects (c : Config) (clauses : List (Clause Node)) (stmts : List Stmt) : Prop :=
  ∃ (tried : List (Clause Node × Arm)) (omitted : List (Clause Node)),
    clauses = tried.map (·.1) ++ omitted ∧ (∀ p ∈ tried, CondArm c p.1 p.2) ∧
    ∀ (M : Machine) (env : M.Env) (others : List Arm), others.length = omitted.length →
      M.execAll stmts env =
        M.select (M.throwing (RuntimeLibrary.error ⟨c.runtimeName⟩ "CondClauseError" []))
          (tried.map (·.2) ++ others) env

/-- A condition that holds whatever happens is lowered to the constant. -/
theorem condition_of_isAlwaysTrue {test : Node} (h : isAlwaysTrue test = true) (c : Config)
    (s : State) : condition test (positions test).value c s = (.ok (.bool true), s) := by
  unfold isAlwaysTrue at h
  split at h
  · subst h
    simp only [positions]
    rfl
  · obtain rfl := beq_iff_eq.mp h
    simp only [positions]
    rfl
  · cases h

theorem enter_true (M : Machine) (body : List Stmt) (env : M.Env) :
    M.enter { tests := [.bool true], body } env = pure (some env) := by
  simp only [Machine.enter, Machine.holdsAll, Machine.holds, M.eval_bool, pure_bind,
    M.truthy_boolean, if_true, Machine.bindAll, Machine.admits, List.isEmpty_nil]

/-- A condition that holds whatever happens ends the clauses: its body is all that is emitted. -/
theorem condSelects_true {clause : Clause Node} {rest : List (Clause Node)} {body : List Stmt}
    (harm : CondArm c clause { tests := [.bool true], body })
    (closed : Stmt.lastIsTerminal body = true) : CondSelects c (clause :: rest) [.block body] := by
  refine ⟨[(clause, { tests := [.bool true], body })], rest, rfl, by simpa using harm,
    fun M env others _ => ?_⟩
  simp only [List.map_cons, List.map_nil, List.singleton_append, Machine.select, enter_true,
    pure_bind, Machine.execAll_singleton, Machine.exec]
  exact (M.execAll_leaves body env closed).bind_leave env

/-- A condition in front of the clauses after it. -/
theorem condSelects_cons {clause : Clause Node} {rest : List (Clause Node)} {test : Expr}
    {body branches : List Stmt} (harm : CondArm c clause { tests := [test], body })
    (closed : Stmt.lastIsTerminal body = true) (h : CondSelects c rest branches) :
    CondSelects c (clause :: rest) (.when_ test (.block body) :: branches) := by
  obtain ⟨tried, omitted, rfl, htried, hselects⟩ := h
  refine ⟨(clause, { tests := [test], body }) :: tried, omitted, rfl,
    List.forall_mem_cons.mpr ⟨harm, htried⟩, fun M env others hothers => ?_⟩
  have hfirst : M.execAll ([({ tests := [test], body } : Arm)].map Arm.block ++ branches) env =
      M.select (M.execAll branches) [{ tests := [test], body }] env :=
    M.execAll_blocks (by simpa using closed) branches env
  simp only [Machine.select, hselects M _ others hothers] at hfirst
  exact hfirst

theorem condBranches_selects {clauses : List (Clause Node)} {stmts : List Stmt}
    (hrun : condBranches (conditionParts clauses) c s = (.ok stmts, s')) :
    CondSelects c clauses stmts := by
  induction clauses generalizing s stmts with
  | nil =>
    rw [conditionParts, condBranches] at hrun
    simp only [bind_run, pure_run, library_run] at hrun
    obtain ⟨lib, _, ⟨rfl, rfl⟩, rfl, rfl⟩ := hrun
    refine ⟨[], [], rfl, by simp, fun M env others hothers => ?_⟩
    obtain rfl := List.length_eq_zero_iff.mp hothers
    rw [Machine.execAll_singleton, Machine.exec]
    rfl
  | cons clause rest ih =>
    obtain ⟨head, body⟩ := clause
    have hclosed := (closed_sourceBody body).inScope c
    rcases head with _ | ⟨test, _ | ⟨second, more⟩⟩
    · exact (fail_run (c := c) hrun).elim
    · simp only [conditionParts, condBranches, conditions] at hrun
      split at hrun
      next htrue =>
        simp only [bind_run, pure_run] at hrun
        obtain ⟨stmts, _, hbody, rfl, rfl⟩ := hrun
        exact condSelects_true ⟨test, _, _, _, rfl, rfl, rfl,
          ⟨_, rfl, condition_of_isAlwaysTrue htrue c s⟩, hbody⟩ (hclosed _ _ _ hbody).1
      next =>
        simp only [bind_run, pure_run] at hrun
        obtain ⟨lowered, s₁, htest, stmts, s₂, hbody, branches, _, hbranches, rfl, rfl⟩ := hrun
        exact condSelects_cons ⟨test, _, _, _, rfl, rfl, rfl, ⟨_, rfl, htest⟩, hbody⟩
          (hclosed _ _ _ hbody).1 (ih hbranches)
    · exact (fail_run (c := c) hrun).elim

end Cond

/-- A clause behind a chain of two guards, one that matches everything, and one behind it. -/
def guardedClauses : List (Clause Node) :=
  [⟨[.guarded [.tuple [.var "x", .var "y"]]
      (.guarded [.binaryOp ">" (.var "x") (.var "y")] (.call "odd" [.var "x"] {}))], [.var "x"]⟩,
    ⟨[.var "z"], [.var "z"]⟩,
    ⟨[.integer 3], [.nil]⟩]

/-- A machine where a comparison and a call are false, as both guards of the first clause are. -/
def guardsFail : Machine :=
  .symbolic fun
    | .binary _ .gt _ | .call _ _ => false
    | _ => true

end TreeLowering
