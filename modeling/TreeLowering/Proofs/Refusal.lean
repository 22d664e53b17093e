import TreeLowering.Proofs.Dispatch
import TreeLowering.Proofs.Grouping
import TreeLowering.Proofs.MirroringClauses
import TreeLowering.Proofs.OpenPatterns

/-!
Steps that have no result, and what fails with them.

A step that fails whatever the state makes every step around it fail, as long as that one comes to
run it. The rules of the lowering run all of their parts, with one kind of exception: where clauses
are tried in order, those behind a clause that nothing falls through are left out. Such a clause has
no guards and matches whatever there is (`closes_of_isTerminal`).
-/
namespace TreeLowering

open Source Target LowerM Lowering Pattern

namespace LowerM

/-- The step has no result, whatever the configuration and the state. -/
def Fails {α : Type} (x : LowerM α) : Prop := x.Ensures fun _ => False

namespace Fails

variable {α β : Type} {x : LowerM α} {f : α → LowerM β}

theorem bind (h : x.Fails) : (x >>= f).Fails := Ensures.bind h fun _ => False.elim

theorem after (h : ∀ a, (f a).Fails) : (x >>= f).Fails := Ensures.after h

theorem fail (e : LowerError) : (LowerM.fail e : LowerM α).Fails := Ensures.fail e

theorem inScope (h : x.Fails) : (LowerM.inScope x).Fails := Ensures.inScope h

theorem inFunction (h : x.Fails) : (LowerM.inFunction x).Fails := Ensures.inFunction h

theorem inModule {name functions : List String} (h : x.Fails) :
    (LowerM.inModule name functions x).Fails := Ensures.inModule h

theorem withAttributes {versions : Option (NameTable Nat)} (h : x.Fails) :
    (LowerM.withAttributes versions x).Fails := Ensures.withAttributes h

theorem sequence {xs : List (LowerM α)} (hx : x ∈ xs) (h : x.Fails) :
    (LowerM.sequence xs).Fails := by
  induction xs with
  | nil => cases hx
  | cons y ys ih =>
    rcases List.mem_cons.mp hx with rfl | hx
    · exact bind h
    · exact after fun _ => bind (ih hx)

theorem concat {x : LowerM (List α)} {xs : List (LowerM (List α))} (hx : x ∈ xs) (h : x.Fails) :
    (LowerM.concat xs).Fails := bind (sequence hx h)

theorem optional (h : x.Fails) : (LowerM.optional (some x)).Fails := bind h

theorem error (h : x.Fails) (c : Config) (s : State) : ∃ e, (x c s).1 = .error e := by
  cases hx : (x c s).1 with
  | error e => exact ⟨e, rfl⟩
  | ok a => exact (h c s a _ (Prod.ext hx rfl)).elim

end Fails

end LowerM

namespace Positions

/-- What is refused in every position. -/
structure Refused (p : Positions) : Prop where
  value : p.value.Fails
  tail : p.tail.Fails
  effect : p.effect.Fails

variable {p : Positions} {ps : List Positions}

theorem Refused.ofValue {value : LowerM Expr} (h : value.Fails) : (ofValue value).Refused :=
  ⟨h, .bind h, .bind h⟩

theorem Refused.ofStatements {tail effect : LowerM (List Stmt)} (htail : tail.Fails)
    (heffect : effect.Fails) : (ofStatements tail effect).Refused :=
  ⟨.bind (.inScope htail), htail, heffect⟩

theorem Refused.misplaced (what : Malformed) : (Positions.misplaced what).Refused :=
  .ofValue (.fail _)

theorem body_fails (hp : p ∈ ps) (h : p.Refused) : (body ps).Fails := by
  induction ps with
  | nil => cases hp
  | cons first rest ih =>
    cases rest with
    | nil =>
      obtain rfl := List.mem_singleton.mp hp
      exact h.tail
    | cons second rest =>
      rcases List.mem_cons.mp hp with rfl | hp
      · exact .bind h.effect
      · exact .after fun _ => .bind (ih hp)

theorem bodyValue_fails (hp : p ∈ ps) (h : p.Refused) : (bodyValue ps).Fails := by
  match ps with
  | [] => cases hp
  | [only] =>
    obtain rfl := List.mem_singleton.mp hp
    exact .inScope h.value
  | first :: second :: rest => exact .bind (.inScope (body_fails hp h))

theorem Refused.binding {pattern : Node} {value : LowerM Expr} (h : value.Fails) :
    (Positions.binding pattern value).Refused := by
  have hbind : (bindPattern pattern value).Fails := .bind h
  exact .ofStatements (.bind hbind) (.bind hbind)

theorem Refused.sequenced (hp : p ∈ ps) (h : p.Refused) : (Positions.sequenced ps).Refused :=
  .ofStatements (body_fails hp h) (.concat (List.mem_map_of_mem hp) h.effect)

theorem Refused.raising {value : LowerM Expr} (h : value.Fails) :
    (Positions.raising value).Refused :=
  .ofStatements (.bind h) (.bind h)

theorem Refused.closed {stmts : LowerM (List Stmt)} (h : stmts.Fails) :
    (Positions.closed stmts).Refused :=
  .ofStatements h (.bind (.bind (.inScope h)))

/-- An `if` is refused for its condition, or for something in either of its branches. -/
theorem Refused.conditional {negated : Bool} {test : LowerM Expr} {qs : List Positions}
    (h : test.Fails ∨ ∃ p, (p ∈ ps ∨ p ∈ qs) ∧ p.Refused) :
    (Positions.conditional negated test ps qs).Refused := by
  rcases h with h | ⟨p, hp | hp, h⟩
  · exact ⟨.bind h, .bind h, .bind (.bind h)⟩
  · have hvalue := bodyValue_fails hp h
    have hbody := body_fails hp h
    exact ⟨.after fun _ => .bind hvalue, .after fun _ => .bind (.inScope hbody),
      .bind (.after fun _ => .bind hvalue)⟩
  · have hvalue := bodyValue_fails hp h
    have hbody := body_fails hp h
    exact ⟨.after fun _ => .after fun _ => .bind hvalue,
      .after fun _ => .after fun _ => .bind (.inScope hbody),
      .bind (.after fun _ => .after fun _ => .bind hvalue)⟩

end Positions

section Clauses

/-- A guard of the clause fails, or its body does. -/
def ClauseParts.Fails (clause : ClauseParts) : Prop :=
  clause.body.Fails ∨ ∃ guard ∈ clause.guards, guard.Fails

/-- Nothing falls through the clause. -/
def ClauseParts.closes (clause : ClauseParts) : Bool :=
  clause.guards.isEmpty && matchAll clause.patterns

variable {clause : ClauseParts} {c : Config} {s s' : State}

theorem lowerArm_fails (h : clause.Fails) (subjects : List Expr) :
    (lowerArm clause subjects).Fails := by
  refine .inScope (.after fun _ => .after fun _ => ?_)
  rcases h with hbody | ⟨guard, hmem, hguard⟩
  · exact .after fun _ => .bind hbody
  · exact .bind (.sequence hmem hguard)

theorem clauseBlock_fails (h : clause.Fails) (preconditions subjects : List Expr) :
    (clauseBlock preconditions clause subjects).Fails := by
  rw [clauseBlock_eq]
  exact .bind (lowerArm_fails h subjects)

/-- Only a clause without guards that matches whatever there is ends in a statement that leaves. -/
theorem closes_of_isTerminal {subjects : List Expr} {block : Stmt}
    (hlength : clause.patterns.length = subjects.length)
    (hrun : clauseBlock [] clause subjects c s = (.ok block, s'))
    (hterminal : block.isTerminal = true) : clause.closes = true := by
  rw [clauseBlock_eq] at hrun
  simp only [bind_run, pure_run] at hrun
  obtain ⟨arm, _, harm, rfl, rfl⟩ := hrun
  obtain ⟨htests, hguards⟩ := Arm.isExhaustive_of_isTerminal hterminal
  simp only [lowerArm, inScope_run, bind_run, pure_run, LowerM.plan_run, Prod.mk.injEq] at harm
  obtain ⟨_, ⟨plan, _, ⟨hplan, rfl⟩, names, _, -, guards, _, hsequence, body, _, -, rfl, -⟩, -⟩ :=
    harm
  have hnone : clause.guards.length = 0 := by
    rw [← length_of_sequence hsequence, List.length_eq_zero_iff]
    exact hguards
  rw [ClauseParts.closes, Bool.and_eq_true, List.isEmpty_iff_length_eq_zero]
  exact ⟨hnone, (tests_eq_nil_iff hlength hplan).mp htests⟩

/-- A `case` runs its clauses up to one that nothing falls through. -/
theorem caseBlocks_fails {subject : Expr} {before after : List (Except LowerError ClauseParts)}
    {read : Except LowerError ClauseParts} (hread : ∀ clause, read = .ok clause → clause.Fails)
    (hbefore : ∀ earlier ∈ before, ∀ clause, earlier = .ok clause → clause.closes = false) :
    (caseBlocks subject (before ++ read :: after)).Fails := by
  intro c s blocks s' hrun
  induction before generalizing s blocks s' with
  | nil =>
    simp only [List.nil_append, caseBlocks, bind_run, ofExcept_run, Prod.mk.injEq] at hrun
    obtain ⟨clause, _, ⟨hclause, rfl⟩, hrun⟩ := hrun
    split at hrun
    · exact fail_run hrun
    · obtain ⟨block, s₁, hblock, -⟩ := bind_run.mp hrun
      exact clauseBlock_fails (hread clause hclause) _ _ _ _ _ _ hblock
  | cons earlier before ih =>
    obtain ⟨hfirst, hrest⟩ := List.forall_mem_cons.mp hbefore
    simp only [List.cons_append, caseBlocks, bind_run, ofExcept_run, Prod.mk.injEq] at hrun
    obtain ⟨clause, _, ⟨hclause, rfl⟩, hrun⟩ := hrun
    split at hrun
    · exact fail_run hrun
    next hone =>
      obtain ⟨block, s₁, hblock, hrun⟩ := bind_run.mp hrun
      split at hrun
      next hterminal =>
        have hcloses := closes_of_isTerminal (Decidable.not_not.mp hone) hblock hterminal
        rw [hfirst clause hclause] at hcloses
        cases hcloses
      next =>
        obtain ⟨blocks, s₂, hblocks, -⟩ := bind_run.mp hrun
        exact ih hrest _ _ _ hblocks

/-- The clause of a `cond` whose condition is the constant `true`. -/
def ConditionParts.alwaysRuns (clause : ConditionParts) : Bool :=
  match clause.head with
  | [condition] => isAlwaysTrue condition
  | _ => false

/-- A `cond` runs its clauses up to one whose condition is the constant `true`, which is not itself
evaluated. -/
theorem condBranches_fails {before after : List ConditionParts} {clause : ConditionParts}
    (hclause : clause.body.Fails ∨
      clause.alwaysRuns = false ∧ ∃ test ∈ clause.tests, test.Fails)
    (hbefore : ∀ earlier ∈ before, earlier.alwaysRuns = false) :
    (condBranches (before ++ clause :: after)).Fails := by
  induction before with
  | nil =>
    rw [List.nil_append, condBranches]
    split
    next condition test hhead htests =>
      split
      next htrue =>
        rcases hclause with hbody | ⟨hruns, -⟩
        · exact .bind (.inScope hbody)
        · simp [ConditionParts.alwaysRuns, hhead, htrue] at hruns
      next =>
        rcases hclause with hbody | ⟨-, test', hmem, htest⟩
        · exact .after fun _ => .bind (.inScope hbody)
        · rw [htests, List.mem_singleton] at hmem
          exact .bind (hmem ▸ htest)
    next => exact .fail _
  | cons earlier before ih =>
    obtain ⟨hfirst, hrest⟩ := List.forall_mem_cons.mp hbefore
    rw [List.cons_append, condBranches]
    split
    next condition test hhead htests =>
      split
      next htrue => simp [ConditionParts.alwaysRuns, hhead, htrue] at hfirst
      next => exact .after fun _ => .after fun _ => .bind (ih hrest)
    next => exact .fail _

/-- A function runs its clauses up to one that nothing falls through, and all of them if they take
different numbers of arguments. -/
theorem functionBlocks_fails {overloaded : Bool} {before after : List ClauseParts}
    (hclause : clause.Fails)
    (hbefore : overloaded = true ∨ ∀ earlier ∈ before, earlier.closes = false) (most : Nat) :
    (functionBlocks overloaded most (before ++ clause :: after)).Fails := by
  intro c s blocks s' hrun
  induction before generalizing s blocks s' with
  | nil =>
    obtain ⟨block, s₁, hblock, -⟩ := bind_run.mp hrun
    exact (clauseBlock_fails hclause _ _).withAttributes _ _ _ _ hblock
  | cons earlier before ih =>
    obtain ⟨block, s₁, hblock, hrun⟩ := bind_run.mp hrun
    split at hrun
    next hlast =>
      obtain ⟨hterminal, hone⟩ := Bool.and_eq_true_iff.mp hlast
      have hone : overloaded = false := by simpa using hone
      rcases hbefore with hoverloaded | hbefore
      · rw [hone] at hoverloaded
        cases hoverloaded
      · have hcloses : earlier.closes = true := by
          rw [hone] at hblock
          refine LowerM.Ensures.withAttributes (P := fun block => block.isTerminal = true →
            earlier.closes = true) ?_ _ _ _ _ hblock hterminal
          intro c s block s' hrun
          exact closes_of_isTerminal (by simp) hrun
        rw [hbefore earlier List.mem_cons_self] at hcloses
        cases hcloses
    next =>
      obtain ⟨blocks, s₂, hblocks, -⟩ := bind_run.mp hrun
      exact ih (hbefore.imp_right fun h q hq => h q (List.mem_cons_of_mem _ hq)) _ _ _ hblocks

/-- The clauses do not all take as many arguments as the given one, or nothing closes before it. -/
def Reached (before after : List ClauseParts) (clause : ClauseParts) : Prop :=
  (∃ other ∈ before ++ clause :: after, other.patterns.length ≠ clause.patterns.length) ∨
    ∀ earlier ∈ before, earlier.closes = false

theorem dispatch_fails {before after : List ClauseParts} (hclause : clause.Fails)
    (hreached : Reached before after clause) (name label : String) :
    (dispatch name label (before ++ clause :: after)).Fails := by
  refine .bind (functionBlocks_fails hclause (hreached.imp_left ?_) _)
  rintro ⟨other, hother, hne⟩
  by_contra hone
  exact hne (arity_eq_of_single (by simpa using hone) other hother clause (by simp))

theorem clausesFunction_fails {before after : List ClauseParts} (hclause : clause.Fails)
    (hreached : Reached before after clause) (name label : String) :
    (clausesFunction name label (before ++ clause :: after)).Fails := by
  have hdispatch := dispatch_fails hclause hreached name label
  have hmem : clause ∈ before ++ clause :: after := by simp
  generalize before ++ clause :: after = clauses at hdispatch hmem
  unfold clausesFunction
  split
  next only =>
    obtain rfl := List.mem_singleton.mp hmem
    split
    next hguards =>
      split
      next params hparams =>
        rcases hclause with hbody | ⟨guard, hguard, -⟩
        · exact .withAttributes (.after fun _ => .bind hbody)
        · rw [List.isEmpty_iff.mp hguards] at hguard
          cases hguard
      next => exact hdispatch
    next => exact hdispatch
  next => exact hdispatch

theorem anonymousFunction_fails {before after : List (Except LowerError ClauseParts)}
    {read : Except LowerError ClauseParts} (hread : ∀ clause, read = .ok clause → clause.Fails)
    (hbefore : ∀ earlier ∈ before, ∀ clause, earlier = .ok clause → clause.closes = false) :
    (anonymousFunction (before ++ read :: after)).Fails := by
  intro c s e s' hrun
  obtain ⟨clauses, s₁, hclauses, hfunctions⟩ := bind_run.mp hrun
  obtain ⟨hall, -⟩ := sequence_ofExcept.mp hclauses
  obtain ⟨front, back, rfl, rfl, hback⟩ := List.append_eq_map_iff.mp hall
  obtain ⟨clause, rest, rfl, rfl, rfl⟩ := List.map_eq_cons_iff.mp hback
  have hfunction := clausesFunction_fails (hread clause rfl)
    (.inr fun earlier hmem => hbefore _ (List.mem_map_of_mem hmem) earlier rfl :
      Reached front rest clause) "" "anonymous fn"
  generalize front ++ clause :: rest = clauses at hfunctions hfunction
  split at hfunctions
  · exact fail_run hfunctions
  · split at hfunctions
    · exact fail_run hfunctions
    · exact Fails.bind (.inScope hfunction) _ _ _ _ hfunctions

end Clauses

/-- The head of a definition, as far as it matters to the other clauses of its function. -/
structure ClauseHead where
  name : String
  arity : Nat
  closes : Bool
deriving DecidableEq, Repr

/-- How the heads of definitions are read. -/
abbrev HeadReader := Node → Except LowerError (String × List Node × List Node)

def ClauseHead.of? (read : HeadReader) : Node → Option ClauseHead
  | .define _ head _ =>
    match read head with
    | .ok (name, patterns, alternatives) =>
      some ⟨name, patterns.length, alternatives.isEmpty && matchAll patterns⟩
    | .error _ => none
  | _ => none

/-- The item is behind a clause of its function that nothing falls through, and the function has
clauses of one arity only. -/
def isLeftOut (read : HeadReader) (body before : List Node) (n : Node) : Bool :=
  (ClauseHead.of? read n).any fun head =>
    ((body.filterMap (ClauseHead.of? read)).all fun other =>
      other.name != head.name || other.arity == head.arity) &&
    (before.filterMap (ClauseHead.of? read)).any fun other =>
      other.name == head.name && other.closes

section Modules

variable {name : List String} {body : List Node} {n : Node}

theorem takeItems_fails (hn : n ∈ body)
    (h : ∀ draft, (takeItem name draft (item (positions n) n)).Fails) (draft : ModuleDraft) :
    (takeItems name draft (items body)).Fails := by
  induction body generalizing draft with
  | nil => cases hn
  | cons first rest ih =>
    rw [items, takeItems]
    rcases List.mem_cons.mp hn with rfl | hn
    · exact .bind (h draft)
    · exact .after fun _ => ih hn _

/-- A module is refused for an item that cannot be taken. -/
theorem moduleDef_fails_of_item (hn : n ∈ body)
    (h : ∀ draft, (takeItem name draft (item (positions n) n)).Fails) :
    (moduleDef name body (items body)).Fails :=
  .inModule (.bind (takeItems_fails hn h {}))

theorem Takes.structs_subset {c : Config} {draft draft' : ModuleDraft} {s s' : State}
    (h : Takes name c draft s n draft' s') : draft.structs ⊆ draft'.structs := by
  cases h with
  | struct => exact List.subset_append_left _ _
  | _ => exact List.Subset.refl _

theorem structsFunctions_fails {draft : ModuleDraft} {fields : List (String × LowerM Expr)}
    {isException : Bool} (hmem : (fields, isException) ∈ draft.structs)
    {field : String × LowerM Expr} (hfield : field ∈ fields) (h : field.2.Fails) :
    (structsFunctions name draft).Fails := by
  have hdefaults : (structDefaults fields isException).Fails :=
    .bind (.sequence (List.mem_map_of_mem hfield) (.bind (.inFunction h)))
  rw [structsFunctions]
  rcases hstructs : draft.structs with _ | ⟨first, _ | ⟨second, rest⟩⟩
  · rw [hstructs] at hmem
    cases hmem
  · rw [hstructs] at hmem
    obtain rfl := List.mem_singleton.mp hmem
    exact .bind hdefaults
  · exact .fail _

/-- A module is refused for a default of its struct. -/
theorem moduleDef_fails_of_struct {fields : List (String × LowerM Expr)} {isException : Bool}
    (hn : n ∈ body) (hitem : item (positions n) n = .struct fields isException)
    {field : String × LowerM Expr} (hfield : field ∈ fields) (h : field.2.Fails) :
    (moduleDef name body (items body)).Fails := by
  intro c s m s' hrun
  obtain ⟨draft, s₁, generated, s₂, -, -, hdraft, hgenerated, -, -⟩ :=
    moduleDef_value (congrArg Prod.fst hrun)
  obtain ⟨front, back, rfl⟩ := List.append_of_mem hn
  obtain ⟨draft₁, t₁, draft₂, t₂, -, hstruct, hback⟩ := takeItems_split hdraft
  have htaken : (fields, isException) ∈ draft₂.structs := by
    rw [← takeItem_iff, hitem, takeItem] at hstruct
    obtain ⟨rfl, -⟩ := pure_run.mp hstruct
    simp
  have hkept : (fields, isException) ∈ draft.structs :=
    takeItems_keeps (P := fun draft => (fields, isException) ∈ draft.structs)
      (fun _ _ _ _ _ _ htakes hmem => htakes.structs_subset hmem) hback htaken
  exact structsFunctions_fails hkept hfield h _ _ _ _ hgenerated

theorem definitionsFrom_split {m : ModuleContext} {front back : List Node} {ds : List Definition}
    (h : definitionsFrom m (front ++ back) = .ok ds) :
    ∃ before after, definitionsFrom m front = .ok before ∧
      definitionsFrom (m.afterAll front) back = .ok after ∧ ds = before ++ after := by
  induction front generalizing m ds with
  | nil => exact ⟨[], ds, rfl, h, rfl⟩
  | cons n front ih =>
    cases hn : n.isDefinition with
    | false =>
      rw [List.cons_append, definitionsFrom_other m hn] at h
      obtain ⟨before, after, hbefore, hafter, rfl⟩ := ih h
      exact ⟨before, after, by rw [definitionsFrom_other m hn, hbefore], hafter, rfl⟩
    | true =>
      obtain ⟨visibility, head, body, rfl⟩ := exists_of_isDefinition hn
      obtain ⟨function, patterns, alternatives, more, hread, hmore, rfl⟩ :=
        definitionsFrom_define.mp h
      obtain ⟨before, after, hbefore, hafter, rfl⟩ := ih hmore
      exact ⟨_ :: before, after,
        definitionsFrom_define.mpr ⟨_, _, _, _, hread, hbefore, rfl⟩, hafter, rfl⟩

def Definition.head (d : Definition) : ClauseHead := ⟨d.name, d.arity, d.clause.closes⟩

theorem closes_definedClause (versions : NameTable Nat) (patterns alternatives body : List Node) :
    (definedClause versions patterns alternatives body).closes =
      (alternatives.isEmpty && matchAll patterns) := by
  cases alternatives <;> rfl

theorem heads_of_definitionsFrom {m : ModuleContext} {ns : List Node} {ds : List Definition}
    (h : definitionsFrom m ns = .ok ds) :
    ds.map Definition.head = ns.filterMap (ClauseHead.of? definitionHead) := by
  induction ns generalizing m ds with
  | nil =>
    cases h
    rfl
  | cons n ns ih =>
    cases hn : n.isDefinition with
    | false =>
      rw [definitionsFrom_other m hn] at h
      have hnone : ClauseHead.of? definitionHead n = none := by
        cases n with
        | define => cases hn
        | _ => rfl
      rw [List.filterMap_cons_none hnone, ih h]
    | true =>
      obtain ⟨visibility, head, body, rfl⟩ := exists_of_isDefinition hn
      obtain ⟨function, patterns, alternatives, more, hread, hmore, rfl⟩ :=
        definitionsFrom_define.mp h
      have hsome : ClauseHead.of? definitionHead (.define visibility head body) =
          some ⟨function, patterns.length, alternatives.isEmpty && matchAll patterns⟩ := by
        simp only [ClauseHead.of?, hread]
      rw [List.filterMap_cons_some hsome, List.map_cons, ih hmore, Definition.head,
        closes_definedClause]
      rfl

/-- A clause of a module is run unless it is left out. -/
theorem reached_of_isLeftOut {before after : List Definition} {d : Definition}
    {front back : List Node} (hbefore : before.map Definition.head =
      front.filterMap (ClauseHead.of? definitionHead))
    (hall : (before ++ d :: after).map Definition.head =
      (front ++ n :: back).filterMap (ClauseHead.of? definitionHead))
    (hhead : ClauseHead.of? definitionHead n = some d.head)
    (h : isLeftOut definitionHead (front ++ n :: back) front n = false) :
    Reached ((before.filter (·.name == d.name)).map (·.clause))
      ((after.filter (·.name == d.name)).map (·.clause)) d.clause := by
  rw [isLeftOut, hhead, Option.any_some, ← hall, ← hbefore, Bool.and_eq_false_iff] at h
  refine h.imp (fun hother => ?_) fun hnone => ?_
  · simp only [List.all_eq_false, List.mem_map, Bool.not_eq_true, Bool.or_eq_false_iff,
      bne_eq_false_iff_eq, beq_eq_false_iff_ne] at hother
    obtain ⟨_, ⟨other, hmem, rfl⟩, hname, harity⟩ := hother
    refine ⟨other.clause, ?_, harity⟩
    have hfiltered : other ∈ (before ++ d :: after).filter (·.name == d.name) :=
      List.mem_filter.mpr ⟨hmem, by simpa [Definition.head] using hname⟩
    have hclause := List.mem_map_of_mem (f := Definition.clause) hfiltered
    simpa [List.filter_append, List.filter_cons] using hclause
  · rw [List.any_map, List.any_eq_false] at hnone
    refine List.forall_mem_map.mpr fun earlier hearlier => ?_
    obtain ⟨hmem, hname⟩ := List.mem_filter.mp hearlier
    have hopen := hnone earlier hmem
    simpa [Definition.head, hname] using hopen

/-- A module is refused for a clause of one of its functions that is not left out. -/
theorem moduleDef_fails_of_definition {front back clauseBody : List Node} {visibility : Visibility}
    {head : Node}
    (hbody : body = front ++ .define visibility head clauseBody :: back)
    (hclause : ∀ function patterns alternatives versions,
      definitionHead head = .ok (function, patterns, alternatives) →
      (definedClause versions patterns alternatives clauseBody).Fails)
    (hrun : isLeftOut definitionHead body front (.define visibility head clauseBody) = false) :
    (moduleDef name body (items body)).Fails := by
  intro c s m s' hmodule
  obtain ⟨draft, s₁, generated, s₂, functions, s₃, hdraft, -, hfunctions, -⟩ :=
    moduleDef_value (congrArg Prod.fst hmodule)
  have hcontext : (s.insideModule name (body.flatMap declaredFunctions)).context =
      some (s.entering name body) := rfl
  obtain ⟨ds, hds, hgroups⟩ :=
    takeItems_groups hcontext rfl compatible_nil (show _ = groupsOf [] from rfl) hdraft
  subst hbody
  obtain ⟨before, rest, hbefore, hrest, rfl⟩ := definitionsFrom_split hds
  obtain ⟨function, patterns, alternatives, after, hread, -, hdefinition⟩ :=
    definitionsFrom_define.mp hrest
  obtain ⟨d, versions, hd, rfl⟩ : ∃ (d : Definition) (versions : NameTable Nat),
      d = ⟨function, visibility, definedClause versions patterns alternatives clauseBody⟩ ∧
        rest = d :: after := ⟨_, _, rfl, hdefinition⟩
  have hhead : ClauseHead.of? definitionHead (.define visibility head clauseBody) =
      some d.head := by
    rw [hd, Definition.head, closes_definedClause]
    simp only [ClauseHead.of?, hread]
    rfl
  have hfails : d.clause.Fails := by
    rw [hd]
    exact hclause function patterns alternatives versions hread
  have hreached := reached_of_isLeftOut (heads_of_definitionsFrom hbefore)
    (heads_of_definitionsFrom hds) hhead hrun
  have hfunction := clausesFunction_fails hfails hreached (Identifier.escape d.name) d.name
  have hgroup : (⟨d.name, clausesNamed (before ++ d :: after) d.name⟩ : FunctionGroup) ∈
      draft.groups := by
    rw [hgroups, List.nil_append, groupsOf]
    exact List.mem_map.mpr ⟨d.name, List.mem_eraseDups.mpr (by simp), rfl⟩
  have hclauses : (clausesNamed (before ++ d :: after) d.name).map (·.2) =
      (before.filter (·.name == d.name)).map (·.clause) ++
        d.clause :: (after.filter (·.name == d.name)).map (·.clause) := by
    rw [clausesNamed, List.map_map, List.filter_append, List.filter_cons_of_pos (by simp),
      List.map_append, List.map_cons]
    rfl
  rw [← hclauses] at hfunction
  exact Fails.sequence (List.mem_map_of_mem hgroup) (.bind (.inFunction hfunction)) _ _ _ _
    hfunctions

end Modules

end TreeLowering
