import TreeLowering.Proofs.Mirroring

/-!
Patterns, bodies and clauses inside of two modules.

A written pattern comes to the plan of the pattern, so the clauses of both modules are tested alike
and end alike, and the same ones are left out.
-/
namespace TreeLowering

open Source Target LowerM

variable {m m' : ModuleContext} {r : Reading}

section Patterns

open Pattern

variable {lib : RuntimeLibrary} {s : State}

theorem pinned_within (hr : r.Suits m m') (name : String) :
    Surroundings.pinned ⟨lib, s.within m'⟩ name = Surroundings.pinned ⟨lib, s.within m⟩ name :=
  congrArg Expr.ident (resolve_within hr s name)

theorem moduleValue_within (hr : r.Suits m m') (segments : List String) :
    Surroundings.moduleValue ⟨lib, s.within m'⟩ (r.module segments) =
      Surroundings.moduleValue ⟨lib, s.within m⟩ segments :=
  congrArg TreeLowering.moduleValue (resolveModule_within hr s segments)

theorem key_written (hr : r.Suits m m') {n : Node} {found : Expr}
    (h : key ⟨lib, s.within m⟩ n = .ok found) :
    key ⟨lib, s.within m'⟩ (n.written r) = .ok found := by
  cases hconstant : constant? n with
  | some value =>
    simp only [key, hconstant] at h
    simp only [key, (constant?_written r hconstant).1, h]
  | none =>
    simp only [key, hconstant] at h
    cases n with
    | moduleName segments =>
      cases h
      exact congrArg Except.ok (moduleValue_within hr segments)
    | pin operand =>
      cases operand with
      | var name =>
        cases h
        exact congrArg Except.ok (pinned_within hr name)
      | _ => cases h
    | _ => cases h

/-- A literal that is compared as it is. -/
theorem compile_constant {env : Surroundings} {n : Node} {value : Expr} (hexact : isExact n = true)
    (h : constant? n = some value) (subject : Expr) (plan : Plan) :
    compile env n subject plan = .ok (plan.require (.eq subject value)) := by
  have hliteral : compileConstant n subject plan = .ok (plan.require (.eq subject value)) := by
    simp only [compileConstant, h]
  cases n with
  | float => cases hexact
  | unaryOp op operand =>
    cases operand with
    | float => cases hexact
    | integer => simpa only [compile] using hliteral
    | _ => simp [constant?] at h
  | integer | string | boolean | nil | atom | binary => simpa only [compile] using hliteral
  | _ => cases h

/-- What is compiled, with its references written out. -/
def Pattern.Job.written (r : Reading) : Job → Job
  | .pattern n subject => .pattern (n.written r) subject
  | .items slot i ns => .items slot i (writtenAll r ns)
  | .entries subject es => .entries subject (writtenEntries r es)

/-- A written pattern comes to the same plan. -/
theorem compiled_written (hr : r.Suits m m') {job : Job} {plan plan' : Plan}
    (h : Compiled ⟨lib, s.within m⟩ job plan plan') :
    Compiled ⟨lib, s.within m'⟩ (job.written r) plan plan' := by
  induction h with
  | float => exact .float
  | negatedFloat => exact .negatedFloat
  | moduleName =>
    rw [← moduleValue_within hr]
    exact .moduleName
  | var => exact .var
  | pin =>
    rw [← pinned_within hr]
    exact .pin
  | constant hexact literal =>
    obtain ⟨hwritten, heq⟩ := constant?_written r literal
    exact .constant (heq.trans hexact) hwritten
  | tuple _ ih => exact .tuple (by rwa [length_writtenAll])
  | list _ ih => exact .list (by rwa [length_writtenAll])
  | cons _ _ ih₁ ih₂ =>
    exact .cons (by rwa [length_writtenAll]) (by rwa [length_writtenAll])
  | map _ ih => exact .map ih
  | struct _ _ ih₁ ih₂ => exact .struct ih₁ ih₂
  | both _ _ ih₁ ih₂ => exact .both ih₁ ih₂
  | start _ ih => exact .start ih
  | noItems => exact .noItems
  | item _ _ ih₁ ih₂ => exact .item ih₁ ih₂
  | noEntries => exact .noEntries
  | entry under _ _ ih₁ ih₂ => exact .entry (key_written hr under) ih₁ ih₂

def Pattern.Job.compile (env : Surroundings) : Job → Plan → Except LowerError Plan
  | .pattern n subject, plan => Pattern.compile env n subject plan
  | .items slot i ns, plan => compileItems env slot i ns plan
  | .entries subject es, plan => compileEntries env subject es plan

/-- What the rules allow is what compiling gives. -/
theorem compile_of_compiled {env : Surroundings} {job : Job} {plan plan' : Plan}
    (h : Compiled env job plan plan') : job.compile env plan = .ok plan' := by
  induction h with
  | float | negatedFloat | moduleName | var | pin | noItems | noEntries =>
    simp only [Job.compile, Pattern.compile, compileItems, compileEntries]
  | constant hexact literal => exact compile_constant hexact literal _ _
  | tuple _ ih | list _ ih | map _ ih | start _ ih => 
    rw [Job.compile, Pattern.compile]
    exact ih
  | cons _ _ ih₁ ih₂ | struct _ _ ih₁ ih₂ | both _ _ ih₁ ih₂ =>
    rw [Job.compile, Pattern.compile]
    exact bind_eq_ok_iff.mpr ⟨_, ih₁, ih₂⟩
  | item _ _ ih₁ ih₂ =>
    rw [Job.compile, compileItems]
    exact bind_eq_ok_iff.mpr ⟨_, ih₁, ih₂⟩
  | entry under _ _ ih₁ ih₂ =>
    rw [Job.compile, compileEntries]
    exact bind_eq_ok_iff.mpr ⟨_, under, bind_eq_ok_iff.mpr ⟨_, ih₁, ih₂⟩⟩

theorem compileAll_written (hr : r.Suits m m') {patterns : List Node} {subjects : List Expr}
    {plan plan' : Plan} (h : compileAll ⟨lib, s.within m⟩ patterns subjects plan = .ok plan') :
    compileAll ⟨lib, s.within m'⟩ (writtenAll r patterns) subjects plan = .ok plan' := by
  induction patterns generalizing subjects plan with
  | nil => exact h
  | cons n patterns ih =>
    cases subjects with
    | nil => exact h
    | cons subject subjects =>
      obtain ⟨middle, hfirst, hrest⟩ := exists_ok_of_bind h
      have hcompiled := (compiled_of_ok _).1 n subject plan middle hfirst
      exact bind_eq_ok_iff.mpr ⟨middle, compile_of_compiled (compiled_written hr hcompiled),
        ih hrest⟩

theorem mirrors_plan (hr : r.Suits m m') (patterns : List Node) (subjects : List Expr) :
    Mirrors m m' (plan patterns subjects) (plan (writtenAll r patterns) subjects) :=
  .library fun _ => .state fun _ => .ofExcept fun _ h => compileAll_written hr h

end Patterns

section Positions

variable {x x' : LowerM Expr}

theorem mirrors_bindPattern (hr : r.Suits m m') (pattern : Node) (hx : Mirrors m m' x x') :
    Mirrors m m' (bindPattern pattern x) (bindPattern (pattern.written r) x') := by
  have hgeneral : ∀ value, Mirrors m m' (bindPattern.general pattern value)
      (bindPattern.general (pattern.written r) value) := by
    intro value
    refine .bind (mirrors_hold "m" value) fun held => ?_
    refine .bind (mirrors_plan hr [pattern] [held.2]) fun plan => ?_
    have hdeclared : ∀ failure : List Stmt, Mirrors m m'
        (declare plan.bindings >>= fun declared => pure (held.1 ++ failure ++ declared, held.2))
        (declare plan.bindings >>= fun declared => pure (held.1 ++ failure ++ declared, held.2)) :=
      fun _ => .bind (mirrors_declare hr plan.bindings) fun _ => .pure _
    dsimp only
    split
    · exact .bind (.pure _) hdeclared
    · exact .library fun _ => .bind (.pure _) hdeclared
  refine .bind hx fun value => ?_
  cases pattern with
  | var name =>
    simp only [Node.written]
    split
    · exact hgeneral value
    · exact .bind (mirrors_bindVariable hr name) fun _ => .pure _
  | attributeRead key =>
    have hsame := hgeneral value
    rw [Node.written] at hsame ⊢
    cases hform : r.read key <;> rw [hform] at hsame <;> exact hsame
  | _ => exact hgeneral value

/-- Each position of the first node is mirrored by that of the second. -/
structure Positions.Mirrors (m m' : ModuleContext) (p p' : Positions) : Prop where
  value : LowerM.Mirrors m m' p.value p'.value
  tail : LowerM.Mirrors m m' p.tail p'.tail
  effect : LowerM.Mirrors m m' p.effect p'.effect

namespace Positions.Mirrors

variable {tail tail' effect effect' : LowerM (List Stmt)} {ps ps' qs qs' : List Positions}

theorem ofValue (h : LowerM.Mirrors m m' x x') : Mirrors m m' (.ofValue x) (.ofValue x') :=
  ⟨h, .bind h fun _ => .pure _, .bind h fun _ => .pure _⟩

theorem immediately (h : LowerM.Mirrors m m' tail tail') :
    LowerM.Mirrors m m' (LowerM.immediately tail) (LowerM.immediately tail') :=
  .bind (.inScope h) fun _ => .pure _

theorem ofStatements (htail : LowerM.Mirrors m m' tail tail')
    (heffect : LowerM.Mirrors m m' effect effect') :
    Mirrors m m' (.ofStatements tail effect) (.ofStatements tail' effect') :=
  ⟨immediately htail, htail, heffect⟩

theorem misplaced (what : Malformed) (p : Positions) : Mirrors m m' (.misplaced what) p := by
  have hfails : ∀ (f : Expr → LowerM (List Stmt)) c s stmts t,
      (malformed what >>= f) c s ≠ (.ok stmts, t) := by
    intro f c s stmts t hrun
    obtain ⟨_, _, hvalue, -⟩ := bind_run.mp hrun
    exact fail_run hvalue
  exact ⟨.fail _ _, .failed (hfails _) _, .failed (hfails _) _⟩

theorem body (h : List.Forall₂ (Mirrors m m') ps ps') :
    LowerM.Mirrors m m' (Positions.body ps) (Positions.body ps') := by
  induction h with
  | nil => exact .pure _
  | cons hfirst hrest ih =>
    cases hrest with
    | nil => exact hfirst.tail
    | cons hsecond hmore => exact .bind hfirst.effect fun _ => .bind ih fun _ => .pure _

theorem bodyValue (h : List.Forall₂ (Mirrors m m') ps ps') :
    LowerM.Mirrors m m' (Positions.bodyValue ps) (Positions.bodyValue ps') := by
  cases h with
  | nil => exact .pure _
  | cons hfirst hrest =>
    cases hrest with
    | nil => exact .inScope hfirst.value
    | cons hsecond hmore => exact immediately (body (.cons hfirst (.cons hsecond hmore)))

theorem binding (hr : r.Suits m m') (pattern : Node) (hx : LowerM.Mirrors m m' x x') :
    Mirrors m m' (.binding pattern x) (.binding (pattern.written r) x') :=
  .ofStatements (.bind (mirrors_bindPattern hr pattern hx) fun _ => .pure _)
    (.bind (mirrors_bindPattern hr pattern hx) fun _ => .pure _)

theorem sequenced (h : List.Forall₂ (Mirrors m m') ps ps') :
    Mirrors m m' (.sequenced ps) (.sequenced ps') := by
  refine .ofStatements (body h) (.concat ?_)
  rw [List.forall₂_map_left_iff, List.forall₂_map_right_iff]
  exact h.imp fun _ _ hp => hp.effect

theorem raising (hx : LowerM.Mirrors m m' x x') : Mirrors m m' (.raising x) (.raising x') :=
  .ofStatements (.bind hx fun _ => .pure _) (.bind hx fun _ => .pure _)

theorem closed (h : LowerM.Mirrors m m' tail tail') : Mirrors m m' (.closed tail) (.closed tail') :=
  .ofStatements h (.bind (immediately h) fun _ => .pure _)

theorem conditional (negated : Bool) (hx : LowerM.Mirrors m m' x x')
    (hthen : List.Forall₂ (Mirrors m m') ps ps') (helse : List.Forall₂ (Mirrors m m') qs qs') :
    Mirrors m m' (.conditional negated x ps qs) (.conditional negated x' ps' qs') := by
  have hvalue := ofValue (.bind hx fun test => .bind (bodyValue hthen) fun thenValue =>
    .bind (bodyValue helse) fun elseValue => .pure (Expr.conditional test
      (branches negated thenValue elseValue).1 (branches negated thenValue elseValue).2))
  refine ⟨hvalue.value, ?_, hvalue.effect⟩
  exact .bind hx fun _ => .bind (.inScope (body hthen)) fun _ =>
    .bind (.inScope (body helse)) fun _ => .pure _

end Positions.Mirrors

end Positions

section Clauses

/-- A clause with its references written out. The modules are those in which it is lowered, under
the attributes of its place. -/
structure ClauseParts.Mirrors (m m' : ModuleContext) (clause clause' : ClauseParts) : Prop where
  patterns : ∃ r : Reading, r.Suits (m.under clause.attributes) (m'.under clause'.attributes) ∧
    clause'.patterns = writtenAll r clause.patterns
  guards : List.Forall₂ (LowerM.Mirrors (m.under clause.attributes) (m'.under clause'.attributes))
    clause.guards clause'.guards
  body : LowerM.Mirrors (m.under clause.attributes) (m'.under clause'.attributes) clause.body
    clause'.body

variable {clause clause' : ClauseParts} {clauses clauses' : List ClauseParts}

theorem ClauseParts.Mirrors.length_patterns (h : clause.Mirrors m m' clause') :
    clause'.patterns.length = clause.patterns.length := by
  obtain ⟨r, -, hpatterns⟩ := h.patterns
  rw [hpatterns, length_writtenAll]

theorem ClauseParts.Mirrors.guards_isEmpty (h : clause.Mirrors m m' clause') :
    clause'.guards.isEmpty = clause.guards.isEmpty := by
  obtain ⟨_, guards, _, _⟩ := clause
  obtain ⟨_, guards', _, _⟩ := clause'
  cases h.guards <;> rfl

theorem ClauseParts.Mirrors.plainParams? (h : clause.Mirrors m m' clause') :
    TreeLowering.plainParams? clause'.patterns = TreeLowering.plainParams? clause.patterns := by
  obtain ⟨r, -, hpatterns⟩ := h.patterns
  rw [hpatterns, plainParams?_written]

theorem mirrors_clauseBlock (preconditions subjects : List Expr) (h : clause.Mirrors m m' clause') :
    LowerM.Mirrors (m.under clause.attributes) (m'.under clause'.attributes)
      (clauseBlock preconditions clause subjects) (clauseBlock preconditions clause' subjects) := by
  obtain ⟨r, hr, hpatterns⟩ := h.patterns
  unfold clauseBlock
  rw [hpatterns, h.guards_isEmpty]
  refine .inScope (.bind (mirrors_plan hr _ _) fun plan => ?_)
  refine .bind (mirrors_declare hr _) fun declared => ?_
  dsimp only
  split
  · exact .bind h.body fun _ => .pure _
  · exact .bind (.sequence h.guards) fun _ => .bind h.body fun _ => .pure _

/-- Clauses are read alike: those of the first module that have a head have one in the second. -/
def ReadsAlike (m m' : ModuleContext) (x x' : Except LowerError ClauseParts) : Prop :=
  ∀ clause, x = .ok clause → ∃ clause', x' = .ok clause' ∧ clause.attributes = none ∧
    clause'.attributes = none ∧ clause.Mirrors m m' clause'

theorem mirrors_caseBlocks (subject : Expr) {xs xs' : List (Except LowerError ClauseParts)}
    (h : List.Forall₂ (ReadsAlike m m') xs xs') :
    LowerM.Mirrors m m' (caseBlocks subject xs) (caseBlocks subject xs') := by
  induction h with
  | nil => exact .pure _
  | @cons x x' _ _ hfirst _ ih =>
    cases x with
    | error e => exact .failed (fun _ _ _ _ hrun => by cases hrun) _
    | ok clause =>
      obtain ⟨clause', rfl, hnone, hnone', hclause⟩ := hfirst clause rfl
      have hblock := mirrors_clauseBlock [] [subject] hclause
      rw [hnone, hnone'] at hblock
      rw [caseBlocks, caseBlocks, ofExcept_bind, ofExcept_bind, hclause.length_patterns]
      split
      · exact .fail _ _
      · refine .bind hblock fun block => ?_
        split
        · exact .pure _
        · exact .bind ih fun _ => .pure _

theorem mirrors_caseOf {x x' : LowerM Expr} {xs xs' : List (Except LowerError ClauseParts)}
    (hx : LowerM.Mirrors m m' x x') (h : List.Forall₂ (ReadsAlike m m') xs xs') :
    LowerM.Mirrors m m' (caseOf x xs) (caseOf x' xs') := by
  have hempty : xs'.isEmpty = xs.isEmpty := by cases h <;> rfl
  unfold caseOf
  rw [hempty]
  split
  · exact .fail _ _
  · refine .bind hx fun subject => .bind (mirrors_hold "case" subject) fun held => ?_
    exact .bind (mirrors_caseBlocks held.2 h) fun _ => .library fun _ => .pure _

/-- A branch of a `cond` with its references written out. -/
structure ConditionParts.Mirrors (r : Reading) (m m' : ModuleContext)
    (branch branch' : ConditionParts) : Prop where
  head : branch'.head = writtenAll r branch.head
  tests : List.Forall₂ (LowerM.Mirrors m m') branch.tests branch'.tests
  body : LowerM.Mirrors m m' branch.body branch'.body

theorem mirrors_condBranches {branches branches' : List ConditionParts}
    (h : List.Forall₂ (ConditionParts.Mirrors r m m') branches branches') :
    LowerM.Mirrors m m' (condBranches branches) (condBranches branches') := by
  induction h with
  | nil => exact .library fun _ => .pure _
  | @cons branch branch' _ _ hbranch _ ih =>
    obtain ⟨head, tests, body⟩ := branch
    obtain ⟨_, tests', body'⟩ := branch'
    obtain ⟨rfl, htests, hbody⟩ := hbranch
    rcases head with _ | ⟨condition, _ | ⟨second, more⟩⟩
    · exact .fail _ _
    · rcases htests with _ | ⟨htest, _ | ⟨_, _⟩⟩
      · exact .fail _ _
      · simp only [condBranches, writtenAll, isAlwaysTrue_written]
        split
        · exact .bind (.inScope hbody) fun _ => .pure _
        · exact .bind htest fun _ => .bind (.inScope hbody) fun _ => .bind ih fun _ => .pure _
      · exact .fail _ _
    · exact .fail _ _

theorem mirrors_cond {branches branches' : List ConditionParts}
    (h : List.Forall₂ (ConditionParts.Mirrors r m m') branches branches') :
    LowerM.Mirrors m m' (LowerM.cond branches) (LowerM.cond branches') := by
  have hempty : branches'.isEmpty = branches.isEmpty := by cases h <;> rfl
  unfold LowerM.cond
  rw [hempty]
  split
  · exact .fail _ _
  · exact mirrors_condBranches h

theorem mirrors_functionBlocks (overloaded : Bool) (most : Nat)
    (h : List.Forall₂ (ClauseParts.Mirrors m m') clauses clauses') :
    LowerM.Mirrors m m' (functionBlocks overloaded most clauses)
      (functionBlocks overloaded most clauses') := by
  induction h with
  | nil => exact .pure _
  | @cons clause clause' _ _ hclause _ ih =>
    simp only [functionBlocks, hclause.length_patterns]
    refine .bind (.withAttributes (mirrors_clauseBlock _ _ hclause)) fun block => ?_
    split
    · exact .pure _
    · exact .bind ih fun _ => .pure _

theorem lengths_eq (h : List.Forall₂ (ClauseParts.Mirrors m m') clauses clauses') :
    clauses'.map (·.patterns.length) = clauses.map (·.patterns.length) := by
  induction h with
  | nil => rfl
  | cons hclause _ ih => rw [List.map_cons, List.map_cons, hclause.length_patterns, ih]

theorem mirrors_dispatch (name label : String)
    (h : List.Forall₂ (ClauseParts.Mirrors m m') clauses clauses') :
    LowerM.Mirrors m m' (dispatch name label clauses) (dispatch name label clauses') := by
  unfold dispatch
  rw [lengths_eq h]
  exact .bind (mirrors_functionBlocks _ _ h) fun _ => .library fun _ => .pure _

theorem mirrors_plainFunction (name : String) (params : List String)
    (h : clause.Mirrors m m' clause') :
    LowerM.Mirrors m m' (plainFunction name params clause) (plainFunction name params clause') := by
  obtain ⟨r, hr, -⟩ := h.patterns
  exact .withAttributes (.bind (mirrors_bindVariables hr params) fun _ =>
    .bind h.body fun _ => .pure _)

theorem mirrors_clausesFunction (name label : String)
    (h : List.Forall₂ (ClauseParts.Mirrors m m') clauses clauses') :
    LowerM.Mirrors m m' (clausesFunction name label clauses)
      (clausesFunction name label clauses') := by
  have hdispatch := mirrors_dispatch name label h
  rcases h with _ | ⟨hclause, _ | ⟨_, _⟩⟩
  · exact hdispatch
  · simp only [clausesFunction, hclause.guards_isEmpty, hclause.plainParams?]
    split
    · split
      · exact mirrors_plainFunction name _ hclause
      · exact hdispatch
    · exact hdispatch
  · exact hdispatch

/-- Heads that are all read give their clauses and change nothing. -/
theorem sequence_ofExcept {α : Type} {xs : List (Except LowerError α)} {as : List α} {c : Config}
    {s t : State} : LowerM.sequence (xs.map LowerM.ofExcept) c s = (.ok as, t) ↔
      xs = as.map .ok ∧ t = s := by
  induction xs generalizing as with
  | nil =>
    exact pure_run.trans (and_congr_left fun _ => List.map_eq_nil_iff.symm.trans eq_comm)
  | cons x xs ih =>
    constructor
    · intro hrun
      obtain ⟨a, s₁, hfirst, hrun⟩ := bind_run.mp hrun
      obtain ⟨as, s₂, hrest, hrun⟩ := bind_run.mp hrun
      obtain ⟨rfl, rfl⟩ := pure_run.mp hrun
      rw [ofExcept_run] at hfirst
      cases hfirst
      obtain ⟨rfl, rfl⟩ := ih.mp hrest
      exact ⟨rfl, rfl⟩
    · rintro ⟨hxs, rfl⟩
      obtain ⟨a, as, rfl, rfl, rfl⟩ := List.map_eq_cons_iff.mp hxs.symm
      rw [List.map_cons, LowerM.sequence, ofExcept_bind, bind_of_ok (ih.mpr ⟨rfl, rfl⟩)]
      rfl

/-- The clauses of heads that are read alike. -/
theorem clauses_of_readsAlike {xs' : List (Except LowerError ClauseParts)}
    (h : List.Forall₂ (ReadsAlike m m') (clauses.map .ok) xs') :
    ∃ clauses' : List ClauseParts, xs' = clauses'.map .ok ∧
      List.Forall₂ (ClauseParts.Mirrors m m') clauses clauses' := by
  induction clauses generalizing xs' with
  | nil =>
    cases h
    exact ⟨[], rfl, .nil⟩
  | cons clause clauses ih =>
    cases h with
    | cons hfirst hrest =>
      obtain ⟨clause', rfl, -, -, hclause⟩ := hfirst clause rfl
      obtain ⟨clauses', rfl, hclauses⟩ := ih hrest
      exact ⟨clause' :: clauses', rfl, .cons hclause hclauses⟩

theorem mirrors_anonymousFunction {xs xs' : List (Except LowerError ClauseParts)}
    (h : List.Forall₂ (ReadsAlike m m') xs xs') :
    LowerM.Mirrors m m' (anonymousFunction xs) (anonymousFunction xs') := by
  intro c s value t hrun
  obtain ⟨clauses, s₁, hread, hrun⟩ := bind_run.mp hrun
  obtain ⟨rfl, rfl⟩ := sequence_ofExcept.mp hread
  obtain ⟨clauses', rfl, hclauses⟩ := clauses_of_readsAlike h
  rw [anonymousFunction, bind_of_ok (sequence_ofExcept.mpr ⟨rfl, rfl⟩)]
  have hfunction := mirrors_clausesFunction "" "anonymous fn" hclauses
  have hlengths := lengths_eq hclauses
  rcases hclauses with _ | @⟨first, first', rest, rest', hfirst, hrest⟩
  · exact (fail_run hrun).elim
  · obtain ⟨hfirstLength, hrestLengths⟩ := List.cons.inj hlengths
    have hany : (rest'.any fun c => c.patterns.length != first'.patterns.length) =
        rest.any fun c => c.patterns.length != first.patterns.length := by
      have hmapped := congrArg (List.any · (· != first.patterns.length)) hrestLengths
      simpa only [List.any_map, Function.comp_def, hfirstLength] using hmapped
    dsimp only at hrun ⊢
    rw [hany]
    split at hrun
    · exact (fail_run hrun).elim
    · rename_i hsame
      rw [if_neg hsame]
      exact LowerM.Mirrors.bind (.inScope hfunction) (fun _ => .pure _) hrun

end Clauses

section Comprehensions

/-- A qualifier with its references written out. -/
def QualifierParts.Mirrors (r : Reading) (m m' : ModuleContext) :
    QualifierParts → QualifierParts → Prop
  | .generator pattern collection, .generator pattern' collection' =>
    pattern' = pattern.written r ∧ LowerM.Mirrors m m' collection collection'
  | .filter test, .filter test' => LowerM.Mirrors m m' test test'
  | _, _ => False

variable {qualifiers qualifiers' : List QualifierParts} {body body' : LowerM Expr}

theorem mirrors_loops (hr : r.Suits m m') (accumulator : String)
    (hbody : LowerM.Mirrors m m' body body')
    (h : List.Forall₂ (QualifierParts.Mirrors r m m') qualifiers qualifiers') :
    LowerM.Mirrors m m' (loops accumulator body qualifiers)
      (loops accumulator body' qualifiers') := by
  induction h with
  | nil => exact .bind hbody fun _ => .pure _
  | @cons q q' _ _ hq _ ih =>
    cases q with
    | generator pattern collection =>
      cases q' with
      | filter => exact hq.elim
      | generator =>
        obtain ⟨rfl, hcollection⟩ := hq
        refine .bind hcollection fun _ => .library fun _ => ?_
        refine .bind (mirrors_invent "gen") fun item => ?_
        refine .bind (mirrors_plan hr [pattern] [.ident item]) fun plan => ?_
        exact .bind (mirrors_declare hr plan.bindings) fun _ => .bind ih fun _ => .pure _
    | filter test =>
      cases q' with
      | generator => exact hq.elim
      | filter => exact .bind hq fun _ => .bind ih fun _ => .pure _

theorem QualifierParts.Mirrors.isGenerator_eq {q q' : QualifierParts} (h : q.Mirrors r m m' q') :
    q'.isGenerator = q.isGenerator := by
  cases q with
  | generator => cases q' with
    | generator => rfl
    | filter => exact h.elim
  | filter => cases q' with
    | generator => exact h.elim
    | filter => rfl

theorem mirrors_comprehension (hr : r.Suits m m')
    (h : List.Forall₂ (QualifierParts.Mirrors r m m') qualifiers qualifiers')
    (hbody : LowerM.Mirrors m m' body body') {o o' : Option (LowerM Expr)}
    (ho : Option.Rel (LowerM.Mirrors m m') o o') :
    LowerM.Mirrors m m' (comprehension qualifiers body o) (comprehension qualifiers' body' o') := by
  have hstart : qualifiers'.head?.any (·.isGenerator) = qualifiers.head?.any (·.isGenerator) := by
    cases h with
    | nil => rfl
    | cons hq => exact hq.isGenerator_eq
  unfold comprehension
  rw [hstart]
  split
  · exact .fail _ _
  · refine .bind (.optional ho) fun into => .inScope (.bind (mirrors_invent "acc") fun acc => ?_)
    refine .bind (mirrors_loops hr acc hbody h) fun _ => ?_
    cases into with
    | none => exact .bind (.pure _) fun _ => .pure _
    | some => exact .library fun _ => .bind (.pure _) fun _ => .pure _

end Comprehensions

end TreeLowering
