import Mathlib.Data.List.Forall2
import TreeLowering.Proofs.EmissionPatterns

/-!
Bodies, bindings, clauses, functions and loops follow their outlines when their parts do.
-/
namespace TreeLowering.Scoping

open Source Target Pattern LowerM

variable {V A : String → Prop}

section Statements

variable {x : LowerM Expr} {stmts effect : LowerM (List Stmt)} {es fs : List Event}

theorem yields_returned (h : YieldsExpr V A x es) : YieldsStmts V A (Positions.returned x) es := by
  intro c kept s out s' hrun
  simp only [Positions.returned, bind_run, pure_run] at hrun
  obtain ⟨value, s₁, hvalue, rfl, rfl⟩ := hrun
  simpa using h c kept s value s' hvalue

theorem yields_evaluated (h : YieldsExpr V A x es) :
    YieldsStmts V A (Positions.evaluated x) es := by
  intro c kept s out s' hrun
  simp only [Positions.evaluated, bind_run, pure_run] at hrun
  obtain ⟨value, s₁, hvalue, rfl, rfl⟩ := hrun
  simpa using h c kept s value s' hvalue

theorem yields_immediately (h : YieldsStmts V A stmts es) :
    YieldsExpr V A (LowerM.immediately stmts) [.scope es] := by
  intro c kept s e s' hrun
  simp only [LowerM.immediately, bind_run, pure_run] at hrun
  obtain ⟨body, s₁, hbody, rfl, rfl⟩ := hrun
  simpa using Yields.inScope kept h hbody

theorem follows_ofValue (h : YieldsExpr V A x es) : Follows V A (.ofValue x) (.ofValue es) :=
  ⟨h, yields_returned h, yields_evaluated h⟩

theorem follows_ofStatements (htail : YieldsStmts V A stmts es)
    (heffect : YieldsStmts V A effect fs) :
    Follows V A (.ofStatements stmts effect) (.ofStatements es fs) :=
  ⟨yields_immediately htail, htail, heffect⟩

theorem follows_closed (h : YieldsStmts V A stmts es) :
    Follows V A (.closed stmts) (.closed es) :=
  follows_ofStatements h (yields_evaluated (yields_immediately h))

theorem follows_raising (h : YieldsExpr V A x es) : Follows V A (.raising x) (.raising es) := by
  have hthrown : YieldsStmts V A (do return [.throws (← x)]) es := by
    intro c kept s out s' hrun
    simp only [bind_run, pure_run] at hrun
    obtain ⟨value, s₁, hvalue, rfl, rfl⟩ := hrun
    simpa using h c kept s value s' hvalue
  exact follows_ofStatements hthrown hthrown

/-- A step that fails follows every outline. -/
theorem follows_misplaced (what : Malformed) (es : List Event) :
    Follows V A (.misplaced what) (.ofValue es) :=
  follows_ofValue fun _ _ _ _ _ hrun => (fail_run hrun).elim

end Statements

section Bodies

variable {ps qs : List Positions} {os rs : List Outline}

theorem yields_body (h : List.Forall₂ (Follows V A) ps os) :
    YieldsStmts V A (Positions.body ps) (Outline.body os) := by
  induction h with
  | nil => exact .pure (by simp)
  | @cons p o ps os hfirst hrest ih =>
    cases hrest with
    | nil => exact hfirst.tail
    | cons hsecond hrest =>
      intro c kept s out s' hrun
      simp only [Positions.body, bind_run, pure_run] at hrun
      obtain ⟨stmts, s₁, hstmts, more, s₂, hmore, rfl, rfl⟩ := hrun
      rw [stmtsMarks_append]
      exact .append (hfirst.effect c kept s stmts s₁ hstmts) (ih c kept s₁ more s' hmore)

/-- In expression position nothing leaks, so a scope around a value changes nothing. -/
theorem yields_inScope_value {x : LowerM Expr} {es : List Event} (h : YieldsExpr V A x es) :
    YieldsExpr V A (LowerM.inScope x) es := by
  intro c kept s e s' hrun
  obtain ⟨s₁, hx, rfl⟩ := inScope_run.mp hrun
  have hemits := h c kept s e s₁ hx
  rwa [← hemits.leave_eq (flat_exprMarks e)] at hemits

theorem yields_bodyValue (h : List.Forall₂ (Follows V A) ps os) :
    YieldsExpr V A (Positions.bodyValue ps) (Outline.bodyValue os) := by
  cases h with
  | nil => exact .pure (by simp)
  | cons hfirst hrest =>
    cases hrest with
    | nil => exact yields_inScope_value hfirst.value
    | cons hsecond hrest => exact yields_immediately (yields_body (.cons hfirst (.cons hsecond hrest)))

theorem yields_concat {xs : List (LowerM (List Stmt))} {es : List Event}
    (h : YieldsEach V A xs stmtsMarks es) : YieldsStmts V A (LowerM.concat xs) es := by
  intro c kept s out s' hrun
  simp only [LowerM.concat, bind_run, pure_run] at hrun
  obtain ⟨parts, s₁, hparts, rfl, rfl⟩ := hrun
  have hmarks : stmtsMarks parts.flatten = parts.flatMap stmtsMarks := by
    clear hparts
    induction parts with
    | nil => rfl
    | cons part parts ih => simp [ih]
  rw [hmarks]
  exact h c kept s parts s' hparts

theorem follows_sequenced (h : List.Forall₂ (Follows V A) ps os) :
    Follows V A (.sequenced ps) (.sequenced os) := by
  refine follows_ofStatements (yields_body h) (yields_concat ?_)
  induction h with
  | nil => exact .nil
  | cons hfirst _ ih => exact .cons hfirst.effect ih

/-- Two parts in either order, the first of them lowered first. -/
theorem Emits.branches {c : Config} {kept : List (List String)} {n m k : Names}
    {es fs : List Event} {as bs : List Mark} (negated : Bool)
    (first : Emits c V A kept n es as m) (second : Emits c V A kept m fs bs k) (flat : Flat as)
    (flat' : Flat bs) :
    Emits c V A kept n ((Positions.branches negated es fs).1 ++ (Positions.branches negated es fs).2)
      ((Positions.branches negated as bs).1 ++ (Positions.branches negated as bs).2) k := by
  cases negated with
  | false => exact .append first second
  | true => exact .swap first second flat flat'

theorem follows_conditional {negated : Bool} {test : LowerM Expr} {es : List Event}
    (htest : YieldsExpr V A test es) (hthen : List.Forall₂ (Follows V A) ps os)
    (helse : List.Forall₂ (Follows V A) qs rs) :
    Follows V A (.conditional negated test ps qs) (.conditional negated es os rs) := by
  have hvalue : YieldsExpr V A (Positions.conditional negated test ps qs).value
      (Outline.conditional negated es os rs).value := by
    intro c kept s e s' hrun
    simp only [Positions.conditional, Positions.ofValue, bind_run, pure_run] at hrun
    obtain ⟨t, s₁, ht, a, s₂, ha, b, s₃, hb, rfl, rfl⟩ := hrun
    have hbranches := Emits.branches negated (yields_bodyValue hthen c kept s₁ a s₂ ha)
      (yields_bodyValue helse c kept s₂ b s' hb) (flat_exprMarks a) (flat_exprMarks b)
    have hemits := (htest c kept s t s₁ ht).append hbranches
    cases negated <;> simpa [Outline.conditional, Outline.ofValue, Positions.branches] using hemits
  refine ⟨hvalue, ?_, yields_evaluated hvalue⟩
  intro c kept s out s' hrun
  simp only [Positions.conditional, bind_run, pure_run] at hrun
  obtain ⟨t, s₁, ht, a, s₂, ha, b, s₃, hb, rfl, rfl⟩ := hrun
  have hemits := (htest c kept s t s₁ ht).append (Emits.branches negated
    (Yields.inScope kept (yields_body hthen) ha) (Yields.inScope kept (yields_body helse) hb)
    (flat_scope _) (flat_scope _))
  cases negated <;> simpa [Outline.conditional, Positions.branches] using hemits

end Bodies

section Matching

variable {c : Config} {kept : List (List String)} {n m k : Names} {s s' : State}

theorem optionMarks_test (plan : Plan) : optionMarks plan.test = exprsMarks plan.tests :=
  optionMarks_joined .and plan.tests

/-- A held value is an identifier, under which patterns are tried on it. -/
theorem hold_emits {stem : String} {value subject : Expr} {held : List Stmt} {es : List Event}
    (hstem : stem ∈ ["m", "case"]) (hvalue : Emits c V A kept n es (exprMarks value) (namesOf s))
    (hrun : LowerM.hold stem value c s = (.ok (held, subject), s')) :
    ∃ t, subject = .ident t ∧ ∀ {uses : List Event} {bs : List Mark} {k : Names},
      Emits c V A ([t] :: kept) (namesOf s') uses bs k →
      Emits c V A kept n [.hold es uses] (stmtsMarks held ++ bs) k := by
  unfold LowerM.hold at hrun
  split at hrun
  next t =>
    obtain ⟨hpair, rfl⟩ := pure_run.mp hrun
    obtain ⟨rfl, rfl⟩ := Prod.mk.inj hpair
    refine ⟨t, rfl, fun h => ?_⟩
    simpa using Emits.held (by simpa using hvalue) h
  next =>
    simp only [bind_run, pure_run] at hrun
    obtain ⟨t, s₁, ht, hpair, rfl⟩ := hrun
    obtain ⟨rfl, rfl⟩ := Prod.mk.inj hpair
    obtain ⟨rfl, hnames⟩ := invent_names ht
    refine ⟨_, rfl, fun h => ?_⟩
    rw [hnames] at h
    simpa using Emits.hold hvalue (flat_exprMarks value) hstem h

/-- The tests of a plan, then its bindings. -/
theorem Emits.tried {patterns : List Node} {held : List String} {as bs : List Mark}
    (named : ∀ p ∈ patterns, p.Named V A)
    (htests : ReadsOnly (MayRead c (held :: kept) n (pinnedNamesEach patterns)) as)
    (hbinds : Binds (MayRead c (held :: kept) n (pinnedNamesEach patterns)) n
      (namesBound patterns) bs m) :
    Emits c V A (held :: kept) n (tried patterns) (as ++ bs) m :=
  .append (.matching (by simp) htests.binds) (.matching (named_namesBound named) hbinds)

/-- The statements of a match: the value held, the error when it does not match, the bindings. -/
theorem bindPattern_general_run {pattern : Node} {value subject : Expr} {stmts : List Stmt}
    (hrun : LowerM.bindPattern.general pattern value c s = (.ok (stmts, subject), s')) :
    ∃ held plan failure declared s₁ s₂, LowerM.hold "m" value c s = (.ok (held, subject), s₁) ∧
      LowerM.plan [pattern] [subject] c s₁ = (.ok plan, s₂) ∧
      LowerM.declare plan.bindings c s₂ = (.ok declared, s') ∧
      stmts = held ++ failure ++ declared ∧
      (failure = [] ∨ ∃ test, plan.test = some test ∧ failure = [.when_ (.not test)
        (.throws (RuntimeLibrary.error ⟨c.runtimeName⟩ "MatchError" [subject]))]) := by
  simp only [LowerM.bindPattern.general, bind_run] at hrun
  obtain ⟨⟨held, subject'⟩, s₁, hhold, plan, s₂, hplan, hrun⟩ := hrun
  cases htest : plan.test with
  | none =>
    simp only [htest, bind_run, pure_run] at hrun
    obtain ⟨failure, s₃, ⟨rfl, rfl⟩, declared, s₄, hdeclared, hpair, rfl⟩ := hrun
    obtain ⟨rfl, rfl⟩ := Prod.mk.inj hpair
    exact ⟨held, plan, [], declared, s₁, _, hhold, hplan, hdeclared, rfl, .inl rfl⟩
  | some test =>
    simp only [htest, bind_run, pure_run, library_run] at hrun
    obtain ⟨lib, s₃, ⟨rfl, rfl⟩, failure, s₄, ⟨rfl, rfl⟩, declared, s₅, hdeclared, hpair, rfl⟩ := hrun
    obtain ⟨rfl, rfl⟩ := Prod.mk.inj hpair
    exact ⟨held, plan, _, declared, s₁, _, hhold, hplan, hdeclared, rfl, .inr ⟨test, htest, rfl⟩⟩

theorem bindPattern_general_emits {pattern : Node} {value subject : Expr} {stmts : List Stmt}
    {es : List Event} (named : pattern.Named V A)
    (hvalue : Emits c V A kept n es (exprMarks value) (namesOf s))
    (hrun : LowerM.bindPattern.general pattern value c s = (.ok (stmts, subject), s')) :
    ∃ t, subject = .ident t ∧ ∀ {uses : List Event} {bs : List Mark} {k : Names},
      Emits c V A ([t] :: kept) (namesOf s') uses bs k →
      Emits c V A kept n [.hold es (Scoping.tried [pattern] ++ uses)] (stmtsMarks stmts ++ bs) k := by
  obtain ⟨held, plan, failure, declared, s₁, s₂, hhold, hplan, hdeclared, rfl, hfailure⟩ :=
    bindPattern_general_run hrun
  obtain ⟨t, rfl, hheld⟩ := hold_emits (by simp) hvalue hhold
  obtain ⟨rfl, hnames, hreads⟩ := plan_reads kept [t] [t] hplan (by simp) (by simp)
  have hfailures : ReadsOnly (MayRead c ([t] :: kept) (namesOf s₂) (pinnedNamesEach [pattern]))
      (stmtsMarks failure) := by
    rcases hfailure with rfl | ⟨test, htest, rfl⟩
    · simp
    · have hmarks := optionMarks_test plan
      rw [htest, optionMarks] at hmarks
      simpa [Expr.not, RuntimeLibrary.error, hmarks] using
        ⟨hreads.tests, .inr (.inr (runtimeName_mem_globals c)), .inl (List.mem_singleton_self t)⟩
  have hbinds := declare_binds hdeclared hreads.accessors
  rw [hnames] at hbinds
  refine ⟨t, rfl, fun h => ?_⟩
  simpa using hheld ((Emits.tried (by simpa using named) hfailures hbinds).append h)

/-- `pattern = value`: the statements, and the value matched. -/
theorem bindPattern_emits {pattern : Node} {x : LowerM Expr} {es : List Event}
    {stmts : List Stmt} {subject : Expr} (named : pattern.Named V A) (hx : YieldsExpr V A x es)
    (hrun : LowerM.bindPattern pattern x c s = (.ok (stmts, subject), s')) :
    Emits c V A kept (namesOf s) (Outline.binding pattern es).effect (stmtsMarks stmts)
        (namesOf s') ∧
      Emits c V A kept (namesOf s) (Outline.binding pattern es).tail
        (stmtsMarks stmts ++ exprMarks subject) (namesOf s') := by
  simp only [LowerM.bindPattern, bind_run] at hrun
  obtain ⟨value, s₁, hvalue, hrun⟩ := hrun
  have hvalue := hx c kept s value s₁ hvalue
  have hgeneral : LowerM.bindPattern.general pattern value c s₁ = (.ok (stmts, subject), s') →
      Emits c V A kept (namesOf s) (Outline.binding.general es pattern).effect (stmtsMarks stmts)
          (namesOf s') ∧
        Emits c V A kept (namesOf s) (Outline.binding.general es pattern).tail
          (stmtsMarks stmts ++ exprMarks subject) (namesOf s') := by
    intro hrun
    obtain ⟨t, rfl, hemits⟩ := bindPattern_general_emits named hvalue hrun
    constructor
    · simpa [Outline.binding.general, Outline.ofStatements] using hemits .nil
    · simpa [Outline.binding.general, Outline.ofStatements] using hemits (.use rfl (.inl rfl))
  split at hrun
  next name =>
    split at hrun
    next hname => simpa [Outline.binding, hname] using hgeneral hrun
    next hname =>
      simp only [bind_run, pure_run] at hrun
      obtain ⟨target, s₂, htarget, hpair, rfl⟩ := hrun
      obtain ⟨rfl, rfl⟩ := Prod.mk.inj hpair
      obtain ⟨rfl, hnames⟩ := bindVariable_names htarget
      have hbound := hvalue.append (.bind named.var)
      have hread := hvalue.append (.append (.bind named.var) (.read (x := name)))
      rw [Names.resolve_bind_self] at hread
      simpa [Outline.binding, hname, hnames, Outline.ofStatements] using ⟨hbound, hread⟩
  next hvar =>
    unfold Outline.binding
    split
    · exact (hvar _ rfl).elim
    · exact hgeneral hrun

theorem follows_binding {pattern : Node} {x : LowerM Expr} {es : List Event}
    (named : pattern.Named V A) (hx : YieldsExpr V A x es) :
    Follows V A (.binding pattern x) (.binding pattern es) := by
  have htail : YieldsStmts V A (Positions.binding pattern x).tail
      (Outline.binding pattern es).tail := by
    intro c kept s out s' hrun
    simp only [Positions.binding, Positions.ofStatements, bind_run, pure_run] at hrun
    obtain ⟨⟨stmts, subject⟩, s₁, hbind, rfl, rfl⟩ := hrun
    simpa using (bindPattern_emits named hx hbind).2
  have heffect : YieldsStmts V A (Positions.binding pattern x).effect
      (Outline.binding pattern es).effect := by
    intro c kept s out s' hrun
    simp only [Positions.binding, Positions.ofStatements, bind_run, pure_run] at hrun
    obtain ⟨⟨stmts, subject⟩, s₁, hbind, rfl, rfl⟩ := hrun
    exact (bindPattern_emits named hx hbind).1
  have hvalue : (Outline.binding pattern es).value = [.scope (Outline.binding pattern es).tail] := by
    unfold Outline.binding
    split
    · split <;> rfl
    · rfl
  refine ⟨?_, htail, heffect⟩
  rw [hvalue]
  exact yields_immediately htail

end Matching

/-- The clause of these parts follows the outline. -/
structure ClauseFollows (V A : String → Prop) (parts : ClauseParts) (o : ClauseOutline) :
    Prop where
  patterns : parts.patterns = o.patterns
  named : ∀ p ∈ o.patterns, p.Named V A
  guards : List.Forall₂ (YieldsExpr V A) parts.guards o.guards
  body : YieldsStmts V A parts.body o.body

section Clauses

variable {c : Config} {kept : List (List String)} {n m k : Names} {s s' : State}
  {held : List String}

theorem YieldsEach.ofForall₂ {xs : List (LowerM Expr)} {ess : List (List Event)}
    (h : List.Forall₂ (YieldsExpr V A) xs ess) : YieldsEach V A xs exprMarks ess.flatten := by
  induction h with
  | nil => exact .nil
  | cons hx _ ih => exact .cons hx ih

@[simp]
theorem stmtMarks_behind (test : Option Expr) (body : List Stmt) :
    stmtMarks (LowerM.behind test body) = optionMarks test ++ [.scope (stmtsMarks body)] := by
  cases test <;> simp [LowerM.behind]

theorem Emits.triedThen {patterns : List Node} {as bs ms : List Mark} {inner : List Event}
    (named : ∀ p ∈ patterns, p.Named V A)
    (htests : ReadsOnly (MayRead c (held :: kept) n (pinnedNamesEach patterns)) as)
    (hbinds : Binds (MayRead c (held :: kept) n (pinnedNamesEach patterns)) n
      (namesBound patterns) bs m)
    (hinner : Emits c V A (held :: kept) m inner ms k) :
    Emits c V A (held :: kept) n (triedThen patterns inner) (as ++ [.scope (bs ++ ms)])
      (n.leave k) :=
  .append (.matching (by simp) htests.binds)
    (.scope (.append (.matching (named_namesBound named) hbinds) hinner))

/-- One clause, tried on identifiers of the value kept last. -/
theorem clauseBlock_emits {preconditions : List Expr} {clause : ClauseParts} {o : ClauseOutline}
    {block : Stmt} (kept : List (List String)) (held subjects : List String) (h : ClauseFollows V A clause o)
    (hlength : clause.patterns.length ≤ subjects.length) (hheld : ∀ t ∈ subjects, t ∈ held)
    (hbefore : ReadsOnly (fun t => t ∈ held ∨ t ∈ globals c) (exprsMarks preconditions))
    (hrun : LowerM.clauseBlock preconditions clause (subjects.map .ident) c s = (.ok block, s')) :
    Emits c V A (held :: kept) (namesOf s) o.events (stmtMarks block) (namesOf s') := by
  simp only [LowerM.clauseBlock, inScope_run, bind_run] at hrun
  obtain ⟨s₁, ⟨plan, s₂, hplan, declared, s₃, hdeclared, hrun⟩, rfl⟩ := hrun
  obtain ⟨rfl, hnames, hreads⟩ := plan_reads kept held subjects hplan hlength hheld
  have hbinds := declare_binds hdeclared hreads.accessors
  rw [hnames, h.patterns] at hbinds
  have htests : ReadsOnly (MayRead c (held :: kept) (namesOf s₂) (pinnedNamesEach o.patterns))
      (optionMarks (Expr.all (preconditions ++ plan.tests))) := by
    rw [← h.patterns, Expr.all, optionMarks_joined, exprsMarks_append, readsOnly_append]
    refine ⟨fun mark hmark => ?_, hreads.tests⟩
    obtain ⟨t, ht, rfl⟩ := hbefore mark hmark
    exact ⟨t, ht.imp_right .inr, rfl⟩
  have hguards : clause.guards.isEmpty = o.guards.isEmpty := by
    rw [Bool.eq_iff_iff]
    simp [← List.length_eq_zero_iff, h.guards.length_eq]
  refine .taken ?_
  split at hrun
  next hempty =>
    simp only [bind_run, pure_run] at hrun
    obtain ⟨body, s₄, hbody, rfl, rfl⟩ := hrun
    have hbody := h.body c (held :: kept) s₃ body s₁ hbody
    rw [hguards] at hempty
    simpa [hempty] using Emits.triedThen h.named htests hbinds hbody
  next hempty =>
    simp only [bind_run, pure_run] at hrun
    obtain ⟨guards, s₄, hguard, body, s₅, hbody, rfl, rfl⟩ := hrun
    have hguard := (YieldsEach.ofForall₂ h.guards).exprs c (held :: kept) s₃ guards s₄ hguard
    have hbody := h.body c (held :: kept) s₄ body s₁ hbody
    rw [hguards] at hempty
    simpa [hempty, Expr.any, exprMarks_joined_getD] using
      Emits.triedThen h.named htests hbinds (hguard.append hbody.scope)

/-- A clause whose head can be read follows the outline. -/
abbrev ReadsAs (V A : String → Prop) (clause : Except LowerError ClauseParts) (o : ClauseOutline) :
    Prop :=
  ∀ parts, clause = .ok parts → ClauseFollows V A parts o

theorem Emits.omitAll (os : List ClauseOutline) :
    Emits c V A kept n (os.flatMap (·.events)) [] n := by
  induction os with
  | nil => exact .nil
  | cons o os ih => exact .append .omitted ih

theorem stmtsMarks_closedBy (failure : Stmt) (stmts : List Stmt) :
    ∃ ms, (ms = [] ∨ ms = stmtMarks failure) ∧
      stmtsMarks (LowerM.closedBy failure stmts) = stmtsMarks stmts ++ ms := by
  unfold LowerM.closedBy
  split
  · exact ⟨[], .inl rfl, by simp⟩
  · exact ⟨_, .inr rfl, by simp⟩

/-- The error thrown when no clause matches reads the value that was kept. -/
theorem Emits.failure {failure : Stmt} {ms : List Mark} (h : ms = [] ∨ ms = stmtMarks failure)
    (hreads : ReadsOnly (fun t => t ∈ held ∨ t ∈ globals c) (stmtMarks failure)) :
    Emits c V A (held :: kept) n [.matching [] []] ms n := by
  refine .matching (by simp) (ReadsOnly.binds fun mark hmark => ?_)
  rcases h with rfl | rfl
  · cases hmark
  · obtain ⟨t, ht, rfl⟩ := hreads mark hmark
    exact ⟨t, ht.imp_right .inr, rfl⟩

theorem caseBlocks_emits {clauses : List (Except LowerError ClauseParts)}
    {os : List ClauseOutline} {t : String} {blocks : List Stmt}
    (h : List.Forall₂ (ReadsAs V A) clauses os)
    (hrun : LowerM.caseBlocks (.ident t) clauses c s = (.ok blocks, s')) :
    Emits c V A ([t] :: kept) (namesOf s) (os.flatMap (·.events)) (stmtsMarks blocks)
      (namesOf s') := by
  induction h generalizing s blocks with
  | nil =>
    obtain ⟨rfl, rfl⟩ := pure_run.mp hrun
    exact .nil
  | @cons clause o clauses os hclause _ ih =>
    simp only [LowerM.caseBlocks, bind_run, ofExcept_run, Prod.mk.injEq] at hrun
    obtain ⟨parts, s₁, ⟨rfl, rfl⟩, hrun⟩ := hrun
    split at hrun
    · exact (fail_run hrun).elim
    next hone =>
      simp only [bind_run] at hrun
      obtain ⟨block, s₂, hblock, hrun⟩ := hrun
      have hemits := clauseBlock_emits kept [t] [t]
        (hclause parts rfl) (by simp_all) (by simp) (by simp) hblock
      split at hrun
      · obtain ⟨rfl, rfl⟩ := pure_run.mp hrun
        simpa using hemits.append (.omitAll os)
      · simp only [bind_run, pure_run] at hrun
        obtain ⟨rest, s₃, hrest, rfl, rfl⟩ := hrun
        simpa using hemits.append (ih hrest)

theorem yields_caseOf {subject : LowerM Expr} {es : List Event}
    {clauses : List (Except LowerError ClauseParts)} {os : List ClauseOutline}
    (hsubject : YieldsExpr V A subject es) (h : List.Forall₂ (ReadsAs V A) clauses os) :
    YieldsStmts V A (LowerM.caseOf subject clauses) (caseOutline es os) := by
  intro c kept s out s' hrun
  unfold LowerM.caseOf at hrun
  split at hrun
  · exact (fail_run hrun).elim
  · simp only [bind_run, pure_run, library_run] at hrun
    obtain ⟨value, s₁, hvalue, ⟨held, holder⟩, s₂, hhold, blocks, s₃, hblocks, lib, s₄, ⟨rfl, rfl⟩,
      rfl, rfl⟩ := hrun
    obtain ⟨t, rfl, hheld⟩ := hold_emits (by simp) (hsubject c kept s value s₁ hvalue) hhold
    obtain ⟨ms, hms, hmarks⟩ := stmtsMarks_closedBy
      (.throws (RuntimeLibrary.error ⟨c.runtimeName⟩ "CaseClauseError" [.ident t])) (held ++ blocks)
    have hfailure : Emits c V A ([t] :: kept) (namesOf s') [.matching [] []] ms (namesOf s') := by
      refine .failure hms ?_
      simp [RuntimeLibrary.error, runtimeName_mem_globals]
    rw [hmarks, stmtsMarks_append, List.append_assoc]
    exact hheld ((caseBlocks_emits h hblocks).append hfailure)

end Clauses

/-- The branch of these parts follows the outline of its condition and of its body. -/
structure ConditionFollows (V A : String → Prop) (parts : ConditionParts)
    (o : List Event × List Event) : Prop where
  head : o.1 = parts.head.flatMap fun n => (outline n).value
  tests : YieldsEach V A parts.tests exprMarks o.1
  body : YieldsStmts V A parts.body o.2

theorem outline_of_alwaysTrue {n : Node} (h : isAlwaysTrue n = true) : (outline n).value = [] := by
  unfold isAlwaysTrue at h
  split at h
  · rfl
  · rfl
  · contradiction

theorem Emits.omitConditions {c : Config} {kept : List (List String)} {n : Names}
    (os : List (List Event × List Event)) : Emits c V A kept n (condOutline os) [] n := by
  induction os with
  | nil => exact .nil
  | cons o os ih => exact .append .omitted ih

theorem yields_condBranches {clauses : List ConditionParts} {os : List (List Event × List Event)}
    (h : List.Forall₂ (ConditionFollows V A) clauses os) :
    YieldsStmts V A (LowerM.condBranches clauses) (condOutline os) := by
  induction h with
  | nil =>
    intro c kept s out s' hrun
    simp only [LowerM.condBranches, bind_run, pure_run, library_run] at hrun
    obtain ⟨lib, s₁, ⟨rfl, rfl⟩, rfl, rfl⟩ := hrun
    simpa [RuntimeLibrary.error, condOutline] using Emits.global (runtimeName_mem_globals c)
  | @cons parts o clauses os hparts _ ih =>
    intro c kept s out s' hrun
    obtain ⟨head, tests, body⟩ := parts
    simp only [LowerM.condBranches] at hrun
    split at hrun
    next condition test =>
      split at hrun
      next halways =>
        simp only [bind_run, pure_run] at hrun
        obtain ⟨stmts, s₁, hbody, rfl, rfl⟩ := hrun
        have htest : o.1 = [] := by
          simp [hparts.head, outline_of_alwaysTrue halways]
        have hbody := Yields.inScope kept hparts.body hbody
        have hemits := (Emits.taken hbody).append (.omitConditions os)
        simpa [condOutline, htest] using hemits
      next =>
        simp only [bind_run, pure_run] at hrun
        obtain ⟨value, s₁, hvalue, stmts, s₂, hbody, rest, s₃, hrest, rfl, rfl⟩ := hrun
        have htest : Emits c V A kept (namesOf s) o.1 (exprMarks value) (namesOf s₁) := by
          have hseq : LowerM.sequence [test] c s = (.ok [value], s₁) := by
            simp only [LowerM.sequence, bind_run, pure_run]
            exact ⟨value, s₁, hvalue, [], s₁, ⟨rfl, rfl⟩, rfl, rfl⟩
          simpa using hparts.tests c kept s [value] s₁ hseq
        have hemits := (Emits.taken (htest.append (Yields.inScope kept hparts.body hbody))).append
          (ih c kept s₂ rest s' hrest)
        simpa [condOutline] using hemits
    next => exact (fail_run hrun).elim

theorem yields_cond {clauses : List ConditionParts} {os : List (List Event × List Event)}
    (h : List.Forall₂ (ConditionFollows V A) clauses os) :
    YieldsStmts V A (LowerM.cond clauses) (condOutline os) := by
  unfold LowerM.cond
  split
  · exact fun _ _ _ _ _ hrun => (fail_run hrun).elim
  · exact yields_condBranches h

section Arities

theorem mem_insertDistinct {n m : Nat} {ms : List Nat} :
    m ∈ insertDistinct n ms ↔ m = n ∨ m ∈ ms := by
  induction ms with
  | nil => simp [insertDistinct]
  | cons a ms ih =>
    unfold insertDistinct
    split
    · simp
    · split <;> grind

theorem pairwise_insertDistinct {n : Nat} {ms : List Nat} (h : ms.Pairwise (· < ·)) :
    (insertDistinct n ms).Pairwise (· < ·) := by
  induction ms with
  | nil => simp [insertDistinct]
  | cons a ms ih =>
    obtain ⟨hfirst, hrest⟩ := List.pairwise_cons.mp h
    unfold insertDistinct
    split
    · refine List.pairwise_cons.mpr ⟨fun m hm => ?_, h⟩
      rcases List.mem_cons.mp hm with rfl | hm
      · assumption
      · have := hfirst m hm
        omega
    · split
      · exact h
      · refine List.pairwise_cons.mpr ⟨fun m hm => ?_, ih hrest⟩
        rcases mem_insertDistinct.mp hm with rfl | hm
        · omega
        · exact hfirst m hm

theorem mem_sortedDistinct {n : Nat} {ns : List Nat} : n ∈ sortedDistinct ns ↔ n ∈ ns := by
  induction ns with
  | nil => rfl
  | cons m ns ih => rw [sortedDistinct, List.foldr_cons, mem_insertDistinct, List.mem_cons, ← ih]; rfl

theorem pairwise_sortedDistinct (ns : List Nat) : (sortedDistinct ns).Pairwise (· < ·) := by
  induction ns with
  | nil => exact .nil
  | cons m ns ih => exact pairwise_insertDistinct ih

/-- The greatest number comes last. -/
theorem le_getLast_sortedDistinct {n : Nat} {ns : List Nat} (h : n ∈ ns) :
    n ≤ (sortedDistinct ns).getLast?.getD 0 := by
  have hlast : ∀ l : List Nat, l.Pairwise (· < ·) → n ∈ l → n ≤ l.getLast?.getD 0 := by
    intro l hl hn
    rcases l.eq_nil_or_concat' with rfl | ⟨before, last, rfl⟩
    · cases hn
    · rcases List.mem_append.mp hn with hn | hn
      · have := (List.pairwise_append.mp hl).2.2 n hn last (by simp)
        simp
        omega
      · simp_all
  exact hlast _ (pairwise_sortedDistinct ns) (mem_sortedDistinct.mpr h)

end Arities

section Functions

variable {c : Config} {kept : List (List String)} {s s' : State}

/-- Other versions of the attributes change no names. -/
theorem withAttributes_names {α : Type} {versions : Option (NameTable Nat)} {x : LowerM α} {a : α}
    (hrun : LowerM.withAttributes versions x c s = (.ok a, s')) :
    ∃ s₀ s₁, namesOf s₀ = namesOf s ∧ x c s₀ = (.ok a, s₁) ∧ namesOf s' = namesOf s₁ := by
  have hnames : ∀ (r : State) (v : NameTable Nat), namesOf (r.withAttributes v) = namesOf r := by
    intro r v
    cases hcontext : r.context <;>
      simp [namesOf, State.withAttributes, State.functions, State.attributeVersions, hcontext]
  cases versions with
  | none => exact ⟨s, s', rfl, hrun, rfl⟩
  | some versions =>
    simp only [LowerM.withAttributes, Prod.mk.injEq] at hrun
    obtain ⟨hvalue, rfl⟩ := hrun
    exact ⟨_, _, hnames s versions, Prod.ext hvalue rfl, hnames _ _⟩

theorem readsOnly_arityTests {arity most : Nat} (h : arity ≤ most) :
    ReadsOnly (fun t => t ∈ (List.range most).map paramName ∨ t ∈ globals c)
      (exprsMarks (arityTests arity most)) := by
  unfold arityTests
  rw [exprsMarks_append, readsOnly_append]
  constructor
  · split
    · simpa [Expr.ne, globals] using .inl ⟨arity - 1, by omega, rfl⟩
    · simp
  · split
    · simpa [globals] using .inl ⟨arity, by omega, rfl⟩
    · simp

theorem functionBlocks_emits {overloaded : Bool} {most : Nat} {clauses : List ClauseParts}
    {os : List ClauseOutline} {blocks : List Stmt} (h : List.Forall₂ (ClauseFollows V A) clauses os)
    (hmost : ∀ o ∈ os, o.patterns.length ≤ most)
    (hrun : LowerM.functionBlocks overloaded most clauses c s = (.ok blocks, s')) :
    Emits c V A ((List.range most).map paramName :: kept) (namesOf s) (os.flatMap (·.events))
      (stmtsMarks blocks) (namesOf s') := by
  induction h generalizing s blocks with
  | nil =>
    obtain ⟨rfl, rfl⟩ := pure_run.mp hrun
    exact .nil
  | @cons clause o clauses os hclause _ ih =>
    simp only [LowerM.functionBlocks, bind_run] at hrun
    obtain ⟨block, s₁, hblock, hrun⟩ := hrun
    obtain ⟨s₀, s₂, hbefore, hblock, hafter⟩ := withAttributes_names hblock
    have harity : clause.patterns.length ≤ most := by
      rw [hclause.patterns]
      exact hmost o (by simp)
    have hbefore' : ReadsOnly (fun t => t ∈ (List.range most).map paramName ∨ t ∈ globals c)
        (exprsMarks (if overloaded then arityTests clause.patterns.length most else [])) := by
      split
      · exact readsOnly_arityTests harity
      · simp
    have hemits := clauseBlock_emits kept ((List.range most).map paramName)
      ((List.range clause.patterns.length).map paramName) hclause (by simp)
      (fun t ht => by
        obtain ⟨i, hi, rfl⟩ := List.mem_map.mp ht
        exact List.mem_map_of_mem (List.mem_range.mpr (by simp at hi; omega)))
      hbefore' (by rwa [List.map_map])
    rw [hbefore, ← hafter] at hemits
    split at hrun
    · obtain ⟨rfl, rfl⟩ := pure_run.mp hrun
      simpa using hemits.append (.omitAll os)
    · simp only [bind_run, pure_run] at hrun
      obtain ⟨rest, s₃, hrest, rfl, rfl⟩ := hrun
      simpa using hemits.append (ih (fun o ho => hmost o (by simp [ho])) hrest)

/-- The error of a function that has no clause for its arguments. -/
theorem readsOnly_functionError (params : List String) (signature : String) :
    ReadsOnly (fun t => t ∈ params ∨ t ∈ globals c)
      (stmtMarks (.throws (RuntimeLibrary.error ⟨c.runtimeName⟩ "FunctionClauseError"
        [.string signature, .array (params.map .ident)]))) := by
  have hparams : ∀ names : List String, exprsMarks (names.map .ident) = names.map .read := by
    intro names
    induction names with
    | nil => rfl
    | cons t names ih => simp [ih]
  simp +contextual [RuntimeLibrary.error, runtimeName_mem_globals, hparams, ReadsOnly]

/-- The marks of a function that tries its clauses. -/
theorem dispatch_emits {name label : String} {clauses : List ClauseParts}
    {os : List ClauseOutline} {f : FunctionDef} (h : List.Forall₂ (ClauseFollows V A) clauses os)
    (hrun : LowerM.dispatch name label clauses c s = (.ok f, s')) :
    Emits c V A kept (namesOf s) (dispatched os) (functionMarks f)
      ((namesOf s).leave (namesOf s')) := by
  simp only [LowerM.dispatch, bind_run, pure_run, library_run] at hrun
  obtain ⟨blocks, s₁, hblocks, lib, s₂, ⟨rfl, rfl⟩, rfl, rfl⟩ := hrun
  have harities : clauses.map (·.patterns.length) = os.map (·.patterns.length) := by
    clear hblocks
    induction h with
    | nil => rfl
    | cons hclause _ ih => simp [hclause.patterns, ih]
  rw [harities] at hblocks ⊢
  have hmost : ∀ o ∈ os, o.patterns.length ≤
      (sortedDistinct (os.map (·.patterns.length))).getLast?.getD 0 :=
    fun o ho => le_getLast_sortedDistinct (List.mem_map_of_mem ho)
  rw [functionMarks]
  generalize hfailure : Stmt.throws _ = failure
  obtain ⟨ms, hms, hmarks⟩ := stmtsMarks_closedBy failure blocks
  rw [hmarks]
  refine .params ((functionBlocks_emits h hmost hblocks).append (.failure hms ?_))
  rw [← hfailure]
  exact readsOnly_functionError _ _

theorem var_mem_of_plainParams {patterns : List Node} {params : List String} {x : String}
    (h : plainParams? patterns = some params) (hx : x ∈ params) : .var x ∈ patterns := by
  induction patterns generalizing params with
  | nil =>
    cases h
    cases hx
  | cons p patterns ih =>
    unfold plainParams? at h
    split at h
    · contradiction
    next name rest heq =>
      obtain ⟨rfl, rfl⟩ := List.cons.inj heq
      obtain ⟨names, hnames, h⟩ := Option.bind_eq_some_iff.mp h
      split at h
      · cases h
      · cases h
        rcases List.mem_cons.mp hx with rfl | hx
        · simp
        · exact List.mem_cons_of_mem _ (ih hnames hx)
    · cases h

theorem bindVariables_emits {params targets : List String} (hnamed : ∀ x ∈ params, V x)
    (hrun : LowerM.bindVariables params c s = (.ok targets, s')) :
    Emits c V A kept (namesOf s) (params.map .bind) (targets.map .param) (namesOf s') := by
  unfold LowerM.bindVariables at hrun
  induction params generalizing s targets with
  | nil =>
    obtain ⟨rfl, rfl⟩ := pure_run.mp hrun
    exact .nil
  | cons x params ih =>
    simp only [List.map_cons, LowerM.sequence, bind_run, pure_run] at hrun
    obtain ⟨t, s₁, ht, rest, s₂, hrest, rfl, rfl⟩ := hrun
    obtain ⟨rfl, hnames⟩ := bindVariable_names ht
    have hrest := ih (fun y hy => hnamed y (by simp [hy])) hrest
    rw [hnames] at hrest
    exact .append (.param (hnamed x (by simp))) hrest

theorem clausesFunction_emits {name label : String} {clauses : List ClauseParts}
    {os : List ClauseOutline} {f : FunctionDef} (h : List.Forall₂ (ClauseFollows V A) clauses os)
    (hrun : LowerM.clausesFunction name label clauses c s = (.ok f, s')) :
    Emits c V A kept (namesOf s) (clausesOutline os) (functionMarks f)
      ((namesOf s).leave (namesOf s')) := by
  unfold LowerM.clausesFunction at hrun
  split at hrun
  next clause =>
    obtain ⟨o, hclause, rfl⟩ : ∃ o, ClauseFollows V A clause o ∧ os = [o] := by
      cases h with
      | cons hclause hrest =>
        cases hrest
        exact ⟨_, hclause, rfl⟩
    have hguards : clause.guards.isEmpty = o.guards.isEmpty := by
      rw [Bool.eq_iff_iff]
      simp [← List.length_eq_zero_iff, hclause.guards.length_eq]
    rw [hguards, hclause.patterns] at hrun
    unfold clausesOutline
    simp only
    split at hrun
    next hempty =>
      rw [if_pos hempty]
      cases hplain : plainParams? o.patterns with
      | none =>
        rw [hplain] at hrun
        exact dispatch_emits h hrun
      | some params =>
        rw [hplain] at hrun
        obtain ⟨s₀, s₁, hbefore, hrun, hafter⟩ := withAttributes_names hrun
        simp only [bind_run, pure_run] at hrun
        obtain ⟨targets, s₂, htargets, body, s₃, hbody, rfl, rfl⟩ := hrun
        have hnamed : ∀ x ∈ params, V x :=
          fun x hx => (hclause.named _ (var_mem_of_plainParams hplain hx)).var
        rw [← hbefore, hafter, functionMarks]
        exact .scope ((bindVariables_emits hnamed htargets).append
          (hclause.body c kept s₂ body s₁ hbody))
    next hempty =>
      rw [if_neg hempty]
      exact dispatch_emits h hrun
  next hone =>
    have houtline : clausesOutline os = dispatched os := by
      unfold clausesOutline
      split
      · cases h with
        | cons _ hrest =>
          cases hrest
          exact (hone _ rfl).elim
      · rfl
    rw [houtline]
    exact dispatch_emits h hrun

theorem yields_anonymousFunction {clauses : List (Except LowerError ClauseParts)}
    {os : List ClauseOutline} (h : List.Forall₂ (ReadsAs V A) clauses os) :
    YieldsExpr V A (LowerM.anonymousFunction clauses) (clausesOutline os) := by
  intro c kept s e s' hrun
  simp only [LowerM.anonymousFunction, bind_run] at hrun
  obtain ⟨parts, s₁, hparts, hrun⟩ := hrun
  have hread : s₁ = s ∧ List.Forall₂ (ClauseFollows V A) parts os := by
    clear hrun
    induction h generalizing s parts with
    | nil =>
      obtain ⟨rfl, rfl⟩ := pure_run.mp hparts
      exact ⟨rfl, .nil⟩
    | cons hclause _ ih =>
      simp only [List.map_cons, LowerM.sequence, bind_run, pure_run, ofExcept_run,
        Prod.mk.injEq] at hparts
      obtain ⟨first, s₂, ⟨hfirst, rfl⟩, rest, s₃, hrest, rfl, rfl⟩ := hparts
      obtain ⟨rfl, hfollows⟩ := ih _ _ hrest
      exact ⟨rfl, .cons (hclause first hfirst) hfollows⟩
  obtain ⟨rfl, hfollows⟩ := hread
  split at hrun
  · exact (fail_run hrun).elim
  · split at hrun
    · exact (fail_run hrun).elim
    · simp only [bind_run, pure_run, inScope_run] at hrun
      obtain ⟨f, s₂, ⟨s₃, hf, rfl⟩, rfl, rfl⟩ := hrun
      simpa using clausesFunction_emits hfollows hf

end Functions

/-- The qualifier of these parts follows the outline. -/
inductive QualifierFollows (V A : String → Prop) : QualifierParts → QualifierOutline → Prop
  | generator {pattern : Node} {x : LowerM Expr} {es : List Event} (named : pattern.Named V A)
      (h : YieldsExpr V A x es) : QualifierFollows V A (.generator pattern x) (.generator pattern es)
  | filter {x : LowerM Expr} {es : List Event} (h : YieldsExpr V A x es) :
      QualifierFollows V A (.filter x) (.filter es)

section Loops

variable {c : Config} {s s' : State}

/-- The loops of a comprehension around the statement that keeps a result. -/
theorem loops_emits {body : LowerM Expr} {es : List Event} {qualifiers : List QualifierParts}
    {os : List QualifierOutline} {stmt : Stmt} {accumulator : String} {depth i : Nat}
    (kept : List (List String)) (hbody : YieldsExpr V A body es)
    (h : List.Forall₂ (QualifierFollows V A) qualifiers os)
    (hkept : kept[depth]? = some [accumulator]) (hinvented : accumulator = Identifier.invented "acc" i)
    (hrun : LowerM.loops accumulator body qualifiers c s = (.ok stmt, s')) :
    Emits c V A kept (namesOf s) (loopsOutline es depth os) (stmtMarks stmt)
        ((namesOf s).leave (namesOf s')) ∧ Flat (stmtMarks stmt) := by
  induction h generalizing s stmt kept depth with
  | nil =>
    simp only [LowerM.loops, bind_run, pure_run] at hrun
    obtain ⟨value, s₁, hvalue, rfl, rfl⟩ := hrun
    have hvalue := hbody c kept s value s' hvalue
    have hflat := flat_exprMarks ((Expr.ident accumulator).method "push" [value])
    rw [hvalue.leave_eq (flat_exprMarks value)]
    have hemits := Emits.append (.use hkept (.inr ⟨i, hinvented⟩)) hvalue
    exact ⟨by simpa [loopsOutline] using hemits, hflat⟩
  | @cons part o qualifiers os hpart _ ih =>
    cases hpart with
    | @generator pattern x fs named hx =>
      simp only [LowerM.loops, bind_run, pure_run, library_run] at hrun
      obtain ⟨collection, s₁, hcollection, lib, s₂, ⟨rfl, rfl⟩, item, s₃, hitem, plan, s₄, hplan,
        declared, s₅, hdeclared, inner, s₆, hinner, rfl, rfl⟩ := hrun
      obtain ⟨hname, hnames⟩ := invent_names hitem
      obtain ⟨rfl, hbound, hreads⟩ := plan_reads kept [item] [item] hplan (by simp) (by simp)
      have hbinds := declare_binds hdeclared hreads.accessors
      have htests := hreads.tests
      rw [← optionMarks_test] at htests
      rw [hbound] at hbinds
      have hkept' : ([item] :: kept)[depth + 1]? = some [accumulator] := by simpa using hkept
      have hthen := Emits.triedThen (by simpa using named) htests hbinds (ih _ hkept' hinner).1
      rw [hnames, hname] at hthen
      have hiterable := (hx c kept s collection s₂ hcollection).afterGlobal (runtimeName_mem_globals c)
      have hflat : Flat (.read c.runtimeName :: exprMarks collection) := by
        simpa [RuntimeLibrary.toList] using
          flat_exprMarks (RuntimeLibrary.toList ⟨c.runtimeName⟩ collection)
      have hemits := Emits.loop hiterable hflat hthen
      refine ⟨by simpa [RuntimeLibrary.toList, loopsOutline, hname] using hemits, ?_⟩
      simpa [RuntimeLibrary.toList] using hflat.append (flat_scope _)
    | @filter x fs hx =>
      simp only [LowerM.loops, bind_run, pure_run] at hrun
      obtain ⟨test, s₁, htest, inner, s₂, hinner, rfl, rfl⟩ := hrun
      have htest := hx c kept s test s₁ htest
      have hemits := htest.append (ih kept hkept hinner).1.scope
      rw [Names.leave_leave, Names.leave_congr (htest.scope_eq (flat_exprMarks test))] at hemits
      refine ⟨by simpa [loopsOutline] using hemits, ?_⟩
      simpa using (flat_exprMarks test).append (flat_scope _)

theorem yields_comprehension {body : LowerM Expr} {es : List Event}
    {qualifiers : List QualifierParts} {os : List QualifierOutline} {into : Option (LowerM Expr)}
    {o : Option Outline} (hbody : YieldsExpr V A body es)
    (h : List.Forall₂ (QualifierFollows V A) qualifiers os) (hinto : YieldsOption V A into o) :
    YieldsExpr V A (LowerM.comprehension qualifiers body into)
      [.collect (loopsOutline es 0 os) ((o.map (·.value)).getD [])] := by
  intro c kept s e s' hrun
  unfold LowerM.comprehension at hrun
  split at hrun
  · exact (fail_run hrun).elim
  · simp only [bind_run, inScope_run] at hrun
    obtain ⟨target, s₁, htarget, s₂, ⟨accumulator, s₃, hacc, stmt, s₄, hloops, hrun⟩, rfl⟩ := hrun
    have htarget := hinto.optional c kept s target s₁ htarget
    obtain ⟨hname, hnames⟩ := invent_names hacc
    have hkept : ([accumulator] :: kept)[0]? = some [accumulator] := rfl
    obtain ⟨hemits, hflat⟩ := loops_emits _ hbody h hkept hname hloops
    rw [hnames, hname] at hemits
    have hscope := Names.leave_congr (htarget.scope_eq (flat_optionMarks target))
    have hflat' := flat_optionMarks target
    cases target with
    | none =>
      have hfixed : ∀ mark ∈ ([] : List Mark), mark = .read c.runtimeName := by simp
      simp only [bind_run, pure_run] at hrun
      obtain ⟨result, s₅, ⟨rfl, rfl⟩, rfl, rfl⟩ := hrun
      simpa [hname, hscope] using Emits.collect htarget hflat' hemits hflat hfixed
    | some value =>
      have hfixed : ∀ mark ∈ [Mark.read c.runtimeName], mark = .read c.runtimeName := by simp
      simp only [bind_run, pure_run, library_run] at hrun
      obtain ⟨lib, s₅, ⟨rfl, rfl⟩, result, s₆, ⟨rfl, rfl⟩, rfl, rfl⟩ := hrun
      simpa [hname, hscope] using Emits.collect htarget hflat' hemits hflat hfixed

end Loops

end TreeLowering.Scoping
