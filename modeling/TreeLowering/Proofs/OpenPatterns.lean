import TreeLowering.Proofs.PatternNames

/-!
Patterns that match whatever value there is.

Every form of a pattern tests something, variables apart: a variable is tested only where it has
occurred before. So a plan has no tests just when its patterns are made of variables alone, all of
them different.
-/
namespace TreeLowering.Pattern

open Source Target

/-- The variables of a pattern that is made of variables alone. -/
def openNames : Node → Option (List String)
  | .var name => some (if name = "_" then [] else [name])
  | .bind pattern other => do return (← openNames pattern) ++ (← openNames other)
  | _ => none

/-- Patterns that match whatever values there are. -/
def matchAll (patterns : List Node) : Bool :=
  (patterns.mapM openNames).any fun names => decide names.flatten.Nodup

theorem openNames_bind {pattern other : Node} {names : List String} :
    openNames (.bind pattern other) = some names ↔
      ∃ first second, openNames pattern = some first ∧ openNames other = some second ∧
        names = first ++ second := by
  simp only [openNames, Option.bind_eq_bind, Option.bind_eq_some_iff, Option.pure_def,
    Option.some.injEq]
  constructor
  · rintro ⟨first, hfirst, second, hsecond, rfl⟩
    exact ⟨first, second, hfirst, hsecond, rfl⟩
  · rintro ⟨first, second, hfirst, hsecond, rfl⟩
    exact ⟨first, hfirst, second, hsecond, rfl⟩

/-- All of them are bound by the pattern. -/
theorem boundNames_of_openNames {n : Node} {names : List String} (h : openNames n = some names) :
    boundNames n = names := by
  fun_induction openNames n generalizing names with
  | case1 name => simpa [boundNames] using h
  | case2 pattern other ihp iho =>
    obtain ⟨first, second, hfirst, hsecond, rfl⟩ := openNames_bind.mp h
    rw [boundNames, ihp hfirst, iho hsecond]
  | case3 => cases h

variable {env : Surroundings} {plan plan' : Plan} {names : List String}

theorem Adds.tests_eq_trans {middle : Plan} {more : List String} (h : Adds plan middle names)
    (h' : Adds middle plan' more) :
    plan'.tests = plan.tests ↔ middle.tests = plan.tests ∧ plan'.tests = middle.tests := by
  obtain ⟨⟨ts, hts⟩, -⟩ := h
  obtain ⟨⟨us, hus⟩, -⟩ := h'
  rw [hus, hts]
  simp

/-- A test that has been added stays. -/
theorem Adds.tests_ne {tests : List Expr} (h : Adds (plan.requireAll tests) plan' names)
    (hsome : tests ≠ []) : plan'.tests ≠ plan.tests := by
  obtain ⟨⟨ts, hts⟩, -⟩ := h
  rw [hts, Plan.requireAll]
  simp [hsome]

theorem Adds.tests_ne_of_require {test : Expr} (h : Adds (plan.require test) plan' names) :
    plan'.tests ≠ plan.tests := by
  have hall : Adds (plan.requireAll [test]) plan' names := h
  exact hall.tests_ne (by simp)

/-- The names are different from one another and from those that the plan binds. -/
def New (plan : Plan) (names : List String) : Prop :=
  names.Nodup ∧ ∀ x ∈ names, x ∉ plan.bindings.map (·.1)

theorem new_append {middle : Plan} {more : List String} (h : Adds plan middle names) :
    New plan (names ++ more) ↔ New plan names ∧ New middle more := by
  unfold New
  rw [h.2]
  simp only [List.nodup_append, mem_withNames, List.mem_append]
  grind

theorem compileVariable_tests_iff (env : Surroundings) (name : String) (subject : Expr)
    (plan : Plan) :
    (compileVariable env name subject plan).tests = plan.tests ↔
      New plan (if name = "_" then [] else [name]) := by
  unfold compileVariable
  split
  · simp [New]
  · split
    next first hfirst =>
      obtain ⟨before, after, hsplit, -⟩ := List.lookup_eq_some_iff.mp hfirst
      simp [New, Plan.require, hsplit]
    next hnone =>
      have hnew : ∀ e, (name, e) ∉ plan.bindings := fun e he => by
        simpa using List.lookup_eq_none_iff.mp hnone _ he
      simpa [New, Plan.bind] using hnew

/-- Any other form adds a test. -/
theorem compiled_tests_ne {n : Node} {subject : Expr}
    (h : Compiled env (.pattern n subject) plan plan') (hvar : ∀ name, n ≠ .var name)
    (hbind : ∀ pattern other, n ≠ .bind pattern other) : plan'.tests ≠ plan.tests := by
  cases h with
  | var => exact (hvar _ rfl).elim
  | both => exact (hbind _ _ rfl).elim
  | float | negatedFloat | moduleName | pin | constant => simp [Plan.require]
  | tuple parts | list parts | start parts => exact (compiled_adds parts).tests_ne (by simp)
  | cons front rest =>
    exact ((compiled_adds front).trans (compiled_adds rest)).tests_ne (by simp)
  | map parts => exact (compiled_adds parts).tests_ne_of_require
  | struct name parts =>
    exact ((compiled_adds name).trans (compiled_adds parts)).tests_ne_of_require

/-- A pattern tests nothing if it is made of new variables alone. -/
theorem compiled_tests_iff {n : Node} {subject : Expr}
    (h : Compiled env (.pattern n subject) plan plan') :
    plan'.tests = plan.tests ↔ ∃ names, openNames n = some names ∧ New plan names := by
  fun_induction openNames n generalizing subject plan plan' with
  | case1 name =>
    cases h with
    | var => simpa using compileVariable_tests_iff env name subject plan
    | constant _ literal => cases literal
  | case2 pattern other ihp iho =>
    cases h with
    | constant _ literal => cases literal
    | both first second =>
      have hadds := compiled_adds first
      rw [hadds.tests_eq_trans (compiled_adds second), ihp first, iho second]
      constructor
      · rintro ⟨⟨names, hnames, hnew⟩, more, hmore, hrest⟩
        refine ⟨names ++ more, openNames_bind.mpr ⟨names, more, hnames, hmore, rfl⟩, ?_⟩
        rw [jobNames, boundNames_of_openNames hnames] at hadds
        exact (new_append hadds).mpr ⟨hnew, hrest⟩
      · rintro ⟨_, hopen, hnew⟩
        obtain ⟨names, more, hnames, hmore, rfl⟩ := openNames_bind.mp hopen
        rw [jobNames, boundNames_of_openNames hnames] at hadds
        obtain ⟨hfirst, hrest⟩ := (new_append hadds).mp hnew
        exact ⟨⟨names, hnames, hfirst⟩, more, hmore, hrest⟩
  | case3 n hvar hbind => simpa using compiled_tests_ne h hvar hbind

/-- Patterns test nothing if all of them are made of new variables alone. -/
theorem compileAll_tests_iff {patterns : List Node} {subjects : List Expr}
    (hlength : patterns.length = subjects.length)
    (h : compileAll env patterns subjects plan = .ok plan') :
    Adds plan plan' (boundNamesEach patterns) ∧
      (plan'.tests = plan.tests ↔
        ∃ names, patterns.mapM openNames = some names ∧ New plan names.flatten) := by
  induction patterns generalizing subjects plan with
  | nil =>
    rw [compileAll] at h
    · cases h
      exact ⟨⟨⟨[], by simp⟩, rfl⟩, by simp [New]⟩
    · exact fun _ _ _ _ hnil => by cases hnil
  | cons pattern patterns ih =>
    cases subjects with
    | nil => cases hlength
    | cons subject subjects =>
      rw [compileAll] at h
      obtain ⟨middle, hfirst, hrest⟩ := exists_ok_of_bind h
      have hcompiled := (compiled_of_ok env).1 pattern subject plan middle hfirst
      have hadds := compiled_adds hcompiled
      obtain ⟨hmore, hiff⟩ := ih (Nat.succ.inj hlength) hrest
      refine ⟨hadds.trans hmore, ?_⟩
      rw [hadds.tests_eq_trans hmore, compiled_tests_iff hcompiled, hiff]
      simp only [List.mapM_cons, Option.bind_eq_bind, Option.bind_eq_some_iff, Option.pure_def,
        Option.some.injEq]
      constructor
      · rintro ⟨⟨first, hopen, hnew⟩, names, hnames, hothers⟩
        rw [jobNames, boundNames_of_openNames hopen] at hadds
        exact ⟨first :: names, ⟨first, hopen, names, hnames, rfl⟩,
          (new_append hadds).mpr ⟨hnew, hothers⟩⟩
      · rintro ⟨_, ⟨first, hopen, names, hnames, rfl⟩, hnew⟩
        rw [jobNames, boundNames_of_openNames hopen] at hadds
        obtain ⟨hfirst, hothers⟩ := (new_append hadds).mp hnew
        exact ⟨⟨first, hopen, hfirst⟩, names, hnames, hothers⟩

theorem tests_eq_nil_iff {patterns : List Node} {subjects : List Expr}
    (hlength : patterns.length = subjects.length)
    (h : compileAll env patterns subjects {} = .ok plan) :
    plan.tests = [] ↔ matchAll patterns = true := by
  refine (compileAll_tests_iff hlength h).2.trans ?_
  rw [matchAll, Option.any_eq_true]
  simp [New]

end TreeLowering.Pattern
