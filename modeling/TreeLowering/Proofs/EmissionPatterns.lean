import TreeLowering.Proofs.Emission

/-!
What patterns read and bind.

The tests and accessors of a plan read the subjects, the pinned variables under the names in force
before the match, and nothing else that the program declares. The declarations of its bindings take
the next names of the variables in order.
-/
namespace TreeLowering.Scoping

open Source Target Pattern LowerM

variable {V A : String → Prop}

section ReadsOnly

variable {allowed : String → Prop} {as bs : List Mark}

theorem Binds.afterReads {n m : Names} {xs : List String} (h : ReadsOnly allowed as)
    (rest : Binds allowed n xs bs m) : Binds allowed n xs (as ++ bs) m := by
  induction as with
  | nil => exact rest
  | cons mark as ih =>
    obtain ⟨t, ht, rfl⟩ := h mark (by simp)
    exact .read ht (ih fun mark hmark => h mark (by simp [hmark]))

theorem ReadsOnly.binds {n : Names} (h : ReadsOnly allowed as) : Binds allowed n [] as n := by
  simpa using Binds.afterReads h .done

end ReadsOnly

/-- The tests and accessors of a plan read allowed names only. -/
structure PlanReads (allowed : String → Prop) (plan : Plan) : Prop where
  tests : ReadsOnly allowed (exprsMarks plan.tests)
  accessors : ∀ b ∈ plan.bindings, ReadsOnly allowed (exprMarks b.2)

/-- The subjects of a job read allowed names only. -/
def SubjectReads (allowed : String → Prop) : Job → Prop
  | .pattern _ subject => ReadsOnly allowed (exprMarks subject)
  | .items slot _ _ => ∀ i, ReadsOnly allowed (exprMarks (slot i))
  | .entries subject _ => ReadsOnly allowed (exprMarks subject)

/-- The variables that a job pins. -/
def jobPins : Job → List String
  | .pattern pattern _ => pinnedNames pattern
  | .items _ _ patterns => pinnedNamesEach patterns
  | .entries _ entries => pinnedNamesEntries entries

section Plans

variable {allowed : String → Prop} {plan plan' : Plan} {env : Surroundings}

theorem PlanReads.requireAll {tests : List Expr} (h : PlanReads allowed plan)
    (htests : ReadsOnly allowed (exprsMarks tests)) : PlanReads allowed (plan.requireAll tests) :=
  ⟨by simpa [Plan.requireAll] using ⟨h.tests, htests⟩, h.accessors⟩

theorem PlanReads.require {test : Expr} (h : PlanReads allowed plan)
    (htest : ReadsOnly allowed (exprMarks test)) : PlanReads allowed (plan.require test) :=
  h.requireAll (by simpa using htest)

theorem PlanReads.variable {name : String} {subject : Expr} (h : PlanReads allowed plan)
    (hlibrary : allowed env.library.name) (hsubject : ReadsOnly allowed (exprMarks subject)) :
    PlanReads allowed (compileVariable env name subject plan) := by
  unfold compileVariable
  split
  · exact h
  · split
    next first hfirst =>
      obtain ⟨before, after, hsplit, -⟩ := List.lookup_eq_some_iff.mp hfirst
      have hread := h.accessors (name, first) (by simp [hsplit])
      exact h.require (by simpa [RuntimeLibrary.equals] using ⟨hlibrary, hsubject, hread⟩)
    next =>
      refine ⟨h.tests, fun b hb => ?_⟩
      rcases List.mem_append.mp hb with hb | hb
      · exact h.accessors b hb
      · rw [List.mem_singleton.mp hb]
        exact hsubject

theorem readsOnly_constant (hsymbol : allowed "Symbol") {node : Node} {value : Expr}
    (h : constant? node = some value) : ReadsOnly allowed (exprMarks value) := by
  unfold constant? at h
  split at h
  case h_6 =>
    cases h
    exact readsOnly_atomValue hsymbol _
  case h_7 | h_9 =>
    obtain ⟨a, -, rfl⟩ := Option.map_eq_some_iff.mp h
    simp
  case h_10 => contradiction
  all_goals
    cases h
    simp

theorem readsOnly_key (hsymbol : allowed "Symbol") {node : Node} {found : Expr}
    (hpins : ∀ x ∈ pinnedNames node, allowed (env.state.resolve x))
    (h : key env node = .ok found) : ReadsOnly allowed (exprMarks found) := by
  unfold key at h
  split at h
  next value hvalue =>
    cases h
    exact readsOnly_constant hsymbol hvalue
  next =>
    split at h
    · cases h
      simpa [Surroundings.moduleValue, moduleValue] using hsymbol
    · cases h
      simpa [Surroundings.pinned] using hpins _ (by simp [pinnedNames])
    · cases h
    · cases h

theorem compiled_reads {job : Job} (hlibrary : allowed env.library.name)
    (hsymbol : allowed "Symbol") (harray : allowed "Array") (h : Compiled env job plan plan')
    (hpins : ∀ x ∈ jobPins job, allowed (env.state.resolve x)) (hsubject : SubjectReads allowed job)
    (hplan : PlanReads allowed plan) : PlanReads allowed plan' := by
  induction h with
  | float | negatedFloat =>
    exact hplan.require (by simpa [RuntimeLibrary.equals] using ⟨hlibrary, hsubject⟩)
  | moduleName =>
    exact hplan.require
      (by simpa [Surroundings.moduleValue, moduleValue] using ⟨hsubject, hsymbol⟩)
  | var => exact hplan.variable hlibrary hsubject
  | pin =>
    have hpin := hpins _ (List.mem_singleton_self _)
    exact hplan.require (by
      simpa [RuntimeLibrary.equals, Surroundings.pinned] using ⟨hlibrary, hsubject, hpin⟩)
  | constant _ literal =>
    exact hplan.require (by simpa using ⟨hsubject, readsOnly_constant hsymbol literal⟩)
  | tuple _ ih =>
    refine ih hpins (by simpa [SubjectReads] using hsubject) (hplan.requireAll ?_)
    simpa [RuntimeLibrary.isTuple] using ⟨hsubject, hlibrary, hsubject⟩
  | list _ ih =>
    refine ih hpins (by simpa [SubjectReads] using hsubject) (hplan.requireAll ?_)
    simpa [isArray] using ⟨harray, hsubject⟩
  | cons _ _ front rest =>
    refine rest (fun x hx => hpins x (List.mem_append_right _ hx))
      (by simpa [SubjectReads] using hsubject)
      (front (fun x hx => hpins x (List.mem_append_left _ hx))
        (by simpa [SubjectReads] using hsubject) (hplan.requireAll ?_))
    simpa [isArray] using ⟨harray, hsubject⟩
  | map _ ih =>
    exact ih hpins hsubject
      (hplan.require (by simpa [RuntimeLibrary.isMap] using ⟨hlibrary, hsubject⟩))
  | struct _ _ name parts =>
    refine parts (fun x hx => hpins x (List.mem_append_right _ hx)) hsubject
      (name (fun x hx => hpins x (List.mem_append_left _ hx))
        (by simpa [SubjectReads] using ⟨hsubject, hsymbol⟩) (hplan.require ?_))
    simpa [RuntimeLibrary.isMap] using ⟨hlibrary, hsubject⟩
  | both _ _ first second =>
    exact second (fun x hx => hpins x (List.mem_append_right _ hx)) hsubject
      (first (fun x hx => hpins x (List.mem_append_left _ hx)) hsubject hplan)
  | start _ ih =>
    refine ih hpins (by simpa [SubjectReads] using hsubject) (hplan.requireAll ?_)
    simpa [SubjectReads] using hsubject
  | noItems | noEntries => exact hplan
  | item _ _ head tail =>
    exact tail (fun x hx => hpins x (List.mem_append_right _ hx)) hsubject
      (head (fun x hx => hpins x (List.mem_append_left _ hx)) (hsubject _) hplan)
  | entry under _ _ head tail =>
    have hfound := readsOnly_key hsymbol (fun x hx => hpins x (by simp [jobPins, pinnedNamesEntries, hx])) under
    refine tail (fun x hx => hpins x (List.mem_append_right _ hx)) hsubject
      (head (fun x hx => hpins x (by simp_all [jobPins, pinnedNamesEntries]))
        (by simpa [SubjectReads] using ⟨hsubject, hfound⟩) (hplan.require ?_))
    simpa using ⟨hfound, hsubject⟩

theorem compileAll_reads {patterns : List Node} {subjects : List Expr}
    (hlibrary : allowed env.library.name) (hsymbol : allowed "Symbol") (harray : allowed "Array")
    (h : compileAll env patterns subjects plan = .ok plan')
    (hlength : patterns.length ≤ subjects.length)
    (hpins : ∀ x ∈ pinnedNamesEach patterns, allowed (env.state.resolve x))
    (hsubjects : ∀ e ∈ subjects, ReadsOnly allowed (exprMarks e)) (hplan : PlanReads allowed plan) :
    PlanReads allowed plan' ∧ Adds plan plan' (boundNamesEach patterns) := by
  induction patterns generalizing subjects plan with
  | nil =>
    cases h
    exact ⟨hplan, ⟨[], by simp⟩, rfl⟩
  | cons pattern patterns ih =>
    cases subjects with
    | nil => simp at hlength
    | cons subject subjects =>
      obtain ⟨middle, hpattern, hrest⟩ := exists_ok_of_bind h
      have hcompiled := (compiled_of_ok env).1 pattern subject plan middle hpattern
      have hmiddle := compiled_reads hlibrary hsymbol harray hcompiled
        (fun x hx => hpins x (List.mem_append_left _ hx)) (hsubjects subject (by simp)) hplan
      obtain ⟨hreads, hadds⟩ := ih hrest (by simpa using hlength)
        (fun x hx => hpins x (List.mem_append_right _ hx))
        (fun e he => hsubjects e (by simp [he])) hmiddle
      exact ⟨hreads, (compiled_adds hcompiled).trans hadds⟩

end Plans

section Runs

variable {c : Config} {s s' : State}

/-- A plan on identifiers of the value kept last. -/
theorem plan_reads {patterns : List Node} {plan : Plan} (kept : List (List String))
    (held subjects : List String)
    (h : LowerM.plan patterns (subjects.map .ident) c s = (.ok plan, s'))
    (hlength : patterns.length ≤ subjects.length) (hheld : ∀ t ∈ subjects, t ∈ held) :
    s' = s ∧ plan.bindings.map (·.1) = namesBound patterns ∧
      PlanReads (MayRead c (held :: kept) (namesOf s) (pinnedNamesEach patterns)) plan := by
  rw [LowerM.plan_run] at h
  obtain ⟨hcompile, rfl⟩ := Prod.mk.inj h
  have hglobal : ∀ t ∈ globals c,
      MayRead c (held :: kept) (namesOf s) (pinnedNamesEach patterns) t :=
    fun t ht => .inr (.inr ht)
  have hsubjects : ∀ e ∈ subjects.map Expr.ident,
      ReadsOnly (MayRead c (held :: kept) (namesOf s) (pinnedNamesEach patterns))
        (exprMarks e) := by
    intro e he
    obtain ⟨t, ht, rfl⟩ := List.mem_map.mp he
    simpa using .inl (hheld t ht)
  obtain ⟨hreads, hadds⟩ := compileAll_reads
    (hglobal _ (runtimeName_mem_globals c)) (hglobal _ (symbol_mem_globals c))
    (hglobal _ (by simp [globals])) hcompile (by simpa using hlength)
    (fun x hx => .inr (.inl ⟨x, hx, rfl⟩)) hsubjects ⟨by simp, by simp⟩
  exact ⟨rfl, hadds.2, hreads⟩

theorem bindVariable_names {x t : String} (h : LowerM.bindVariable x c s = (.ok t, s')) :
    t = (namesOf s).next x ∧ namesOf s' = (namesOf s).bind x := by
  simp only [LowerM.bindVariable, bind_run, state_run, modify_run, pure_run] at h
  obtain ⟨r, s₁, ⟨rfl, rfl⟩, u, s₂, rfl, rfl, rfl⟩ := h
  exact ⟨rfl, rfl⟩

theorem invent_names {stem t : String} (h : LowerM.invent stem c s = (.ok t, s')) :
    t = Identifier.invented stem (namesOf s).invented ∧ namesOf s' = (namesOf s).invent := by
  simp only [LowerM.invent, bind_run, state_run, modify_run, pure_run] at h
  obtain ⟨r, s₁, ⟨rfl, rfl⟩, u, s₂, rfl, rfl, rfl⟩ := h
  exact ⟨rfl, rfl⟩

theorem declare_binds {allowed : String → Prop} {bindings : List (String × Expr)}
    {stmts : List Stmt} (h : LowerM.declare bindings c s = (.ok stmts, s'))
    (hreads : ∀ b ∈ bindings, ReadsOnly allowed (exprMarks b.2)) :
    Binds allowed (namesOf s) (bindings.map (·.1)) (stmtsMarks stmts) (namesOf s') := by
  unfold LowerM.declare at h
  induction bindings generalizing s stmts with
  | nil =>
    obtain ⟨rfl, rfl⟩ := pure_run.mp h
    simpa using Binds.done
  | cons b bindings ih =>
    simp only [List.map_cons, LowerM.sequence, bind_run, pure_run] at h
    obtain ⟨stmt, s₁, ⟨t, s₂, ht, rfl, rfl⟩, rest, s₃, hrest, rfl, rfl⟩ := h
    obtain ⟨rfl, hnames⟩ := bindVariable_names ht
    have hbinds := ih hrest fun b' hb => hreads b' (by simp [hb])
    rw [hnames] at hbinds
    simpa using Binds.afterReads (hreads b (by simp)) (.bind hbinds)

end Runs

section BoundNames

theorem mem_boundNamesEach {ns : List Node} {x : String} :
    x ∈ boundNamesEach ns ↔ ∃ n ∈ ns, x ∈ boundNames n := by
  induction ns with
  | nil => simp [boundNamesEach]
  | cons n ns ih => simp [boundNamesEach, ih]

theorem exists_of_mem_boundNamesEntries {entries : List (Node × Node)} {x : String}
    (h : x ∈ boundNamesEntries entries) : ∃ n ∈ Node.entryChildren entries, x ∈ boundNames n := by
  induction entries with
  | nil => cases h
  | cons e entries ih =>
    rcases List.mem_append.mp h with h | h
    · exact ⟨e.2, by simp [Node.entryChildren], h⟩
    · obtain ⟨n, hn, hx⟩ := ih h
      exact ⟨n, List.mem_append_right _ hn, hx⟩

/-- A variable that a pattern binds is the pattern, or one that a part of it binds. -/
theorem boundNames_cases {n : Node} {x : String} (h : x ∈ boundNames n) :
    n = .var x ∨ ∃ m ∈ n.children, x ∈ boundNames m := by
  unfold boundNames at h
  split at h
  · split at h
    · cases h
    · exact .inl (by rw [List.mem_singleton.mp h])
  · exact .inr (mem_boundNamesEach.mp h)
  · exact .inr (mem_boundNamesEach.mp h)
  · rcases List.mem_append.mp h with h | h
    · obtain ⟨m, hm, hx⟩ := mem_boundNamesEach.mp h
      exact .inr ⟨m, by simp [Node.children, hm], hx⟩
    · exact .inr ⟨_, by simp [Node.children], h⟩
  · exact .inr (exists_of_mem_boundNamesEntries h)
  · rcases List.mem_append.mp h with h | h
    · exact .inr ⟨_, by simp [Node.children], h⟩
    · obtain ⟨m, hm, hx⟩ := exists_of_mem_boundNamesEntries h
      exact .inr ⟨m, by simp [Node.children, hm], hx⟩
  · rcases List.mem_append.mp h with h | h
    · exact .inr ⟨_, by simp [Node.children], h⟩
    · exact .inr ⟨_, by simp [Node.children], h⟩
  · exact .inr ⟨_, by simp [Node.children], h⟩
  · cases h

theorem named_boundNames {n : Node} {x : String} (h : n.Named V A) (hx : x ∈ boundNames n) : V x := by
  induction n using Node.induct with
  | step n ih =>
    rcases boundNames_cases hx with rfl | ⟨m, hm, hx⟩
    · exact h.var
    · exact ih m hm ((Node.named_iff.mp h).2 m hm) hx

theorem named_namesBound {patterns : List Node} (h : ∀ p ∈ patterns, p.Named V A) :
    ∀ x ∈ namesBound patterns, V x := by
  intro x hx
  rcases mem_withNames.mp hx with hx | hx
  · cases hx
  · obtain ⟨p, hp, hx⟩ := mem_boundNamesEach.mp hx
    exact named_boundNames (h p hp) hx

end BoundNames

end TreeLowering.Scoping
