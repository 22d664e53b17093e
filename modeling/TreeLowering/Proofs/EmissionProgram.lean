import TreeLowering.Proofs.EmissionTree
import TreeLowering.Proofs.FootprintLowering

/-!
Programs and modules follow their outlines.

The statements of a program, those of a module and every function that a module defines start with
nothing bound and with all numbers at zero. `ModuleFollows` says which outline each of them has; it
is about a relation `R` between outlines and marks, so that what is shown of `Emits` in general is
had for every part of a program.
-/
namespace TreeLowering.Scoping

open Source Target Pattern LowerM Lowering

variable {V A : String → Prop} {R : List Event → List Mark → Prop}

/-- A function of the module with that body: defined there by clauses, the constructor of a struct,
whose defaults are lowered one by one, or the function that builds an exception. -/
inductive FunctionFollows (R : List Event → List Mark → Prop) (body : List Node) :
    FunctionDef → Prop
  | defined {f : FunctionDef} (name : String) (named : f.name = Identifier.escape name)
      (own : R (clausesOutline (definedClauses name body)) (functionMarks f)) :
      FunctionFollows R body f
  | constructor {lib : RuntimeLibrary} {module : List String} {fields : List (String × Node)}
      {defaults : List Property} (item : .defStruct fields ∈ body ∨ .defException fields ∈ body)
      (given : ∀ p ∈ defaults, ∃ key, p.key = .computed (atomValue key) ∧
        (exprMarks p.value = [] ∨
          ∃ value, (key, value) ∈ fields ∧ R (outline value).value (exprMarks p.value))) :
      FunctionFollows R body ⟨"__struct__", ["$values"], [.return_ (lib.specialForm "struct"
        [moduleValue module, .object defaults, .ident "$values"])]⟩
  | exception : FunctionFollows R body
      ⟨"exception", ["$attrs"], [.return_ (.call (.ident "__struct__") [.ident "$attrs"])]⟩

mutual

inductive ModuleFollows (R : List Event → List Mark → Prop) : List Node → ModuleDef → Prop
  | intro {body : List Node} {m : ModuleDef}
      (own : R (body.flatMap itemEvents) (stmtsMarks m.body)) (nested : ModulesFollow R body m.body)
      (functions : ∀ f ∈ m.functions, FunctionFollows R body f.function) : ModuleFollows R body m

/-- The modules among forms are the modules among the statements, in order. -/
inductive ModulesFollow (R : List Event → List Mark → Prop) : List Node → List Stmt → Prop
  | nil : ModulesFollow R [] []
  | module {name : List String} {body nodes : List Node} {m : ModuleDef} {stmts : List Stmt}
      (inner : ModuleFollows R body m) (rest : ModulesFollow R nodes stmts) :
      ModulesFollow R (.module name body :: nodes) (.module m :: stmts)
  | other {n : Node} {nodes : List Node} {own stmts : List Stmt}
      (form : ∀ name body, n ≠ .module name body) (empty : stmtsModules own = [])
      (rest : ModulesFollow R nodes stmts) : ModulesFollow R (n :: nodes) (own ++ stmts)

end

@[simp]
theorem stmtsModules_append (ss ts : List Stmt) :
    stmtsModules (ss ++ ts) = stmtsModules ss ++ stmtsModules ts := by
  induction ss with
  | nil => rfl
  | cons s ss ih => simp [ih]

theorem ModulesFollow.append {ns ms : List Node} {ss ts : List Stmt} (h : ModulesFollow R ns ss)
    (h' : ModulesFollow R ms ts) : ModulesFollow R (ns ++ ms) (ss ++ ts) :=
  match h with
  | .nil => h'
  | .module inner rest => .module inner (rest.append h')
  | .other form empty rest => by
    rw [List.append_assoc]
    exact .other form empty (rest.append h')

mutual

/-- Every module within a module that follows its body follows a body. -/
theorem ModuleFollows.within {body : List Node} {m : ModuleDef} (h : ModuleFollows R body m) :
    ∀ m' ∈ modulesWithin m, ∃ body', ModuleFollows R body' m' :=
  match m, h with
  | ⟨_, _, _, _⟩, .intro own nested functions => by
    rw [modulesWithin]
    exact List.forall_mem_cons.mpr ⟨⟨body, .intro own nested functions⟩, nested.within⟩

theorem ModulesFollow.within {nodes : List Node} {stmts : List Stmt}
    (h : ModulesFollow R nodes stmts) : ∀ m ∈ stmtsModules stmts, ∃ body, ModuleFollows R body m :=
  match h with
  | .nil => by simp
  | .module inner rest => by
    rw [stmtsModules, stmtModules]
    exact List.forall_mem_append.mpr ⟨inner.within, rest.within⟩
  | .other _ empty rest => by
    rw [stmtsModules_append, empty]
    exact rest.within

end

section Effects

/-- No module is among the statements that the step gives. -/
def NoModules (x : LowerM (List Stmt)) : Prop :=
  ∀ c s stmts s', x c s = (.ok stmts, s') → stmtsModules stmts = []

theorem noModules_evaluated (x : LowerM Expr) : NoModules (Positions.evaluated x) := by
  intro c s stmts s' hrun
  simp only [Positions.evaluated, bind_run, pure_run] at hrun
  obtain ⟨value, s₁, hvalue, rfl, rfl⟩ := hrun
  rfl

theorem noModules_concat {xs : List (LowerM (List Stmt))} (h : ∀ x ∈ xs, NoModules x) :
    NoModules (LowerM.concat xs) := by
  intro c s stmts s' hrun
  simp only [LowerM.concat, bind_run, pure_run] at hrun
  obtain ⟨parts, s₁, hparts, rfl, rfl⟩ := hrun
  induction xs generalizing s parts with
  | nil =>
    obtain ⟨rfl, rfl⟩ := pure_run.mp hparts
    rfl
  | cons x xs ih =>
    simp only [LowerM.sequence, bind_run, pure_run] at hparts
    obtain ⟨first, s₂, hfirst, rest, s₃, hrest, rfl, rfl⟩ := hparts
    have hfirst := h x (by simp) c s first s₂ hfirst
    have hrest := ih (fun y hy => h y (by simp [hy])) s₂ rest hrest
    simp [hfirst, hrest]

theorem noModules_declare (bindings : List (String × Expr)) :
    NoModules (LowerM.declare bindings) := by
  intro c s stmts s' hrun
  unfold LowerM.declare at hrun
  induction bindings generalizing s stmts with
  | nil =>
    obtain ⟨rfl, rfl⟩ := pure_run.mp hrun
    rfl
  | cons b bindings ih =>
    simp only [List.map_cons, LowerM.sequence, bind_run, pure_run] at hrun
    obtain ⟨stmt, s₁, ⟨t, s₂, ht, rfl, rfl⟩, rest, s₃, hrest, rfl, rfl⟩ := hrun
    simpa [Stmt.const] using ih _ _ hrest

theorem noModules_binding (pattern : Node) (x : LowerM Expr) :
    NoModules (Positions.binding pattern x).effect := by
  intro c s stmts s' hrun
  have hgeneral : ∀ {value subject : Expr} {s : State},
      LowerM.bindPattern.general pattern value c s = (.ok (stmts, subject), s') →
      stmtsModules stmts = [] := by
    intro value subject s hrun
    obtain ⟨held, plan, failure, declared, s₁, s₂, hhold, -, hdeclared, rfl, hfailure⟩ :=
      bindPattern_general_run hrun
    have hheld : stmtsModules held = [] := by
      unfold LowerM.hold at hhold
      split at hhold
      · obtain ⟨hpair, -⟩ := pure_run.mp hhold
        rw [(Prod.mk.inj hpair).1]
        rfl
      · simp only [bind_run, pure_run] at hhold
        obtain ⟨t, s₃, -, hpair, -⟩ := hhold
        rw [(Prod.mk.inj hpair).1]
        rfl
    have hfailure : stmtsModules failure = [] := by
      rcases hfailure with rfl | ⟨test, -, rfl⟩ <;> rfl
    simp [hheld, hfailure, noModules_declare _ c s₂ declared s' hdeclared]
  simp only [Positions.binding, Positions.ofStatements, LowerM.bindPattern, bind_run,
    pure_run] at hrun
  obtain ⟨⟨stmts', subject⟩, s₁, ⟨value, s₂, hvalue, hrun⟩, rfl, rfl⟩ := hrun
  split at hrun
  · split at hrun
    · exact hgeneral hrun
    · simp only [bind_run, pure_run] at hrun
      obtain ⟨t, s₃, -, hpair, -⟩ := hrun
      rw [(Prod.mk.inj hpair).1]
      rfl
  · exact hgeneral hrun

/-- A node run for its effect gives no module. -/
theorem noModules_effect (n : Node) : NoModules (positions n).effect := by
  induction n using Node.induct with
  | step n ih =>
    cases n with
    | bind pattern value =>
      rw [positions]
      exact noModules_binding pattern _
    | block items =>
      rw [positions]
      refine noModules_concat ?_
      have hitems : ∀ m ∈ items, NoModules (positions m).effect := ih
      clear ih
      induction items with
      | nil => simp [all]
      | cons n items ih =>
        simp only [all, List.map_cons, List.forall_mem_cons] at hitems ⊢
        exact ⟨hitems.1, ih hitems.2⟩
    | raise exception attributes =>
      rw [positions]
      intro c s stmts s' hrun
      simp only [Positions.raising, Positions.ofStatements, bind_run, pure_run] at hrun
      obtain ⟨value, s₁, hvalue, rfl, rfl⟩ := hrun
      rfl
    | _ =>
      simp only [positions]
      exact noModules_evaluated _

end Effects

section Groups

/-- The groups hold the clauses that were given to their names, each name once. -/
structure GroupsFollow (V A : String → Prop) (clausesOf : String → List ClauseOutline)
    (groups : List FunctionGroup) : Prop where
  distinct : (groups.map (·.name)).Nodup
  clauses : ∀ g ∈ groups, List.Forall₂ (ClauseFollows V A) (g.clauses.map (·.2)) (clausesOf g.name)
  others : ∀ name, name ∉ groups.map (·.name) → clausesOf name = []

variable {groups groups' : List FunctionGroup} {name : String} {visibility : Visibility}
  {clause : ClauseParts}

theorem addClause_cons {g : FunctionGroup}
    (h : addClause name visibility clause (g :: groups) = .ok groups') :
    (g.name = name ∧
      groups' = { g with clauses := g.clauses ++ [(visibility, clause)] } :: groups) ∨
    (g.name ≠ name ∧
      ∃ rest, addClause name visibility clause groups = .ok rest ∧ groups' = g :: rest) := by
  simp only [addClause] at h
  split at h
  next hname =>
    split at h
    · cases h
    · cases h
      exact .inl ⟨hname, rfl⟩
  next hname =>
    obtain ⟨rest, hrest, h⟩ := exists_ok_of_bind h
    cases h
    exact .inr ⟨hname, rest, hrest, rfl⟩

theorem addClause_names (h : addClause name visibility clause groups = .ok groups') :
    groups'.map (·.name) = if name ∈ groups.map (·.name) then groups.map (·.name)
      else groups.map (·.name) ++ [name] := by
  induction groups generalizing groups' with
  | nil =>
    cases h
    rfl
  | cons g groups ih =>
    rcases addClause_cons h with ⟨hname, rfl⟩ | ⟨hname, rest, hrest, rfl⟩
    · simp [hname]
    · simp only [List.map_cons, ih hrest, List.mem_cons, hname.symm, false_or]
      split <;> simp

/-- A group after a clause was added is as before, or the group of the clause. -/
theorem addClause_clauses (hdistinct : (groups.map (·.name)).Nodup)
    (h : addClause name visibility clause groups = .ok groups') :
    ∀ g' ∈ groups', (g'.name ≠ name ∧ g' ∈ groups) ∨
      (g'.name = name ∧ ((∃ g ∈ groups, g.name = name ∧
        g'.clauses = g.clauses ++ [(visibility, clause)]) ∨
        (name ∉ groups.map (·.name) ∧ g'.clauses = [(visibility, clause)]))) := by
  induction groups generalizing groups' with
  | nil =>
    cases h
    simp
  | cons g groups ih =>
    obtain ⟨hfirst, hdistinct⟩ := List.nodup_cons.mp hdistinct
    intro g' hg'
    rcases addClause_cons h with ⟨hname, rfl⟩ | ⟨hname, rest, hrest, rfl⟩
    · rcases List.mem_cons.mp hg' with rfl | hg'
      · exact .inr ⟨hname, .inl ⟨g, by simp, hname, rfl⟩⟩
      · refine .inl ⟨fun heq => hfirst ?_, List.mem_cons_of_mem _ hg'⟩
        exact List.mem_map.mpr ⟨g', hg', heq.trans hname.symm⟩
    · rcases List.mem_cons.mp hg' with rfl | hg'
      · exact .inl ⟨hname, by simp⟩
      · rcases ih hdistinct hrest g' hg' with ⟨hne, hmem⟩ | ⟨heq, ⟨old, hold, hold'⟩ | hnew⟩
        · exact .inl ⟨hne, List.mem_cons_of_mem _ hmem⟩
        · exact .inr ⟨heq, .inl ⟨old, List.mem_cons_of_mem _ hold, hold'⟩⟩
        · refine .inr ⟨heq, .inr ⟨?_, hnew.2⟩⟩
          rw [List.map_cons, List.mem_cons, not_or]
          exact ⟨hname.symm, hnew.1⟩

theorem GroupsFollow.addClause {clausesOf : String → List ClauseOutline} {o : ClauseOutline}
    (h : GroupsFollow V A clausesOf groups) (hclause : ClauseFollows V A clause o)
    (hrun : addClause name visibility clause groups = .ok groups') :
    GroupsFollow V A (fun x => clausesOf x ++ if name = x then [o] else []) groups' := by
  have hnames := addClause_names hrun
  refine ⟨?_, ?_, ?_⟩
  · rw [hnames]
    split
    · exact h.distinct
    next hnew => exact List.nodup_append.mpr ⟨h.distinct, by simp, by grind⟩
  · intro g' hg'
    rcases addClause_clauses h.distinct hrun g' hg' with ⟨hne, hmem⟩ | ⟨heq, hcases⟩
    · simpa [Ne.symm hne] using h.clauses g' hmem
    · rcases hcases with ⟨g, hg, hname, hclauses⟩ | ⟨hnew, hclauses⟩
      · have hold := h.clauses g hg
        rw [hname] at hold
        simpa [heq, hclauses] using List.rel_append hold (.cons hclause .nil)
      · simpa [heq, hclauses, h.others name hnew] using hclause
  · intro x hx
    have hold : x ∉ groups.map (·.name) ∧ x ≠ name := by
      rw [hnames] at hx
      split at hx
      next hmem => exact ⟨hx, fun heq => hx (heq ▸ hmem)⟩
      · simpa [not_or] using hx
    simp [h.others x hold.1, Ne.symm hold.2]

end Groups

/-- A start with nothing bound and all numbers at zero. -/
def Names.IsFresh (n : Names) : Prop := n.scope = [] ∧ n.versions = [] ∧ n.invented = 0

/-- What is lowered from a fresh start is related. -/
def Covers (c : Config) (V A : String → Prop) (R : List Event → List Mark → Prop) : Prop :=
  ∀ (n m : Names) (es : List Event) (ms : List Mark),
    n.IsFresh → Emits c V A [] n es ms m → R es ms

/-- What is lowered from a fresh start where these functions can be called is related. -/
def CoversIn (functions : List String) (c : Config) (V A : String → Prop)
    (R : List Event → List Mark → Prop) : Prop :=
  ∀ (n m : Names) (es : List Event) (ms : List Mark),
    n.IsFresh → n.functions = functions → Emits c V A [] n es ms m → R es ms

/-- What is lowered so and sets no attribute is related. -/
def CoversParts (functions : List String) (c : Config) (V A : String → Prop)
    (R : List Event → List Mark → Prop) : Prop :=
  ∀ (n m : Names) (es : List Event) (ms : List Mark), n.IsFresh → n.functions = functions →
    m.attributeVersions = n.attributeVersions → Emits c V A [] n es ms m → R es ms

theorem CoversIn.parts {functions : List String} {c : Config} (h : CoversIn functions c V A R) :
    CoversParts functions c V A R :=
  fun n m es ms hfresh hfunctions _ hemits => h n m es ms hfresh hfunctions hemits

theorem Covers.inside {c : Config} (h : Covers c V A R) (functions : List String) :
    CoversIn functions c V A R :=
  fun n m es ms hfresh _ hemits => h n m es ms hfresh hemits

section Modules

variable {c : Config} {s s' : State} {functions : List String}

theorem inFunction_run {α : Type} {x : LowerM α} {a : α}
    (hrun : LowerM.inFunction x c s = (.ok a, s')) :
    ∃ s₀ s₁, (namesOf s₀).IsFresh ∧ (namesOf s₀).functions = s.functions ∧
      x c s₀ = (.ok a, s₁) ∧
      s' = { s₁ with scope := s.scope, versions := s.versions, invented := s.invented } := by
  simp only [LowerM.inFunction, Prod.mk.injEq] at hrun
  exact ⟨{ s with scope := [], versions := [], invented := 0 }, _, ⟨rfl, rfl, rfl⟩, rfl,
    Prod.ext hrun.1 rfl, hrun.2.symm⟩

theorem inModule_run {α : Type} {name : List String} {x : LowerM α} {a : α}
    (hrun : LowerM.inModule name functions x c s = (.ok a, s')) :
    ∃ s₀ s₁, (namesOf s₀).IsFresh ∧ (namesOf s₀).functions = functions ∧
      (namesOf s₀).hasModule = true ∧ x c s₀ = (.ok a, s₁) ∧ namesOf s' = namesOf s := by
  simp only [LowerM.inModule, LowerM.inFunction, Prod.mk.injEq] at hrun
  obtain ⟨hvalue, rfl⟩ := hrun
  exact ⟨_, _, ⟨rfl, rfl, rfl⟩, rfl, rfl, Prod.ext hvalue rfl, rfl⟩

theorem clausesFunction_name {name label : String} {clauses : List ClauseParts} {f : FunctionDef}
    (hrun : LowerM.clausesFunction name label clauses c s = (.ok f, s')) : f.name = name := by
  have hdispatch : LowerM.dispatch name label clauses c s = (.ok f, s') → f.name = name := by
    intro hrun
    simp only [LowerM.dispatch, bind_run, pure_run] at hrun
    obtain ⟨blocks, s₁, -, lib, s₂, -, rfl, -⟩ := hrun
    rfl
  unfold LowerM.clausesFunction at hrun
  split at hrun
  next clause =>
    split at hrun
    · cases hplain : plainParams? clause.patterns with
      | none =>
        rw [hplain] at hrun
        exact hdispatch hrun
      | some params =>
        rw [hplain] at hrun
        obtain ⟨s₀, s₁, -, hrun, -⟩ := withAttributes_names hrun
        simp only [bind_run, pure_run] at hrun
        obtain ⟨targets, s₂, -, body, s₃, -, rfl, -⟩ := hrun
        rfl
    · exact hdispatch hrun
  · exact hdispatch hrun

theorem groupFunction_follows (hR : CoversParts functions c V A R) {body : List Node}
    {g : FunctionGroup} {f : ModuleFunction} (hs : s.functions = functions)
    (hwithin : ∀ clause ∈ g.clauses, clause.2.Within True)
    (h : List.Forall₂ (ClauseFollows V A) (g.clauses.map (·.2)) (definedClauses g.name body))
    (hrun : LowerM.groupFunction g c s = (.ok f, s')) : FunctionFollows R body f.function := by
  simp only [LowerM.groupFunction, bind_run, pure_run] at hrun
  obtain ⟨definition, s₁, hdefinition, rfl, rfl⟩ := hrun
  obtain ⟨s₀, s₂, hfresh, hnames, hdefinition, -⟩ := inFunction_run hdefinition
  have hclauses : (clausesFunction (Identifier.escape g.name) g.name
      (g.clauses.map (·.2))).Within .bindings True :=
    within_clausesFunction (List.forall_mem_map.mpr hwithin)
  have hkept := hclauses.attributeVersions_eq c s₀
  rw [hdefinition] at hkept
  exact .defined g.name (clausesFunction_name hdefinition)
    (hR _ _ _ _ hfresh (hnames.trans hs) hkept (clausesFunction_emits h hdefinition))

/-- The entries of a struct's defaults. -/
theorem structDefaults_follow (hR : CoversParts functions c V A R) {fields : List (String × Node)}
    {isException : Bool} {defaults : List Property} (hs : s.functions = functions)
    (hnamed : ∀ f ∈ fields, f.2.Named V A)
    (hrun : LowerM.structDefaults (fieldValues fields) isException c s = (.ok defaults, s')) :
    ∀ p ∈ defaults, ∃ key, p.key = .computed (atomValue key) ∧ (exprMarks p.value = [] ∨
      ∃ value, (key, value) ∈ fields ∧ R (outline value).value (exprMarks p.value)) := by
  simp only [LowerM.structDefaults, bind_run] at hrun
  obtain ⟨given, s₁, hgiven, hrun⟩ := hrun
  have hkeeps : ∀ field ∈ fields, ∀ s : State, s.functions = functions →
      ((inFunction (positions field.2).value >>= fun value =>
        pure (Property.computed (atomValue field.1) value)) c s).2.functions = functions := by
    intro field _ s hs
    have hfield : LowersWithin True field.2 := lowersWithin fun _ _ _ => trivial
    have hstep : (inFunction (positions field.2).value >>= fun value =>
        pure (Property.computed (atomValue field.1) value)).Within .bindings True :=
      .bind (.inFunction hfield.positions.value.widen) fun _ => .pure _
    exact (hstep.functions_eq c s).trans hs
  have hgivens : ∀ p ∈ given, ∃ key, p.key = .computed (atomValue key) ∧
      ∃ value, (key, value) ∈ fields ∧ R (outline value).value (exprMarks p.value) := by
    intro p hp
    rw [fieldValues_eq, List.map_map] at hgiven
    obtain ⟨field, hfield, s₂, s₃, hs₂, hp⟩ := exists_of_mem_sequence_keeping hkeeps hs hgiven hp
    simp only [bind_run, pure_run] at hp
    obtain ⟨value, s₄, hvalue, rfl, rfl⟩ := hp
    obtain ⟨s₅, s₆, hfresh, hnames, hvalue, -⟩ := inFunction_run hvalue
    have hemits := (outlined (hnamed field hfield)).follows.value c [] s₅ value s₆ hvalue
    have hkept : s₆.attributeVersions = s₅.attributeVersions := by
      rw [State.attributeVersions, (value_leaves hvalue).1.context, State.attributeVersions]
    exact ⟨field.1, rfl, field.2, hfield, hR _ _ _ _ hfresh (hnames.trans hs₂) hkept hemits⟩
  intro p hp
  split at hrun
  · obtain ⟨rfl, rfl⟩ := pure_run.mp hrun
    simp only [List.cons_append, List.nil_append, List.mem_cons, List.mem_append] at hp
    rcases hp with rfl | hp | hp
    · exact ⟨"__exception__", rfl, .inl (by simp [Property.computed])⟩
    · obtain ⟨key, hkey, h⟩ := hgivens p hp
      exact ⟨key, hkey, .inr h⟩
    · split at hp
      · rw [List.mem_singleton.mp hp]
        exact ⟨"message", rfl, .inl (by simp [Property.computed])⟩
      · cases hp
  · obtain ⟨rfl, rfl⟩ := pure_run.mp hrun
    obtain ⟨key, hkey, h⟩ := hgivens p hp
    exact ⟨key, hkey, .inr h⟩

/-- The functions that the struct of a body adds. -/
theorem structsFunctions_follow (hR : CoversParts functions c V A R) {name : List String}
    {draft : ModuleDraft} {body : List Node} {generated : List ModuleFunction}
    (hs : s.functions = functions)
    (hstructs : ∀ p ∈ draft.structs, ∃ fields, (.defStruct fields ∈ body ∨
      .defException fields ∈ body) ∧ (∀ f ∈ fields, f.2.Named V A) ∧ p.1 = fieldValues fields)
    (hrun : LowerM.structsFunctions name draft c s = (.ok generated, s')) :
    ∀ f ∈ generated, FunctionFollows R body f.function := by
  simp only [LowerM.structsFunctions] at hrun
  rcases hone : draft.structs with _ | ⟨⟨values, isException⟩, _ | ⟨second, others⟩⟩
  · simp only [hone, pure_run] at hrun
    simp [hrun.1]
  · obtain ⟨fields, hitem, hnamed, rfl⟩ := hstructs (values, isException) (by simp [hone])
    simp only [hone, LowerM.structFunctions, bind_run, library_run] at hrun
    obtain ⟨defaults, s₁, hdefaults, lib, s₂, ⟨rfl, rfl⟩, hrun⟩ := hrun
    have hgiven := structDefaults_follow hR hs hnamed hdefaults
    split at hrun
    · obtain ⟨rfl, rfl⟩ := pure_run.mp hrun
      exact List.forall_mem_cons.mpr ⟨.constructor hitem hgiven, by simpa using .exception⟩
    · obtain ⟨rfl, rfl⟩ := pure_run.mp hrun
      exact List.forall_mem_singleton.mpr (.constructor hitem hgiven)
  · rw [hone] at hrun
    exact (fail_run hrun).elim

/-- The draft holds what the items taken so far come to, which started from the names `n`. -/
structure DraftFollows (V A : String → Prop) (R : List Event → List Mark → Prop) (c : Config)
    (n : Names) (taken : List Node) (draft : ModuleDraft) (m : Names) : Prop where
  own : Emits c V A [] n (taken.flatMap itemEvents) (stmtsMarks draft.body) m
  nested : ModulesFollow R taken draft.body
  groups : GroupsFollow V A (definedClauses · taken) draft.groups
  structs : ∀ p ∈ draft.structs, ∃ fields, (.defStruct fields ∈ taken ∨
    .defException fields ∈ taken) ∧ (∀ f ∈ fields, f.2.Named V A) ∧ p.1 = fieldValues fields

/-- A definition gives the clause of its outline to its name. -/
theorem definition_follows {visibility : Visibility} {head : Node} {body : List Node}
    {function : String} {patterns guards : List Node} (attributes : Option (NameTable Nat))
    (named : (Node.define visibility head body).Named V A)
    (hhead : definitionHead head = .ok (function, patterns, guards)) :
    ClauseFollows V A ⟨patterns, definitionTests head, Positions.body (all body), attributes⟩
      ⟨patterns, definitionGuards head, Outline.body (outlines body)⟩ := by
  obtain ⟨hchildren, hbody⟩ := List.forall_mem_append.mp (Node.named_iff.mp named).2
  have houtlined : ∀ m ∈ Node.definitionChildren head, Outlined V A m :=
    fun m hm => outlined (hchildren m hm)
  have hparts : (∀ p ∈ patterns, p ∈ Node.definitionChildren head) ∧
      List.Forall₂ (YieldsExpr V A) (definitionTests head) (definitionGuards head) := by
    unfold definitionHead at hhead
    split at hhead
    · cases hhead
      simp [Node.definitionChildren, definitionTests, definitionGuards]
    · cases hhead
      simp [definitionTests, definitionGuards]
    next name args info guard =>
      obtain ⟨alternatives, -, hhead⟩ := exists_ok_of_bind hhead
      cases hhead
      have hguard := (houtlined guard (by simp [Node.definitionChildren])).guards
      exact ⟨by simp +contextual [Node.definitionChildren],
        by simpa [definitionTests, definitionGuards] using hguard⟩
    next name guard =>
      obtain ⟨alternatives, -, hhead⟩ := exists_ok_of_bind hhead
      cases hhead
      have hguard := (houtlined guard (by simp [Node.definitionChildren])).guards
      exact ⟨by simp, by simpa [definitionTests, definitionGuards] using hguard⟩
    · cases hhead
    · cases hhead
  exact
    { patterns := rfl
      named := fun p hp => (houtlined p (hparts.1 p hp)).named
      guards := hparts.2
      body := yields_body (follows_all fun m hm => outlined (hbody m hm)) }

/-- One more item: its statements, its clause or its struct. -/
theorem DraftFollows.extend {n m k : Names} {taken : List Node} {draft draft' : ModuleDraft}
    {node : Node} {stmts : List Stmt} (h : DraftFollows V A R c n taken draft m)
    (hbody : draft'.body = draft.body ++ stmts)
    (hemits : Emits c V A [] m (itemEvents node) (stmtsMarks stmts) k)
    (hmodules : ModulesFollow R [node] stmts)
    (hgroups : GroupsFollow V A (fun name => definedClauses name taken ++ itemClauses name node)
      draft'.groups)
    (hstructs : ∀ p ∈ draft'.structs, p ∈ draft.structs ∨ ∃ fields, (node = .defStruct fields ∨
      node = .defException fields) ∧ (∀ f ∈ fields, f.2.Named V A) ∧ p.1 = fieldValues fields) :
    DraftFollows V A R c n (taken ++ [node]) draft' k := by
  refine ⟨?_, ?_, ?_, ?_⟩
  · simpa [hbody] using h.own.append hemits
  · rw [hbody]
    exact h.nested.append hmodules
  · simpa [definedClauses] using hgroups
  · intro p hp
    rcases hstructs p hp with hp | ⟨fields, hitem, hfields⟩
    · obtain ⟨fields, hitem, hfields⟩ := h.structs p hp
      exact ⟨fields, hitem.imp (List.mem_append_left _) (List.mem_append_left _), hfields⟩
    · exact ⟨fields, by rcases hitem with rfl | rfl <;> simp, hfields⟩

theorem GroupsFollow.unchanged {taken : List Node} {groups : List FunctionGroup} {node : Node}
    (h : GroupsFollow V A (definedClauses · taken) groups)
    (hclauses : ∀ name, itemClauses name node = []) :
    GroupsFollow V A (fun name => definedClauses name taken ++ itemClauses name node) groups := by
  simpa [hclauses] using h

/-- A form that is no module, and whose statements hold none. -/
theorem ModulesFollow.single {node : Node} {stmts : List Stmt}
    (form : ∀ name body, node ≠ .module name body) (empty : stmtsModules stmts = []) :
    ModulesFollow R [node] stmts := by
  rw [← List.append_nil stmts]
  exact .other form empty .nil

theorem defineAttribute_names {a t : String} (hmodule : (namesOf s).hasModule = true)
    (hrun : LowerM.defineAttribute a c s = (.ok t, s')) :
    t = (namesOf s).nextAttribute a ∧ namesOf s' = (namesOf s).define a := by
  simp only [LowerM.defineAttribute, LowerM.modifyContext, bind_run, state_run, modify_run,
    pure_run] at hrun
  obtain ⟨r, s₁, ⟨rfl, rfl⟩, u, s₂, rfl, rfl, rfl⟩ := hrun
  refine ⟨rfl, ?_⟩
  obtain ⟨context, hcontext⟩ := Option.isSome_iff_exists.mp hmodule
  simp [namesOf, Names.define, State.functions, State.attributeVersions, hcontext]

theorem addAlias_names {short : String} {full : List String} {u : Unit}
    (hrun : LowerM.addAlias short full c s = (.ok u, s')) : namesOf s' = namesOf s := by
  simp only [LowerM.addAlias, LowerM.modifyContext, modify_run] at hrun
  subst hrun
  cases hcontext : s.context <;>
    simp [namesOf, State.functions, State.attributeVersions, hcontext]

/-- Every run of the body as a module follows it and leaves the names as they were. -/
def ModuleRuns (c : Config) (R : List Event → List Mark → Prop) (body : List Node) : Prop :=
  ∀ full s m s', LowerM.moduleDef full body (items body) c s = (.ok m, s') →
    ModuleFollows R body m ∧ namesOf s' = namesOf s

/-- An item that only adds to the imports, or nothing at all. -/
theorem DraftFollows.pass {n m : Names} {taken : List Node} {draft draft' : ModuleDraft}
    {node : Node} (h : DraftFollows V A R c n taken draft m)
    (hevents : itemEvents node = []) (hclauses : ∀ name, itemClauses name node = [])
    (form : ∀ name body, node ≠ .module name body) (hbody : draft'.body = draft.body)
    (hgroups : draft'.groups = draft.groups) (hstructs : draft'.structs = draft.structs) :
    DraftFollows V A R c n (taken ++ [node]) draft' m := by
  have hemits : Emits c V A [] m (itemEvents node) (stmtsMarks []) m := by
    rw [hevents]
    exact .nil
  exact h.extend (by rw [hbody, List.append_nil]) hemits (.single form rfl)
    (hgroups ▸ h.groups.unchanged hclauses) fun p hp => .inl (hstructs ▸ hp)

theorem importDeclaration_state {node : Node} {declaration : Option Import}
    (hrun : LowerM.importDeclaration node c s = (.ok declaration, s')) : s' = s := by
  simp only [LowerM.importDeclaration, bind_run, ofExcept_run, Prod.mk.injEq] at hrun
  obtain ⟨⟨module, binding⟩, s₁, ⟨-, rfl⟩, hrun⟩ := hrun
  split at hrun
  · exact (fail_run hrun).elim
  · simp only [bind_run, config_run] at hrun
    obtain ⟨d, s₂, ⟨rfl, rfl⟩, hrun⟩ := hrun
    split at hrun
    · exact (pure_run.mp hrun).2
    · simp only [bind_run, config_run, pure_run] at hrun
      obtain ⟨d, s₃, ⟨rfl, rfl⟩, -, rfl⟩ := hrun
      rfl

theorem takeItem_follows {n : Names} {name : List String} {taken : List Node}
    {draft draft' : ModuleDraft} {node : Node} (hn : n.hasModule = true) (named : node.Named V A)
    (hmodule : ∀ inner body, node = .module inner body → ModuleRuns c R body)
    (h : DraftFollows V A R c n taken draft (namesOf s))
    (hrun : LowerM.takeItem name draft (item (positions node) node) c s = (.ok draft', s')) :
    DraftFollows V A R c n (taken ++ [node]) draft' (namesOf s') := by
  have hchildren := (Node.named_iff.mp named).2
  cases node with
  | define visibility head body =>
    simp only [item, LowerM.takeItem, LowerM.attributes, bind_run, pure_run, state_run, ofExcept_run,
      Prod.mk.injEq] at hrun
    obtain ⟨⟨function, patterns, guards⟩, s₁, ⟨hhead, rfl⟩, versions, s₂, ⟨r, s₃, ⟨rfl, rfl⟩, rfl,
      rfl⟩, groups, s₄, ⟨hgroups, rfl⟩, rfl, rfl⟩ := hrun
    have hgroups := h.groups.addClause (definition_follows _ named hhead) hgroups
    refine h.extend (List.append_nil _).symm .nil (.single (by simp) rfl) ?_ fun p hp => .inl hp
    simpa [itemClauses, hhead] using hgroups
  | attributeSet key value =>
    simp only [item, LowerM.takeItem] at hrun
    split at hrun
    next hdocumentation =>
      obtain ⟨rfl, rfl⟩ := pure_run.mp hrun
      refine h.pass ?_ (fun _ => rfl) (by simp) rfl rfl rfl
      simp only [itemEvents, hdocumentation, if_true]
    next hdocumentation =>
      simp only [bind_run, pure_run] at hrun
      obtain ⟨e, s₁, he, target, s₂, htarget, rfl, rfl⟩ := hrun
      have hvalue := (outlined (hchildren value (by simp [Node.children]))).follows.value
        c [] s e s₁ he
      have hmodule : (namesOf s₁).hasModule = true :=
        (h.own.append hvalue).around_eq.2.trans hn
      obtain ⟨rfl, hnames⟩ := defineAttribute_names hmodule htarget
      have hnamed : A key := (Node.named_iff.mp named).1 (.attribute key) (List.mem_singleton_self _)
      refine h.extend rfl ?_ (.single (by simp) rfl) (h.groups.unchanged fun _ => rfl)
        fun p hp => .inl hp
      have hevents : itemEvents (.attributeSet key value) = (outline value).value ++ [.define key] :=
        if_neg hdocumentation
      rw [hnames, hevents]
      simpa using hvalue.append (.define hnamed)
  | defStruct fields | defException fields =>
    simp only [item, LowerM.takeItem, pure_run] at hrun
    obtain ⟨rfl, rfl⟩ := hrun
    refine h.extend (List.append_nil _).symm .nil (.single (by simp) rfl)
      (h.groups.unchanged fun _ => rfl) fun p hp => ?_
    rcases List.mem_append.mp hp with hp | hp
    · exact .inl hp
    · rw [List.mem_singleton.mp hp]
      exact .inr ⟨fields, by simp, fun f hf => hchildren f.2 (List.mem_map_of_mem hf), rfl⟩
  | module inner body =>
    have hruns := hmodule inner body rfl
    obtain ⟨s₁, m, hnames, hm, rfl⟩ : ∃ s₁ m, namesOf s₁ = namesOf s ∧
        LowerM.moduleDef (name ++ inner) body (items body) c s₁ = (.ok m, s') ∧
        draft' = { draft with body := draft.body ++ [.module m] } := by
      cases inner with
      | nil =>
        simp only [item, LowerM.takeItem, bind_run, pure_run] at hrun
        obtain ⟨m, s₂, hm, rfl, rfl⟩ := hrun
        exact ⟨s, m, rfl, hm, rfl⟩
      | cons first rest =>
        simp only [item, LowerM.takeItem, bind_run, pure_run] at hrun
        obtain ⟨u, s₁, halias, m, s₂, hm, rfl, rfl⟩ := hrun
        exact ⟨s₁, m, addAlias_names halias, hm, rfl⟩
    obtain ⟨hfollows, hafter⟩ := hruns _ s₁ m s' hm
    rw [hafter, hnames]
    exact h.extend rfl .nil (.module hfollows .nil) (h.groups.unchanged fun _ => rfl)
      fun p hp => .inl hp
  | importAll | importOnly | aliasAs | require =>
    simp only [item, LowerM.takeItem, bind_run, pure_run] at hrun
    obtain ⟨declaration, s₁, hdeclaration, rfl, rfl⟩ := hrun
    obtain rfl := importDeclaration_state hdeclaration
    exact h.pass rfl (fun _ => rfl) (by simp) rfl rfl rfl
  | _ =>
    simp only [item, LowerM.takeItem, bind_run, pure_run] at hrun
    obtain ⟨stmts, s₁, hstmts, rfl, rfl⟩ := hrun
    have heffect := (outlined named).follows.effect c [] s stmts s' hstmts
    exact h.extend rfl heffect (.single (by simp) (noModules_effect _ c s stmts s' hstmts))
      (h.groups.unchanged fun _ => rfl) fun p hp => .inl hp

theorem takeItems_follows {n : Names} {name : List String} {nodes taken : List Node}
    {draft draft' : ModuleDraft} (hn : n.hasModule = true) (named : ∀ m ∈ nodes, m.Named V A)
    (hmodules : ∀ m ∈ nodes, ∀ inner body, m = .module inner body → ModuleRuns c R body)
    (h : DraftFollows V A R c n taken draft (namesOf s))
    (hrun : LowerM.takeItems name draft (items nodes) c s = (.ok draft', s')) :
    DraftFollows V A R c n (taken ++ nodes) draft' (namesOf s') := by
  induction nodes generalizing taken draft s with
  | nil =>
    rw [items] at hrun
    obtain ⟨rfl, rfl⟩ := pure_run.mp hrun
    simpa using h
  | cons node nodes ih =>
    simp only [items, LowerM.takeItems, bind_run] at hrun
    obtain ⟨middle, s₁, hitem, hrun⟩ := hrun
    have hmiddle := takeItem_follows hn (named node (by simp)) (hmodules node (by simp)) h hitem
    simpa using ih (fun m hm => named m (by simp [hm])) (fun m hm => hmodules m (by simp [hm]))
      hmiddle hrun

/-- What the draft of a body has put off leaves the module as it was. -/
theorem draft_within {name : List String} {nodes : List Node} {draft : ModuleDraft}
    (h : takeItems name {} (items nodes) c s = (.ok draft, s')) : draft.Within True := by
  have hitems : ∀ item ∈ items nodes, item.Within True := by
    rw [items_eq]
    exact List.forall_mem_map.mpr fun n _ => (lowersWithin fun _ _ _ => trivial).item
  have hempty : ModuleDraft.Within {} True := ⟨by simp, by simp⟩
  exact (within_takeItems name hitems hempty).2 c s draft s' h

/-- The statements and the functions of a module follow its body, and so do the modules among the
statements if they follow theirs. -/
theorem moduleDef_follows {R' Q : List Event → List Mark → Prop} {body : List Node}
    (hR : CoversIn (body.flatMap declaredFunctions) c V A R)
    (hQ : CoversParts (body.flatMap declaredFunctions) c V A Q)
    (named : ∀ m ∈ body, m.Named V A)
    (hmodules : ∀ m ∈ body, ∀ inner body', m = .module inner body' → ModuleRuns c R' body')
    {full : List String} {m : ModuleDef}
    (hrun : LowerM.moduleDef full body (items body) c s = (.ok m, s')) :
    R (body.flatMap itemEvents) (stmtsMarks m.body) ∧ ModulesFollow R' body m.body ∧
      (∀ f ∈ m.functions, FunctionFollows Q body f.function) ∧ namesOf s' = namesOf s := by
  obtain ⟨s₀, s₁, hfresh, hfunctions, hinside, hrun, hnames⟩ := inModule_run hrun
  simp only [bind_run, pure_run] at hrun
  obtain ⟨draft, s₂, hdraft, generated, s₃, hgenerated, others, s₄, hothers, rfl, rfl⟩ := hrun
  have hstart : DraftFollows V A R' c (namesOf s₀) [] {} (namesOf s₀) :=
    ⟨.nil, .nil, ⟨.nil, by simp, fun _ _ => rfl⟩, by simp⟩
  have hfollows := takeItems_follows hinside named hmodules hstart hdraft
  rw [List.nil_append] at hfollows
  have hwithin := draft_within hdraft
  have hs₂ : s₂.functions = body.flatMap declaredFunctions :=
    hfollows.own.around_eq.1.trans hfunctions
  have hs₃ : s₃.functions = body.flatMap declaredFunctions := by
    have hstructs : (structsFunctions full draft).Within .bindings True :=
      within_structsFunctions hwithin
    have hkept := hstructs.functions_eq c s₂
    rw [hgenerated] at hkept
    exact hkept.trans hs₂
  refine ⟨hR _ _ _ _ hfresh hfunctions hfollows.own, hfollows.nested, fun f hf => ?_, hnames⟩
  rcases List.mem_append.mp hf with hf | hf
  · exact structsFunctions_follow hQ hs₂ hfollows.structs hgenerated f hf
  · obtain ⟨g, hg, s₅, s₆, hs₅, hgroup⟩ := exists_of_mem_sequence_keeping
      (I := fun s => s.functions = body.flatMap declaredFunctions)
      (fun g hg s hs => ((within_groupFunction (hwithin.clauses g hg)).functions_eq c s).trans hs)
      hs₃ hothers hf
    exact groupFunction_follows hQ hs₅ (hwithin.clauses g hg) (hfollows.groups.clauses g hg) hgroup

/-- A module follows its body when the modules inside of it follow theirs. -/
theorem moduleRuns_of_inner (hR : Covers c V A R) {body : List Node} (named : ∀ m ∈ body, m.Named V A)
    (hmodules : ∀ m ∈ body, ∀ inner body', m = .module inner body' → ModuleRuns c R body') :
    ModuleRuns c R body := by
  intro full s m s' hrun
  obtain ⟨hown, hnested, hfunctions, hnames⟩ :=
    moduleDef_follows (hR.inside _) (hR.inside _).parts named hmodules hrun
  exact ⟨.intro hown hnested hfunctions, hnames⟩

/-- Every module follows its body. -/
theorem moduleRuns (hR : Covers c V A R) (node : Node) (named : node.Named V A) (inner : List String)
    (body : List Node) (h : node = .module inner body) : ModuleRuns c R body := by
  induction node using Node.induct generalizing inner body with
  | step node ih =>
    subst h
    have hbody : ∀ m ∈ body, m.Named V A := (Node.named_iff.mp named).2
    exact moduleRuns_of_inner hR hbody fun m hm => ih m hm (hbody m hm)

/-- A form at the top of a program. -/
theorem topLevel_follows (hR : Covers c V A R) {node : Node} {stmts : List Stmt}
    (named : node.Named V A) (hrun : topLevel node c s = (.ok stmts, s')) :
    Emits c V A [] (namesOf s) (itemEvents node) (stmtsMarks stmts) (namesOf s') ∧
      ModulesFollow R [node] stmts := by
  have heffect : (positions node).effect c s = (.ok stmts, s') →
      Emits c V A [] (namesOf s) (outline node).effect (stmtsMarks stmts) (namesOf s') :=
    (outlined named).follows.effect c [] s stmts s'
  cases node with
  | module inner body =>
    simp only [topLevel, item, bind_run, pure_run] at hrun
    obtain ⟨m, s₁, hm, rfl, rfl⟩ := hrun
    obtain ⟨hfollows, hnames⟩ := moduleRuns hR _ named inner body rfl inner s m s' hm
    rw [hnames]
    exact ⟨.nil, .module hfollows .nil⟩
  | importAll | importOnly | aliasAs | require =>
    simp only [topLevel, item, bind_run, pure_run] at hrun
    obtain ⟨declaration, s₁, hdeclaration, rfl, rfl⟩ := hrun
    obtain rfl := importDeclaration_state hdeclaration
    cases declaration <;> exact ⟨.nil, .single (by simp) rfl⟩
  | define | attributeSet | defStruct | defException =>
    simp only [topLevel, item, positions] at hrun
    simp only [Positions.misplaced, Positions.ofValue, Positions.evaluated, bind_run] at hrun
    obtain ⟨value, s₁, hvalue, -⟩ := hrun
    exact (fail_run hvalue).elim
  | _ =>
    simp only [topLevel, item] at hrun
    exact ⟨heffect hrun, .single (by simp) (noModules_effect _ c s stmts s' hrun)⟩

theorem topLevels_follow (hR : Covers c V A R) {nodes : List Node} {parts : List (List Stmt)}
    (named : ∀ n ∈ nodes, n.Named V A)
    (hrun : LowerM.sequence (nodes.map topLevel) c s = (.ok parts, s')) :
    Emits c V A [] (namesOf s) (nodes.flatMap itemEvents) (stmtsMarks parts.flatten) (namesOf s') ∧
      ModulesFollow R nodes parts.flatten := by
  induction nodes generalizing s parts with
  | nil =>
    obtain ⟨rfl, rfl⟩ := pure_run.mp hrun
    exact ⟨.nil, .nil⟩
  | cons node nodes ih =>
    simp only [List.map_cons, LowerM.sequence, bind_run, pure_run] at hrun
    obtain ⟨stmts, s₁, hstmts, rest, s₂, hrest, rfl, rfl⟩ := hrun
    obtain ⟨hemits, hmodules⟩ := topLevel_follows hR (named node (by simp)) hstmts
    obtain ⟨hemits', hmodules'⟩ := ih (fun n hn => named n (by simp [hn])) hrest
    rw [List.flatten_cons, stmtsMarks_append, List.flatMap_cons]
    exact ⟨hemits.append hemits', hmodules.append hmodules'⟩

end Modules

/-- The statements of a program and every module in it follow the forms without their pipes. -/
theorem lowerProgram_follows {config : Config} (hR : Covers config V A R) {nodes : List Node}
    {program : Program} (named : ∀ n ∈ nodes, n.Named V A)
    (h : lowerProgram config nodes = .ok program) :
    ∃ plain, Node.removePipesList nodes = .ok plain ∧
      R (plain.flatMap itemEvents) (stmtsMarks program.body) ∧
      ModulesFollow R plain program.body := by
  obtain ⟨s', hrun⟩ : ∃ s', lowerProgramM nodes config {} = (.ok program, s') := ⟨_, Prod.ext h rfl⟩
  simp only [lowerProgramM, LowerM.concat, bind_run, pure_run, ofExcept_run, Prod.mk.injEq] at hrun
  obtain ⟨plain, s₁, ⟨hplain, rfl⟩, stmts, s₂, ⟨parts, s₃, hparts, rfl, rfl⟩, rfl, rfl⟩ := hrun
  have hplainNamed : ∀ n ∈ plain, n.Named V A :=
    Node.named_removePipesList (fun m hm => m.stays (named m hm)) hplain
  obtain ⟨hemits, hmodules⟩ := topLevels_follow hR hplainNamed hparts
  exact ⟨plain, hplain, hR _ _ _ _ ⟨rfl, rfl, rfl⟩ hemits, hmodules⟩

end TreeLowering.Scoping
