import TreeLowering.Proofs.Grouping
import TreeLowering.Proofs.NamingScheme

/-!
Struct definitions, literals and patterns agree on the tag.

A module name is written out in four places: where its module defines a struct, where a struct is
built, where one is matched and where the name itself is a value. The last three read the short
names that are in force there (`StandsIn`), and the first has the full name of its module
(`LoweredFrom`). Full names are read back from target names, so a constructor that is called by the
name of a module is that of the module whose name was meant.
-/
namespace TreeLowering

open Source Target LowerM Lowering
open Identifier (IsSegment ofModule)
open Scoping (modulesWithin stmtsModules)

/-- The modules of a program, at any depth, by the names that are written. -/
inductive Source.HasModule (nodes : List Node) : List String → List Node → Prop
  | top {name : List String} {body : List Node} (stands : .module name body ∈ nodes) :
      HasModule nodes name body
  | inner {outer name : List String} {around body : List Node}
      (inside : HasModule nodes outer around) (stands : .module name body ∈ around) :
      HasModule nodes name body

section Pipes

open Node

theorem exists_of_removePipes_module {n : Node} {name : List String} {body : List Node}
    (h : n.removePipes = .ok (.module name body)) :
    ∃ body', n = .module name body' ∧ removePipesList body' = .ok body := by
  obtain ⟨left, right, left', right', -, -, -, hcall⟩ | ⟨hpipe, ps, -, hparts⟩ := removePipes_ok h
  · cases (withFirstArgument_ok hcall).2.1
  · cases n with
    | module name' body' =>
      obtain ⟨plain, hplain, heq⟩ := removePipes_module.mp h
      cases heq
      exact ⟨body', rfl, hplain⟩
    | _ => cases hparts

/-- The modules keep their names when pipes are written out. -/
theorem Source.HasModule.of_removePipes {nodes forms : List Node}
    (hforms : removePipesList nodes = .ok forms) {name : List String} {body : List Node}
    (h : HasModule forms name body) :
    ∃ body', HasModule nodes name body' ∧ removePipesList body' = .ok body := by
  induction h with
  | top stands =>
    obtain ⟨n, hn, hplain⟩ := exists_of_mem_removePipesList hforms stands
    obtain ⟨body', rfl, hbody⟩ := exists_of_removePipes_module hplain
    exact ⟨body', .top hn, hbody⟩
  | inner inside stands ih =>
    obtain ⟨around, houter, haround⟩ := ih
    obtain ⟨n, hn, hplain⟩ := exists_of_mem_removePipesList haround stands
    obtain ⟨body', rfl, hbody⟩ := exists_of_removePipes_module hplain
    exact ⟨body', .inner houter hn, hbody⟩

end Pipes

/-- The module of that full name and body is lowered from that state, when the forms are lowered as
a program. -/
inductive LoweredFrom (c : Config) (forms : List Node) : List String → List Node → State → Prop
  | top {before after body : List Node} {name : List String} {stmts : List Stmt} {s : State}
      (stands : forms = before ++ .module name body :: after)
      (reached : LowerM.concat (before.map topLevel) c {} = (.ok stmts, s)) :
      LoweredFrom c forms name body s
  | inner {path name : List String} {before after body : List Node} {draft : ModuleDraft}
      {s t : State} (outer : LoweredFrom c forms path (before ++ .module name body :: after) s)
      (reached : takeItems path {} (items before) c
        { context := some (s.entering path (before ++ .module name body :: after)) } =
          (.ok draft, t)) :
      LoweredFrom c forms (path ++ name) body
        { t with context := t.context.map (·.withInner path name) }

/-- A node inside of a statement or a function of the module of that full name may be lowered in
that state: behind the items before the statement, or behind all items and with the attributes of
the place of the function. Scopes and numbers may have gone on since, but no node changes the
module. -/
inductive StandsIn (c : Config) (forms : List Node) (path : List String) : State → Prop
  | statement {before after : List Node} {draft : ModuleDraft} {s t u : State}
      (outer : LoweredFrom c forms path (before ++ after) s)
      (reached : takeItems path {} (items before) c
        { context := some (s.entering path (before ++ after)) } = (.ok draft, t))
      (inside : u.context = t.context) : StandsIn c forms path u
  | function {body : List Node} {draft : ModuleDraft} {s t u : State} {versions : NameTable Nat}
      (outer : LoweredFrom c forms path body s)
      (reached : takeItems path {} (items body) c { context := some (s.entering path body) } =
        (.ok draft, t))
      (inside : u.context = (t.withAttributes versions).context) : StandsIn c forms path u

section Segments

/-- The full names that a module knows, its own among them, are made of segments. -/
structure ModuleContext.Segmented (m : ModuleContext) : Prop where
  name : ∀ x ∈ m.name, IsSegment x
  aliases : ∀ p ∈ m.aliases, ∀ x ∈ p.2, IsSegment x

namespace ModuleContext.Segmented

variable {m : ModuleContext}

theorem withInner (h : m.Segmented) {inner : List String} (hinner : ∀ x ∈ inner, IsSegment x) :
    (m.withInner m.name inner).Segmented := by
  cases inner with
  | nil => exact h
  | cons first rest =>
    refine ⟨h.name, List.forall_mem_cons.mpr ⟨fun x hx => ?_, h.aliases⟩⟩
    rcases List.mem_append.mp hx with hx | hx
    · exact h.name x hx
    · exact hinner x (List.mem_singleton.mp hx ▸ List.mem_cons_self)

theorem after (h : m.Segmented) {n : Node}
    (hn : ∀ inner body, n = .module inner body → ∀ x ∈ inner, IsSegment x) :
    (m.after n).Segmented := by
  cases n with
  | module inner body => exact h.withInner (hn inner body rfl)
  | attributeSet key value =>
    rw [ModuleContext.after]
    split
    · exact h
    · exact ⟨h.name, h.aliases⟩
  | _ => exact h

theorem afterAll {ns : List Node} (h : m.Segmented)
    (hns : ∀ inner body, .module inner body ∈ ns → ∀ x ∈ inner, IsSegment x) :
    (m.afterAll ns).Segmented := by
  induction ns generalizing m with
  | nil => exact h
  | cons n ns ih =>
    refine ih (h.after fun inner body hn => hns inner body (hn ▸ List.mem_cons_self)) ?_
    exact fun inner body hmem => hns inner body (List.mem_cons_of_mem _ hmem)

/-- So is the full name that any name is written out to. -/
theorem resolveModule (h : m.Segmented) {u : State} (hu : u.context = some m) {name : List String}
    (hname : ∀ x ∈ name, IsSegment x) : ∀ x ∈ u.resolveModule name, IsSegment x := by
  have haliases : u.aliases = m.aliases := by rw [State.aliases, hu]; rfl
  unfold State.resolveModule
  split
  · simp
  next first rest =>
    split
    next full hfull =>
      rw [haliases] at hfull
      obtain ⟨before, after, hsplit, -⟩ := List.lookup_eq_some_iff.mp hfull
      have hmem : (first, full) ∈ m.aliases := by simp [hsplit]
      intro x hx
      rcases List.mem_append.mp hx with hx | hx
      · exact h.aliases _ hmem x hx
      · exact hname x (List.mem_cons_of_mem _ hx)
    · exact hname

end ModuleContext.Segmented

variable {c : Config} {forms body : List Node} {path : List String} {s u : State}

/-- Where a module starts, the full names that it knows are made of segments. -/
theorem LoweredFrom.segmented
    (named : ∀ name body, HasModule forms name body → ∀ x ∈ name, IsSegment x)
    (h : LoweredFrom c forms path body s) :
    (∃ name, HasModule forms name body) ∧ (s.entering path body).Segmented := by
  induction h with
  | @top before after body name stmts s stands reached =>
    have hmodule : HasModule forms name body := .top (by simp [stands])
    have hcontext : s.context = none := by
      have hkept := topLevel_context before c {}
      rw [reached] at hkept
      exact hkept
    refine ⟨⟨name, hmodule⟩, named name body hmodule, ?_⟩
    simp [State.entering, State.aliases, hcontext]
  | @inner path name before after body draft s t outer reached ih =>
    obtain ⟨⟨outerName, houter⟩, hsegmented⟩ := ih
    have hmodule : HasModule forms name body := .inner houter (by simp)
    have hcontext := takeItems_context reached rfl rfl
    have hbefore : ((s.entering path (before ++ .module name body :: after)).afterAll
        before).Segmented :=
      hsegmented.afterAll fun inner body hmem => named inner body (.inner houter (by simp [hmem]))
    have hinner := hbefore.withInner (named name body hmodule)
    rw [ModuleContext.afterAll_name] at hinner
    refine ⟨⟨name, hmodule⟩, fun x hx => ?_, ?_⟩
    · rcases List.mem_append.mp hx with hx | hx
      · exact hsegmented.name x hx
      · exact named name body hmodule x hx
    · simp only [State.entering, State.aliases, hcontext]
      exact hinner.aliases

/-- A node inside of a module sees the full name of the module, and full names that are made of
segments. -/
theorem StandsIn.segmented
    (named : ∀ name body, HasModule forms name body → ∀ x ∈ name, IsSegment x)
    (h : StandsIn c forms path u) : ∃ m, u.context = some m ∧ m.name = path ∧ m.Segmented := by
  cases h with
  | @statement before after draft s t u outer reached inside =>
    obtain ⟨⟨name, hmodule⟩, hsegmented⟩ := outer.segmented named
    have hcontext := inside.trans (takeItems_context reached rfl rfl)
    refine ⟨_, hcontext, ModuleContext.afterAll_name _ _, hsegmented.afterAll ?_⟩
    exact fun inner body hmem => named inner body (.inner hmodule (by simp [hmem]))
  | @function body draft s t u versions outer reached inside =>
    obtain ⟨⟨name, hmodule⟩, hsegmented⟩ := outer.segmented named
    have hcontext : u.context =
        some { (s.entering path body).afterAll body with attributes := versions } := by
      rw [inside, State.withAttributes, takeItems_context reached rfl rfl]
      rfl
    have hbehind := hsegmented.afterAll fun inner body hmem =>
      named inner body (.inner hmodule hmem)
    exact ⟨_, hcontext, ModuleContext.afterAll_name _ _, hbehind.name, hbehind.aliases⟩

end Segments

section Construction

variable {c : Config} {u u' : State} {name path : List String}

/-- Full names are read back from target names; the name without segments has the empty one. -/
theorem ofModule_inj {a b : List String} (ha : ∀ x ∈ a, IsSegment x) (hb : ∀ x ∈ b, IsSegment x)
    (h : ofModule a = ofModule b) : a = b := by
  have hread : ∀ segments : List String, (∀ x ∈ segments, IsSegment x) →
      ((ofModule segments).toList.splitOn '$').filter (!·.isEmpty) =
        segments.map String.toList := by
    intro segments hsegments
    by_cases hne : segments = []
    · subst hne
      decide
    · exact Identifier.splitOn_ofModule hne hsegments
  have hmap : a.map String.toList = b.map String.toList := by
    rw [← hread a ha, ← hread b hb, h]
  exact (List.map_inj_right fun _ _ => String.toList_inj.mp).mp hmap

/-- The function of a module that the runtime does not serve is its own function in the module
itself, and a property of its target name elsewhere. -/
theorem moduleMember_run {function : String} {e : Expr}
    (h : moduleMember name function c u = (.ok e, u'))
    (unserved : c.isRuntimeModule (u.resolveModule name) = false) :
    e = if u.context.any (·.name == u.resolveModule name) then .ident (Identifier.escape function)
      else (Expr.ident (ofModule (u.resolveModule name))).property
        (Identifier.escape function) := by
  simp only [moduleMember, LowerM.resolveModule, bind_run, state_run, config_run, pure_run] at h
  obtain ⟨_, _, ⟨_, _, ⟨rfl, rfl⟩, rfl, rfl⟩, _, _, ⟨rfl, rfl⟩, h⟩ := h
  rw [unserved] at h
  simp only [Bool.false_eq_true, if_false, bind_run, state_run] at h
  obtain ⟨_, _, ⟨rfl, rfl⟩, h⟩ := h
  split at h
  next hown => rw [if_pos hown, (pure_run.mp h).1]
  next hown => rw [if_neg hown, (pure_run.mp h).1]

/-- A struct literal calls the constructor of the module that is named. -/
theorem struct_run {fields : List (Node × Node)} {e : Expr}
    (h : (positions (.struct (.moduleName name) fields none)).value c u = (.ok e, u')) :
    ∃ constructor args u₁, e = .call constructor args ∧
      moduleMember name "__struct__" c u = (.ok constructor, u₁) := by
  have hvalue : (positions (.struct (.moduleName name) fields none)).value = (do
      let constructor ← moduleMember name "__struct__"
      let fields ← object (properties fields)
      return .call constructor [fields]) := by
    rw [positions]
    rfl
  rw [hvalue] at h
  simp only [bind_run, pure_run] at h
  obtain ⟨constructor, u₁, hconstructor, given, u₂, hgiven, rfl, rfl⟩ := h
  exact ⟨constructor, [given], u₁, rfl, hconstructor⟩

/-- A constructor that is called by the target name of a module, or by its bare name inside of the
module, is that of the module which the literal names. -/
theorem resolveModule_of_constructor {m : ModuleContext} (hu : u.context = some m)
    (hm : m.Segmented) (hname : ∀ x ∈ name, IsSegment x) (hpath : ∀ x ∈ path, IsSegment x)
    (unserved : c.isRuntimeModule (u.resolveModule name) = false) {constructor : Expr}
    (h : moduleMember name "__struct__" c u = (.ok constructor, u'))
    (refers : constructor = (Expr.ident (ofModule path)).property "__struct__" ∨
      constructor = .ident "__struct__" ∧ m.name = path) : u.resolveModule name = path := by
  have hconstructor := moduleMember_run h unserved
  have hescape : Identifier.escape "__struct__" = "__struct__" := by decide
  rw [hescape, hu] at hconstructor
  split at hconstructor
  next hown =>
    obtain hother | ⟨-, hhere⟩ := refers
    · cases hconstructor.symm.trans hother
    · rw [← hhere]
      exact (beq_iff_eq.mp hown).symm
  next hown =>
    obtain hother | ⟨hbare, -⟩ := refers
    · have hident := hconstructor.symm.trans hother
      simp only [Expr.property, Expr.member.injEq, Expr.ident.injEq] at hident
      exact ofModule_inj (hm.resolveModule hu hname) hpath hident.1
    · cases hconstructor.symm.trans hbare

/-- A struct pattern tests for a map, and then for the tag. -/
theorem struct_tests {lib : RuntimeLibrary} {fields : List (Node × Node)} {subject : Expr}
    {plan plan' : Pattern.Plan}
    (h : Pattern.compile ⟨lib, u⟩ (.struct (.moduleName name) fields none) subject plan =
      .ok plan') :
    ∃ more, plan'.tests = plan.tests ++ [lib.isMap subject,
      .eq (subject.index (atomSymbol "__struct__")) (moduleValue (u.resolveModule name))] ++
        more := by
  rw [Pattern.compile] at h
  obtain ⟨tagged, htagged, h⟩ := exists_ok_of_bind h
  rw [Pattern.compile] at htagged
  cases htagged
  obtain ⟨⟨more, hmore⟩, -⟩ := Pattern.compiled_adds ((Pattern.compiled_of_ok _).2.1 _ _ _ _ h)
  exact ⟨more, by rw [hmore]; simp [Pattern.Plan.require, Pattern.Surroundings.moduleValue]⟩

end Construction

/-- The constructor that makes structs of that tag. -/
def structConstructor (lib : RuntimeLibrary) (tag : Expr) (defaults : List Property) :
    ModuleFunction :=
  ⟨⟨"__struct__", ["$values"], [.return_ (lib.specialForm "struct"
    [tag, .object defaults, .ident "$values"])]⟩, true⟩

section Definition

variable {name path : List String} {c : Config} {draft draft' : ModuleDraft} {s s' : State}

theorem Takes.mem_body {n : Node} (h : Takes name c draft s n draft' s') {stmt : Stmt}
    (hmem : stmt ∈ draft.body) : stmt ∈ draft'.body := by
  cases h with
  | attributeSet | module | statements => exact List.mem_append_left _ hmem
  | _ => exact hmem

theorem Takes.structs_ne_nil {n : Node} (h : Takes name c draft s n draft' s')
    (hn : n.definesStruct = true ∨ draft.structs ≠ []) : draft'.structs ≠ [] := by
  cases h with
  | struct => simp
  | importing form | statements form =>
    refine hn.resolve_left fun hstruct => ?_
    cases n with
    | defStruct | defException => cases form
    | _ => cases hstruct
  | _ => exact hn.resolve_left nofun

/-- A struct among the items is one in the draft. -/
theorem takeItems_structs_ne_nil {ns : List Node}
    (h : takeItems name draft (items ns) c s = (.ok draft', s'))
    (hns : ∃ n ∈ ns, n.definesStruct = true) : draft'.structs ≠ [] := by
  obtain ⟨n, hmem, hstruct⟩ := hns
  obtain ⟨front, back, rfl⟩ := List.append_of_mem hmem
  obtain ⟨draft₁, s₁, draft₂, s₂, -, hitem, hback⟩ := takeItems_split h
  exact takeItems_keeps (fun _ _ _ _ _ _ hitem hdraft => hitem.structs_ne_nil (.inr hdraft)) hback
    (hitem.structs_ne_nil (.inl hstruct))

theorem structFunctions_run {fields : List (String × LowerM Expr)}
    {isException hasOwnException : Bool} {functions : List ModuleFunction}
    (h : structFunctions name fields isException hasOwnException c s = (.ok functions, s')) :
    ∃ defaults, functions.head? =
      some (structConstructor ⟨c.runtimeName⟩ (moduleValue name) defaults) := by
  simp only [structFunctions, bind_run, library_run] at h
  obtain ⟨defaults, s₁, hdefaults, lib, s₂, ⟨rfl, rfl⟩, h⟩ := h
  refine ⟨defaults, ?_⟩
  split at h
  · rw [(pure_run.mp h).1]
    rfl
  · rw [(pure_run.mp h).1]
    rfl

/-- A module that defines a struct has its constructor before all other functions. -/
theorem moduleDef_constructor {body : List Node} {m : ModuleDef}
    (h : (moduleDef path body (items body) c s).1 = .ok m)
    (hstruct : ∃ n ∈ body, n.definesStruct = true) :
    m.name = ofModule path ∧ ∃ defaults, m.functions.head? =
      some (structConstructor ⟨c.runtimeName⟩ (moduleValue path) defaults) := by
  obtain ⟨draft, s₁, generated, s₂, functions, s₃, hdraft, hgenerated, -, hm⟩ := moduleDef_value h
  have hne := takeItems_structs_ne_nil hdraft hstruct
  obtain ⟨first, more, hstructs⟩ := List.exists_cons_of_ne_nil hne
  rw [structsFunctions, hstructs] at hgenerated
  refine ⟨by rw [hm], ?_⟩
  cases more with
  | nil =>
    obtain ⟨defaults, hhead⟩ := structFunctions_run hgenerated
    exact ⟨defaults, by rw [hm, List.head?_append, hhead, Option.some_or]⟩
  | cons => exact (fail_run hgenerated).elim

/-- Every module of the program is lowered, and stands among the statements of the program. -/
theorem LoweredFrom.emitted {forms body : List Node} {stmts : List Stmt}
    (hrun : LowerM.concat (forms.map topLevel) c {} = (.ok stmts, s'))
    (h : LoweredFrom c forms path body s) :
    ∃ m, (moduleDef path body (items body) c s).1 = .ok m ∧
      ∀ m' ∈ modulesWithin m, m' ∈ stmtsModules stmts := by
  induction h with
  | @top before after body name front s stands reached =>
    rw [stands, List.map_append, List.map_cons, ← List.singleton_append] at hrun
    obtain ⟨front', s₁, rest, hfront, hrest, rfl⟩ := concat_append hrun
    obtain ⟨rfl, rfl⟩ := run_unique reached hfront
    obtain ⟨own, s₂, back, hown, -, rfl⟩ := concat_append hrest
    obtain ⟨m, hm, rfl⟩ := topLevel_module.mp (concat_singleton.mp hown)
    refine ⟨m, congrArg Prod.fst hm, fun m' hm' => ?_⟩
    simp [hm']
  | @inner path name before after body draft s t outer reached ih =>
    obtain ⟨around, haround, hwithin⟩ := ih
    obtain ⟨taken, s₁, generated, s₂, functions, s₃, htaken, -, -, rfl⟩ := moduleDef_value haround
    obtain ⟨draft', t', draft₁, t₁, hbefore, hitem, hafter⟩ := takeItems_split htaken
    obtain ⟨rfl, rfl⟩ := run_unique reached hbefore
    cases hitem with
    | @module _ _ m lowers =>
      have hmem : Stmt.module m ∈ taken.body :=
        takeItems_keeps (fun _ _ _ _ _ _ hitem hmem => hitem.mem_body hmem) hafter (by simp)
      obtain ⟨front, back, hbody⟩ := List.append_of_mem hmem
      refine ⟨m, lowers, fun m' hm' => hwithin m' ?_⟩
      simp [hbody, hm']
    | importing form | struct form | statements form => cases form

end Definition

/-- For a program that lowers, whose module names are made of segments: every module in it that
defines a struct, at whatever depth, is emitted with a constructor that has an atom for its tag.
Where a struct literal inside of a module calls that constructor, by the target name of its module
or by the bare name inside of that module itself, and the runtime does not serve the module that is
named there, the name evaluates to this atom, and a pattern of the struct tests for it. -/
theorem struct_tags_agree {config : Config} {nodes forms : List Node} {program : Program}
    (lowers : lowerProgram config nodes = .ok program)
    (plain : Node.removePipesList nodes = .ok forms)
    (named : ∀ name body, HasModule nodes name body → ∀ x ∈ name, IsSegment x)
    {path : List String} {body : List Node} {s : State}
    (defined : LoweredFrom config forms path body s)
    (struct : ∃ n ∈ body, n.definesStruct = true) :
    ∃ m ∈ stmtsModules program.body, ∃ atom defaults,
      (moduleDef path body (items body) config s).1 = .ok m ∧ m.name = ofModule path ∧
      m.functions.head? =
        some (structConstructor ⟨config.runtimeName⟩ (atomSymbol atom) defaults) ∧
      ∀ here u name fields constructor args u', StandsIn config forms here u →
        (∀ x ∈ name, IsSegment x) → config.isRuntimeModule (u.resolveModule name) = false →
        (positions (.struct (.moduleName name) fields none)).value config u =
          (.ok (.call constructor args), u') →
        (constructor = (Expr.ident m.name).property "__struct__" ∨
          constructor = .ident "__struct__" ∧ here = path) →
        (positions (.moduleName name)).value config u = (.ok (atomSymbol atom), u) ∧
        ∀ fields subject plan plan',
          Pattern.compile ⟨⟨config.runtimeName⟩, u⟩ (.struct (.moduleName name) fields none) subject
            plan = .ok plan' →
          ∃ more, plan'.tests = plan.tests ++
            [RuntimeLibrary.isMap ⟨config.runtimeName⟩ subject,
              .eq (subject.index (atomSymbol "__struct__")) (atomSymbol atom)] ++ more := by
  obtain ⟨forms', s', hforms, hrun⟩ := lowerProgram_ok.mp lowers
  obtain rfl : forms = forms' := Except.ok.inj (plain.symm.trans hforms)
  have named' : ∀ name body, HasModule forms name body → ∀ x ∈ name, IsSegment x := by
    intro name body hmodule
    obtain ⟨body', hbody', -⟩ := hmodule.of_removePipes plain
    exact named name body' hbody'
  obtain ⟨m, hm, hwithin⟩ := defined.emitted hrun
  obtain ⟨hname, defaults, hhead⟩ := moduleDef_constructor hm struct
  have hpath : ∀ x ∈ path, IsSegment x := (defined.segmented named').2.name
  have hmem : m ∈ stmtsModules program.body := hwithin m (by cases m; simp)
  refine ⟨m, hmem, Identifier.moduleAtom path, defaults, hm, hname, hhead, ?_⟩
  intro here u name fields constructor args u' hstands hsegments hunserved hliteral hrefers
  obtain ⟨context, hu, hhere, hcontext⟩ := hstands.segmented named'
  obtain ⟨_, _, u₁, heq, hmember⟩ := struct_run hliteral
  cases heq
  rw [hname, ← hhere] at hrefers
  have hresolved :=
    resolveModule_of_constructor hu hcontext hsegments hpath hunserved hmember hrefers
  constructor
  · rw [positions]
    exact congrArg (fun path => (Except.ok (moduleValue path), u)) hresolved
  · intro fields subject plan plan' hplan
    rw [← moduleValue, ← hresolved]
    exact struct_tests hplan

section Sample

/-- A module with a struct that builds one by its own short name. -/
def itemBody : List Node :=
  [.defStruct [("price", .integer 0)],
    .define .exported (.call "free" [] {}) [.struct (.moduleName ["Item"]) [] none]]

/-- The module stands inside of another one, which matches its structs. -/
def shopBody : List Node :=
  [.module ["Item"] itemBody,
    .define .exported
      (.call "price" [.struct (.moduleName ["Item"]) [(.atom "price", .var "p")] none] {})
      [.var "p"]]

def shopForms : List Node := [.module ["Shop"] shopBody]

theorem hasModule_shopForms {name : List String} {body : List Node}
    (h : HasModule shopForms name body) :
    name = ["Shop"] ∧ body = shopBody ∨ name = ["Item"] ∧ body = itemBody := by
  induction h with
  | top stands =>
    obtain ⟨rfl, rfl⟩ : _ = ["Shop"] ∧ _ = shopBody := by simpa [shopForms] using stands
    exact .inl ⟨rfl, rfl⟩
  | inner inside stands ih =>
    obtain ⟨-, rfl⟩ | ⟨-, rfl⟩ := ih
    · exact .inr (by simpa [shopBody] using stands)
    · simp [itemBody] at stands

/-- Where the function of the module is lowered. -/
def shopState : State :=
  { context := some
      { name := ["Shop"], aliases := [("Item", ["Shop", "Item"])], functions := ["price"] } }

/-- Where the function of the module inside is lowered. -/
def itemState : State :=
  { context := some
      { name := ["Shop", "Item"], aliases := [("Item", ["Shop", "Item"])],
        functions := ["__struct__", "free"] } }

theorem struct_tags_agree_shopForms :
    ∃ program, lowerProgram {} shopForms = .ok program ∧
      StandsIn {} shopForms ["Shop"] shopState ∧ StandsIn {} shopForms ["Shop", "Item"] itemState ∧
      ∃ m ∈ stmtsModules program.body, ∃ atom defaults,
        m.functions.head? = some (structConstructor ⟨"Runtime"⟩ (atomSymbol atom) defaults) ∧
        (positions (.moduleName ["Item"])).value {} shopState = (.ok (atomSymbol atom), shopState) ∧
        (positions (.moduleName ["Item"])).value {} itemState =
          (.ok (atomSymbol atom), itemState) := by
  obtain ⟨program, hprogram⟩ := exists_ok_of_isOk (x := lowerProgram {} shopForms) rfl
  have hnamed : ∀ name body, HasModule shopForms name body → ∀ x ∈ name, IsSegment x := by
    intro name body h
    obtain ⟨rfl, -⟩ | ⟨rfl, -⟩ := hasModule_shopForms h <;> simp [IsSegment]
  have hshop : LoweredFrom {} shopForms ["Shop"] shopBody {} :=
    .top (show shopForms = [] ++ _ :: [] from rfl) rfl
  have hitem : LoweredFrom {} shopForms (["Shop"] ++ ["Item"]) itemBody _ :=
    .inner (show LoweredFrom {} shopForms ["Shop"] ([] ++ _ :: _) {} from hshop) rfl
  have hshopState : StandsIn {} shopForms ["Shop"] shopState :=
    .function hshop rfl (show _ = (State.withAttributes _ []).context from rfl)
  have hitemState : StandsIn {} shopForms ["Shop", "Item"] itemState :=
    .function hitem rfl (show _ = (State.withAttributes _ []).context from rfl)
  obtain ⟨m, hm, atom, defaults, -, hname, hhead, hagree⟩ :=
    struct_tags_agree hprogram rfl hnamed hitem ⟨_, List.mem_cons_self, rfl⟩
  have hsegments : ∀ x ∈ ["Item"], IsSegment x := by simp [IsSegment]
  have hqualified := hagree ["Shop"] shopState ["Item"] [] _ _ _ hshopState hsegments rfl rfl
    (.inl (by rw [hname]; rfl))
  have hbare := hagree ["Shop", "Item"] itemState ["Item"] [] _ _ _ hitemState hsegments rfl rfl
    (.inr ⟨rfl, rfl⟩)
  exact ⟨program, hprogram, hshopState, hitemState, m, hm, atom, defaults, hhead, hqualified.1,
    hbare.1⟩

end Sample

end TreeLowering
