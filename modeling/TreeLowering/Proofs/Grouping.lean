import Mathlib.Data.List.Induction
import TreeLowering.Proofs.ModuleItems

/-!
The functions of a module, from its definitions.

`definitionsFrom` reads the definitions off a body, one for each item that is one, each with the
attributes in force where it stands. While items are taken, the groups of the draft are at every
point `groupsOf` the definitions up to there: one group for each name in order of first appearance,
holding all clauses of that name in order. A clause is refused just when an earlier one of its name
and arity has the other visibility.
-/
namespace TreeLowering

open Source Target LowerM Lowering

/-- A definition in a module body: one clause of a function. -/
structure Definition where
  name : String
  visibility : Visibility
  clause : ClauseParts

namespace Definition

/-- How many arguments it takes. -/
def arity (d : Definition) : Nat := d.clause.patterns.length

/-- Definitions of one name and arity, the one exported and the other not. -/
structure Clashes (d d' : Definition) : Prop where
  name : d.name = d'.name
  arity : d.arity = d'.arity
  visibility : d.visibility ≠ d'.visibility

end Definition

/-- Definitions of which no two clash. -/
def Compatible (ds : List Definition) : Prop := ∀ d ∈ ds, ∀ d' ∈ ds, ¬ d.Clashes d'

/-- The definitions among the items of a body, from where the module is as given. -/
def definitionsFrom (m : ModuleContext) : List Node → Except LowerError (List Definition)
  | [] => .ok []
  | .define visibility head body :: rest => do
    let (name, patterns, alternatives) ← definitionHead head
    let clause := definedClause m.attributes patterns alternatives body
    return ⟨name, visibility, clause⟩ :: (← definitionsFrom m rest)
  | n :: rest => definitionsFrom (m.after n) rest

/-- The clauses of one name, in order. -/
def clausesNamed (ds : List Definition) (name : String) : List (Visibility × ClauseParts) :=
  (ds.filter (·.name == name)).map fun d => (d.visibility, d.clause)

/-- The definitions by name, in the order in which the names first appear. -/
def groupsOf (ds : List Definition) : List FunctionGroup :=
  (ds.map (·.name)).eraseDups.map fun name => ⟨name, clausesNamed ds name⟩

section Groups

theorem eraseDups_concat (names : List String) (name : String) :
    (names ++ [name]).eraseDups =
      if name ∈ names then names.eraseDups else names.eraseDups ++ [name] := by
  rw [List.eraseDups_append]
  split <;> simp_all [List.removeAll, List.eraseDups_cons]

theorem nodup_eraseDups (names : List String) : names.eraseDups.Nodup := by
  induction names using List.reverseRecOn with
  | nil => exact List.nodup_nil
  | append_singleton names name ih =>
    rw [eraseDups_concat]
    split
    next => exact ih
    next h =>
      refine List.nodup_append.mpr ⟨ih, by simp, fun a ha b hb heq => h ?_⟩
      rwa [← List.mem_singleton.mp hb, ← heq, ← List.mem_eraseDups]

/-- A clause of a new name begins a group behind the others. -/
theorem addClause_new {name : String} {visibility : Visibility} {clause : ClauseParts}
    {groups : List FunctionGroup} (h : ∀ g ∈ groups, g.name ≠ name) :
    addClause name visibility clause groups = .ok (groups ++ [⟨name, [(visibility, clause)]⟩]) := by
  induction groups with
  | nil => rfl
  | cons g rest ih =>
    obtain ⟨hg, hrest⟩ := List.forall_mem_cons.mp h
    rw [addClause, if_neg hg, ih hrest]
    rfl

/-- A clause of a name that has a group goes to the end of that group, unless it is refused. -/
theorem addClause_known {names : List String} {f : String → FunctionGroup} {name : String}
    {visibility : Visibility} {clause : ClauseParts} (hf : ∀ x, (f x).name = x)
    (hnodup : names.Nodup) (h : name ∈ names) :
    addClause name visibility clause (names.map f) =
      if ((f name).visibility? clause.patterns.length).any (· != visibility) then
        .error (.malformed (.mixedVisibility name clause.patterns.length))
      else .ok (names.map fun x => if x = name then
        ⟨x, (f x).clauses ++ [(visibility, clause)]⟩ else f x) := by
  induction names with
  | nil => cases h
  | cons x rest ih =>
    obtain ⟨hx, hrest⟩ := List.nodup_cons.mp hnodup
    simp only [List.map_cons, addClause, hf]
    by_cases hname : x = name
    · subst hname
      have hothers : ∀ y ∈ rest, y ≠ x := fun y hy heq => hx (heq ▸ hy)
      have hkept : rest.map f = rest.map fun y =>
          if y = x then ⟨y, (f y).clauses ++ [(visibility, clause)]⟩ else f y :=
        List.map_congr_left fun y hy => (if_neg (hothers y hy)).symm
      rw [if_pos rfl, if_pos rfl, ← hkept]
    · rw [if_neg hname, if_neg hname, ih hrest ((List.mem_cons.mp h).resolve_left (Ne.symm hname))]
      split <;> rfl

theorem visibility?_clausesNamed (ds : List Definition) (name : String) (arity : Nat) :
    (⟨name, clausesNamed ds name⟩ : FunctionGroup).visibility? arity =
      (ds.find? fun d => d.name = name ∧ d.arity = arity).map (·.visibility) := by
  rw [FunctionGroup.visibility?, clausesNamed, List.find?_map, List.find?_filter, Option.map_map]
  refine congrArg (Option.map Definition.visibility) ?_
  refine congrArg (List.find? · ds) (funext fun d => ?_)
  by_cases h : d.name = name <;> simp [Definition.arity, h]

/-- The first clause of a name and arity tells whether a further one is refused. -/
theorem refused_iff {ds : List Definition} (h : Compatible ds) (d : Definition) :
    ((⟨d.name, clausesNamed ds d.name⟩ : FunctionGroup).visibility? d.arity).any
      (· != d.visibility) = true ↔ ∃ d' ∈ ds, d'.Clashes d := by
  rw [visibility?_clausesNamed]
  cases hfind : ds.find? fun e => e.name = d.name ∧ e.arity = d.arity with
  | none =>
    have hnone := List.find?_eq_none.mp hfind
    constructor
    · intro hrefused
      cases hrefused
    · rintro ⟨d', hd', hclash⟩
      exact (hnone d' hd' (by simp [hclash.name, hclash.arity])).elim
  | some e =>
    have he := List.mem_of_find?_eq_some hfind
    obtain ⟨hname, harity⟩ : e.name = d.name ∧ e.arity = d.arity := by
      simpa using List.find?_some hfind
    simp only [Option.map_some, Option.any_some, bne_iff_ne, ne_eq]
    constructor
    · exact fun hvisibility => ⟨e, he, hname, harity, hvisibility⟩
    · rintro ⟨d', hd', hclash⟩ hvisibility
      exact h e he d' hd' ⟨hname.trans hclash.name.symm, harity.trans hclash.arity.symm,
        fun heq => hclash.visibility (heq.symm.trans hvisibility)⟩

theorem clausesNamed_concat (ds : List Definition) (d : Definition) (name : String) :
    clausesNamed (ds ++ [d]) name =
      clausesNamed ds name ++ if name = d.name then [(d.visibility, d.clause)] else [] := by
  by_cases h : name = d.name
  · simp [clausesNamed, h]
  · simp [clausesNamed, h, Ne.symm h]

theorem compatible_nil : Compatible [] := by simp [Compatible]

theorem compatible_concat {ds : List Definition} (h : Compatible ds) {d : Definition}
    (hd : ¬ ∃ d' ∈ ds, d'.Clashes d) : Compatible (ds ++ [d]) := by
  intro a ha b hb hclash
  rcases List.mem_append.mp ha with ha | ha <;> rcases List.mem_append.mp hb with hb | hb
  · exact h a ha b hb hclash
  · exact hd ⟨a, ha, List.mem_singleton.mp hb ▸ hclash⟩
  · exact hd ⟨b, hb, List.mem_singleton.mp ha ▸
      ⟨hclash.name.symm, hclash.arity.symm, hclash.visibility.symm⟩⟩
  · rw [List.mem_singleton.mp ha, List.mem_singleton.mp hb] at hclash
    exact hclash.visibility rfl

/-- A definition that clashes with an earlier one is refused. -/
theorem addClause_clashing {ds : List Definition} (h : Compatible ds) {d : Definition}
    (hd : ∃ d' ∈ ds, d'.Clashes d) : addClause d.name d.visibility d.clause (groupsOf ds) =
      .error (.malformed (.mixedVisibility d.name d.arity)) := by
  obtain ⟨d', hd', hclash⟩ := hd
  have hknown : d.name ∈ (ds.map (·.name)).eraseDups :=
    List.mem_eraseDups.mpr (List.mem_map.mpr ⟨d', hd', hclash.name⟩)
  rw [groupsOf, addClause_known (fun _ => rfl) (nodup_eraseDups _) hknown]
  exact if_pos ((refused_iff h d).mpr ⟨d', hd', hclash⟩)

/-- Any other definition is put into the group of its name, or begins one. -/
theorem addClause_compatible {ds : List Definition} (h : Compatible ds) {d : Definition}
    (hd : ¬ ∃ d' ∈ ds, d'.Clashes d) :
    addClause d.name d.visibility d.clause (groupsOf ds) = .ok (groupsOf (ds ++ [d])) := by
  rw [groupsOf, groupsOf, List.map_append, List.map_singleton, eraseDups_concat]
  by_cases hknown : d.name ∈ ds.map (·.name)
  · rw [if_pos hknown,
      addClause_known (fun _ => rfl) (nodup_eraseDups _) (List.mem_eraseDups.mpr hknown)]
    refine (if_neg (mt (refused_iff h d).mp hd)).trans (congrArg Except.ok ?_)
    refine List.map_congr_left fun name hname => ?_
    rw [clausesNamed_concat]
    split
    · rfl
    · rw [List.append_nil]
  · have hnew : ∀ g ∈ (ds.map (·.name)).eraseDups.map fun name =>
        (⟨name, clausesNamed ds name⟩ : FunctionGroup), g.name ≠ d.name := by
      refine List.forall_mem_map.mpr fun name hname heq => hknown ?_
      exact heq ▸ List.mem_eraseDups.mp hname
    rw [if_neg hknown, addClause_new hnew, List.map_append, List.map_singleton]
    have hempty : clausesNamed ds d.name = [] := by
      have hnone : ds.filter (·.name == d.name) = [] :=
        List.filter_eq_nil_iff.mpr fun e he heq =>
          hknown (List.mem_map.mpr ⟨e, he, by simpa using heq⟩)
      rw [clausesNamed, hnone, List.map_nil]
    rw [clausesNamed_concat, hempty, if_pos rfl]
    refine congrArg (fun front => Except.ok (front ++ _)) ?_
    refine List.map_congr_left fun name hname => ?_
    have hother : name ≠ d.name := fun heq => hknown (heq ▸ List.mem_eraseDups.mp hname)
    rw [clausesNamed_concat, if_neg hother, List.append_nil]

end Groups

section Items

variable {name : List String} {c : Config} {draft draft' : ModuleDraft} {s s' : State}

def Source.Node.isDefinition : Node → Bool
  | .define .. => true
  | _ => false

def Source.Node.definesStruct : Node → Bool
  | .defStruct _ | .defException _ => true
  | _ => false

theorem exists_of_isDefinition {n : Node} (h : n.isDefinition = true) :
    ∃ visibility head body, n = .define visibility head body := by
  cases n with
  | define visibility head body => exact ⟨visibility, head, body, rfl⟩
  | _ => cases h

theorem definitionsFrom_other (m : ModuleContext) {n : Node} (h : n.isDefinition = false)
    (rest : List Node) : definitionsFrom m (n :: rest) = definitionsFrom (m.after n) rest := by
  cases n with
  | define => cases h
  | _ => rfl

theorem definitionsFrom_define {m : ModuleContext} {visibility : Visibility} {head : Node}
    {body rest : List Node} {ds : List Definition} :
    definitionsFrom m (.define visibility head body :: rest) = .ok ds ↔
      ∃ function patterns alternatives more,
        definitionHead head = .ok (function, patterns, alternatives) ∧
        definitionsFrom m rest = .ok more ∧
        ds = ⟨function, visibility, definedClause m.attributes patterns alternatives body⟩ ::
          more := by
  rw [definitionsFrom, bind_eq_ok_iff]
  constructor
  · rintro ⟨⟨function, patterns, alternatives⟩, hread, hrest⟩
    obtain ⟨more, hmore, hds⟩ := exists_ok_of_bind hrest
    cases hds
    exact ⟨function, patterns, alternatives, more, hread, hmore, rfl⟩
  · rintro ⟨function, patterns, alternatives, more, hread, hmore, rfl⟩
    refine ⟨_, hread, ?_⟩
    rw [hmore]
    rfl

theorem Takes.of_define {visibility : Visibility} {head : Node} {body : List Node}
    (h : Takes name c draft s (.define visibility head body) draft' s') :
    ∃ function patterns alternatives groups,
      definitionHead head = .ok (function, patterns, alternatives) ∧
      addClause function visibility (definedClause s.attributes patterns alternatives body)
        draft.groups = .ok groups ∧
      draft' = { draft with groups } ∧ s' = s := by
  cases h with
  | definition read added => exact ⟨_, _, _, _, read, added, rfl, rfl⟩
  | importing form | struct form | statements form => cases form

theorem takeItem_refused {visibility : Visibility} {head : Node} {body : List Node}
    {function : String} {patterns alternatives : List Node} {e : LowerError}
    (hread : definitionHead head = .ok (function, patterns, alternatives))
    (hrefused : addClause function visibility
      (definedClause s.attributes patterns alternatives body) draft.groups = .error e) :
    takeItem name draft (item (positions (.define visibility head body))
      (.define visibility head body)) c s = (.error e, s) := by
  rw [definedClause, sourceClause, ← definitionTests_eq hread] at hrefused
  have hfailed : ofExcept (addClause function visibility _ draft.groups) c s = (.error e, s) :=
    congrArg (ofExcept · c s) hrefused
  have hattributes : LowerM.attributes c s = (.ok s.attributes, s) := rfl
  rw [item, takeItem, hread]
  exact (bind_of_ok (ofExcept_run _ c s)).trans
    ((bind_of_ok hattributes).trans (bind_of_error hfailed))

/-- Items that are no definitions are taken whatever the groups are, and leave them alone. -/
theorem Takes.regroup {n : Node} (h : Takes name c draft s n draft' s')
    (hn : n.isDefinition = false) (groups : List FunctionGroup) :
    Takes name c { draft with groups } s n { draft' with groups } s' := by
  cases h with
  | definition => cases hn
  | documentation listed => exact .documentation listed
  | attributeSet unlisted lowers => exact .attributeSet unlisted lowers
  | importing form declares => exact .importing form declares
  | struct form => exact .struct form
  | module lowers => exact .module lowers
  | statements form lowers => exact .statements form lowers

theorem Takes.groups_eq {n : Node} (h : Takes name c draft s n draft' s')
    (hn : n.isDefinition = false) : draft'.groups = draft.groups := by
  cases h with
  | definition => cases hn
  | _ => rfl

theorem Takes.structs_eq {n : Node} (h : Takes name c draft s n draft' s')
    (hn : n.definesStruct = false) : draft'.structs = draft.structs := by
  cases h with
  | struct form =>
    cases n with
    | defStruct | defException => cases hn
    | _ => cases form
  | _ => rfl

/-- As items are taken, the groups are those of the definitions so far. -/
theorem takeItems_groups {m : ModuleContext} {body : List Node} {ds : List Definition}
    (hs : s.context = some m) (hname : m.name = name) (hds : Compatible ds)
    (hgroups : draft.groups = groupsOf ds)
    (h : takeItems name draft (items body) c s = (.ok draft', s')) :
    ∃ more, definitionsFrom m body = .ok more ∧ draft'.groups = groupsOf (ds ++ more) := by
  induction body generalizing draft s m ds with
  | nil =>
    obtain ⟨rfl, -⟩ := pure_run.mp h
    exact ⟨[], rfl, by rw [hgroups, List.append_nil]⟩
  | cons n rest ih =>
    obtain ⟨draft₁, s₁, hitem, hrest⟩ := takeItems_cons_iff.mp h
    cases hn : n.isDefinition with
    | false =>
      rw [definitionsFrom_other m hn]
      exact ih (hitem.context hs hname) ((m.after_name n).trans hname) hds
        ((hitem.groups_eq hn).trans hgroups) hrest
    | true =>
      obtain ⟨visibility, head, body, rfl⟩ := exists_of_isDefinition hn
      obtain ⟨function, patterns, alternatives, groups, hread, hadded, rfl, rfl⟩ :=
        hitem.of_define
      have hattributes : s₁.attributes = m.attributes := by rw [State.attributes, hs]; rfl
      let d : Definition :=
        ⟨function, visibility, definedClause m.attributes patterns alternatives body⟩
      rw [hgroups, hattributes] at hadded
      by_cases hd : ∃ d' ∈ ds, d'.Clashes d
      · cases hadded.symm.trans (addClause_clashing hds hd)
      · cases hadded.symm.trans (addClause_compatible hds hd)
        obtain ⟨more, hmore, hdraft⟩ := ih hs hname (compatible_concat hds hd) rfl hrest
        refine ⟨d :: more, ?_, by rw [hdraft, List.append_assoc, List.singleton_append]⟩
        exact definitionsFrom_define.mpr ⟨_, _, _, more, hread, hmore, rfl⟩

/-- A definition that clashes is refused when all else before it is in order, and the first such one
is named. -/
theorem takeItems_clash {m : ModuleContext} {front : List Node} (rest : List Node)
    {ds more : List Definition} (hs : s.context = some m) (hname : m.name = name)
    (hds : Compatible ds) (hmore : definitionsFrom m front = .ok more)
    (hclash : ¬ Compatible (ds ++ more))
    (hothers : takeItems name draft (items (front.filter (!·.isDefinition))) c s =
      (.ok draft', s')) :
    ∃ before d after, ds ++ more = before ++ d :: after ∧ Compatible before ∧
      (∃ d' ∈ before, d'.Clashes d) ∧
      (takeItems name { draft with groups := groupsOf ds } (items (front ++ rest)) c s).1 =
        .error (.malformed (.mixedVisibility d.name d.arity)) := by
  induction front generalizing draft s m ds more with
  | nil =>
    cases hmore
    exact (hclash (by rwa [List.append_nil])).elim
  | cons n front ih =>
    cases hn : n.isDefinition with
    | false =>
      rw [definitionsFrom_other m hn] at hmore
      rw [List.filter_cons_of_pos (by simp [hn])] at hothers
      obtain ⟨draft₁, s₁, hitem, hothers⟩ := takeItems_cons_iff.mp hothers
      obtain ⟨before, d, after, hsplit, hbefore, hd, herror⟩ := ih (hitem.context hs hname)
        ((m.after_name n).trans hname) hds hmore hclash hothers
      refine ⟨before, d, after, hsplit, hbefore, hd, ?_⟩
      rw [List.cons_append, items, takeItems,
        bind_of_ok (takeItem_iff.mpr (hitem.regroup hn (groupsOf ds)))]
      exact herror
    | true =>
      obtain ⟨visibility, head, body, rfl⟩ := exists_of_isDefinition hn
      rw [List.filter_cons_of_neg (by simp [hn])] at hothers
      obtain ⟨function, patterns, alternatives, later, hread, hlater, rfl⟩ :=
        definitionsFrom_define.mp hmore
      have hattributes : s.attributes = m.attributes := by rw [State.attributes, hs]; rfl
      let d : Definition :=
        ⟨function, visibility, definedClause m.attributes patterns alternatives body⟩
      by_cases hd : ∃ d' ∈ ds, d'.Clashes d
      · refine ⟨ds, d, later, rfl, hds, hd, ?_⟩
        rw [List.cons_append, items, takeItems, bind_of_error (takeItem_refused hread ?_)]
        rw [hattributes]
        exact addClause_clashing hds hd
      · have hadded := addClause_compatible hds hd
        rw [← List.singleton_append, ← List.append_assoc] at hclash ⊢
        obtain ⟨before, e, after, hsplit, hbefore, he, herror⟩ :=
          ih hs hname (compatible_concat hds hd) hlater hclash hothers
        refine ⟨before, e, after, hsplit, hbefore, he, ?_⟩
        have hitem : Takes name c { draft with groups := groupsOf ds } s
            (.define visibility head body) { draft with groups := groupsOf (ds ++ [d]) } s :=
          .definition hread (by rw [hattributes]; exact hadded)
        rw [List.cons_append, items, takeItems, bind_of_ok (takeItem_iff.mpr hitem)]
        exact herror

/-- Without a struct among the items there is none in the draft. -/
theorem takeItems_structs_eq {body : List Node} (hbody : ∀ n ∈ body, n.definesStruct = false)
    (h : takeItems name draft (items body) c s = (.ok draft', s')) :
    draft'.structs = draft.structs := by
  have hstep : ∀ n ∈ body, ∀ draft₁ s₁ draft₂ s₂, Takes name c draft₁ s₁ n draft₂ s₂ →
      draft₁.structs = draft.structs → draft₂.structs = draft.structs :=
    fun n hn _ _ _ _ hitem hdraft => (hitem.structs_eq (hbody n hn)).trans hdraft
  exact takeItems_keeps hstep h rfl

end Items

section Functions

variable {c : Config} {s : State}

/-- Steps that leave the state as it was are run as each would be alone. -/
theorem sequence_forall₂ {ι α : Type} {l : List ι} {x : ι → LowerM α} {as : List α} {s' : State}
    (hstate : ∀ i ∈ l, (x i c s).2 = s) (h : LowerM.sequence (l.map x) c s = (.ok as, s')) :
    List.Forall₂ (fun i a => (x i c s).1 = .ok a) l as := by
  induction l generalizing as s' with
  | nil =>
    obtain ⟨rfl, -⟩ := pure_run.mp h
    exact .nil
  | cons i l ih =>
    obtain ⟨hi, hl⟩ := List.forall_mem_cons.mp hstate
    simp only [List.map_cons, LowerM.sequence, bind_run, pure_run] at h
    obtain ⟨a, s₁, ha, rest, s₂, hrest, rfl, rfl⟩ := h
    rw [ha] at hi
    cases hi
    exact .cons (congrArg Prod.fst ha) (ih hl hrest)

/-- A module fails as the items of its body do. -/
theorem moduleDef_error {name : List String} {body : List Node} {e : LowerError}
    (h : (takeItems name {} (items body) c
      (s.insideModule name (body.flatMap declaredFunctions))).1 = .error e) :
    (moduleDef name body (items body) c s).1 = .error e := by
  obtain ⟨s', hrun⟩ : ∃ s', takeItems name {} (items body) c
      (s.insideModule name (body.flatMap declaredFunctions)) = (.error e, s') :=
    ⟨_, Prod.ext h rfl⟩
  exact congrArg Prod.fst (bind_of_error hrun)

/-- The function of a group, from the clauses of one name. -/
theorem groupFunction_value {ds : List Definition} {name : String} {m : ModuleContext}
    {f : ModuleFunction} (hs : s.context = some m)
    (h : (groupFunction ⟨name, clausesNamed ds name⟩ c s).1 = .ok f) :
    f.function.name = Identifier.escape name ∧
      (f.exported = true ↔ ∃ d ∈ ds, d.name = name ∧ d.visibility = .exported) ∧
      (inFunction (clausesFunction (Identifier.escape name) name
        ((ds.filter (·.name == name)).map (·.clause))) c { context := some m }).1 =
          .ok f.function := by
  obtain ⟨s', hrun⟩ : ∃ s', groupFunction ⟨name, clausesNamed ds name⟩ c s = (.ok f, s') :=
    ⟨_, Prod.ext h rfl⟩
  simp only [groupFunction, bind_run, pure_run] at hrun
  obtain ⟨definition, s₁, hfunction, rfl, -⟩ := hrun
  have hclauses : (clausesNamed ds name).map (·.2) = (ds.filter (·.name == name)).map (·.clause) :=
    List.map_map
  rw [hclauses] at hfunction
  refine ⟨?name, ?exported, ?built⟩
  case name =>
    obtain ⟨s₀, s₂, -, -, hdefinition, -⟩ := Scoping.inFunction_run hfunction
    exact Scoping.clausesFunction_name hdefinition
  case exported => simp [FunctionGroup.isExported, clausesNamed]
  case built =>
    -- Of the state around it, a function sees the module.
    rw [← hs]
    exact congrArg Prod.fst hfunction

end Functions

/-- The module of that name and body, as it is where its body starts. -/
def State.entering (s : State) (name : List String) (body : List Node) : ModuleContext :=
  { name, aliases := s.aliases, functions := body.flatMap declaredFunctions }

/-- A module body without a struct has one function for each name that it defines, in the order of
first appearance. The function is made from all clauses of that name, in order and wherever they
stand, and is exported just when one of them is. Two definitions of one name and arity that differ
in visibility are an error, if nothing else is wrong up to the second; the error names the first
definition that has such another before it. -/
theorem definitions_are_grouped (c : Config) (s : State) (name : List String) (body : List Node) :
    (∀ m, (∀ n ∈ body, n.definesStruct = false) →
      (moduleDef name body (items body) c s).1 = .ok m →
      ∃ ds, definitionsFrom (s.entering name body) body = .ok ds ∧
        List.Forall₂ (fun x f =>
            f.function.name = Identifier.escape x ∧
            (f.exported = true ↔ ∃ d ∈ ds, d.name = x ∧ d.visibility = .exported) ∧
            (inFunction (clausesFunction (Identifier.escape x) x
              ((ds.filter (·.name == x)).map (·.clause))) c
              { context := some ((s.entering name body).afterAll body) }).1 = .ok f.function)
          (ds.map (·.name)).eraseDups m.functions) ∧
    ∀ front rest ds draft s', body = front ++ rest →
      definitionsFrom (s.entering name body) front = .ok ds →
      takeItems name {} (items (front.filter (!·.isDefinition))) c
        { context := some (s.entering name body) } = (.ok draft, s') →
      (∃ d ∈ ds, ∃ d' ∈ ds, d.Clashes d') →
      ∃ before d after, ds = before ++ d :: after ∧ Compatible before ∧
        (∃ d' ∈ before, d'.Clashes d) ∧
        ∃ e, (moduleDef name body (items body) c s).1 = .error e ∧
          e.message = "malformed def: " ++
            (d.name ++ "/" ++ toString d.arity ++ " is defined with both def and defp") := by
  refine ⟨?grouped, ?refused⟩
  case grouped =>
    intro m hstructs hm
    obtain ⟨draft, s₁, generated, s₂, functions, s₃, hdraft, hgenerated, hfunctions, rfl⟩ :=
      moduleDef_value hm
    obtain ⟨ds, hds, hgroups⟩ :=
      takeItems_groups (m := s.entering name body) rfl rfl compatible_nil rfl hdraft
    have hcontext : s₁.context = some ((s.entering name body).afterAll body) :=
      takeItems_context hdraft rfl rfl
    have hstructs : draft.structs = [] := takeItems_structs_eq hstructs hdraft
    rw [structsFunctions, hstructs] at hgenerated
    obtain ⟨rfl, rfl⟩ := pure_run.mp hgenerated
    rw [List.nil_append] at hgroups
    refine ⟨ds, hds, ?_⟩
    have hwithin := Scoping.draft_within hdraft
    have hruns := sequence_forall₂
      (fun g hg => groupFunction_state (hwithin.clauses g hg) c s₂) hfunctions
    rw [hgroups, groupsOf, List.forall₂_map_left_iff] at hruns
    exact hruns.imp fun x f hf => groupFunction_value hcontext hf
  case refused =>
    rintro front rest ds draft s' rfl hds hothers ⟨d, hd, d', hd', hclash⟩
    obtain ⟨before, d, after, hsplit, hbefore, hd, herror⟩ := takeItems_clash rest rfl rfl
      compatible_nil hds (fun h => h d hd d' hd' hclash) hothers
    refine ⟨before, d, after, hsplit, hbefore, hd, .malformed (.mixedVisibility d.name d.arity), ?_,
      rfl⟩
    exact moduleDef_error herror

/-- A module in which the clauses of `area` stand apart and differ in arity and in visibility. -/
def shapesBody : List Node :=
  [.define .internal (.call "area" [.var "w", .var "h"] {}) [.var "w"],
   .attributeSet "unit" (.integer 2),
   .define .internal (.call "scale" [.var "x"] {}) [.attributeRead "unit"],
   .module ["Inner"] [.define .exported (.call "area" [] {}) [.integer 1]],
   .define .exported (.call "area" [.integer 0] {}) [.integer 0],
   .define .exported (.call "area" [.var "r"] {}) [.attributeRead "unit"]]

/-- The same with a clause of `area` that is not exported as the others of its arity are. -/
def mixedBody : List Node := shapesBody ++ [.define .internal (.call "area" [.nil] {}) []]

theorem definitions_are_grouped_shapesBody :
    (∃ m, ∃ ds : List Definition,
      (moduleDef ["Shapes"] shapesBody (items shapesBody) {} {}).1 = .ok m ∧
      ds.map (fun d => (d.name, d.arity)) = [("area", 2), ("scale", 1), ("area", 1), ("area", 1)] ∧
      List.Forall₂ (fun x f => f.function.name = Identifier.escape x ∧
        (f.exported = true ↔ ∃ d ∈ ds, d.name = x ∧ d.visibility = .exported))
        ["area", "scale"] m.functions) ∧
    ∃ e, ∃ d : Definition, (moduleDef ["Shapes"] mixedBody (items mixedBody) {} {}).1 = .error e ∧
      e.message = "malformed def: " ++
        (d.name ++ "/" ++ toString d.arity ++ " is defined with both def and defp") ∧
      e.message = "malformed def: area/1 is defined with both def and defp" := by
  constructor
  · obtain ⟨m, hm⟩ :=
      exists_ok_of_isOk (x := (moduleDef ["Shapes"] shapesBody (items shapesBody) {} {}).1) rfl
    obtain ⟨ds, hds, hfunctions⟩ :=
      (definitions_are_grouped {} {} ["Shapes"] shapesBody).1 m (by decide) hm
    cases hds
    exact ⟨m, _, hm, rfl, hfunctions.imp fun x f hf => ⟨hf.1, hf.2.1⟩⟩
  · obtain ⟨-, d, -, -, -, -, e, he, hmessage⟩ :=
      (definitions_are_grouped {} {} ["Shapes"] mixedBody).2 mixedBody [] _ _ _
        (List.append_nil _).symm rfl rfl
        ⟨_, List.getElem_mem (n := 2) (by decide), _, List.getElem_mem (n := 4) (by decide),
          rfl, rfl, by decide⟩
    refine ⟨e, d, he, hmessage, ?_⟩
    cases he
    rfl

end TreeLowering
