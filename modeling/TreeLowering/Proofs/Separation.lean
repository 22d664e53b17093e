import TreeLowering.Proofs.EmissionProgram
import TreeLowering.Proofs.PipeFreedom

/-!
Modules and functions are lowered separately.

A module reads of the state around it only the short names of modules, of which there are none at
the top of a program; so a form there is lowered as it is alone. Inside of a module the functions
are lowered last, each from the same state, which it leaves as it was. Two runs over bodies that
differ in the body of one clause are followed side by side: every item leaves them in the same
state, with drafts that differ in that clause only.
-/
namespace TreeLowering

open Source Target LowerM Lowering
open Scoping (addClause_cons clausesFunction_name draft_within inFunction_run)

theorem run_unique {α : Type} {x : LowerM α} {c : Config} {s t t' : State} {a a' : α}
    (h : x c s = (.ok a, t)) (h' : x c s = (.ok a', t')) : a = a' ∧ t = t' := by
  rw [h] at h'
  cases h'
  exact ⟨rfl, rfl⟩

section Difference

variable {α β : Type} {R : α → α → Prop} {l l' : List α}

/-- The lists differ at one place at most, where `R` relates what stands there. -/
inductive DifferOnce (R : α → α → Prop) : List α → List α → Prop
  | here {a a' : α} {l : List α} : R a a' → DifferOnce R (a :: l) (a' :: l)
  | there {a : α} {l l' : List α} : DifferOnce R l l' → DifferOnce R (a :: l) (a :: l')

namespace DifferOnce

theorem append_left (k : List α) (h : DifferOnce R l l') : DifferOnce R (k ++ l) (k ++ l') := by
  induction k with
  | nil => exact h
  | cons a k ih => exact .there ih

theorem append_right (k : List α) (h : DifferOnce R l l') : DifferOnce R (l ++ k) (l' ++ k) := by
  induction h with
  | here h => exact .here h
  | there _ ih => exact .there ih

theorem concat (k : List α) {a a' : α} (h : R a a') : DifferOnce R (k ++ [a]) (k ++ [a']) :=
  append_left k (.here h)

/-- A search that does not see the difference ends alike. -/
theorem find?_map_eq {p : α → Bool} {f : α → β} (h : DifferOnce R l l')
    (hp : ∀ a a', R a a' → p a = p a') (hf : ∀ a a', R a a' → f a = f a') :
    (l.find? p).map f = (l'.find? p).map f := by
  induction h with
  | here h =>
    simp only [List.find?_cons, hp _ _ h]
    split
    · simp only [Option.map_some, hf _ _ h]
    · rfl
  | there _ ih =>
    simp only [List.find?_cons]
    split
    · rfl
    · exact ih

theorem any_eq {p : α → Bool} (h : DifferOnce R l l') (hp : ∀ a a', R a a' → p a = p a') :
    l.any p = l'.any p := by
  induction h with
  | here h => simp only [List.any_cons, hp _ _ h]
  | there _ ih => simp only [List.any_cons, ih]

end DifferOnce

/-- Steps that leave the state as it was give results that differ where the steps do. -/
theorem DifferOnce.sequence {Q : β → β → Prop} {x : α → LowerM β} {c : Config} {s t t' : State}
    {bs bs' : List β} (h : DifferOnce R l l')
    (hleaves : ∀ a ∈ l, (x a c s).2 = s) (hleaves' : ∀ a ∈ l', (x a c s).2 = s)
    (hresult : ∀ a a' b b' u u', R a a' → x a c s = (.ok b, u) → x a' c s = (.ok b', u') → Q b b')
    (hrun : LowerM.sequence (l.map x) c s = (.ok bs, t))
    (hrun' : LowerM.sequence (l'.map x) c s = (.ok bs', t')) : DifferOnce Q bs bs' := by
  induction h generalizing bs bs' with
  | here h =>
    simp only [List.map_cons, LowerM.sequence, bind_run, pure_run] at hrun hrun'
    obtain ⟨b, u, hb, rest, v, hrest, rfl, -⟩ := hrun
    obtain ⟨b', u', hb', rest', v', hrest', rfl, -⟩ := hrun'
    have hu := hleaves _ List.mem_cons_self
    have hu' := hleaves' _ List.mem_cons_self
    rw [hb] at hu
    rw [hb'] at hu'
    cases hu
    cases hu'
    obtain ⟨rfl, -⟩ := run_unique hrest hrest'
    exact .here (hresult _ _ _ _ _ _ h hb hb')
  | there h ih =>
    simp only [List.map_cons, LowerM.sequence, bind_run, pure_run] at hrun hrun'
    obtain ⟨b, u, hb, rest, v, hrest, rfl, rfl⟩ := hrun
    obtain ⟨b', u', hb', rest', v', hrest', rfl, rfl⟩ := hrun'
    obtain ⟨rfl, rfl⟩ := run_unique hb hb'
    have hu := hleaves _ List.mem_cons_self
    rw [hb] at hu
    cases hu
    exact .there (ih (fun a ha => hleaves a (List.mem_cons_of_mem _ ha))
      (fun a ha => hleaves' a (List.mem_cons_of_mem _ ha)) hrest hrest')

end Difference

section Groups

/-- Clauses that differ in their bodies. -/
def ClauseDiffers (clause clause' : Visibility × ClauseParts) : Prop :=
  clause.1 = clause'.1 ∧ clause.2.patterns = clause'.2.patterns

/-- Groups of that name which differ in the body of one clause. -/
structure FunctionGroup.Differs (function : String) (g g' : FunctionGroup) : Prop where
  name : g.name = function
  name' : g'.name = function
  clauses : DifferOnce ClauseDiffers g.clauses g'.clauses

variable {function name : String} {visibility : Visibility} {clause clause' : ClauseParts}
  {g g' : FunctionGroup} {groups groups' added added' : List FunctionGroup}

namespace FunctionGroup.Differs

theorem isExported_eq (h : g.Differs function g') : g.isExported = g'.isExported :=
  h.clauses.any_eq fun _ _ hclause => by rw [hclause.1]

theorem hasArity_eq (h : g.Differs function g') (arity : Nat) :
    g.hasArity arity = g'.hasArity arity := by
  have hvisibility : g.visibility? arity = g'.visibility? arity :=
    h.clauses.find?_map_eq (fun _ _ hclause => by rw [hclause.2]) fun _ _ hclause => hclause.1
  rw [hasArity, hasArity, hvisibility]

end FunctionGroup.Differs

/-- Adding clauses that differ in their bodies. -/
theorem differ_of_addClause (hadded : addClause function visibility clause groups = .ok added)
    (hadded' : addClause function visibility clause' groups = .ok added')
    (hpatterns : clause.patterns = clause'.patterns) :
    DifferOnce (FunctionGroup.Differs function) added added' := by
  have hclause : ClauseDiffers (visibility, clause) (visibility, clause') := ⟨rfl, hpatterns⟩
  induction groups generalizing added added' with
  | nil =>
    cases hadded
    cases hadded'
    exact .here ⟨rfl, rfl, .here hclause⟩
  | cons g groups ih =>
    rcases addClause_cons hadded with ⟨hname, rfl⟩ | ⟨hname, rest, hrest, rfl⟩
    · rcases addClause_cons hadded' with ⟨-, rfl⟩ | ⟨hname', -⟩
      · exact .here ⟨hname, hname, .concat g.clauses hclause⟩
      · exact absurd hname hname'
    · rcases addClause_cons hadded' with ⟨hname', -⟩ | ⟨-, rest', hrest', rfl⟩
      · exact absurd hname' hname
      · exact .there (ih hrest hrest')

/-- Adding one clause to groups that differ. -/
theorem DifferOnce.addClause (h : DifferOnce (FunctionGroup.Differs function) groups groups')
    (hadded : TreeLowering.addClause name visibility clause groups = .ok added)
    (hadded' : TreeLowering.addClause name visibility clause groups' = .ok added') :
    DifferOnce (FunctionGroup.Differs function) added added' := by
  induction h generalizing added added' with
  | here h =>
    rcases addClause_cons hadded with ⟨hname, rfl⟩ | ⟨hname, rest, hrest, rfl⟩
    · rcases addClause_cons hadded' with ⟨-, rfl⟩ | ⟨hname', -⟩
      · exact .here ⟨h.name, h.name', h.clauses.append_right _⟩
      · exact absurd (h.name'.trans (h.name.symm.trans hname)) hname'
    · rcases addClause_cons hadded' with ⟨hname', -⟩ | ⟨-, rest', hrest', rfl⟩
      · exact absurd (h.name.trans (h.name'.symm.trans hname')) hname
      · rw [hrest] at hrest'
        cases hrest'
        exact .here h
  | there h ih =>
    rcases addClause_cons hadded with ⟨hname, rfl⟩ | ⟨hname, rest, hrest, rfl⟩
    · rcases addClause_cons hadded' with ⟨-, rfl⟩ | ⟨hname', -⟩
      · exact .there h
      · exact absurd hname hname'
    · rcases addClause_cons hadded' with ⟨hname', -⟩ | ⟨-, rest', hrest', rfl⟩
      · exact absurd hname' hname
      · exact .there (ih hrest hrest')

end Groups

section Drafts

/-- Drafts that differ in the body of one clause of that name. -/
structure ModuleDraft.Differs (function : String) (draft draft' : ModuleDraft) : Prop where
  imports : draft.imports = draft'.imports
  body : draft.body = draft'.body
  structs : draft.structs = draft'.structs
  groups : DifferOnce (FunctionGroup.Differs function) draft.groups draft'.groups

variable {function : String} {name : List String} {draft draft' taken taken' : ModuleDraft}
  {c : Config} {s s₁ s₁' : State}

/-- An item is taken alike into drafts that differ. -/
theorem ModuleDraft.Differs.takeItem {item : ModuleItem} (h : draft.Differs function draft')
    (hrun : LowerM.takeItem name draft item c s = (.ok taken, s₁))
    (hrun' : LowerM.takeItem name draft' item c s = (.ok taken', s₁')) :
    taken.Differs function taken' ∧ s₁ = s₁' := by
  obtain ⟨himports, hbody, hstructs, hgroups⟩ := h
  cases item with
  | definition visibility head guards body =>
    simp only [LowerM.takeItem, bind_run, pure_run, ofExcept_run, Prod.mk.injEq] at hrun hrun'
    obtain ⟨⟨x, patterns, alternatives⟩, _, ⟨hhead, rfl⟩, attributes, s₂, hattributes, added, _,
      ⟨hadded, rfl⟩, rfl, rfl⟩ := hrun
    obtain ⟨parts, _, ⟨hhead', rfl⟩, attributes', s₂', hattributes', added', _,
      ⟨hadded', rfl⟩, rfl, rfl⟩ := hrun'
    rw [hhead] at hhead'
    cases hhead'
    obtain ⟨rfl, rfl⟩ := run_unique hattributes hattributes'
    exact ⟨⟨himports, hbody, hstructs, hgroups.addClause hadded hadded'⟩, rfl⟩
  | attributeSet key value =>
    simp only [LowerM.takeItem] at hrun hrun'
    split at hrun
    · obtain ⟨rfl, rfl⟩ := pure_run.mp hrun
      rw [if_pos ‹_›] at hrun'
      obtain ⟨rfl, rfl⟩ := pure_run.mp hrun'
      exact ⟨⟨himports, hbody, hstructs, hgroups⟩, rfl⟩
    · rw [if_neg ‹_›] at hrun'
      simp only [bind_run, pure_run] at hrun hrun'
      obtain ⟨v, s₂, hvalue, target, s₃, htarget, rfl, rfl⟩ := hrun
      obtain ⟨v', s₂', hvalue', target', s₃', htarget', rfl, rfl⟩ := hrun'
      obtain ⟨rfl, rfl⟩ := run_unique hvalue hvalue'
      obtain ⟨rfl, rfl⟩ := run_unique htarget htarget'
      exact ⟨⟨himports, by rw [hbody], hstructs, hgroups⟩, rfl⟩
  | importing declaration =>
    simp only [LowerM.takeItem, bind_run, pure_run] at hrun hrun'
    obtain ⟨found, s₂, hfound, rfl, rfl⟩ := hrun
    obtain ⟨found', s₂', hfound', rfl, rfl⟩ := hrun'
    obtain ⟨rfl, rfl⟩ := run_unique hfound hfound'
    exact ⟨⟨by rw [himports], hbody, hstructs, hgroups⟩, rfl⟩
  | struct fields isException =>
    obtain ⟨rfl, rfl⟩ := pure_run.mp hrun
    obtain ⟨rfl, rfl⟩ := pure_run.mp hrun'
    exact ⟨⟨himports, hbody, by rw [hstructs], hgroups⟩, rfl⟩
  | module inner lowered =>
    cases inner with
    | nil =>
      simp only [LowerM.takeItem, bind_run, pure_run] at hrun hrun'
      obtain ⟨m, s₂, hm, rfl, rfl⟩ := hrun
      obtain ⟨m', s₂', hm', rfl, rfl⟩ := hrun'
      obtain ⟨rfl, rfl⟩ := run_unique hm hm'
      exact ⟨⟨himports, by rw [hbody], hstructs, hgroups⟩, rfl⟩
    | cons first rest =>
      simp only [LowerM.takeItem, bind_run, pure_run] at hrun hrun'
      obtain ⟨u, s₂, halias, m, s₃, hm, rfl, rfl⟩ := hrun
      obtain ⟨u', s₂', halias', m', s₃', hm', rfl, rfl⟩ := hrun'
      obtain ⟨rfl, rfl⟩ := run_unique halias halias'
      obtain ⟨rfl, rfl⟩ := run_unique hm hm'
      exact ⟨⟨himports, by rw [hbody], hstructs, hgroups⟩, rfl⟩
  | statements stmts =>
    simp only [LowerM.takeItem, bind_run, pure_run] at hrun hrun'
    obtain ⟨given, s₂, hgiven, rfl, rfl⟩ := hrun
    obtain ⟨given', s₂', hgiven', rfl, rfl⟩ := hrun'
    obtain ⟨rfl, rfl⟩ := run_unique hgiven hgiven'
    exact ⟨⟨himports, by rw [hbody], hstructs, hgroups⟩, rfl⟩

theorem ModuleDraft.Differs.takeItems {items : List ModuleItem} (h : draft.Differs function draft')
    (hrun : LowerM.takeItems name draft items c s = (.ok taken, s₁))
    (hrun' : LowerM.takeItems name draft' items c s = (.ok taken', s₁')) :
    taken.Differs function taken' ∧ s₁ = s₁' := by
  induction items generalizing draft draft' s with
  | nil =>
    obtain ⟨rfl, rfl⟩ := pure_run.mp hrun
    obtain ⟨rfl, rfl⟩ := pure_run.mp hrun'
    exact ⟨h, rfl⟩
  | cons item items ih =>
    simp only [LowerM.takeItems, bind_run] at hrun hrun'
    obtain ⟨middle, s₂, hitem, hrun⟩ := hrun
    obtain ⟨middle', s₂', hitem', hrun'⟩ := hrun'
    obtain ⟨hmiddle, rfl⟩ := h.takeItem hitem hitem'
    exact ih hmiddle hrun hrun'

/-- Two clauses that differ in their bodies, taken into one draft. -/
theorem differ_of_takeItem {visibility : Visibility}
    {head : Except LowerError (String × List Node × List Node)} {guards : List (LowerM Expr)}
    {body body' : LowerM (List Stmt)}
    (hrun : LowerM.takeItem name draft (.definition visibility head guards body) c s =
      (.ok taken, s₁))
    (hrun' : LowerM.takeItem name draft (.definition visibility head guards body') c s =
      (.ok taken', s₁')) :
    (∃ function patterns alternatives, head = .ok (function, patterns, alternatives) ∧
      taken.Differs function taken') ∧ s₁ = s₁' := by
  simp only [LowerM.takeItem, bind_run, pure_run, ofExcept_run, Prod.mk.injEq] at hrun hrun'
  obtain ⟨⟨function, patterns, alternatives⟩, _, ⟨hhead, rfl⟩, attributes, s₂, hattributes, added,
    _, ⟨hadded, rfl⟩, rfl, rfl⟩ := hrun
  obtain ⟨parts, _, ⟨hhead', rfl⟩, attributes', s₂', hattributes', added', _,
    ⟨hadded', rfl⟩, rfl, rfl⟩ := hrun'
  rw [hhead] at hhead'
  cases hhead'
  obtain ⟨rfl, rfl⟩ := run_unique hattributes hattributes'
  refine ⟨⟨function, patterns, alternatives, hhead, rfl, rfl, rfl, ?_⟩, rfl⟩
  exact differ_of_addClause hadded hadded' rfl

theorem takeItems_append {front back : List ModuleItem}
    (hrun : LowerM.takeItems name draft (front ++ back) c s = (.ok taken, s₁)) :
    ∃ middle s₂, LowerM.takeItems name draft front c s = (.ok middle, s₂) ∧
      LowerM.takeItems name middle back c s₂ = (.ok taken, s₁) := by
  induction front generalizing draft s with
  | nil => exact ⟨draft, s, rfl, hrun⟩
  | cons item front ih =>
    simp only [List.cons_append, LowerM.takeItems, bind_run] at hrun ⊢
    obtain ⟨first, s₂, hfirst, hrun⟩ := hrun
    obtain ⟨middle, s₃, hmiddle, hrun⟩ := ih hrun
    exact ⟨middle, s₃, ⟨first, s₂, hfirst, hmiddle⟩, hrun⟩

theorem ModuleDraft.Differs.structsFunctions_eq (h : draft.Differs function draft') :
    structsFunctions name draft = structsFunctions name draft' := by
  have hexception : (draft.groups.any fun g => g.name == "exception" && g.hasArity 1) =
      draft'.groups.any fun g => g.name == "exception" && g.hasArity 1 :=
    h.groups.any_eq fun g g' hg => by rw [hg.name, hg.name', hg.hasArity_eq]
  unfold structsFunctions
  rw [h.structs, hexception]

end Drafts

section Functions

variable {P : Prop} {c : Config} {s s' : State}

theorem groupFunction_state {g : FunctionGroup} (h : ∀ clause ∈ g.clauses, clause.2.Within P)
    (c : Config) (s : State) : (groupFunction g c s).2 = s := by
  have hclauses : ∀ clause ∈ g.clauses.map (·.2), clause.Within P := List.forall_mem_map.mpr h
  have hwithin : (clausesFunction (Identifier.escape g.name) g.name
      (g.clauses.map (·.2))).Within .bindings P := within_clausesFunction hclauses
  have hfunction := hwithin.inFunction_state c s
  unfold groupFunction
  cases hrun : inFunction (clausesFunction (Identifier.escape g.name) g.name
    (g.clauses.map (·.2))) c s with
  | mk result s' =>
    rw [hrun] at hfunction
    cases result with
    | ok f => rw [bind_of_ok hrun]; exact hfunction
    | error e => rw [bind_of_error hrun]; exact hfunction

/-- Functions of that name that other modules may call alike. -/
structure FunctionDiffers (target : String) (f f' : ModuleFunction) : Prop where
  name : f.function.name = target
  name' : f'.function.name = target
  exported : f.exported = f'.exported

/-- The functions of groups that differ in one clause differ in the function of the clause. -/
theorem DifferOnce.groupFunctions {function : String} {groups groups' : List FunctionGroup}
    {functions functions' : List ModuleFunction} {t t' : State}
    (h : DifferOnce (FunctionGroup.Differs function) groups groups')
    (hwithin : ∀ g ∈ groups, ∀ clause ∈ g.clauses, clause.2.Within P)
    (hwithin' : ∀ g ∈ groups', ∀ clause ∈ g.clauses, clause.2.Within P)
    (hrun : LowerM.sequence (groups.map groupFunction) c s = (.ok functions, t))
    (hrun' : LowerM.sequence (groups'.map groupFunction) c s = (.ok functions', t')) :
    DifferOnce (FunctionDiffers (Identifier.escape function)) functions functions' := by
  refine h.sequence (fun g hg => groupFunction_state (hwithin g hg) c s)
    (fun g hg => groupFunction_state (hwithin' g hg) c s) ?_ hrun hrun'
  have hname : ∀ g f u, groupFunction g c s = (.ok f, u) →
      f.function.name = Identifier.escape g.name ∧ f.exported = g.isExported := by
    intro g f u hf
    simp only [groupFunction, bind_run, pure_run] at hf
    obtain ⟨definition, s₁, hdefinition, rfl, -⟩ := hf
    obtain ⟨s₀, s₂, -, -, hdefinition, -⟩ := inFunction_run hdefinition
    exact ⟨clausesFunction_name hdefinition, rfl⟩
  intro g g' f f' u u' hg hf hf'
  obtain ⟨hf, hexported⟩ := hname g f u hf
  obtain ⟨hf', hexported'⟩ := hname g' f' u' hf'
  rw [hg.name] at hf
  rw [hg.name'] at hf'
  exact ⟨hf, hf', by rw [hexported, hexported', hg.isExported_eq]⟩

end Functions

section Modules

variable {c : Config} {s s' : State}

/-- Where the body of a module starts. Of the state around it, it sees the short names of
modules. -/
def State.insideModule (s : State) (name functions : List String) : State :=
  { context := some { name, aliases := s.aliases, functions } }

theorem moduleDef_value {name : List String} {body : List Node} {items : List ModuleItem}
    {m : ModuleDef} (h : (moduleDef name body items c s).1 = .ok m) :
    ∃ draft s₁ generated s₂ functions s₃,
      takeItems name {} items c (s.insideModule name (body.flatMap declaredFunctions)) =
        (.ok draft, s₁) ∧
      structsFunctions name draft c s₁ = (.ok generated, s₂) ∧
      LowerM.sequence (draft.groups.map groupFunction) c s₂ = (.ok functions, s₃) ∧
      m = ⟨Identifier.ofModule name, draft.imports, draft.body, generated ++ functions⟩ := by
  obtain ⟨s', hrun⟩ : ∃ s', (do
      let draft ← takeItems name {} items
      let generated ← structsFunctions name draft
      let functions ← LowerM.sequence (draft.groups.map groupFunction)
      return ⟨Identifier.ofModule name, draft.imports, draft.body, generated ++ functions⟩ :
      LowerM ModuleDef) c (s.insideModule name (body.flatMap declaredFunctions)) = (.ok m, s') :=
    ⟨_, Prod.ext h rfl⟩
  simp only [bind_run, pure_run] at hrun
  obtain ⟨draft, s₁, hdraft, generated, s₂, hgenerated, functions, s₃, hfunctions, rfl, -⟩ := hrun
  exact ⟨draft, s₁, generated, s₂, functions, s₃, hdraft, hgenerated, hfunctions, rfl⟩

/-- The module depends on the state around it through the module that it stands in. -/
theorem moduleDef_congr {name : List String} {body : List Node} {items : List ModuleItem}
    (h : s.context = s'.context) :
    (moduleDef name body items c s).1 = (moduleDef name body items c s').1 := by
  simp only [moduleDef, inModule, inFunction, State.aliases, h]

/-- Modules that differ in one function. -/
structure ModuleDiffers (target : String) (m m' : ModuleDef) : Prop where
  name : m.name = m'.name
  imports : m.imports = m'.imports
  body : m.body = m'.body
  functions : DifferOnce (FunctionDiffers target) m.functions m'.functions

theorem declaredFunctions_body (visibility : Visibility) (head : Node) (body body' : List Node) :
    declaredFunctions (.define visibility head body) =
      declaredFunctions (.define visibility head body') := rfl

/-- A module without pipes, with the body of one clause replaced. -/
theorem moduleDef_differs {name : List String} {front back body body' : List Node}
    {visibility : Visibility} {head : Node} {m m' : ModuleDef}
    (h : (moduleDef name (front ++ .define visibility head body :: back)
      (items (front ++ .define visibility head body :: back)) c s).1 = .ok m)
    (h' : (moduleDef name (front ++ .define visibility head body' :: back)
      (items (front ++ .define visibility head body' :: back)) c s).1 = .ok m') :
    ∃ function params guards, definitionHead head = .ok (function, params, guards) ∧
      ModuleDiffers (Identifier.escape function) m m' := by
  obtain ⟨draft, s₁, generated, s₂, functions, s₃, htaken, hgenerated, hfunctions, rfl⟩ :=
    moduleDef_value h
  obtain ⟨draft', s₁', generated', s₂', functions', s₃', htaken', hgenerated', hfunctions', rfl⟩ :=
    moduleDef_value h'
  have hwithin := draft_within htaken
  have hwithin' := draft_within htaken'
  rw [List.flatMap_append, List.flatMap_cons, declaredFunctions_body _ _ _ body'] at htaken
  rw [List.flatMap_append, List.flatMap_cons] at htaken'
  rw [items_eq, List.map_append, List.map_cons] at htaken htaken'
  obtain ⟨start, s₄, hstart, htaken⟩ := takeItems_append htaken
  obtain ⟨start', s₄', hstart', htaken'⟩ := takeItems_append htaken'
  obtain ⟨rfl, rfl⟩ := run_unique hstart hstart'
  simp only [takeItems, bind_run, item] at htaken htaken'
  obtain ⟨middle, s₅, hclause, htaken⟩ := htaken
  obtain ⟨middle', s₅', hclause', htaken'⟩ := htaken'
  obtain ⟨⟨function, params, guards, hhead, hmiddle⟩, rfl⟩ := differ_of_takeItem hclause hclause'
  obtain ⟨hdraft, rfl⟩ := hmiddle.takeItems htaken htaken'
  rw [← hdraft.structsFunctions_eq] at hgenerated'
  obtain ⟨rfl, rfl⟩ := run_unique hgenerated hgenerated'
  refine ⟨function, params, guards, hhead, rfl, hdraft.imports, hdraft.body, ?_⟩
  exact (hdraft.groups.groupFunctions hwithin.clauses hwithin'.clauses hfunctions
    hfunctions').append_left generated

end Modules

section Programs

open Node

variable {c : Config} {s s' : State}

theorem removePipesList_split {before after plain : List Node} {n : Node}
    (h : removePipesList (before ++ n :: after) = .ok plain) :
    ∃ before' n' after', removePipesList before = .ok before' ∧ n.removePipes = .ok n' ∧
      removePipesList after = .ok after' ∧ plain = before' ++ n' :: after' := by
  rw [removePipesList_append, removePipesList] at h
  obtain ⟨before', hbefore, h⟩ := exists_ok_of_bind h
  obtain ⟨rest, hrest, h⟩ := exists_ok_of_bind h
  obtain ⟨n', hn, hrest⟩ := exists_ok_of_bind hrest
  obtain ⟨after', hafter, hrest⟩ := exists_ok_of_bind hrest
  cases hrest
  cases h
  exact ⟨before', n', after', hbefore, hn, hafter, rfl⟩

theorem concat_append {α : Type} {xs ys : List (LowerM (List α))} {as : List α}
    (h : LowerM.concat (xs ++ ys) c s = (.ok as, s')) :
    ∃ as₁ s₁ as₂, LowerM.concat xs c s = (.ok as₁, s₁) ∧ LowerM.concat ys c s₁ = (.ok as₂, s') ∧
      as = as₁ ++ as₂ := by
  induction xs generalizing s as with
  | nil => exact ⟨[], s, as, rfl, h, rfl⟩
  | cons x xs ih =>
    simp only [LowerM.concat, List.cons_append, LowerM.sequence, bind_run, pure_run] at h ih ⊢
    obtain ⟨_, _, ⟨a, s₁, ha, rest, s₂, hrest, rfl, rfl⟩, rfl, rfl⟩ := h
    obtain ⟨_, s₃, _, ⟨rest₁, s₄, hrest₁, rfl, rfl⟩, hrest₂, hflat⟩ := ih ⟨rest, _, hrest, rfl, rfl⟩
    refine ⟨_, _, _, ⟨a :: rest₁, _, ⟨a, s₁, ha, rest₁, _, hrest₁, rfl, rfl⟩, rfl, rfl⟩, hrest₂, ?_⟩
    simp [hflat]

theorem concat_singleton {α : Type} {x : LowerM (List α)} {as : List α} :
    LowerM.concat [x] c s = (.ok as, s') ↔ x c s = (.ok as, s') := by
  simp [LowerM.concat, LowerM.sequence, bind_run, pure_run]

theorem removePipesList_singleton {n : Node} {plain : List Node} :
    removePipesList [n] = .ok plain ↔ ∃ m, n.removePipes = .ok m ∧ plain = [m] := by
  constructor
  · intro h
    obtain ⟨m, hm, h⟩ := exists_ok_of_bind h
    cases h
    exact ⟨m, hm, rfl⟩
  · rintro ⟨m, hm, rfl⟩
    rw [removePipesList, hm]
    rfl

theorem removePipes_module {name : List String} {body : List Node} {n : Node} :
    (Node.module name body).removePipes = .ok n ↔
      ∃ plain, removePipesList body = .ok plain ∧ n = .module name plain := by
  rw [removePipes, bind_eq_ok_iff]
  simp [pure, Except.pure, eq_comm]

theorem topLevel_module {name : List String} {body : List Node} {stmts : List Stmt} :
    topLevel (.module name body) c s = (.ok stmts, s') ↔
      ∃ m, moduleDef name body (items body) c s = (.ok m, s') ∧ stmts = [.module m] := by
  rw [topLevel, item]
  simp only [bind_run, pure_run]
  constructor
  · rintro ⟨m, s₁, hm, rfl, rfl⟩
    exact ⟨m, hm, rfl⟩
  · rintro ⟨m, hm, rfl⟩
    exact ⟨m, s', hm, rfl, rfl⟩

theorem lowerProgram_ok {config : Config} {nodes : List Node} {program : Program} :
    lowerProgram config nodes = .ok program ↔
      ∃ plain s', removePipesList nodes = .ok plain ∧
        LowerM.concat (plain.map topLevel) config {} = (.ok program.body, s') := by
  have hvalue : lowerProgram config nodes = (lowerProgramM nodes config {}).1 := rfl
  constructor
  · intro h
    obtain ⟨s', hrun⟩ : ∃ s', lowerProgramM nodes config {} = (.ok program, s') :=
      ⟨_, Prod.ext h rfl⟩
    simp only [lowerProgramM, bind_run, pure_run, ofExcept_run, Prod.mk.injEq] at hrun
    obtain ⟨plain, _, ⟨hplain, rfl⟩, stmts, s₁, hstmts, rfl, rfl⟩ := hrun
    exact ⟨plain, s', hplain, hstmts⟩
  · rintro ⟨plain, s', hplain, hstmts⟩
    have hrun : lowerProgramM nodes config {} = (.ok program, s') := by
      simp only [lowerProgramM, bind_run, pure_run, ofExcept_run, Prod.mk.injEq]
      exact ⟨plain, _, ⟨hplain, rfl⟩, program.body, s', hstmts, rfl, rfl⟩
    rw [hvalue, hrun]

/-- Forms at the top of a program are outside of all modules. -/
theorem topLevel_context (nodes : List Node) (c : Config) (s : State) :
    (LowerM.concat (nodes.map topLevel) c s).2.context = s.context := by
  have hwithin : (LowerM.concat (nodes.map topLevel)).Within .bindings True :=
    .concat (List.forall_mem_map.mpr fun n _ =>
      within_topLevel (lowersWithin fun _ _ _ => trivial))
  exact (hwithin.leaves c s).context

/-- The module of that full name, pipes and all. -/
def lowerModuleM (name : List String) (body : List Node) : LowerM ModuleDef := do
  let body ← ofExcept (removePipesList body)
  moduleDef name body (items body)

theorem lowerModuleM_value {name : List String} {body : List Node} {m : ModuleDef} :
    (lowerModuleM name body c s).1 = .ok m ↔
      ∃ plain, removePipesList body = .ok plain ∧
        (moduleDef name plain (items plain) c s).1 = .ok m := by
  cases hbody : removePipesList body with
  | error e =>
    have hrun : lowerModuleM name body c s = (.error e, s) := by
      rw [lowerModuleM, hbody]
      rfl
    simp [hrun]
  | ok plain =>
    have hrun : lowerModuleM name body c s = moduleDef name plain (items plain) c s := by
      rw [lowerModuleM, hbody]
      rfl
    simp [hrun]

/-- A program of one module. -/
theorem lowerProgram_module {config : Config} {name : List String} {body : List Node}
    {m : ModuleDef} :
    lowerProgram config [.module name body] = .ok ⟨[.module m]⟩ ↔
      (lowerModuleM name body config {}).1 = .ok m := by
  rw [lowerProgram_ok, lowerModuleM_value]
  constructor
  · rintro ⟨nodes, s', hnodes, hrun⟩
    obtain ⟨n, hn, rfl⟩ := removePipesList_singleton.mp hnodes
    obtain ⟨plain, hplain, rfl⟩ := removePipes_module.mp hn
    obtain ⟨m', hm, hstmts⟩ := topLevel_module.mp (concat_singleton.mp hrun)
    cases hstmts
    exact ⟨plain, hplain, congrArg Prod.fst hm⟩
  · rintro ⟨plain, hplain, hm⟩
    have hn : (Node.module name body).removePipes = .ok (.module name plain) :=
      removePipes_module.mpr ⟨plain, hplain, rfl⟩
    have hrun : moduleDef name plain (items plain) config {} = (.ok m, {}) := Prod.ext hm rfl
    refine ⟨_, {}, removePipesList_singleton.mpr ⟨_, hn, rfl⟩, ?_⟩
    exact concat_singleton.mpr (topLevel_module.mpr ⟨m, hrun, rfl⟩)

/-- A module among other forms is lowered as it is alone. -/
theorem lowerProgram_split {config : Config} {before after : List Node} {name : List String}
    {body : List Node} {program : Program}
    (h : lowerProgram config (before ++ .module name body :: after) = .ok program) :
    ∃ front m back, program.body = front ++ .module m :: back ∧
      lowerProgram config before = .ok ⟨front⟩ ∧
      lowerProgram config [.module name body] = .ok ⟨[.module m]⟩ := by
  obtain ⟨nodes, s', hnodes, hrun⟩ := lowerProgram_ok.mp h
  obtain ⟨before', n, after', hbefore, hn, -, rfl⟩ := removePipesList_split hnodes
  obtain ⟨plain, hplain, rfl⟩ := removePipes_module.mp hn
  rw [List.map_append, List.map_cons, ← List.singleton_append] at hrun
  obtain ⟨front, s₁, rest, hfront, hrun, hbody⟩ := concat_append hrun
  obtain ⟨stmts, s₂, back, hstmts, -, rfl⟩ := concat_append hrun
  obtain ⟨m, hm, rfl⟩ := topLevel_module.mp (concat_singleton.mp hstmts)
  have hcontext : s₁.context = ({} : State).context := by
    have hkept := topLevel_context before' config {}
    rw [hfront] at hkept
    exact hkept
  have halone : (moduleDef name plain (items plain) config {}).1 = .ok m := by
    rw [← moduleDef_congr hcontext, hm]
  refine ⟨front, m, back, by simpa using hbody, ?_, ?_⟩
  · exact lowerProgram_ok.mpr ⟨before', s₁, hbefore, hfront⟩
  · exact lowerProgram_module.mpr (lowerModuleM_value.mpr ⟨plain, hplain, halone⟩)

/-- A module with the body of one clause replaced. -/
theorem lowerModuleM_differs {name : List String} {front back body body' : List Node}
    {visibility : Visibility} {head : Node} {m m' : ModuleDef}
    (h : (lowerModuleM name (front ++ .define visibility head body :: back) c s).1 = .ok m)
    (h' : (lowerModuleM name (front ++ .define visibility head body' :: back) c s).1 = .ok m') :
    ∃ plain function params guards, head.removePipes = .ok plain ∧
      definitionHead plain = .ok (function, params, guards) ∧
      ModuleDiffers (Identifier.escape function) m m' := by
  have hdefine : ∀ {body n}, (Node.define visibility head body).removePipes = .ok n →
      ∃ head' plain, head.removePipes = .ok head' ∧ n = .define visibility head' plain := by
    intro body n hn
    rw [removePipes] at hn
    obtain ⟨head', hhead, hn⟩ := exists_ok_of_bind hn
    obtain ⟨plain, -, hn⟩ := exists_ok_of_bind hn
    cases hn
    exact ⟨head', plain, hhead, rfl⟩
  obtain ⟨nodes, hnodes, hm⟩ := lowerModuleM_value.mp h
  obtain ⟨nodes', hnodes', hm'⟩ := lowerModuleM_value.mp h'
  obtain ⟨before, n, after, hbefore, hn, hafter, rfl⟩ := removePipesList_split hnodes
  obtain ⟨before', n', after', hbefore', hn', hafter', rfl⟩ := removePipesList_split hnodes'
  obtain ⟨plain, _, hhead, rfl⟩ := hdefine hn
  obtain ⟨plain', _, hhead', rfl⟩ := hdefine hn'
  rw [hbefore] at hbefore'
  rw [hafter] at hafter'
  rw [hhead] at hhead'
  cases hbefore'
  cases hafter'
  cases hhead'
  obtain ⟨function, params, guards, hfunction, hdiffers⟩ := moduleDef_differs hm hm'
  exact ⟨plain, function, params, guards, hhead, hfunction, hdiffers⟩

end Programs

/-- A module among other forms is lowered as it is alone; and when the body of one clause of a
module is replaced, only the function of that clause changes, whatever state the module is lowered
in. -/
theorem modules_and_functions_are_lowered_separately (config : Config) :
    (∀ before name body after program,
      lowerProgram config (before ++ .module name body :: after) = .ok program →
      ∃ front m back, program.body = front ++ .module m :: back ∧
        lowerProgram config before = .ok ⟨front⟩ ∧
        lowerProgram config [.module name body] = .ok ⟨[.module m]⟩) ∧
    (∀ name body m, lowerProgram config [.module name body] = .ok ⟨[.module m]⟩ ↔
      (lowerModuleM name body config {}).1 = .ok m) ∧
    ∀ (s : State) name front visibility head body body' back m m',
      (lowerModuleM name (front ++ .define visibility head body :: back) config s).1 = .ok m →
      (lowerModuleM name (front ++ .define visibility head body' :: back) config s).1 = .ok m' →
      ∃ plain function params guards, head.removePipes = .ok plain ∧
        definitionHead plain = .ok (function, params, guards) ∧
        ModuleDiffers (Identifier.escape function) m m' := by
  refine ⟨?alone, ?module, ?replaced⟩
  case alone =>
    intro before name body after program h
    exact lowerProgram_split h
  case module =>
    intro name body m
    exact lowerProgram_module
  case replaced =>
    intro s name front visibility head body body' back m m' h h'
    exact lowerModuleM_differs h h'

/-- A module in which clauses of `size` stand apart, the last of them with a body of choice. -/
def sizeModule (body : List Node) : List Node :=
  [.attributeSet "limit" (.integer 3),
   .define .exported (.call "size" [.nil] {}) [.integer 0],
   .define .internal (.call "rest" [.var "n"] {}) [.attributeRead "limit"],
   .define .exported (.call "size" [.var "n"] {}) body]

theorem modules_and_functions_are_lowered_separately_sizeModule :
    ∃ program m m',
      lowerProgram {} ([.bind (.var "n") (.integer 1)] ++
        .module ["Sizes"] (sizeModule [.var "n"]) :: [.var "n"]) = .ok program ∧
      (∃ front back, program.body = front ++ .module m :: back) ∧
      (lowerModuleM ["Sizes"] (sizeModule [.var "n"]) {} {}).1 = .ok m ∧
      (lowerModuleM ["Sizes"] (sizeModule [.bind (.var "n") (.integer 2), .var "n"]) {} {}).1 =
        .ok m' ∧
      ModuleDiffers "size" m m' := by
  obtain ⟨halone, hmodule, hreplaced⟩ := modules_and_functions_are_lowered_separately {}
  obtain ⟨front, m, back, hbody, -, hm⟩ := halone [.bind (.var "n") (.integer 1)] ["Sizes"]
    (sizeModule [.var "n"]) [.var "n"] _ rfl
  have hm := (hmodule _ _ _).mp hm
  obtain ⟨m', hm'⟩ : ∃ m', (lowerModuleM ["Sizes"]
    (sizeModule [.bind (.var "n") (.integer 2), .var "n"]) {} {}).1 = .ok m' := ⟨_, rfl⟩
  obtain ⟨head, function, params, guards, hplain, hhead, hdiffers⟩ := hreplaced {} ["Sizes"]
    ((sizeModule []).take 3) .exported _ _ _ [] m m' hm hm'
  cases hplain
  cases hhead
  exact ⟨_, m, m', rfl, ⟨front, back, hbody⟩, hm, hm', hdiffers⟩

end TreeLowering
