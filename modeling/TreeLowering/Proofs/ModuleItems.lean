import TreeLowering.Proofs.Selection
import TreeLowering.Proofs.Separation

/-!
One item of a module body, and then all of them.

`Takes` says all that the taking of an item can do to the draft of the module and to the state. What
the items before a place have come to is read off it: `ModuleContext.after` is the module as the
items up to there leave it, with the attributes in force and the short names of the modules inside,
and depends on the source alone.
-/
namespace TreeLowering

open Source Target LowerM Lowering

namespace ModuleContext

/-- The attribute has its next version, and that one is in force. -/
def withAttribute (m : ModuleContext) (key : String) : ModuleContext :=
  { m with
    attributes := m.attributes.set key (m.attributeVersions.next key)
    attributeVersions := m.attributeVersions.set key (m.attributeVersions.next key + 1) }

/-- The first segment of a module inside stands for its full name. -/
def withInner (m : ModuleContext) (name : List String) : List String → ModuleContext
  | [] => m
  | first :: _ => { m with aliases := m.aliases.set first (name ++ [first]) }

/-- The module behind an item of its body. -/
def after (m : ModuleContext) : Node → ModuleContext
  | .attributeSet key _ =>
    if documentationAttributes.contains key then m else m.withAttribute key
  | .module inner _ => m.withInner m.name inner
  | _ => m

/-- The module behind several items. -/
def afterAll (m : ModuleContext) (ns : List Node) : ModuleContext := ns.foldl after m

@[simp] theorem afterAll_cons (m : ModuleContext) (n : Node) (ns : List Node) :
    m.afterAll (n :: ns) = (m.after n).afterAll ns := rfl

@[simp] theorem after_name (m : ModuleContext) (n : Node) : (m.after n).name = m.name := by
  unfold after
  split
  · split <;> rfl
  next inner _ => cases inner <;> rfl
  · rfl

@[simp] theorem afterAll_name (m : ModuleContext) (ns : List Node) :
    (m.afterAll ns).name = m.name := by
  induction ns generalizing m with
  | nil => rfl
  | cons n ns ih => rw [afterAll_cons, ih, after_name]

/-- Items that are lowered to statements change nothing for those behind them. -/
theorem after_statements (m : ModuleContext) {n : Node}
    (h : item (positions n) n = .statements (positions n).effect) : m.after n = m := by
  cases n with
  | attributeSet | module => cases h
  | _ => rfl

theorem after_importing (m : ModuleContext) {n : Node} {declaration : LowerM (Option Import)}
    (h : item (positions n) n = .importing declaration) : m.after n = m := by
  cases n with
  | attributeSet | module => cases h
  | _ => rfl

theorem after_struct (m : ModuleContext) {n : Node} {fields : List (String × LowerM Expr)}
    {isException : Bool} (h : item (positions n) n = .struct fields isException) :
    m.after n = m := by
  cases n with
  | attributeSet | module => cases h
  | _ => rfl

end ModuleContext

/-- The clause of a definition that stands where the attributes have these versions. -/
def definedClause (versions : NameTable Nat) (patterns alternatives body : List Node) :
    ClauseParts :=
  { sourceClause patterns alternatives body with attributes := some versions }

theorem definitionTests_eq {head : Node} {function : String} {patterns alternatives : List Node}
    (h : definitionHead head = .ok (function, patterns, alternatives)) :
    definitionTests head = alternatives.map fun g => condition g (positions g).value := by
  unfold definitionHead at h
  split at h
  case h_3 | h_4 =>
    obtain ⟨others, hothers, hread⟩ := exists_ok_of_bind h
    cases hread
    exact guardTests_eq hothers
  all_goals cases h
  all_goals rfl

/-- What taking an item of the module of that name comes to, when it succeeds. -/
inductive Takes (name : List String) (c : Config) (draft : ModuleDraft) (s : State) :
    Node → ModuleDraft → State → Prop
  | definition {visibility : Visibility} {head : Node} {body : List Node} {function : String}
      {patterns alternatives : List Node} {groups : List FunctionGroup}
      (read : definitionHead head = .ok (function, patterns, alternatives))
      (added : addClause function visibility
        (definedClause s.attributes patterns alternatives body) draft.groups = .ok groups) :
      Takes name c draft s (.define visibility head body) { draft with groups } s
  | documentation {key : String} {value : Node}
      (listed : documentationAttributes.contains key = true) :
      Takes name c draft s (.attributeSet key value) draft s
  | attributeSet {key : String} {value : Node} {lowered : Expr} {s₁ : State}
      (unlisted : documentationAttributes.contains key = false)
      (lowers : (positions value).value c s = (.ok lowered, s₁)) :
      Takes name c draft s (.attributeSet key value)
        { draft with body := draft.body ++ [.const (Identifier.versioned
          (Identifier.ofAttribute key) (s₁.attributeVersions.next key)) lowered] }
        { s₁ with context := s₁.context.map (·.withAttribute key) }
  | importing {n : Node} {declaration : Option Import}
      (form : item (positions n) n = .importing (importDeclaration n))
      (declares : importDeclaration n c s = (.ok declaration, s)) :
      Takes name c draft s n { draft with imports := draft.imports ++ declaration.toList } s
  | struct {n : Node} {fields : List (String × LowerM Expr)} {isException : Bool}
      (form : item (positions n) n = .struct fields isException) :
      Takes name c draft s n
        { draft with structs := draft.structs ++ [(fields, isException)] } s
  | module {inner : List String} {body : List Node} {m : ModuleDef}
      (lowers : (moduleDef (name ++ inner) body (items body) c
        { s with context := s.context.map (·.withInner name inner) }).1 = .ok m) :
      Takes name c draft s (.module inner body) { draft with body := draft.body ++ [.module m] }
        { s with context := s.context.map (·.withInner name inner) }
  | statements {n : Node} {stmts : List Stmt} {s₁ : State}
      (form : item (positions n) n = .statements (positions n).effect)
      (lowers : (positions n).effect c s = (.ok stmts, s₁)) :
      Takes name c draft s n { draft with body := draft.body ++ stmts } s₁

section Items

variable {name : List String} {c : Config} {draft draft' : ModuleDraft} {s s' : State}

/-- The module that is being lowered, with the attribute in its next version. -/
theorem defineAttribute_eq (key : String) (c : Config) (s : State) :
    defineAttribute key c s =
      (.ok (Identifier.versioned (Identifier.ofAttribute key) (s.attributeVersions.next key)),
        { s with context := s.context.map (·.withAttribute key) }) := by
  obtain ⟨scope, versions, invented, context⟩ := s
  cases context <;> rfl

theorem takeItem_module {inner : List String} {lowered : List String → LowerM ModuleDef} :
    takeItem name draft (.module inner lowered) c s = (do
      let m ← lowered (name ++ inner)
      return { draft with body := draft.body ++ [.module m] } : LowerM ModuleDraft) c
        { s with context := s.context.map (·.withInner name inner) } := by
  obtain ⟨scope, versions, invented, context⟩ := s
  cases inner with
  | nil => cases context <;> rfl
  | cons first rest => rfl

/-- The taking of an item succeeds in the ways that `Takes` lists, and in no other. -/
theorem takeItem_iff {n : Node} :
    takeItem name draft (item (positions n) n) c s = (.ok draft', s') ↔
      Takes name c draft s n draft' s' := by
  constructor
  · intro hrun
    cases n with
    | define visibility head body =>
      simp only [item, takeItem, LowerM.attributes, bind_run, pure_run, state_run, ofExcept_run,
        Prod.mk.injEq] at hrun
      obtain ⟨⟨function, patterns, alternatives⟩, _, ⟨hread, rfl⟩, versions, _, ⟨_, _, ⟨rfl, rfl⟩,
        rfl, rfl⟩, groups, _, ⟨hadded, rfl⟩, rfl, rfl⟩ := hrun
      rw [definitionTests_eq hread] at hadded
      exact .definition hread hadded
    | attributeSet key value =>
      simp only [item, takeItem] at hrun
      split at hrun
      next hlisted =>
        obtain ⟨rfl, rfl⟩ := pure_run.mp hrun
        exact .documentation hlisted
      next hunlisted =>
        simp only [bind_run, pure_run, defineAttribute_eq, Prod.mk.injEq] at hrun
        obtain ⟨lowered, s₁, hlowered, target, _, ⟨htarget, rfl⟩, rfl, rfl⟩ := hrun
        cases htarget
        exact .attributeSet (by simpa using hunlisted) hlowered
    | defStruct fields | defException fields =>
      simp only [item, takeItem, pure_run] at hrun
      obtain ⟨rfl, rfl⟩ := hrun
      exact .struct rfl
    | module inner body =>
      rw [item, takeItem_module] at hrun
      simp only [bind_run, pure_run] at hrun
      obtain ⟨m, s₁, hm, rfl, rfl⟩ := hrun
      cases congrArg Prod.snd hm
      exact .module (congrArg Prod.fst hm)
    | importAll | importOnly | aliasAs | require =>
      simp only [item, takeItem, bind_run, pure_run] at hrun
      obtain ⟨declaration, s₁, hdeclaration, rfl, rfl⟩ := hrun
      obtain rfl := Scoping.importDeclaration_state hdeclaration
      exact .importing rfl hdeclaration
    | _ =>
      simp only [item, takeItem, bind_run, pure_run] at hrun
      obtain ⟨stmts, s₁, hstmts, rfl, rfl⟩ := hrun
      exact .statements rfl hstmts
  · intro h
    cases h with
    | definition read added =>
      rw [definedClause, sourceClause, ← definitionTests_eq read] at added
      simp only [item, takeItem, LowerM.attributes, bind_run, pure_run, state_run, ofExcept_run,
        Prod.mk.injEq]
      exact ⟨_, _, ⟨read, rfl⟩, _, _, ⟨_, _, ⟨rfl, rfl⟩, rfl, rfl⟩, _, _, ⟨added, rfl⟩, rfl, rfl⟩
    | documentation listed =>
      rw [item, takeItem, if_pos listed]
      rfl
    | attributeSet unlisted lowers =>
      rw [item, takeItem, if_neg (by simpa using unlisted), bind_of_ok lowers]
      exact bind_of_ok (defineAttribute_eq _ _ _)
    | importing form declares =>
      rw [form, takeItem]
      exact bind_of_ok declares
    | struct form =>
      rw [form]
      rfl
    | module lowers =>
      rw [item, takeItem_module]
      exact bind_of_ok (Prod.ext lowers rfl)
    | statements form lowers =>
      rw [form, takeItem]
      exact bind_of_ok lowers

theorem takeItems_cons_iff {n : Node} {ns : List Node} :
    takeItems name draft (items (n :: ns)) c s = (.ok draft', s') ↔
      ∃ draft₁ s₁, Takes name c draft s n draft₁ s₁ ∧
        takeItems name draft₁ (items ns) c s₁ = (.ok draft', s') := by
  simp only [items, takeItems, bind_run, takeItem_iff]

theorem takeItems_split {front back : List Node} {n : Node}
    (h : takeItems name draft (items (front ++ n :: back)) c s = (.ok draft', s')) :
    ∃ draft₁ s₁ draft₂ s₂, takeItems name draft (items front) c s = (.ok draft₁, s₁) ∧
      Takes name c draft₁ s₁ n draft₂ s₂ ∧
      takeItems name draft₂ (items back) c s₂ = (.ok draft', s') := by
  rw [items_eq, List.map_append, ← items_eq, ← items_eq] at h
  obtain ⟨draft₁, s₁, hfront, h⟩ := takeItems_append h
  obtain ⟨draft₂, s₂, hitem, hback⟩ := takeItems_cons_iff.mp h
  exact ⟨draft₁, s₁, draft₂, s₂, hfront, hitem, hback⟩

/-- What every item keeps of the draft, all of them keep. -/
theorem takeItems_keeps {P : ModuleDraft → Prop} {ns : List Node}
    (hitem : ∀ n ∈ ns, ∀ draft s draft' s', Takes name c draft s n draft' s' → P draft → P draft')
    (h : takeItems name draft (items ns) c s = (.ok draft', s')) (hdraft : P draft) :
    P draft' := by
  induction ns generalizing draft s with
  | nil =>
    obtain ⟨rfl, -⟩ := pure_run.mp h
    exact hdraft
  | cons n ns ih =>
    obtain ⟨hn, hns⟩ := List.forall_mem_cons.mp hitem
    obtain ⟨draft₁, s₁, hfirst, hrest⟩ := takeItems_cons_iff.mp h
    exact ih hns hrest (hn _ _ _ _ hfirst hdraft)

/-- One item leaves the module as `after` says. -/
theorem Takes.context {m : ModuleContext} {n : Node} (h : Takes name c draft s n draft' s')
    (hs : s.context = some m) (hname : m.name = name) : s'.context = some (m.after n) := by
  cases h with
  | definition read added => exact hs
  | documentation listed => rw [ModuleContext.after, if_pos listed, hs]
  | attributeSet unlisted lowers =>
    rw [ModuleContext.after, if_neg (by simpa using unlisted),
      (value_leaves lowers).1.context, hs]
    rfl
  | importing form declares => rw [m.after_importing form, hs]
  | struct form => rw [m.after_struct form, hs]
  | module lowers => rw [ModuleContext.after, hname, hs]; rfl
  | statements form lowers =>
    rw [m.after_statements form, (effect_leaves lowers).context, hs]

/-- All items leave the module as `afterAll` says. -/
theorem takeItems_context {m : ModuleContext} {ns : List Node}
    (h : takeItems name draft (items ns) c s = (.ok draft', s')) (hs : s.context = some m)
    (hname : m.name = name) : s'.context = some (m.afterAll ns) := by
  induction ns generalizing draft s m with
  | nil =>
    obtain ⟨-, rfl⟩ := pure_run.mp h
    exact hs
  | cons n ns ih =>
    obtain ⟨draft₁, s₁, hitem, hrest⟩ := takeItems_cons_iff.mp h
    exact ih hrest (hitem.context hs hname) ((m.after_name n).trans hname)

end Items

end TreeLowering
