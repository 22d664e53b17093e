import TreeLowering.Proofs.Grouping
import TreeLowering.Proofs.MirroredTrees

/-!
Module bodies with their references written out.

The items of two bodies are taken side by side. A statement or an attribute's value is lowered where
it stands; a clause is lowered behind all items, under the attributes of its place; the defaults of a
struct are lowered behind all items too. So there are three things to say of a written item, one for
each of these (`ItemMirrors`). The modules inside are in the second body as they are in the first, or
they are left out.
-/
namespace TreeLowering

open Source Target LowerM Lowering

variable {E E' m m' : ModuleContext} {r : Reading}

/-- Groups of one name, whose clauses are mirrored one by one. -/
structure FunctionGroup.Mirrors (E E' : ModuleContext) (g g' : FunctionGroup) : Prop where
  name : g'.name = g.name
  clauses : List.Forall₂ (fun p p' => p'.1 = p.1 ∧ p.2.Mirrors E E' p'.2) g.clauses g'.clauses

/-- Struct definitions of the same fields, whose defaults are mirrored. -/
structure StructMirrors (E E' : ModuleContext)
    (d d' : List (String × LowerM Expr) × Bool) : Prop where
  isException : d'.2 = d.2
  fields : List.Forall₂ (fun f f' => f'.1 = f.1 ∧ f.2.Mirrors E E' f'.2) d.1 d'.1

def Target.Stmt.isModule : Stmt → Bool
  | .module _ => true
  | _ => false

/-- The statements without the modules among them, unless these are kept. -/
def keeping (keep : Bool) (stmts : List Stmt) : List Stmt :=
  stmts.filter fun stmt => keep || !stmt.isModule

/-- What two bodies have come to, the first inside of a module that ends as `E` and the second inside
of one that ends as `E'`. -/
structure ModuleDraft.Mirrors (keep : Bool) (E E' : ModuleContext) (d d' : ModuleDraft) : Prop where
  imports : d'.imports = d.imports
  body : d'.body = keeping keep d.body
  groups : List.Forall₂ (FunctionGroup.Mirrors E E') d.groups d'.groups
  structs : List.Forall₂ (StructMirrors E E') d.structs d'.structs

/-- The second item is the first one with its references written out, as they are to be read where it
is lowered. -/
inductive ItemMirrors (E E' m m' : ModuleContext) : Node → Node → Prop
  | definition {visibility : Visibility} {head : Node} {body : List Node} {r : Reading}
      (suits : r.Suits (E.under (some m.attributes)) (E'.under (some m'.attributes))) :
      ItemMirrors E E' m m' (.define visibility head body)
        (.define visibility (head.written r) (writtenAll r body))
  | attributeSet {key : String} {value : Node} {r : Reading} (suits : r.Suits m m')
      (versions : m'.attributeVersions = m.attributeVersions) :
      ItemMirrors E E' m m' (.attributeSet key value) (.attributeSet key (value.written r))
  | importing {n : Node} (form : item (positions n) n = .importing (importDeclaration n)) :
      ItemMirrors E E' m m' n n
  | struct {n : Node} {r : Reading} (form : n.definesStruct = true) (suits : r.Suits E E') :
      ItemMirrors E E' m m' n (n.written r)
  | statements {n : Node} {r : Reading}
      (form : item (positions n) n = .statements (positions n).effect) (suits : r.Suits m m') :
      ItemMirrors E E' m m' n (n.written r)

/-- The second body is the first one with the references of its items written out, from where the
modules are as given. -/
inductive BodyMirrors (keep : Bool) (E E' : ModuleContext) :
    ModuleContext → ModuleContext → List Node → List Node → Prop
  | nil {m m' : ModuleContext} : BodyMirrors keep E E' m m' [] []
  | item {m m' : ModuleContext} {n n' : Node} {ns ns' : List Node}
      (first : ItemMirrors E E' m m' n n')
      (rest : BodyMirrors keep E E' (m.after n) (m'.after n') ns ns') :
      BodyMirrors keep E E' m m' (n :: ns) (n' :: ns')
  | kept {m : ModuleContext} {inner : List String} {body ns ns' : List Node} (keeps : keep = true)
      (rest : BodyMirrors keep E E' (m.withInner m.name inner) (m.withInner m.name inner) ns ns') :
      BodyMirrors keep E E' m m (.module inner body :: ns) (.module inner body :: ns')
  | dropped {m m' : ModuleContext} {inner : List String} {body ns ns' : List Node}
      (drops : keep = false) (rest : BodyMirrors keep E E' (m.withInner m.name inner) m' ns ns') :
      BodyMirrors keep E E' m m' (.module inner body :: ns) ns'

section Groups

variable {groups groups' out : List FunctionGroup} {g g' : FunctionGroup}

theorem any_eq_of_forall₂ {α β : Type} {R : α → β → Prop} {p : α → Bool} {q : β → Bool}
    {xs : List α} {ys : List β} (h : List.Forall₂ R xs ys) (heq : ∀ a b, R a b → q b = p a) :
    ys.any q = xs.any p := by
  induction h with
  | nil => rfl
  | cons hfirst _ ih => rw [List.any_cons, List.any_cons, heq _ _ hfirst, ih]

theorem FunctionGroup.Mirrors.visibility?_eq (h : g.Mirrors E E' g') (arity : Nat) :
    g'.visibility? arity = g.visibility? arity := by
  have hclauses := h.clauses
  unfold FunctionGroup.visibility?
  generalize g.clauses = clauses at hclauses ⊢
  generalize g'.clauses = clauses' at hclauses ⊢
  induction hclauses with
  | nil => rfl
  | cons hfirst _ ih =>
    obtain ⟨hvisibility, hclause⟩ := hfirst
    rw [List.find?_cons, List.find?_cons, hclause.length_patterns]
    split
    · exact congrArg some hvisibility
    · exact ih

theorem FunctionGroup.Mirrors.isExported_eq (h : g.Mirrors E E' g') :
    g'.isExported = g.isExported :=
  any_eq_of_forall₂ h.clauses fun _ _ hp => congrArg (· == Visibility.exported) hp.1

/-- A clause that is mirrored goes to the same group. -/
theorem addClause_mirrors {function : String} {visibility : Visibility}
    {clause clause' : ClauseParts} (hclause : clause.Mirrors E E' clause')
    (h : List.Forall₂ (FunctionGroup.Mirrors E E') groups groups')
    (hadded : addClause function visibility clause groups = .ok out) :
    ∃ out', addClause function visibility clause' groups' = .ok out' ∧
      List.Forall₂ (FunctionGroup.Mirrors E E') out out' := by
  induction h generalizing out with
  | nil =>
    cases hadded
    exact ⟨_, rfl, .cons ⟨rfl, .cons ⟨rfl, hclause⟩ .nil⟩ .nil⟩
  | @cons g g' rest rest' hgroup hrest ih =>
    simp only [addClause] at hadded ⊢
    rw [hgroup.name, hclause.length_patterns, hgroup.visibility?_eq]
    split at hadded
    next hname =>
      rw [if_pos hname]
      split at hadded
      next => cases hadded
      next hvisible =>
        cases hadded
        rw [if_neg hvisible]
        refine ⟨_, rfl, .cons ⟨rfl, ?_⟩ hrest⟩
        exact List.rel_append hgroup.clauses (.cons ⟨rfl, hclause⟩ .nil)
    next hname =>
      obtain ⟨more, hmore, hadded⟩ := exists_ok_of_bind hadded
      cases hadded
      obtain ⟨more', hmore', hrelated⟩ := ih hmore
      rw [if_neg hname, hmore']
      exact ⟨_, rfl, .cons hgroup hrelated⟩

theorem mirrors_groupFunction (h : g.Mirrors E E' g') :
    LowerM.Mirrors E E' (groupFunction g) (groupFunction g') := by
  have hclauses : List.Forall₂ (ClauseParts.Mirrors E E') (g.clauses.map (·.2))
      (g'.clauses.map (·.2)) := by
    rw [List.forall₂_map_left_iff, List.forall₂_map_right_iff]
    exact h.clauses.imp fun _ _ hp => hp.2
  unfold groupFunction
  rw [h.name, h.isExported_eq]
  exact .bind (.inFunction (mirrors_clausesFunction _ _ hclauses)) fun _ => .pure _

theorem mirrors_structDefaults {fields fields' : List (String × LowerM Expr)} (isException : Bool)
    (h : List.Forall₂ (fun f f' => f'.1 = f.1 ∧ f.2.Mirrors E E' f'.2) fields fields') :
    LowerM.Mirrors E E' (structDefaults fields isException)
      (structDefaults fields' isException) := by
  have hmessage : (fields'.all fun f => f.1 != "message") =
      fields.all fun f => f.1 != "message" := by
    rw [List.all_eq_not_any_not, List.all_eq_not_any_not]
    exact congrArg Bool.not (any_eq_of_forall₂ h fun _ _ hf => by rw [hf.1])
  unfold structDefaults
  refine .bind (.sequence ?_) fun given => ?_
  · rw [List.forall₂_map_left_iff, List.forall₂_map_right_iff]
    refine h.imp ?_
    rintro ⟨field, value⟩ ⟨_, value'⟩ ⟨rfl, hvalue⟩
    exact .bind (.inFunction hvalue) fun _ => .pure _
  · dsimp only
    rw [hmessage]
    split <;> exact .pure _

theorem mirrors_structsFunctions {keep : Bool} {d d' : ModuleDraft} (name : List String)
    (h : d.Mirrors keep E E' d') :
    LowerM.Mirrors E E' (structsFunctions name d) (structsFunctions name d') := by
  have hown : (d'.groups.any fun g => g.name == "exception" && g.hasArity 1) =
      d.groups.any fun g => g.name == "exception" && g.hasArity 1 :=
    any_eq_of_forall₂ h.groups fun g g' hgroup => by
      rw [hgroup.name, FunctionGroup.hasArity, FunctionGroup.hasArity, hgroup.visibility?_eq]
  have hstructs := h.structs
  unfold structsFunctions
  rw [hown]
  generalize d.structs = structs at hstructs ⊢
  generalize d'.structs = structs' at hstructs ⊢
  rcases hstructs with _ | @⟨⟨fields, isException⟩, ⟨fields', _⟩, _, _, ⟨rfl, hfields⟩, _ | ⟨_, _⟩⟩
  · exact .pure _
  · dsimp only [structFunctions]
    refine .bind (mirrors_structDefaults _ hfields) fun defaults => .library fun lib => ?_
    split <;> exact .pure _
  · exact .fail _ _

end Groups

section Statements

@[simp]
theorem keeping_append (keep : Bool) (stmts stmts' : List Stmt) :
    keeping keep (stmts ++ stmts') = keeping keep stmts ++ keeping keep stmts' :=
  List.filter_append ..

theorem keeping_true (stmts : List Stmt) : keeping true stmts = stmts :=
  List.filter_eq_self.mpr fun _ _ => rfl

theorem keeping_of_noModules (keep : Bool) {stmts : List Stmt}
    (h : Scoping.stmtsModules stmts = []) : keeping keep stmts = stmts := by
  refine List.filter_eq_self.mpr fun stmt hstmt => ?_
  have hplain : stmt.isModule = false := by
    induction stmts with
    | nil => cases hstmt
    | cons first rest ih =>
      obtain ⟨hfirst, hrest⟩ := List.append_eq_nil_iff.mp h
      rcases List.mem_cons.mp hstmt with rfl | hstmt
      · cases stmt with
        | module definition =>
          obtain ⟨name, imports, body, functions⟩ := definition
          cases hfirst
        | _ => rfl
      · exact ih hrest hstmt
  rw [hplain, Bool.not_false, Bool.or_true]

theorem keeping_const (keep : Bool) (target : String) (value : Expr) :
    keeping keep [.const target value] = [.const target value] :=
  keeping_of_noModules keep rfl

theorem mirrors_importDeclaration (n : Node) :
    LowerM.Mirrors m m' (importDeclaration n) (importDeclaration n) := by
  refine .bind (.ofExcept fun _ => id) fun declared => ?_
  dsimp only
  split
  · exact .fail _ _
  · refine .config fun c => ?_
    split
    · exact .pure _
    · exact .config fun _ => .pure _

theorem item_statements_written (r : Reading) {n : Node}
    (h : item (positions n) n = .statements (positions n).effect) :
    item (positions (n.written r)) (n.written r) =
      .statements (positions (n.written r)).effect := by
  cases n with
  | attributeRead name => rw [Node.written]; cases r.read name <;> rfl
  | define | attributeSet | defStruct | defException | module => cases h
  | importAll | importOnly | aliasAs | require => cases h
  | _ => rfl

end Statements

section Items

variable {keep : Bool} {name : List String} {c : Config} {s t : State}
  {draft draft' out : ModuleDraft}

theorem definedClause_mirrors {versions versions' : NameTable Nat}
    (hr : r.Suits (E.under (some versions)) (E'.under (some versions')))
    (patterns alternatives body : List Node) :
    (definedClause versions patterns alternatives body).Mirrors E E'
      (definedClause versions' (writtenAll r patterns) (writtenAll r alternatives)
        (writtenAll r body)) where
  patterns := ⟨r, hr, rfl⟩
  guards := mirrors_tests hr fun g _ => mirrored hr g
  body := Positions.Mirrors.body (mirrors_all fun _ _ k _ => mirrored hr k)

theorem structFields_mirrors (hr : r.Suits E E') (fields : List (String × Node)) :
    List.Forall₂ (fun f f' => f'.1 = f.1 ∧ LowerM.Mirrors E E' f.2 f'.2) (fieldValues fields)
      (fieldValues (writtenFields r fields)) := by
  rw [fieldValues_eq, fieldValues_eq, writtenFields_eq_map, List.map_map]
  exact forall₂_maps fun f _ => ⟨rfl, (mirrored hr f.2).value⟩

/-- One item of the first body and its counterpart are taken alike. -/
theorem ItemMirrors.takes {n n' : Node} (h : ItemMirrors E E' m m' n n')
    (hdraft : draft.Mirrors keep E E' draft') (hrun : Takes name c draft (s.within m) n out t) :
    ∃ (u : State) (out' : ModuleDraft), t = u.within (m.after n) ∧
      Takes name c draft' (s.within m') n' out' (u.within (m'.after n')) ∧
      out.Mirrors keep E E' out' := by
  cases h with
  | definition suits =>
    cases hrun with
    | definition read added =>
      obtain ⟨groups', hadded, hgroups⟩ :=
        addClause_mirrors (definedClause_mirrors suits _ _ _) hdraft.groups added
      exact ⟨s, _, rfl, .definition (definitionHead_written _ read) hadded,
        { hdraft with groups := hgroups }⟩
    | importing form | struct form | statements form => cases form
  | @attributeSet key value r suits versions =>
    cases hrun with
    | documentation listed =>
      rw [ModuleContext.after, if_pos listed, ModuleContext.after, if_pos listed]
      exact ⟨s, draft', rfl, .documentation listed, hdraft⟩
    | attributeSet unlisted lowers =>
      obtain ⟨u, rfl, hlowers⟩ := (mirrored suits value).value lowers
      have hnot : ¬ documentationAttributes.contains key = true := by simpa using unlisted
      have hversions : (u.within m').attributeVersions = (u.within m).attributeVersions := versions
      rw [ModuleContext.after, if_neg hnot, ModuleContext.after, if_neg hnot]
      refine ⟨u, _, rfl, .attributeSet unlisted hlowers, { hdraft with body := ?_ }⟩
      rw [keeping_append, hdraft.body, hversions, keeping_const]
    | importing form | struct form | statements form => cases form
  | importing form =>
    cases hrun with
    | importing _ declares =>
      have hmirrors : LowerM.Mirrors m m' (importDeclaration n) (importDeclaration n) :=
        mirrors_importDeclaration n
      obtain ⟨u, -, hdeclares⟩ := hmirrors declares
      rw [Scoping.importDeclaration_state hdeclares] at hdeclares
      rw [m.after_importing form, m'.after_importing form]
      refine ⟨s, _, rfl, .importing form hdeclares, { hdraft with imports := ?_ }⟩
      rw [hdraft.imports]
    | definition | documentation | attributeSet | module => cases form
    | struct other | statements other => cases form.symm.trans other
  | struct form suits =>
    cases n with
    | defStruct fields | defException fields =>
      cases hrun with
      | struct form =>
        cases form
        refine ⟨s, _, rfl, .struct rfl, { hdraft with structs := ?_ }⟩
        exact List.rel_append hdraft.structs (.cons ⟨rfl, structFields_mirrors suits fields⟩ .nil)
      | importing form | statements form => cases form
    | _ => cases form
  | @statements n r form suits =>
    cases hrun with
    | statements _ lowers =>
      obtain ⟨u, rfl, hlowers⟩ := (mirrored suits n).effect lowers
      have hwritten := item_statements_written r form
      rw [m.after_statements form, m'.after_statements hwritten]
      refine ⟨u, _, rfl, .statements hwritten hlowers, { hdraft with body := ?_ }⟩
      rw [keeping_append, hdraft.body,
        keeping_of_noModules keep (Scoping.noModules_effect n c _ _ _ lowers)]
    | definition | documentation | attributeSet | module => cases form
    | struct other | importing other => cases form.symm.trans other

/-- So are all items, and the modules among them stay or go. -/
theorem BodyMirrors.takes {ns ns' : List Node} (h : BodyMirrors keep E E' m m' ns ns')
    (hname : m.name = name) (hdraft : draft.Mirrors keep E E' draft')
    (hrun : takeItems name draft (items ns) c (s.within m) = (.ok out, t)) :
    ∃ (u : State) (out' : ModuleDraft), t = u.within (m.afterAll ns) ∧
      takeItems name draft' (items ns') c (s.within m') = (.ok out', u.within (m'.afterAll ns')) ∧
      out.Mirrors keep E E' out' := by
  induction h generalizing draft draft' s with
  | nil =>
    obtain ⟨rfl, rfl⟩ := pure_run.mp hrun
    exact ⟨s, draft', rfl, rfl, hdraft⟩
  | @item m m' n n' ns ns' first rest ih =>
    obtain ⟨draft₁, s₁, hfirst, hrest⟩ := takeItems_cons_iff.mp hrun
    obtain ⟨u, draft₁', rfl, hfirst', hdraft₁⟩ := first.takes hdraft hfirst
    obtain ⟨v, out', rfl, hrest', hout⟩ := ih ((m.after_name n).trans hname) hdraft₁ hrest
    exact ⟨v, out', rfl, takeItems_cons_iff.mpr ⟨draft₁', _, hfirst', hrest'⟩, hout⟩
  | @kept m inner body ns ns' keeps rest ih =>
    obtain ⟨draft₁, s₁, hfirst, hrest⟩ := takeItems_cons_iff.mp hrun
    cases hfirst with
    | @module _ _ definition lowers =>
      have hdraft₁ : ModuleDraft.Mirrors keep E E'
          { draft with body := draft.body ++ [.module definition] }
          { draft' with body := draft'.body ++ [.module definition] } := by
        refine { hdraft with body := ?_ }
        rw [keeping_append, hdraft.body, keeps]
        rfl
      subst hname
      obtain ⟨u, out', rfl, hrest', hout⟩ := ih (m.after_name (.module inner body)) hdraft₁ hrest
      exact ⟨u, out', rfl, takeItems_cons_iff.mpr ⟨_, _, .module lowers, hrest'⟩, hout⟩
    | importing form | struct form | statements form => cases form
  | @dropped m m' inner body ns ns' drops rest ih =>
    obtain ⟨draft₁, s₁, hfirst, hrest⟩ := takeItems_cons_iff.mp hrun
    cases hfirst with
    | @module _ _ definition lowers =>
      have hdraft₁ : ModuleDraft.Mirrors keep E E'
          { draft with body := draft.body ++ [.module definition] } draft' := by
        refine { hdraft with body := ?_ }
        rw [keeping_append, hdraft.body, drops]
        exact (List.append_nil _).symm
      subst hname
      exact ih (m.after_name (.module inner body)) hdraft₁ hrest
    | importing form | struct form | statements form => cases form

end Items

section Outlines

/-- A written item changes the module as the item does. -/
theorem ModuleContext.after_written (m : ModuleContext) (r : Reading) (n : Node) :
    m.after (n.written r) = m.after n := by
  cases n with
  | attributeRead name => rw [Node.written]; cases r.read name <;> rfl
  | _ => rfl

/-- Items that declare the same functions and change a module alike. -/
structure SameOutline (n n' : Node) : Prop where
  functions : declaredFunctions n' = declaredFunctions n
  after : ∀ m : ModuleContext, m.after n' = m.after n

theorem SameOutline.refl (n : Node) : SameOutline n n := ⟨rfl, fun _ => rfl⟩

theorem sameOutline_written (r : Reading) (n : Node) : SameOutline n (n.written r) :=
  ⟨declaredFunctions_written r n, fun m => m.after_written r n⟩

theorem afterAll_eq_of_outlines {ns ns' : List Node} (h : List.Forall₂ SameOutline ns ns')
    (m : ModuleContext) : m.afterAll ns' = m.afterAll ns := by
  induction h generalizing m with
  | nil => rfl
  | cons hfirst _ ih =>
    rw [ModuleContext.afterAll_cons, ModuleContext.afterAll_cons, hfirst.after, ih]

theorem entering_eq_of_outlines {body body' : List Node} (h : List.Forall₂ SameOutline body body')
    (s : State) (name : List String) : s.entering name body' = s.entering name body := by
  have hfunctions : body'.flatMap declaredFunctions = body.flatMap declaredFunctions := by
    induction h with
    | nil => rfl
    | cons hfirst _ ih => rw [List.flatMap_cons, List.flatMap_cons, hfirst.functions, ih]
  rw [State.entering, State.entering, hfunctions]

end Outlines

/-- Bodies that are mirrored come to the same module, up to the modules inside that are left out. -/
theorem moduleDef_of_bodyMirrors {keep : Bool} {name : List String} {body body' : List Node}
    {c : Config} {s s' : State} {definition : ModuleDef}
    (hbody : BodyMirrors keep ((s.entering name body).afterAll body)
      ((s'.entering name body').afterAll body') (s.entering name body) (s'.entering name body')
      body body')
    (h : (moduleDef name body (items body) c s).1 = .ok definition) :
    (moduleDef name body' (items body') c s').1 =
      .ok { definition with body := keeping keep definition.body } := by
  obtain ⟨draft, s₁, generated, s₂, functions, s₃, hdraft, hgenerated, hfunctions, rfl⟩ :=
    moduleDef_value h
  obtain ⟨u, draft', rfl, hdraft', hmirrors⟩ :=
    hbody.takes rfl ⟨rfl, rfl, .nil, .nil⟩ (s := {}) hdraft
  obtain ⟨v, rfl, hgenerated'⟩ := mirrors_structsFunctions name hmirrors hgenerated
  have hsequence : LowerM.Mirrors ((s.entering name body).afterAll body)
      ((s'.entering name body').afterAll body') (LowerM.sequence (draft.groups.map groupFunction))
      (LowerM.sequence (draft'.groups.map groupFunction)) := by
    refine .sequence ?_
    rw [List.forall₂_map_left_iff, List.forall₂_map_right_iff]
    exact hmirrors.groups.imp fun _ _ => mirrors_groupFunction
  obtain ⟨w, rfl, hfunctions'⟩ := hsequence hfunctions
  rw [← hmirrors.imports, ← hmirrors.body]
  have hrun : (do
      let draft ← takeItems name {} (items body')
      let generated ← structsFunctions name draft
      let functions ← LowerM.sequence (draft.groups.map groupFunction)
      return ⟨Identifier.ofModule name, draft.imports, draft.body, generated ++ functions⟩ :
      LowerM ModuleDef) c (State.within {} (s'.entering name body')) = (.ok _, _) :=
    bind_run.mpr ⟨_, _, hdraft', bind_run.mpr ⟨_, _, hgenerated', bind_run.mpr
      ⟨_, _, hfunctions', rfl⟩⟩⟩
  exact congrArg Prod.fst hrun

/-- Bodies of the same outline, with the modules inside as they are, come to the same module. -/
theorem moduleDef_of_sameOutline {name : List String} {body body' : List Node} {c : Config}
    {s : State} {definition : ModuleDef} (houtline : List.Forall₂ SameOutline body body')
    (hbody : BodyMirrors true ((s.entering name body).afterAll body)
      ((s.entering name body).afterAll body) (s.entering name body) (s.entering name body)
      body body')
    (h : (moduleDef name body (items body) c s).1 = .ok definition) :
    (moduleDef name body' (items body') c s).1 = .ok definition := by
  have hsame : BodyMirrors true ((s.entering name body).afterAll body)
      ((s.entering name body').afterAll body') (s.entering name body) (s.entering name body')
      body body' := by
    rwa [entering_eq_of_outlines houtline, afterAll_eq_of_outlines houtline]
  have hmirrored := moduleDef_of_bodyMirrors hsame h
  rw [keeping_true] at hmirrored
  cases definition
  exact hmirrored

end TreeLowering
