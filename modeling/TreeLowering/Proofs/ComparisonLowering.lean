import TreeLowering.Proofs.ComparisonClauses
import TreeLowering.Proofs.LoweredParts

/-!
The configuration only decides names.

Two runs are compared over whole trees, by induction on the nodes that stand directly in a node. The
clauses and defaults that a module puts off are the same in both runs, since they are kept as steps
and not as what the steps give. The runs of a node may start from different bindings: these decide
names as well, and not whether the node lowers.
-/
namespace TreeLowering

open Source Target LowerM Lowering
open Assembly (node each option segment clause qualifier field all_node all_nodes all_each
  all_option all_map₂ all_map₃)

variable {p : Comparison}

section Modules

open Comparison

/-- The steps of the item as they stand in a module body. -/
def ModuleItem.Agrees (p : Comparison) : ModuleItem → Prop
  | .definition _ head guards body =>
    (∀ read, head = .ok read → ∀ n ∈ read.2.1, p.Clean n) ∧
      (∀ x ∈ guards, x.Agrees p p.Exprs) ∧ body.Agrees p p.Tails
  | .attributeSet _ value => value.Agrees p p.Exprs
  | .importing declaration => declaration.Agrees p (p.Same id)
  | .struct fields _ => ∀ f ∈ fields, f.2.Agrees p p.Exprs
  | .module name lowered =>
    (∀ segment ∈ name, p.Unmarked segment) ∧ ∀ full : List String,
      (∀ segment ∈ full, p.Unmarked segment) → (lowered full).Agrees p p.Modules
  | .statements stmts => stmts.Agrees p p.Stmts

/-- Drafts that have put off the same steps. -/
structure Comparison.Drafts (p : Comparison) (draft draft' : ModuleDraft) : Prop where
  imports : p.Same id draft.imports draft'.imports
  body : p.Stmts draft.body draft'.body
  groups_eq : draft'.groups = draft.groups
  structs_eq : draft'.structs = draft.structs
  clauses : ∀ g ∈ draft.groups, ∀ clause ∈ g.clauses, clause.2.Agrees p
  fields : ∀ d ∈ draft.structs, ∀ f ∈ d.1, f.2.Agrees p p.Exprs

theorem importDeclaration_quiet {module : List String} {binding : ImportBinding} (c : Config)
    (s : State) :
    ∃ declaration, (do
      if (← config).isRuntimeModule module then return none
      else return some ⟨binding, (← config).importSource (Identifier.dotted module)⟩ :
        LowerM (Option Import)) c s = (.ok declaration, s) := by
  rw [bind_of_ok (rfl : config c s = (.ok c, s))]
  split <;> exact ⟨_, rfl⟩

theorem agrees_importDeclaration (node : Node) :
    (importDeclaration node).Agrees p (p.Same id) := by
  refine .bind (.ofExcept (.self (P := fun _ => True) fun _ _ => trivial)) ?_
  rintro ⟨module, binding⟩ _ ⟨rfl, -⟩
  dsimp only
  split
  · exact .fail _
  · by_cases hp : p.ofTrees
    · refine .config ?_
      rw [p.isRuntimeModule_eq hp]
      split
      · exact .pure fun _ => rfl
      · refine .config (.pure fun _ => ?_)
        rw [p.importSource_eq hp]
        rfl
    · exact .ofQuiet hp importDeclaration_quiet importDeclaration_quiet

theorem pairs_takeItem {name : List String} (hname : ∀ segment ∈ name, p.Unmarked segment)
    {draft draft' : ModuleDraft} (h : p.Drafts draft draft') {item : ModuleItem}
    (hitem : item.Agrees p) :
    Pairs p p.Drafts (takeItem name draft item) (takeItem name draft' item) := by
  cases item with
  | definition visibility head guards body =>
    obtain ⟨hhead, hguards, hbody⟩ := hitem
    refine .bind (.ofExcept (.self hhead)) ?_
    rintro ⟨function, patterns, alternatives⟩ _ ⟨rfl, hpatterns⟩
    refine .bind agrees_attributes ?_
    rintro _ versions rfl
    have hclause : ClauseParts.Agrees ⟨patterns, guards, body, some versions⟩ p :=
      ⟨hpatterns, hguards, hbody⟩
    dsimp only
    rw [h.groups_eq]
    refine .bind (.ofExcept (.self fun groups hadded =>
      forall_addClause (Q := fun clause => clause.Agrees p) hclause h.clauses hadded)) ?_
    rintro groups _ ⟨rfl, hgroups⟩
    exact .pure ⟨h.imports, h.body, rfl, h.structs_eq, hgroups, h.fields⟩
  | attributeSet key value =>
    have hvalue : value.Agrees p p.Exprs := hitem
    simp only [takeItem]
    split
    · exact .pure h
    · refine .bind hvalue fun value value' hvalue => ?_
      refine .bind (agrees_defineAttribute key) fun target target' htarget => .pure ?_
      have hconst : p.Stmts [.const target value] [.const target' value'] := fun hp => by
        have heq : target' = target := htarget hp
        simp [heq, hvalue hp]
      exact { h with body := h.body.append hconst }
  | importing declaration =>
    have hdeclaration : declaration.Agrees p (p.Same id) := hitem
    refine .bind hdeclaration fun found found' hfound => .pure { h with imports := fun hp => ?_ }
    have heq : found' = found := hfound hp
    simp [heq, h.imports hp]
  | struct fields isException =>
    have hstruct : ∀ d ∈ [(fields, isException)], ∀ f ∈ d.1, f.2.Agrees p p.Exprs :=
      List.forall_mem_singleton.mpr hitem
    have hstructs : draft'.structs ++ [(fields, isException)] =
        draft.structs ++ [(fields, isException)] := by rw [h.structs_eq]
    exact .pure { h with
      structs_eq := hstructs
      fields := List.forall_mem_append.mpr ⟨h.fields, hstruct⟩ }
  | module inner lowered =>
    obtain ⟨hinner, hlowered⟩ := hitem
    have hmodule : Pairs p p.Drafts
        (lowered (name ++ inner) >>= fun m =>
          pure { draft with body := draft.body ++ [Stmt.module m] })
        (lowered (name ++ inner) >>= fun m =>
          pure { draft' with body := draft'.body ++ [Stmt.module m] }) := by
      refine .bind (hlowered _ (List.forall_mem_append.mpr ⟨hname, hinner⟩)) fun m m' hm => .pure ?_
      have hstmt : p.Stmts [.module m] [.module m'] := fun hp => by simp [hm hp]
      exact { h with body := h.body.append hstmt }
    cases inner with
    | nil => exact hmodule
    | cons first rest =>
      have hfull : ∀ segment ∈ name ++ [first], p.Unmarked segment :=
        List.forall_mem_append.mpr ⟨hname, List.forall_mem_singleton.mpr (hinner first (by simp))⟩
      exact .bind (agrees_addAlias hfull) fun _ _ _ => hmodule
  | statements stmts =>
    have hstmts : stmts.Agrees p p.Stmts := hitem
    exact .bind hstmts fun _ _ hstmts => .pure { h with body := h.body.append hstmts }

theorem pairs_takeItems {name : List String} (hname : ∀ segment ∈ name, p.Unmarked segment)
    {draft draft' : ModuleDraft} (h : p.Drafts draft draft') {items : List ModuleItem}
    (hitems : ∀ item ∈ items, item.Agrees p) :
    Pairs p p.Drafts (takeItems name draft items) (takeItems name draft' items) := by
  induction items generalizing draft draft' with
  | nil => exact .pure h
  | cons item rest ih =>
    obtain ⟨hitem, hrest⟩ := List.forall_mem_cons.mp hitems
    exact .bind (pairs_takeItem hname h hitem) fun _ _ hmiddle => ih hmiddle hrest

theorem agrees_structDefaults {fields : List (String × LowerM Expr)} {isException : Bool}
    (h : ∀ f ∈ fields, f.2.Agrees p p.Exprs) :
    (structDefaults fields isException).Agrees p
      (p.Same (List.map (Property.rename p.newName))) := by
  refine .bind (.each (f := Property.rename p.newName) (List.forall_mem_map.mpr fun f hf => ?_))
    fun given given' hgiven => ?_
  · exact .bind (.inFunction (h f hf)) fun _ _ hvalue => .pure fun hp => by
      simp [rename_atomValue hp, hvalue hp]
  · split
    · refine .pure fun hp => ?_
      split <;> simp [hgiven hp, rename_atomSymbol hp]
    · exact .pure hgiven

theorem agrees_structFunctions {name : List String} {fields : List (String × LowerM Expr)}
    {isException hasOwnException : Bool} (h : ∀ f ∈ fields, f.2.Agrees p p.Exprs) :
    (structFunctions name fields isException hasOwnException).Agrees p
      (p.Same (List.map (ModuleFunction.rename p.newName))) := by
  have hvalues : p.Unmarked "$values" := unmarked_of_isPlain (by decide)
  have hattributes : p.Unmarked "$attrs" := unmarked_of_isPlain (by decide)
  have hstruct : p.Unmarked "__struct__" := unmarked_of_isPlain (by decide)
  refine .bind (agrees_structDefaults h) fun _ _ hdefaults => .library ?_
  split <;> refine .pure fun hp => ?_
  · simp [RuntimeLibrary.specialForm, RuntimeLibrary.call, rename_moduleValue hp, hdefaults hp,
      newName_eq hp hvalues, newName_eq hp hattributes, newName_eq hp hstruct]
  · simp [RuntimeLibrary.specialForm, RuntimeLibrary.call, rename_moduleValue hp, hdefaults hp,
      newName_eq hp hvalues]

theorem pairs_structsFunctions {name : List String} {draft draft' : ModuleDraft}
    (h : p.Drafts draft draft') :
    Pairs p (p.Same (List.map (ModuleFunction.rename p.newName))) (structsFunctions name draft)
      (structsFunctions name draft') := by
  unfold structsFunctions
  rw [h.structs_eq, h.groups_eq]
  dsimp only
  split
  · exact .pure fun _ => rfl
  next fields isException hstructs =>
    exact agrees_structFunctions (h.fields (fields, isException) (by simp [hstructs]))
  · exact .fail _

theorem agrees_groupFunction {g : FunctionGroup} (h : ∀ clause ∈ g.clauses, clause.2.Agrees p) :
    (groupFunction g).Agrees p (p.Same (ModuleFunction.rename p.newName)) :=
  .bind (.inFunction (agrees_clausesFunction (List.forall_mem_map.mpr h))) fun _ _ hfunction =>
    .pure fun hp => by simp [hfunction hp]

theorem agrees_moduleDef {name : List String} (hname : ∀ segment ∈ name, p.Unmarked segment)
    {body : List Node} {items : List ModuleItem} (h : ∀ item ∈ items, item.Agrees p) :
    (moduleDef name body items).Agrees p p.Modules := by
  have hempty : p.Drafts {} {} := ⟨fun _ => rfl, fun _ => rfl, rfl, rfl, by simp, by simp⟩
  refine .inModule (.bind (pairs_takeItems hname hempty h) fun draft draft' hdraft => ?_)
  refine .bind (pairs_structsFunctions hdraft) fun generated generated' hgenerated => ?_
  rw [hdraft.groups_eq]
  have hgroups : ∀ x ∈ draft.groups.map groupFunction,
      x.Agrees p (p.Same (ModuleFunction.rename p.newName)) :=
    List.forall_mem_map.mpr fun g hg => agrees_groupFunction (hdraft.clauses g hg)
  refine .bind (.each hgroups) fun _ _ hfunctions => .pure fun hp => ?_
  have himports : draft'.imports = draft.imports := hdraft.imports hp
  simp [himports, hdraft.body hp, hgenerated hp, hfunctions hp]

end Modules

section Heads

variable {n : Node}

theorem clean_splitHead {head patterns alternatives : List Node} (h : ∀ n ∈ head, p.Clean n)
    (hsplit : splitHead head = .ok (patterns, alternatives)) : ∀ n ∈ patterns, p.Clean n := by
  unfold splitHead at hsplit
  split at hsplit
  next patterns guard =>
    have hguarded : p.Clean (.guarded patterns guard) := h _ List.mem_cons_self
    obtain ⟨_, -, hsplit⟩ := exists_ok_of_bind hsplit
    cases hsplit
    exact all_nodes.mp (all_map₂.mp hguarded.parts).1
  · split at hsplit
    · cases hsplit
    · cases hsplit
      exact h

theorem clean_definitionHead (h : p.Clean n) {read : String × List Node × List Node}
    (hread : definitionHead n = .ok read) : ∀ m ∈ read.2.1, p.Clean m := by
  have hguarded : ∀ first guard, n = .guarded [first] guard → p.Clean first := by
    rintro first guard rfl
    exact all_nodes.mp (all_map₂.mp h.parts).1 first (by simp)
  unfold definitionHead at hread
  split at hread
  · cases hread
    exact all_nodes.mp h.parts
  · cases hread
    simp
  next name args info guard =>
    obtain ⟨_, -, hread⟩ := exists_ok_of_bind hread
    cases hread
    exact all_nodes.mp (hguarded _ _ rfl).parts
  · obtain ⟨_, -, hread⟩ := exists_ok_of_bind hread
    cases hread
    simp
  · cases hread
  · cases hread

end Heads

section Nodes

/-- The node in every position, the alternatives of the guard that it may be, the guards of the head
that it may be, and the item of a module body. -/
structure LowersAlike (p : Comparison) (n : Node) : Prop where
  clean : p.Clean n
  positions : (positions n).Agrees p
  guards : ∀ x ∈ guardTests (Lowering.positions n) n, x.Agrees p p.Exprs
  head : ∀ x ∈ definitionTests n, x.Agrees p p.Exprs
  item : (item (Lowering.positions n) n).Agrees p

theorem agrees_all {ns : List Node} (h : (each node ns).All (LowersAlike p)) :
    ∀ q ∈ all ns, q.Agrees p := by
  rw [all_eq_map]
  exact List.forall_mem_map.mpr fun m hm => (all_nodes.mp h m hm).positions

theorem agrees_optionAll {o : Option (List Node)} (h : (option (each node) o).All (LowersAlike p)) :
    ∀ q ∈ optionAll o, q.Agrees p := by
  rw [optionAll_eq]
  cases o with
  | none => exact agrees_all (by simp [Assembly.All])
  | some ns => exact agrees_all h

theorem agrees_values {ns : List Node} (h : (each node ns).All (LowersAlike p)) :
    ∀ x ∈ values ns, x.Agrees p p.Exprs := by
  rw [values_eq_map]
  exact List.forall_mem_map.mpr fun m hm => (all_nodes.mp h m hm).positions.value

theorem agrees_value {n : Node} (h : (node n).All (LowersAlike p)) :
    (positions n).value.Agrees p p.Exprs :=
  (all_node.mp h).positions.value

theorem agrees_optionValue {o : Option Node} (h : (option node o).All (LowersAlike p)) :
    ∀ x ∈ optionValue o, x.Agrees p p.Exprs := by
  rw [optionValue_eq]
  intro x hx
  obtain ⟨m, hm, rfl⟩ := Option.map_eq_some_iff.mp hx
  exact agrees_value (all_option.mp h m hm)

theorem agrees_optionValues {o : Option (List Node)}
    (h : (option (each node) o).All (LowersAlike p)) :
    ∀ xs ∈ optionValues o, ∀ x ∈ xs, x.Agrees p p.Exprs := by
  rw [optionValues_eq]
  intro xs hxs
  obtain ⟨ns, hns, rfl⟩ := Option.map_eq_some_iff.mp hxs
  exact agrees_values (all_option.mp h ns hns)

theorem agrees_segmentValues {segments : List (Segment Node)}
    (h : (each segment segments).All (LowersAlike p)) :
    ∀ g ∈ segmentValues segments, g.2.Agrees p p.Exprs := by
  rw [segmentValues_eq]
  refine List.forall_mem_map.mpr fun g hg => ?_
  have hpart := all_each.mp h g hg
  cases g <;> exact agrees_value hpart

theorem agrees_properties {entries : List (Node × Node)}
    (h : (each Assembly.entry entries).All (LowersAlike p)) :
    ∀ x ∈ properties entries, x.Agrees p p.Properties := by
  rw [properties_eq]
  refine List.forall_mem_map.mpr fun e he => ?_
  obtain ⟨hkey, hvalue⟩ := all_map₂.mp (all_each.mp h e he)
  exact agrees_entry (agrees_value hkey) (agrees_value hvalue)

theorem agrees_headTests {head : List Node} (h : (each node head).All (LowersAlike p)) :
    ∀ x ∈ headTests head, x.Agrees p p.Exprs := by
  unfold headTests
  split
  next patterns guard =>
    have hguarded := (all_nodes.mp h _ List.mem_cons_self).head
    simpa only [definitionTests] using hguarded
  · simp

theorem agrees_clauseParts {clauses : List (Clause Node)}
    (h : (each clause clauses).All (LowersAlike p)) :
    ∀ read ∈ clauseParts clauses, ∀ parts, read = .ok parts → parts.Agrees p := by
  induction clauses with
  | nil => simp [clauseParts]
  | cons first rest ih =>
    obtain ⟨hfirst, hrest⟩ := all_map₂.mp h
    obtain ⟨hhead, hbody⟩ := all_map₂.mp hfirst
    rw [clauseParts]
    refine List.forall_mem_cons.mpr ⟨fun parts hparts => ?_, ih hrest⟩
    obtain ⟨⟨patterns, alternatives⟩, hsplit, hparts⟩ := exists_ok_of_bind hparts
    cases hparts
    have hclean : ∀ n ∈ first.head, p.Clean n := fun n hn => (all_nodes.mp hhead n hn).clean
    exact
      { patterns := clean_splitHead hclean hsplit
        guards := agrees_headTests hhead
        body := Positions.Agrees.body (agrees_all hbody) }

theorem agrees_conditionParts {clauses : List (Clause Node)}
    (h : (each clause clauses).All (LowersAlike p)) :
    ∀ parts ∈ conditionParts clauses, parts.Agrees p := by
  rw [conditionParts_eq]
  refine List.forall_mem_map.mpr fun branch hbranch => ?_
  obtain ⟨hhead, hbody⟩ := all_map₂.mp (all_each.mp h branch hbranch)
  refine ⟨?_, Positions.Agrees.body (agrees_all hbody)⟩
  rw [conditions_eq]
  exact List.forall_mem_map.mpr fun m hm =>
    agrees_condition (all_nodes.mp hhead m hm).positions.value

theorem agrees_qualifierParts {qualifiers : List (Qualifier Node)}
    (h : (each qualifier qualifiers).All (LowersAlike p)) :
    ∀ q ∈ qualifierParts qualifiers, q.Agrees p := by
  rw [qualifierParts_eq]
  refine List.forall_mem_map.mpr fun q hq => ?_
  have hparts := all_each.mp h q hq
  cases q with
  | generator pattern collection =>
    obtain ⟨hpattern, hcollection⟩ := all_map₂.mp hparts
    exact ⟨(all_node.mp hpattern).clean, agrees_value hcollection⟩
  | filter test => exact agrees_condition (agrees_value hparts)

theorem agrees_fieldValues {fields : List (String × Node)}
    (h : (each field fields).All (LowersAlike p)) :
    ∀ f ∈ fieldValues fields, f.2.Agrees p p.Exprs := by
  rw [fieldValues_eq]
  exact List.forall_mem_map.mpr fun f hf => agrees_value (all_each.mp h f hf)

/-- One case per form: the rule of the form, on parts that are lowered alike. -/
theorem agrees_positions {n : Node} (hn : p.Clean n) (h : n.assembly.All (LowersAlike p)) :
    (positions n).Agrees p := by
  cases n with
  | integer | float | string | boolean | nil =>
    rw [positions]
    exact .ofValue (.pure fun _ => by simp)
  | atom name =>
    rw [positions]
    exact .ofValue (.pure fun hp => (Comparison.rename_atomValue hp name).symm)
  | var name =>
    have hname : p.Unmarked name := hn.own name (by simp [Node.ownTexts])
    rw [positions]
    exact .ofValue (.bind (agrees_resolve hname) fun _ _ htarget => .pure htarget.exprs)
  | moduleName segments =>
    rw [positions]
    refine .ofValue (.bind (agrees_resolveModule hn.own) fun _ _ hmodule => .pure fun hp => ?_)
    rw [hmodule.1, Comparison.rename_moduleValue hp]
  | list items =>
    rw [positions]
    exact .ofValue (.bind (.each (agrees_values h)) fun _ _ hitems => .pure fun hp => by
      simp [hitems hp])
  | cons head tail =>
    obtain ⟨hhead, htail⟩ := all_map₂.mp h
    rw [positions]
    exact .ofValue (agrees_consList (agrees_values hhead) (agrees_value htail))
  | tuple items =>
    rw [positions]
    exact .ofValue (agrees_tuple (agrees_values h))
  | binary segments =>
    rw [positions]
    exact .ofValue (agrees_binary (agrees_segmentValues h))
  | map entries =>
    rw [positions]
    exact .ofValue (agrees_object (agrees_properties h))
  | mapUpdate base updates =>
    obtain ⟨hbase, hupdates⟩ := all_map₂.mp h
    rw [positions]
    exact .ofValue (agrees_mapUpdate (agrees_value hbase) (agrees_properties hupdates))
  | struct tag fields update =>
    obtain ⟨htag, hfields, hupdate⟩ := all_map₃.mp h
    rw [positions]
    exact .ofValue (agrees_struct (all_node.mp htag).clean (agrees_properties hfields)
      (agrees_optionValue hupdate))
  | bind pattern value =>
    obtain ⟨hpattern, hvalue⟩ := all_map₂.mp h
    rw [positions]
    exact .binding (all_node.mp hpattern).clean (agrees_value hvalue)
  | binaryOp op left right =>
    obtain ⟨hleft, hright⟩ := all_map₂.mp h
    rw [positions]
    exact .ofValue (agrees_binaryOperation op (agrees_value hleft) (agrees_value hright))
  | unaryOp op operand =>
    rw [positions]
    exact .ofValue (agrees_unaryOperation (agrees_value h))
  | range first last step =>
    obtain ⟨hfirst, hlast, hstep⟩ := all_map₃.mp h
    rw [positions]
    exact .ofValue (agrees_range (agrees_value hfirst) (agrees_value hlast)
      (agrees_optionValue hstep))
  | call name args info =>
    obtain ⟨hname, hinfo⟩ := List.forall_mem_cons.mp hn.own
    rw [positions]
    exact .ofValue (agrees_namedCall hname hinfo (agrees_values h))
  | dot target name args info =>
    obtain ⟨htarget, hargs⟩ := all_map₂.mp h
    have hname : p.Unmarked name := hn.own name (by simp [Node.ownTexts])
    rw [positions]
    exact .ofValue (agrees_dotted (all_node.mp htarget).clean hname (agrees_value htarget)
      (agrees_optionValues hargs))
  | apply callee args =>
    obtain ⟨hcallee, hargs⟩ := all_map₂.mp h
    rw [positions]
    exact .ofValue (agrees_call (agrees_value hcallee) (agrees_values hargs))
  | capture owner name arity =>
    have hname : p.Unmarked name := hn.own name (by simp [Node.ownTexts])
    have howner : ∀ m ∈ owner, p.Clean m := fun m hm => (all_node.mp (all_option.mp h m hm)).clean
    rw [positions]
    exact .ofValue (agrees_captured howner hname)
  | fn clauses =>
    rw [positions]
    exact .ofValue (agrees_anonymousFunction (agrees_clauseParts h))
  | caseOf subject clauses =>
    obtain ⟨hsubject, hclauses⟩ := all_map₂.mp h
    rw [positions]
    exact .closed (agrees_caseOf (agrees_value hsubject) (agrees_clauseParts hclauses))
  | cond clauses =>
    rw [positions]
    exact .closed (agrees_cond (agrees_conditionParts h))
  | ifElse condition body otherwise | unlessElse condition body otherwise =>
    obtain ⟨hcondition, hbody, hotherwise⟩ := all_map₃.mp h
    rw [positions]
    exact .conditional (agrees_condition (agrees_value hcondition)) (agrees_all hbody)
      (agrees_optionAll hotherwise)
  | comprehension qualifiers body into =>
    obtain ⟨hqualifiers, hbody, hinto⟩ := all_map₃.mp h
    rw [positions]
    exact .ofValue (agrees_comprehension (agrees_qualifierParts hqualifiers)
      (Positions.Agrees.bodyValue (agrees_all hbody)) (agrees_optionValue hinto))
  | block items =>
    rw [positions]
    exact .sequenced (agrees_all h)
  | raise exception attributes =>
    obtain ⟨hexception, hattributes⟩ := all_map₂.mp h
    rw [positions]
    exact .raising (agrees_raised (all_node.mp hexception).clean (agrees_value hexception)
      (agrees_optionValue hattributes))
  | attributeRead name =>
    have hname : p.Unmarked name := hn.own name (by simp [Node.ownTexts])
    rw [positions]
    exact .ofValue (agrees_attributeValue hname)
  | _ =>
    simp only [positions]
    exact .misplaced _

theorem agrees_guardTests {n : Node} (hn : (positions n).Agrees p)
    (h : n.assembly.All (LowersAlike p)) :
    ∀ x ∈ guardTests (positions n) n, x.Agrees p p.Exprs := by
  unfold guardTests
  split
  next first others rest =>
    obtain ⟨hexprs, hrest⟩ := all_map₂.mp h
    have hfirst := all_nodes.mp hexprs first List.mem_cons_self
    exact List.forall_mem_cons.mpr
      ⟨agrees_condition hfirst.positions.value, (all_node.mp hrest).guards⟩
  · simpa using agrees_condition hn.value

theorem agrees_definitionTests {n : Node} (h : n.assembly.All (LowersAlike p)) :
    ∀ x ∈ definitionTests n, x.Agrees p p.Exprs := by
  unfold definitionTests
  split
  next exprs guard => exact (all_node.mp (all_map₂.mp h).2).guards
  · simp

theorem agrees_item {n : Node} (hclean : p.Clean n) (hn : (positions n).Agrees p)
    (h : n.assembly.All (LowersAlike p)) : (item (positions n) n).Agrees p := by
  cases n with
  | define visibility head body =>
    obtain ⟨hhead, hbody⟩ := all_map₂.mp h
    rw [item]
    exact ⟨fun _ => clean_definitionHead (all_node.mp hhead).clean, (all_node.mp hhead).head,
      Positions.Agrees.body (agrees_all hbody)⟩
  | attributeSet name value =>
    rw [item]
    exact agrees_value h
  | defStruct fields | defException fields =>
    rw [item]
    exact agrees_fieldValues h
  | module name body =>
    rw [item]
    refine ⟨hclean.own, fun full hfull => agrees_moduleDef hfull ?_⟩
    rw [items_eq]
    exact List.forall_mem_map.mpr fun m hm => (all_nodes.mp h m hm).item
  | importAll | importOnly | aliasAs | require =>
    rw [item]
    exact agrees_importDeclaration _
  | _ =>
    simp only [item]
    exact hn.effect

/-- Every tree is lowered alike under both configurations. -/
theorem lowersAlike {n : Node} (h : p.Clean n) : LowersAlike p n := by
  induction n using Node.inductParts with
  | step n ih =>
    have hparts : n.assembly.All (LowersAlike p) := fun m hm => ih m hm (h.part hm)
    have hpositions : (positions n).Agrees p := agrees_positions h hparts
    exact
      { clean := h
        positions := hpositions
        guards := agrees_guardTests hpositions hparts
        head := agrees_definitionTests hparts
        item := agrees_item h hpositions hparts }

end Nodes

section Programs

theorem agrees_topLevel {n : Node} (h : LowersAlike p n) : (topLevel n).Agrees p p.Stmts := by
  have hitem := h.item
  unfold topLevel
  split
  next name lowered heq =>
    rw [heq] at hitem
    exact .bind (hitem.2 name hitem.1) fun _ _ hmodule => .pure fun hp => by simp [hmodule hp]
  next declaration heq =>
    rw [heq] at hitem
    have hdeclaration : declaration.Agrees p (p.Same id) := hitem
    refine .bind hdeclaration fun found found' hfound => .pure fun hp => ?_
    have hsame : found' = found := hfound hp
    rw [hsame]
    cases found <;> simp
  · exact h.positions.effect

theorem Comparison.Clean.removePipes {n m : Node} (h : p.Clean n) (hm : n.removePipes = .ok m) :
    p.Clean m :=
  fun text htext => h text (Node.mem_texts_of_removePipes hm htext)

theorem agrees_lowerExprM {n : Node} (h : p.Clean n) : (lowerExprM n).Agrees p p.Exprs := by
  refine .bind (.ofExcept (.self fun m hm => h.removePipes hm)) ?_
  rintro m _ ⟨rfl, hm⟩
  exact (lowersAlike hm).positions.value

theorem agrees_lowerProgramM {ns : List Node} (h : ∀ n ∈ ns, p.Clean n) :
    (lowerProgramM ns).Agrees p (p.Same (Program.rename p.newName)) := by
  have hplain : ∀ ms, Node.removePipesList ns = .ok ms → ∀ m ∈ ms, p.Clean m := by
    intro ms hms m hm
    obtain ⟨n, hn, hnm⟩ := exists_of_mem_removePipesList hms hm
    exact (h n hn).removePipes hnm
  refine .bind (.ofExcept (.self hplain)) ?_
  rintro _ ms ⟨rfl, hms⟩
  have hforms : ∀ x ∈ ms.map topLevel, x.Agrees p p.Stmts :=
    List.forall_mem_map.mpr fun m hm => agrees_topLevel (lowersAlike (hms m hm))
  refine .bind (.concat hforms) fun _ _ hbody => .pure fun hp => ?_
  rw [hbody hp]
  rfl

/-- Results that are both values, or are both the same error. -/
def SameOutcome {α : Type} (x y : Except LowerError α) : Prop :=
  ((∃ a, x = .ok a) ↔ ∃ b, y = .ok b) ∧ ∀ e, x = .error e ↔ y = .error e

theorem Alike.sameOutcome {α : Type} {R : α → α → Prop} {x y : Except LowerError α}
    (h : Alike R x y) : SameOutcome x y := by
  cases h with
  | ok => exact ⟨⟨fun _ => ⟨_, rfl⟩, fun _ => ⟨_, rfl⟩⟩, by simp⟩
  | error e => exact ⟨by simp, fun _ => Iff.rfl⟩

theorem Alike.eq_map {α : Type} {f : α → α} {x y : Except LowerError α} (hp : p.ofTrees)
    (h : Alike (p.Same f) x y) : y = x.map f := by
  cases h with
  | ok related => exact congrArg Except.ok (related hp)
  | error e => rfl

/-- Requests start in the empty state, where nothing has been invented and no module is open. -/
theorem Comparison.states_empty : p.States {} {} :=
  .mk (fun _ => ⟨rfl, rfl, rfl⟩) (by simp [State.aliases, NameTable.get?])

/-- Two configurations of which nothing is known. -/
def Comparison.ofOutcomes (c c' : Config) : Comparison where
  first := c
  second := c'
  mark := 'a'
  ofTrees := False
  marked := False.elim
  foreign := False.elim
  others_eq := False.elim

/-- Whether a node lowers, and with which error it fails, is decided by the module around it. -/
theorem value_sameOutcome (n : Node) (c c' : Config) {s t : State} (h : t.context = s.context) :
    SameOutcome ((positions n).value c s).1 ((positions n).value c' t).1 := by
  let p := Comparison.ofOutcomes c c'
  have hclean : p.Clean n := fun _ _ => False.elim
  have hstates : p.States s t := by
    obtain ⟨scope, versions, invented, context⟩ := t
    obtain rfl : context = s.context := h
    exact .mk False.elim fun _ _ _ _ _ => False.elim
  exact ((lowersAlike hclean).positions.value hstates).1.sameOutcome

end Programs

/-- Whether a lowering succeeds, and with which error it fails, does not depend on the
configuration. If two configurations differ in the name of the runtime alone, and the first name has
a character that is not plain and stands in no text of the source, the second result is the first
one with every identifier of the runtime renamed. -/
theorem configuration_only_decides_names :
    (∀ (c c' : Config) (nodes : List Node),
      SameOutcome (lowerProgram c nodes) (lowerProgram c' nodes)) ∧
    (∀ (c c' : Config) (n : Node), SameOutcome (lowerExpr c n) (lowerExpr c' n)) ∧
    ∀ (c c' : Config) (mark : Char), c' = { c with runtime := c'.runtime } →
      mark ∈ c.runtimeName.toList → 128 ≤ mark.toNat →
      (∀ nodes : List Node, (∀ n ∈ nodes, ∀ text ∈ n.texts, mark ∉ text.toList) →
        lowerProgram c' nodes =
          (lowerProgram c nodes).map (Program.rename (replacing c.runtimeName c'.runtimeName))) ∧
      ∀ n : Node, (∀ text ∈ n.texts, mark ∉ text.toList) →
        lowerExpr c' n =
          (lowerExpr c n).map (Expr.rename (replacing c.runtimeName c'.runtimeName)) := by
  refine ⟨fun c c' nodes => ?_, fun c c' n => ?_, fun c c' mark hothers hmark hforeign => ?_⟩
  · let p := Comparison.ofOutcomes c c'
    have hclean : ∀ n ∈ nodes, p.Clean n := fun _ _ _ _ => False.elim
    exact (agrees_lowerProgramM hclean p.states_empty).1.sameOutcome
  · let p := Comparison.ofOutcomes c c'
    have hclean : p.Clean n := fun _ _ => False.elim
    exact (agrees_lowerExprM hclean p.states_empty).1.sameOutcome
  · let p : Comparison := ⟨c, c', mark, True, fun _ => hmark, fun _ => hforeign, fun _ => hothers⟩
    constructor
    · intro nodes htexts
      have hclean : ∀ n ∈ nodes, p.Clean n := fun n hn text htext _ => htexts n hn text htext
      exact (agrees_lowerProgramM hclean p.states_empty).1.eq_map trivial
    · intro n htexts
      have hclean : p.Clean n := fun text htext _ => htexts text htext
      exact (agrees_lowerExprM hclean p.states_empty).1.eq_map trivial

/-- A function that pipes its argument into a served module, and a match; the argument has the new
name of the runtime. -/
def servedForms : List Node :=
  [.module ["Shop", "Cart"]
    [.define .exported (.call "total?" [.var "Rt"] {})
      [.pipe (.var "Rt") (.dot (.moduleName ["Enum"]) "count" none {})]],
   .bind (.tuple [.atom "ok", .var "Rt"]) (.var "found!")]

theorem servedForms_texts : ∀ n ∈ servedForms, ∀ text ∈ n.texts, 'ä' ∉ text.toList := by
  simp only [servedForms, List.forall_mem_cons, Node.texts_eq, Node.ownTexts, CallMeta.texts,
    Node.parts, Node.assembly, Assembly.parts_map, Assembly.parts_map₂, Assembly.parts_each,
    Assembly.parts_option, Assembly.parts_node, Assembly.parts_fixed, List.flatMap_cons,
    List.flatMap_nil, List.cons_append, List.nil_append, List.append_nil, Option.toList_none,
    List.not_mem_nil, false_implies, implies_true, and_true]
  decide

theorem configuration_only_decides_names_servedForms :
    let c : Config := { runtime := some "Läufer" }
    let c' : Config := { runtime := some "Rt" }
    ('ä' ∈ c.runtimeName.toList ∧ 128 ≤ 'ä'.toNat ∧
      ∀ n ∈ servedForms, ∀ text ∈ n.texts, 'ä' ∉ text.toList) ∧
    (∃ program, lowerProgram c servedForms = .ok program ∧
      lowerProgram c' servedForms = .ok (program.rename (replacing "Läufer" "Rt"))) ∧
    SameOutcome (lowerExpr c (.pin (.var "x"))) (lowerExpr c' (.pin (.var "x"))) := by
  obtain ⟨-, houtcome, hrenamed⟩ := configuration_only_decides_names
  have hmark : 'ä' ∈ "Läufer".toList := by decide
  obtain ⟨hprogram, -⟩ := hrenamed { runtime := some "Läufer" } { runtime := some "Rt" } 'ä' rfl
    hmark (by decide)
  obtain ⟨program, hok⟩ : ∃ program,
      lowerProgram { runtime := some "Läufer" } servedForms = .ok program := ⟨_, rfl⟩
  refine ⟨⟨hmark, by decide, servedForms_texts⟩, ⟨program, hok, ?_⟩, houtcome _ _ _⟩
  rw [hprogram servedForms servedForms_texts, hok]
  rfl

end TreeLowering
