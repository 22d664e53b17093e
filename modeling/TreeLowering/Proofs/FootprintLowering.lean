import TreeLowering.Proofs.Assembly
import TreeLowering.Proofs.Footprint
import TreeLowering.Proofs.LoweredParts

/-!
What lowering leaves behind. A node as a value leaves the scope and the module as they were and
takes no number back, and a module leaves everything as it was; both hold whether the lowering
succeeds or fails. It fails over a pipe only in a tree that has one.

The induction is on the nodes that stand directly in a node, guards and heads along with it.
-/
namespace TreeLowering

open Source Target LowerM Lowering
open Assembly (node each option segment clause qualifier field all_node all_nodes all_each all_option
  all_map₂ all_map₃)

variable {P : Prop}

section Heads

theorem noPipeLeft_guardAlternatives (guard : Node) : NoPipeLeft (guardAlternatives guard) := by
  fun_induction guardAlternatives guard with
  | case1 first rest ih => exact .bind ih fun _ => .ok _
  | case2 => exact .error (by simp)
  | case3 => exact .ok _

theorem noPipeLeft_splitHead (head : List Node) : NoPipeLeft (splitHead head) := by
  unfold splitHead
  split
  · exact .bind (noPipeLeft_guardAlternatives _) fun _ => .ok _
  · split
    · exact .error (by simp)
    · exact .ok _

theorem noPipeLeft_definitionHead (head : Node) : NoPipeLeft (definitionHead head) := by
  unfold definitionHead
  split
  · exact .ok _
  · exact .ok _
  · exact .bind (noPipeLeft_guardAlternatives _) fun _ => .ok _
  · exact .bind (noPipeLeft_guardAlternatives _) fun _ => .ok _
  · exact .error (by simp)
  · exact .error (by simp)

end Heads

section Modules

/-- The steps of the item as they stand in a module body. -/
def ModuleItem.Within (P : Prop) : ModuleItem → Prop
  | .definition _ head guards body =>
    NoPipeLeft head ∧ (∀ x ∈ guards, x.Within .numbers P) ∧ body.Within .bindings P
  | .attributeSet _ value => value.Within .numbers P
  | .importing declaration => declaration.Within .numbers P
  | .struct fields _ => ∀ f ∈ fields, f.2.Within .numbers P
  | .module _ lowered => ∀ full, (lowered full).Within .numbers P
  | .statements stmts => stmts.Within .bindings P

/-- The steps that a draft has put off. -/
structure ModuleDraft.Within (draft : ModuleDraft) (P : Prop) : Prop where
  clauses : ∀ g ∈ draft.groups, ∀ clause ∈ g.clauses, clause.2.Within P
  fields : ∀ d ∈ draft.structs, ∀ f ∈ d.1, f.2.Within .numbers P

theorem noPipeLeft_addClause (name : String) (visibility : Visibility) (clause : ClauseParts)
    (groups : List FunctionGroup) : NoPipeLeft (addClause name visibility clause groups) := by
  induction groups with
  | nil => exact .ok _
  | cons g rest ih =>
    unfold addClause
    split
    · dsimp only
      split
      · exact .error (by simp)
      · exact .ok _
    · exact .bind ih fun _ => .ok _

theorem within_importDeclaration {r : Reach} (node : Node) :
    (importDeclaration node).Within r P := by
  have hbinding : NoPipeLeft (importBinding node) := by
    unfold importBinding
    split
    · exact .ok _
    · exact .ok _
    · split
      · exact .ok _
      · exact .error (by simp)
    · exact .ok _
    · exact .error (by simp)
  refine .bind (.ofExcept hbinding) fun (module, binding) => ?_
  dsimp only
  split
  · exact .fail nofun
  · refine .bind .config fun c => ?_
    split
    · exact .pure _
    · exact .bind .config fun _ => .pure _

theorem within_takeItem {name : List String} {draft : ModuleDraft} {item : ModuleItem}
    (h : item.Within P) : (takeItem name draft item).Within .everything P := by
  cases item with
  | definition visibility head guards body =>
    refine .bind (.ofExcept h.1) fun (function, patterns, _) => .bind within_attributes fun _ => ?_
    exact .bind (.ofExcept (noPipeLeft_addClause _ _ _ _)) fun _ => .pure _
  | attributeSet key value =>
    have hvalue : value.Within .numbers P := h
    simp only [takeItem]
    split
    · exact .pure _
    · exact .bind hvalue.widen fun _ => .bind (within_defineAttribute key) fun _ => .pure _
  | importing declaration =>
    have hdeclaration : declaration.Within .numbers P := h
    exact .bind hdeclaration.widen fun _ => .pure _
  | struct fields isException => exact .pure _
  | module inner lowered =>
    have hmodule : (lowered (name ++ inner) >>= fun m =>
        pure { draft with body := draft.body ++ [Stmt.module m] }).Within .everything P :=
      .bind (h _).widen fun _ => .pure _
    cases inner with
    | nil => exact hmodule
    | cons first rest => exact .bind (within_addAlias _ _) fun _ => hmodule
  | statements stmts =>
    have hstmts : stmts.Within .bindings P := h
    exact .bind hstmts.toEverything fun _ => .pure _

/-- What a draft has put off stays within reach with one more item. -/
theorem draft_takeItem (name : List String) {draft : ModuleDraft} {item : ModuleItem}
    (h : item.Within P) (hdraft : draft.Within P) :
    (takeItem name draft item).Ensures fun draft' => draft'.Within P := by
  cases item with
  | definition visibility head guards body =>
    refine .after fun (function, patterns, _) => .after fun attributes => ?_
    have hclause : ClauseParts.Within ⟨patterns, guards, body, some attributes⟩ P := ⟨h.2.1, h.2.2⟩
    refine .bind (P := fun groups => ∀ g ∈ groups, ∀ clause ∈ g.clauses, clause.2.Within P) ?_
      fun _ hgroups => .pure ⟨hgroups, hdraft.fields⟩
    exact .ofExcept fun _ hadded =>
      forall_addClause (Q := fun clause => clause.Within P) hclause hdraft.clauses hadded
  | attributeSet key value =>
    simp only [takeItem]
    split
    · exact .pure hdraft
    · exact .after fun _ => .after fun _ => .pure ⟨hdraft.clauses, hdraft.fields⟩
  | importing declaration => exact .after fun _ => .pure ⟨hdraft.clauses, hdraft.fields⟩
  | struct fields isException =>
    have hstruct : ∀ d ∈ [(fields, isException)], ∀ f ∈ d.1, f.2.Within .numbers P :=
      List.forall_mem_singleton.mpr h
    exact .pure ⟨hdraft.clauses, List.forall_mem_append.mpr ⟨hdraft.fields, hstruct⟩⟩
  | module inner lowered =>
    cases inner with
    | nil => exact .after fun _ => .pure ⟨hdraft.clauses, hdraft.fields⟩
    | cons first rest => exact .after fun _ => .after fun _ => .pure ⟨hdraft.clauses, hdraft.fields⟩
  | statements stmts => exact .after fun _ => .pure ⟨hdraft.clauses, hdraft.fields⟩

theorem within_takeItems (name : List String) {draft : ModuleDraft} {items : List ModuleItem}
    (h : ∀ item ∈ items, item.Within P) (hdraft : draft.Within P) :
    (takeItems name draft items).Within .everything P ∧
      (takeItems name draft items).Ensures fun draft' => draft'.Within P := by
  induction items generalizing draft with
  | nil => exact ⟨.pure _, .pure hdraft⟩
  | cons item rest ih =>
    obtain ⟨hitem, hrest⟩ := List.forall_mem_cons.mp h
    have hresult := draft_takeItem name hitem hdraft
    constructor
    · exact .bindEnsured (within_takeItem hitem) hresult fun _ hmiddle => (ih hrest hmiddle).1
    · exact .bind hresult fun _ hmiddle => (ih hrest hmiddle).2

theorem within_structsFunctions {r : Reach} {name : List String} {draft : ModuleDraft}
    (h : draft.Within P) : (structsFunctions name draft).Within r P := by
  unfold structsFunctions
  dsimp only
  split
  · exact .pure _
  next fields isException hstructs =>
    have hfields := h.fields (fields, isException) (by simp [hstructs])
    have hdefaults : (structDefaults fields isException).Within r P := by
      refine .bind (.sequence (List.forall_mem_map.mpr fun f hf => ?_)) fun given => ?_
      · exact .bind (.inFunction (hfields f hf).widen) fun _ => .pure _
      · split <;> exact .pure _
    refine .bind hdefaults fun defaults => .bind .library fun lib => ?_
    split <;> exact .pure _
  · exact .fail nofun

theorem within_groupFunction {r : Reach} {g : FunctionGroup}
    (h : ∀ clause ∈ g.clauses, clause.2.Within P) : (groupFunction g).Within r P :=
  .bind (.inFunction (within_clausesFunction (List.forall_mem_map.mpr h))) fun _ => .pure _

theorem within_moduleDef {r : Reach} {name : List String} {body : List Node} {items : List ModuleItem}
    (h : ∀ item ∈ items, item.Within P) : (moduleDef name body items).Within r P := by
  have hempty : ModuleDraft.Within {} P := ⟨nofun, nofun⟩
  obtain ⟨htaken, hdraft⟩ := within_takeItems name h hempty
  refine .inModule (.bindEnsured htaken hdraft fun draft hdraft => ?_)
  refine .bind (within_structsFunctions hdraft) fun generated => .bind ?_ fun functions => .pure _
  exact .sequence (List.forall_mem_map.mpr fun g hg => within_groupFunction (hdraft.clauses g hg))

end Modules

section Nodes

/-- The node in every position, the alternatives of the guard that it may be, the guards of the head
that it may be, and the item of a module body. -/
structure LowersWithin (P : Prop) (n : Node) : Prop where
  positions : (positions n).Within P
  guards : ∀ x ∈ guardTests (Lowering.positions n) n, x.Within .numbers P
  head : ∀ x ∈ definitionTests n, x.Within .numbers P
  item : (item (Lowering.positions n) n).Within P

theorem within_all {ns : List Node} (h : (each node ns).All (LowersWithin P)) :
    ∀ p ∈ all ns, p.Within P := by
  rw [all_eq_map]
  exact List.forall_mem_map.mpr fun m hm => (all_nodes.mp h m hm).positions

theorem within_optionAll {o : Option (List Node)}
    (h : (option (each node) o).All (LowersWithin P)) : ∀ p ∈ optionAll o, p.Within P := by
  rw [optionAll_eq]
  cases o with
  | none => exact within_all nofun
  | some ns => exact within_all h

theorem within_values {ns : List Node} (h : (each node ns).All (LowersWithin P)) :
    ∀ x ∈ values ns, x.Within .numbers P := by
  rw [values_eq_map]
  exact List.forall_mem_map.mpr fun m hm => (all_nodes.mp h m hm).positions.value

theorem within_value {n : Node} (h : (node n).All (LowersWithin P)) :
    (positions n).value.Within .numbers P :=
  (all_node.mp h).positions.value

theorem within_optionValue {o : Option Node} (h : (option node o).All (LowersWithin P)) :
    ∀ x ∈ optionValue o, x.Within .numbers P := by
  rw [optionValue_eq]
  intro x hx
  obtain ⟨m, hm, rfl⟩ := Option.map_eq_some_iff.mp hx
  exact within_value (all_option.mp h m hm)

theorem within_optionValues {o : Option (List Node)}
    (h : (option (each node) o).All (LowersWithin P)) :
    ∀ xs ∈ optionValues o, ∀ x ∈ xs, x.Within .numbers P := by
  rw [optionValues_eq]
  intro xs hxs
  obtain ⟨ns, hns, rfl⟩ := Option.map_eq_some_iff.mp hxs
  exact within_values (all_option.mp h ns hns)

theorem within_segmentValues {segments : List (Segment Node)}
    (h : (each segment segments).All (LowersWithin P)) :
    ∀ p ∈ segmentValues segments, p.2.Within .numbers P := by
  rw [segmentValues_eq]
  refine List.forall_mem_map.mpr fun g hg => ?_
  have hpart := all_each.mp h g hg
  cases g <;> exact within_value hpart

theorem within_properties {entries : List (Node × Node)}
    (h : (each Assembly.entry entries).All (LowersWithin P)) :
    ∀ x ∈ properties entries, x.Within .numbers P := by
  rw [properties_eq]
  refine List.forall_mem_map.mpr fun e he => ?_
  obtain ⟨hkey, hvalue⟩ := all_map₂.mp (all_each.mp h e he)
  exact within_entry (within_value hkey) (within_value hvalue)

theorem within_headTests {head : List Node} (h : (each node head).All (LowersWithin P)) :
    ∀ x ∈ headTests head, x.Within .numbers P := by
  unfold headTests
  split
  next patterns guard =>
    have hguarded := (all_nodes.mp h _ List.mem_cons_self).head
    simpa only [definitionTests] using hguarded
  · simp

theorem readWithin_clauseParts {clauses : List (Clause Node)}
    (h : (each clause clauses).All (LowersWithin P)) :
    ∀ read ∈ clauseParts clauses, ReadWithin read P := by
  induction clauses with
  | nil => simp [clauseParts]
  | cons first rest ih =>
    obtain ⟨hfirst, hrest⟩ := all_map₂.mp h
    obtain ⟨hhead, hbody⟩ := all_map₂.mp hfirst
    rw [clauseParts]
    refine List.forall_mem_cons.mpr ⟨⟨?_, fun parts hparts => ?_⟩, ih hrest⟩
    · exact .bind (noPipeLeft_splitHead _) fun _ => .ok _
    · obtain ⟨⟨patterns, guards⟩, -, hparts⟩ := exists_ok_of_bind hparts
      cases hparts
      exact ⟨within_headTests hhead, Positions.Within.body (within_all hbody)⟩

theorem within_conditionParts {clauses : List (Clause Node)}
    (h : (each clause clauses).All (LowersWithin P)) :
    ∀ parts ∈ conditionParts clauses, parts.Within P := by
  rw [conditionParts_eq]
  refine List.forall_mem_map.mpr fun branch hbranch => ?_
  obtain ⟨hhead, hbody⟩ := all_map₂.mp (all_each.mp h branch hbranch)
  refine ⟨?_, Positions.Within.body (within_all hbody)⟩
  rw [conditions_eq]
  exact List.forall_mem_map.mpr fun m hm =>
    within_condition (all_nodes.mp hhead m hm).positions.value

theorem within_qualifierParts {qualifiers : List (Qualifier Node)}
    (h : (each qualifier qualifiers).All (LowersWithin P)) :
    ∀ q ∈ qualifierParts qualifiers, q.Within P := by
  rw [qualifierParts_eq]
  refine List.forall_mem_map.mpr fun q hq => ?_
  have hparts := all_each.mp h q hq
  cases q with
  | generator pattern collection => exact within_value (all_map₂.mp hparts).2
  | filter test => exact within_condition (within_value hparts)

theorem within_fieldValues {fields : List (String × Node)}
    (h : (each field fields).All (LowersWithin P)) :
    ∀ f ∈ fieldValues fields, f.2.Within .numbers P := by
  rw [fieldValues_eq]
  exact List.forall_mem_map.mpr fun f hf => within_value (all_each.mp h f hf)

/-- One case per form: the rule of the form, on parts that are within reach. -/
theorem within_positions {n : Node} (hpipe : ∀ left right, n = .pipe left right → P)
    (h : n.assembly.All (LowersWithin P)) : (positions n).Within P := by
  cases n with
  | integer | float | string | boolean | nil | atom =>
    rw [positions]
    exact .ofValue (.pure _)
  | var name =>
    rw [positions]
    exact .ofValue (.bind (within_resolve name) fun _ => .pure _)
  | moduleName segments =>
    rw [positions]
    exact .ofValue (.bind (within_resolveModule segments) fun _ => .pure _)
  | list items =>
    rw [positions]
    exact .ofValue (.bind (.sequence (within_values h)) fun _ => .pure _)
  | cons head tail =>
    obtain ⟨hhead, htail⟩ := all_map₂.mp h
    rw [positions]
    exact .ofValue (within_consList (within_values hhead) (within_value htail))
  | tuple items =>
    rw [positions]
    exact .ofValue (within_tuple (within_values h))
  | binary segments =>
    rw [positions]
    exact .ofValue (within_binary (within_segmentValues h))
  | map entries =>
    rw [positions]
    exact .ofValue (within_object (within_properties h))
  | mapUpdate base updates =>
    obtain ⟨hbase, hupdates⟩ := all_map₂.mp h
    rw [positions]
    exact .ofValue (within_mapUpdate (within_value hbase) (within_properties hupdates))
  | struct tag fields update =>
    obtain ⟨-, hfields, hupdate⟩ := all_map₃.mp h
    rw [positions]
    exact .ofValue (within_struct (within_properties hfields) (within_optionValue hupdate))
  | bind pattern value =>
    obtain ⟨-, hvalue⟩ := all_map₂.mp h
    rw [positions]
    exact .binding (within_value hvalue)
  | binaryOp op left right =>
    obtain ⟨hleft, hright⟩ := all_map₂.mp h
    rw [positions]
    exact .ofValue (within_binaryOperation op (within_value hleft) (within_value hright))
  | unaryOp op operand =>
    rw [positions]
    exact .ofValue (within_unaryOperation (within_value h))
  | range first last step =>
    obtain ⟨hfirst, hlast, hstep⟩ := all_map₃.mp h
    rw [positions]
    exact .ofValue (within_range (within_value hfirst) (within_value hlast)
      (within_optionValue hstep))
  | call name args info =>
    rw [positions]
    exact .ofValue (within_namedCall (within_values h))
  | dot target name args info =>
    obtain ⟨htarget, hargs⟩ := all_map₂.mp h
    rw [positions]
    exact .ofValue (within_dotted (within_value htarget) (within_optionValues hargs))
  | apply callee args =>
    obtain ⟨hcallee, hargs⟩ := all_map₂.mp h
    rw [positions]
    exact .ofValue (within_applied (within_value hcallee) (within_values hargs))
  | capture owner name arity =>
    rw [positions]
    exact .ofValue (within_captured owner name)
  | fn clauses =>
    rw [positions]
    exact .ofValue (within_anonymousFunction (readWithin_clauseParts h))
  | caseOf subject clauses =>
    obtain ⟨hsubject, hclauses⟩ := all_map₂.mp h
    rw [positions]
    exact .closed (within_caseOf (within_value hsubject).widen (readWithin_clauseParts hclauses))
  | cond clauses =>
    rw [positions]
    exact .closed (within_cond (within_conditionParts h))
  | ifElse condition body otherwise | unlessElse condition body otherwise =>
    obtain ⟨hcondition, hbody, hotherwise⟩ := all_map₃.mp h
    rw [positions]
    exact .conditional (within_condition (within_value hcondition)) (within_all hbody)
      (within_optionAll hotherwise)
  | comprehension qualifiers body into =>
    obtain ⟨hqualifiers, hbody, hinto⟩ := all_map₃.mp h
    rw [positions]
    exact .ofValue (within_comprehension (within_qualifierParts hqualifiers)
      (Positions.Within.bodyValue (within_all hbody)) (within_optionValue hinto))
  | block items =>
    rw [positions]
    exact .sequenced (within_all h)
  | raise exception attributes =>
    obtain ⟨hexception, hattributes⟩ := all_map₂.mp h
    rw [positions]
    exact .raising (within_raised (within_value hexception) (within_optionValue hattributes))
  | attributeRead name =>
    rw [positions]
    exact .ofValue (within_attributeValue name)
  | pipe left right =>
    rw [positions]
    exact .misplaced fun _ => hpipe left right rfl
  | _ =>
    simp only [positions]
    exact .misplaced nofun

theorem within_guardTests {n : Node} (hn : (positions n).Within P)
    (h : n.assembly.All (LowersWithin P)) :
    ∀ x ∈ guardTests (positions n) n, x.Within .numbers P := by
  unfold guardTests
  split
  next first others rest =>
    obtain ⟨hexprs, hrest⟩ := all_map₂.mp h
    have hfirst := all_nodes.mp hexprs first List.mem_cons_self
    exact List.forall_mem_cons.mpr
      ⟨within_condition hfirst.positions.value, (all_node.mp hrest).guards⟩
  · simpa using within_condition hn.value

theorem within_definitionTests {n : Node} (h : n.assembly.All (LowersWithin P)) :
    ∀ x ∈ definitionTests n, x.Within .numbers P := by
  unfold definitionTests
  split
  next exprs guard => exact (all_node.mp (all_map₂.mp h).2).guards
  · simp

theorem within_item {n : Node} (hn : (positions n).Within P)
    (h : n.assembly.All (LowersWithin P)) : (item (positions n) n).Within P := by
  cases n with
  | define visibility head body =>
    obtain ⟨hhead, hbody⟩ := all_map₂.mp h
    rw [item]
    exact ⟨noPipeLeft_definitionHead head, (all_node.mp hhead).head,
      Positions.Within.body (within_all hbody)⟩
  | attributeSet name value =>
    rw [item]
    exact within_value h
  | defStruct fields | defException fields =>
    rw [item]
    exact within_fieldValues h
  | module name body =>
    rw [item]
    refine fun full => within_moduleDef ?_
    rw [items_eq]
    exact List.forall_mem_map.mpr fun m hm => (all_nodes.mp h m hm).item
  | importAll | importOnly | aliasAs | require =>
    rw [item]
    exact within_importDeclaration _
  | _ =>
    simp only [item]
    exact hn.effect

/-- Every tree is lowered within reach, and fails over a pipe only if it has one. -/
theorem lowersWithin {n : Node} (h : ∀ left right, Node.Occurs (.pipe left right) n → P) :
    LowersWithin P n := by
  induction n using Node.inductParts with
  | step n ih =>
    have hparts : n.assembly.All (LowersWithin P) := fun m hm =>
      ih m hm fun left right hoccurs => h left right (.inside hm hoccurs)
    have hpositions : (positions n).Within P :=
      within_positions (fun left right hn => h left right (hn ▸ .self)) hparts
    exact
      { positions := hpositions
        guards := within_guardTests hpositions hparts
        head := within_definitionTests hparts
        item := within_item hpositions hparts }

variable {c : Config} {s s' : State}

/-- A value is lowered in the scope and the module that it was found in. -/
theorem value_leaves {n : Node} {e : Expr} (h : (positions n).value c s = (.ok e, s')) :
    s.Advances s' ∧ s'.scope = s.scope := by
  have hleaves := (lowersWithin (P := True) (n := n) fun _ _ _ => trivial).positions.value.leaves c s
  rwa [h] at hleaves

theorem effect_leaves {n : Node} {stmts : List Stmt}
    (h : (positions n).effect c s = (.ok stmts, s')) : s.Advances s' := by
  have hleaves := (lowersWithin (P := True) (n := n) fun _ _ _ => trivial).positions.effect.leaves c s
  rwa [h] at hleaves

end Nodes

section Programs

theorem within_topLevel {n : Node} (h : LowersWithin P n) : (topLevel n).Within .bindings P := by
  have hitem := h.item
  unfold topLevel
  split
  next name lowered heq =>
    rw [heq] at hitem
    exact .bind (hitem name).widen fun _ => .pure _
  next declaration heq =>
    rw [heq] at hitem
    have hdeclaration : declaration.Within .numbers P := hitem
    exact .bind hdeclaration.widen fun _ => .pure _
  · exact h.positions.effect

end Programs

end TreeLowering
