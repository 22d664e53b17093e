import TreeLowering.Proofs.MirroringClauses
import TreeLowering.Proofs.Selection

/-!
Whole trees inside of two modules.

One case per form, each of them the rule of the form on parts that are mirrored. The guards of a
clause stand deeper in a node than its parts do, so the induction is about all that occurs in it.
-/
namespace TreeLowering

open Source Target LowerM Lowering Assembly

variable {m m' : ModuleContext} {r : Reading}

/-- In every position, the node with its references written out mirrors the node. -/
def Mirrored (r : Reading) (m m' : ModuleContext) (n : Node) : Prop :=
  Positions.Mirrors m m' (positions n) (positions (n.written r))

/-- All that occurs in the node is mirrored. -/
def MirroredThroughout (r : Reading) (m m' : ModuleContext) (n : Node) : Prop :=
  ∀ k, Node.Occurs k n → Mirrored r m m' k

section Guards

theorem occurs_of_mem_guardAlternatives {guard g : Node} {alternatives : List Node}
    (h : guardAlternatives guard = .ok alternatives) (hg : g ∈ alternatives) :
    Node.Occurs g guard := by
  fun_induction guardAlternatives guard generalizing alternatives with
  | case1 first rest ih =>
    obtain ⟨others, hothers, halternatives⟩ := exists_ok_of_bind h
    cases halternatives
    rcases List.mem_cons.mp hg with rfl | hg
    · exact .inside (by simp [Node.parts, Node.assembly]) .self
    · exact .inside (by simp [Node.parts, Node.assembly]) (ih hothers hg)
  | case2 => cases h
  | case3 guard =>
    cases h
    rw [List.mem_singleton.mp hg]
    exact .self

theorem occurs_of_splitHead {head patterns alternatives : List Node} {g : Node}
    (h : splitHead head = .ok (patterns, alternatives)) (hg : g ∈ alternatives) :
    ∃ n ∈ head, Node.Occurs g n := by
  unfold splitHead at h
  split at h
  next guard =>
    obtain ⟨others, hothers, hread⟩ := exists_ok_of_bind h
    cases hread
    exact ⟨_, List.mem_singleton_self _,
      .inside (by simp [Node.parts, Node.assembly]) (occurs_of_mem_guardAlternatives hothers hg)⟩
  next =>
    split at h
    · cases h
    · cases h
      cases hg

end Guards

section Parts

theorem mirrors_value {n : Node} (h : (node n).All (MirroredThroughout r m m')) :
    LowerM.Mirrors m m' (positions n).value (positions (n.written r)).value :=
  (all_node.mp h n .self).value

theorem mirrors_values {ns : List Node} (h : (each node ns).All (MirroredThroughout r m m')) :
    List.Forall₂ (LowerM.Mirrors m m') (values ns) (values (writtenAll r ns)) := by
  rw [values_eq_map, values_eq_map, writtenAll_eq_map, List.map_map]
  exact forall₂_maps fun n hn => (all_nodes.mp h n hn n .self).value

theorem mirrors_all {ns : List Node} (h : (each node ns).All (MirroredThroughout r m m')) :
    List.Forall₂ (Positions.Mirrors m m') (all ns) (all (writtenAll r ns)) := by
  rw [all_eq_map, all_eq_map, writtenAll_eq_map, List.map_map]
  exact forall₂_maps fun n hn => all_nodes.mp h n hn n .self

theorem mirrors_optionValue {o : Option Node}
    (h : (option node o).All (MirroredThroughout r m m')) :
    Option.Rel (LowerM.Mirrors m m') (optionValue o) (optionValue (writtenOption r o)) := by
  cases o with
  | none => exact .none
  | some n => exact .some (mirrors_value (all_option.mp h n rfl))

theorem mirrors_optionValues {o : Option (List Node)}
    (h : (option (each node) o).All (MirroredThroughout r m m')) :
    Option.Rel (List.Forall₂ (LowerM.Mirrors m m')) (optionValues o)
      (optionValues (writtenOptionAll r o)) := by
  cases o with
  | none => exact .none
  | some ns => exact .some (mirrors_values (all_option.mp h ns rfl))

theorem mirrors_optionAll {o : Option (List Node)}
    (h : (option (each node) o).All (MirroredThroughout r m m')) :
    List.Forall₂ (Positions.Mirrors m m') (optionAll o) (optionAll (writtenOptionAll r o)) := by
  cases o with
  | none => exact .nil
  | some ns => exact mirrors_all (all_option.mp h ns rfl)

theorem mirrors_segmentValues {segments : List (Segment Node)}
    (h : (each segment segments).All (MirroredThroughout r m m')) :
    LowerM.Mirrors m m' (LowerM.binary (segmentValues segments))
      (LowerM.binary (segmentValues (writtenSegments r segments))) := by
  rw [segmentValues_eq, segmentValues_eq, writtenSegments_eq_map, List.map_map]
  refine mirrors_binary fun g hg => ?_
  have hpart := all_each.mp h g hg
  cases g with
  | plain n | interpolated n => exact mirrors_value hpart

theorem mirrors_properties {entries : List (Node × Node)}
    (h : (each Assembly.entry entries).All (MirroredThroughout r m m')) :
    List.Forall₂ (LowerM.Mirrors m m') (properties entries)
      (properties (writtenEntries r entries)) := by
  rw [properties_eq, properties_eq, writtenEntries_eq_map, List.map_map]
  refine forall₂_maps fun e he => ?_
  obtain ⟨hkey, hvalue⟩ := all_map₂.mp (all_each.mp h e he)
  exact mirrors_entry e.1 (mirrors_value hkey) (mirrors_value hvalue)

theorem mirrors_tests (hr : r.Suits m m') {guards : List Node}
    (h : ∀ g ∈ guards, Mirrored r m m' g) :
    List.Forall₂ (LowerM.Mirrors m m') (guards.map fun g => condition g (positions g).value)
      ((writtenAll r guards).map fun g => condition g (positions g).value) := by
  rw [writtenAll_eq_map, List.map_map]
  exact forall₂_maps fun g hg => mirrors_condition hr g (h g hg).value

theorem mirrors_clauseParts (hr : r.Suits m m') {clauses : List (Clause Node)}
    (h : (each clause clauses).All (MirroredThroughout r m m')) :
    List.Forall₂ (ReadsAlike m m') (clauseParts clauses)
      (clauseParts (writtenClauses r clauses)) := by
  rw [clauseParts_eq, clauseParts_eq, writtenClauses_eq_map, List.map_map]
  refine forall₂_maps fun branch hbranch parts hparts => ?_
  obtain ⟨hhead, hbody⟩ := all_map₂.mp (all_each.mp h branch hbranch)
  obtain ⟨⟨patterns, alternatives⟩, hsplit, hparts⟩ := exists_ok_of_bind hparts
  cases hparts
  refine ⟨sourceClause (writtenAll r patterns) (writtenAll r alternatives)
    (writtenAll r branch.body), ?_, rfl, rfl, ⟨r, hr, rfl⟩, ?_,
    Positions.Mirrors.body (mirrors_all hbody)⟩
  · rw [Function.comp_apply, splitHead_written, hsplit]
    rfl
  · refine mirrors_tests hr fun g hg => ?_
    obtain ⟨n, hn, hoccurs⟩ := occurs_of_splitHead hsplit hg
    exact all_nodes.mp hhead n hn g hoccurs

theorem mirrors_conditionParts (hr : r.Suits m m') {clauses : List (Clause Node)}
    (h : (each clause clauses).All (MirroredThroughout r m m')) :
    List.Forall₂ (ConditionParts.Mirrors r m m') (conditionParts clauses)
      (conditionParts (writtenClauses r clauses)) := by
  rw [conditionParts_eq, conditionParts_eq, writtenClauses_eq_map, List.map_map]
  refine forall₂_maps fun branch hbranch => ?_
  obtain ⟨hhead, hbody⟩ := all_map₂.mp (all_each.mp h branch hbranch)
  refine ⟨rfl, ?_, Positions.Mirrors.body (mirrors_all hbody)⟩
  rw [Function.comp_apply, conditions_eq, conditions_eq]
  exact mirrors_tests hr fun n hn => all_nodes.mp hhead n hn n .self

theorem mirrors_qualifierParts (hr : r.Suits m m') {qualifiers : List (Qualifier Node)}
    (h : (each qualifier qualifiers).All (MirroredThroughout r m m')) :
    List.Forall₂ (QualifierParts.Mirrors r m m') (qualifierParts qualifiers)
      (qualifierParts (writtenQualifiers r qualifiers)) := by
  rw [qualifierParts_eq, qualifierParts_eq, writtenQualifiers_eq_map, List.map_map]
  refine forall₂_maps fun q hq => ?_
  have hparts := all_each.mp h q hq
  cases q with
  | generator pattern collection => exact ⟨rfl, mirrors_value (all_map₂.mp hparts).2⟩
  | filter test => exact mirrors_condition hr test (mirrors_value hparts)

end Parts

/-- One case per form: the rule of the form, on parts that are mirrored. -/
theorem mirrored_of_parts (hr : r.Suits m m') {n : Node}
    (h : n.assembly.All (MirroredThroughout r m m')) : Mirrored r m m' n := by
  unfold Mirrored
  cases n with
  | integer | float | string | boolean | nil | atom =>
    rw [Node.written, positions]
    exact .ofValue (.pure _)
  | var name =>
    rw [Node.written, positions]
    exact .ofValue (.bind (mirrors_resolve hr name) fun _ => .pure _)
  | moduleName segments =>
    rw [Node.written, positions, positions]
    exact .ofValue (.bind (mirrors_resolveModule hr segments) fun _ => .pure _)
  | list items =>
    rw [Node.written, positions, positions]
    exact .ofValue (.bind (.sequence (mirrors_values h)) fun _ => .pure _)
  | cons head tail =>
    obtain ⟨hhead, htail⟩ := all_map₂.mp h
    rw [Node.written, positions, positions]
    exact .ofValue (mirrors_consList (mirrors_values hhead) (mirrors_value htail))
  | tuple items =>
    rw [Node.written, positions, positions]
    exact .ofValue (mirrors_tuple (mirrors_values h))
  | binary segments =>
    rw [Node.written, positions, positions]
    exact .ofValue (mirrors_segmentValues h)
  | map entries =>
    rw [Node.written, positions, positions]
    exact .ofValue (mirrors_object (mirrors_properties h))
  | mapUpdate base updates =>
    obtain ⟨hbase, hupdates⟩ := all_map₂.mp h
    rw [Node.written, positions, positions]
    exact .ofValue (mirrors_mapUpdate (mirrors_value hbase) (mirrors_properties hupdates))
  | struct tag fields update =>
    obtain ⟨-, hfields, hupdate⟩ := all_map₃.mp h
    rw [Node.written, positions, positions]
    exact .ofValue (mirrors_struct hr tag (mirrors_properties hfields)
      (mirrors_optionValue hupdate))
  | bind pattern value =>
    rw [Node.written, positions, positions]
    exact .binding hr pattern (mirrors_value (all_map₂.mp h).2)
  | binaryOp op left right =>
    obtain ⟨hleft, hright⟩ := all_map₂.mp h
    rw [Node.written, positions, positions]
    exact .ofValue (mirrors_binaryOperation op (mirrors_value hleft) (mirrors_value hright))
  | unaryOp op operand =>
    rw [Node.written, positions, positions]
    exact .ofValue (mirrors_unaryOperation hr op operand (mirrors_value h))
  | range first last step =>
    obtain ⟨hfirst, hlast, hstep⟩ := all_map₃.mp h
    rw [Node.written, positions, positions]
    exact .ofValue (mirrors_range (mirrors_value hfirst) (mirrors_value hlast)
      (mirrors_optionValue hstep))
  | call name args info =>
    rw [Node.written, positions, positions]
    exact .ofValue (mirrors_namedCall hr name info (mirrors_values h))
  | dot target name args info =>
    obtain ⟨htarget, hargs⟩ := all_map₂.mp h
    rw [Node.written, positions, positions]
    exact .ofValue (mirrors_dotted hr target name info (mirrors_value htarget)
      (mirrors_optionValues hargs))
  | apply callee args =>
    obtain ⟨hcallee, hargs⟩ := all_map₂.mp h
    rw [Node.written, positions, positions]
    exact .ofValue (mirrors_call (mirrors_value hcallee) (mirrors_values hargs))
  | capture owner name arity =>
    rw [Node.written, positions, positions]
    exact .ofValue (mirrors_captured hr owner name)
  | fn clauses =>
    rw [Node.written, positions, positions]
    exact .ofValue (mirrors_anonymousFunction (mirrors_clauseParts hr h))
  | caseOf subject clauses =>
    obtain ⟨hsubject, hclauses⟩ := all_map₂.mp h
    rw [Node.written, positions, positions]
    exact .closed (mirrors_caseOf (mirrors_value hsubject) (mirrors_clauseParts hr hclauses))
  | cond clauses =>
    rw [Node.written, positions, positions]
    exact .closed (mirrors_cond (mirrors_conditionParts hr h))
  | ifElse condition body otherwise | unlessElse condition body otherwise =>
    obtain ⟨hcondition, hbody, hotherwise⟩ := all_map₃.mp h
    rw [Node.written, positions, positions]
    exact .conditional _ (mirrors_condition hr condition (mirrors_value hcondition))
      (mirrors_all hbody) (mirrors_optionAll hotherwise)
  | comprehension qualifiers body into =>
    obtain ⟨hqualifiers, hbody, hinto⟩ := all_map₃.mp h
    rw [Node.written, positions, positions]
    exact .ofValue (mirrors_comprehension hr (mirrors_qualifierParts hr hqualifiers)
      (Positions.Mirrors.bodyValue (mirrors_all hbody)) (mirrors_optionValue hinto))
  | block items =>
    rw [Node.written, positions, positions]
    exact .sequenced (mirrors_all h)
  | raise exception attributes =>
    obtain ⟨hexception, hattributes⟩ := all_map₂.mp h
    rw [Node.written, positions, positions]
    exact .raising (mirrors_raised hr exception (mirrors_value hexception)
      (mirrors_optionValue hattributes))
  | attributeRead name =>
    have hform : positions ((r.read name).node name) =
        .ofValue (positions ((r.read name).node name)).value := by
      cases r.read name <;> rw [AttributeForm.node, positions] <;> rfl
    rw [Node.written, positions, hform]
    exact .ofValue (mirrors_attributeValue hr name)
  | _ =>
    simp only [positions]
    exact .misplaced _ _

/-- A tree with its references written out mirrors the tree. -/
theorem mirrored (hr : r.Suits m m') (n : Node) : Mirrored r m m' n := by
  have hthroughout : MirroredThroughout r m m' n := by
    induction n using Node.inductParts with
    | step n ih =>
      intro k hk
      cases hk with
      | self => exact mirrored_of_parts hr ih
      | inside part occurs => exact ih _ part k occurs
  exact hthroughout n .self

end TreeLowering
