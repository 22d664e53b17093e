import TreeLowering.Proofs.EmissionClauses
import TreeLowering.Proofs.LoweredParts

/-!
Every node follows its outline.
-/
namespace TreeLowering.Scoping

open Source Target Pattern LowerM Lowering

variable {V A : String → Prop}

/-- The node follows its outline, and so do the alternatives of the guard that it may be. -/
structure Outlined (V A : String → Prop) (n : Node) : Prop where
  named : n.Named V A
  follows : Follows V A (positions n) (outline n)
  guards : List.Forall₂ (YieldsExpr V A) (guardTests (positions n) n)
    (guardOutlines (outline n).value n)

section Parts

theorem follows_all {ns : List Node} (h : ∀ m ∈ ns, Outlined V A m) :
    List.Forall₂ (Follows V A) (all ns) (outlines ns) := by
  induction ns with
  | nil => simp [all, outlines]
  | cons n ns ih =>
    rw [all, outlines]
    exact .cons (h n (by simp)).follows (ih fun m hm => h m (by simp [hm]))

theorem follows_optionAll {o : Option (List Node)} (h : ∀ m ∈ o.getD [], Outlined V A m) :
    List.Forall₂ (Follows V A) (optionAll o) ((optionOutlines o).getD []) := by
  cases o with
  | none => simp [optionAll, optionOutlines]
  | some ns => simpa [optionAll, optionOutlines] using follows_all h

theorem yields_values {ns : List Node} (h : ∀ m ∈ ns, Outlined V A m) :
    YieldsEach V A (values ns) exprMarks ((outlines ns).flatMap (·.value)) := by
  induction ns with
  | nil =>
    simp only [values, outlines, List.flatMap_nil]
    exact .nil
  | cons n ns ih =>
    rw [values, outlines, List.flatMap_cons]
    exact .cons (h n (by simp)).follows.value (ih fun m hm => h m (by simp [hm]))

theorem yields_optionValue {o : Option Node} (h : ∀ m ∈ o.toList, Outlined V A m) :
    YieldsOption V A (optionValue o) (optionOutline o) := by
  cases o with
  | none => simp only [optionValue, optionOutline]; exact .none
  | some n =>
    simp only [optionValue, optionOutline]
    exact .some (h n (by simp)).follows.value

theorem yields_optionValues {o : Option (List Node)} (h : ∀ m ∈ o.getD [], Outlined V A m) :
    Option.Rel (fun xs os => YieldsEach V A xs exprMarks (os.flatMap (·.value))) (optionValues o)
      (optionOutlines o) := by
  cases o with
  | none => simp only [optionValues, optionOutlines]; exact .none
  | some ns =>
    simp only [optionValues, optionOutlines]
    exact .some (yields_values h)

theorem segmentsOutline_eq (segments : List (Segment Node)) :
    segmentsOutline segments = segments.flatMap fun g => (outline (Node.segmentChild g)).value := by
  induction segments with
  | nil => simp [segmentsOutline]
  | cons g segments ih =>
    cases g <;> simp only [segmentsOutline, ih, List.flatMap_cons, Node.segmentChild]

theorem yields_segments {segments : List (Segment Node)}
    (h : ∀ m ∈ segments.map Node.segmentChild, Outlined V A m) :
    YieldsExpr V A (LowerM.binary (segmentValues segments)) (segmentsOutline segments) := by
  have hsegments : ∀ p ∈ segmentValues segments,
      YieldsExpr V A p.2 (outline (Node.segmentChild p.1)).value := by
    rw [segmentValues_eq]
    rintro p hp
    obtain ⟨g, hg, rfl⟩ := List.mem_map.mp hp
    exact (h _ (List.mem_map_of_mem hg)).follows.value
  have hyields := yields_binary hsegments
  rwa [segmentValues_eq, List.flatMap_map, ← segmentsOutline_eq, ← segmentValues_eq] at hyields

theorem yields_properties {entries : List (Node × Node)}
    (h : ∀ m ∈ Node.entryChildren entries, Outlined V A m) :
    YieldsEach V A (properties entries) entryMarks (entriesOutline entries) := by
  induction entries with
  | nil =>
    simp only [properties, entriesOutline]
    exact .nil
  | cons e entries ih =>
    obtain ⟨key, value⟩ := e
    rw [properties, entriesOutline]
    have hkey := h key (by simp [Node.entryChildren])
    have hvalue := h value (by simp [Node.entryChildren])
    exact .cons (yields_entry hkey.follows.value hvalue.follows.value)
      (ih fun m hm => h m (List.mem_append_right _ hm))

theorem follows_guarded (exprs : List Node) (guard : Node) :
    Follows V A (positions (.guarded exprs guard)) (outline (.guarded exprs guard)) := by
  simp only [positions, outline]
  exact follows_misplaced _ _

theorem headPatterns_subset (head : List Node) : headPatterns head ⊆ Node.headChildren head := by
  unfold headPatterns
  split
  · simp [Node.headChildren]
  next hother =>
    unfold Node.headChildren
    split
    · exact (hother _ _ rfl).elim
    · exact fun _ => id

theorem patterns_of_splitHead {head patterns guards : List Node}
    (h : splitHead head = .ok (patterns, guards)) : patterns = headPatterns head := by
  unfold splitHead at h
  split at h
  · obtain ⟨alternatives, -, h⟩ := exists_ok_of_bind h
    cases h
    rfl
  next hhead =>
    split at h
    · cases h
    · cases h
      unfold headPatterns
      split
      · exact (hhead _ _ rfl).elim
      · rfl

theorem yields_headTests {head : List Node} (h : ∀ m ∈ Node.headChildren head, Outlined V A m) :
    List.Forall₂ (YieldsExpr V A) (headTests head) (headGuards head) := by
  unfold headTests
  split
  · exact (h _ (by simp [Node.headChildren])).guards
  next hother =>
    unfold headGuards
    split
    · exact (hother _ _ rfl).elim
    · exact .nil

theorem readsAs_clauseParts {clauses : List (Clause Node)}
    (h : ∀ m ∈ clauses.flatMap Node.clauseChildren, Outlined V A m) :
    List.Forall₂ (ReadsAs V A) (clauseParts clauses) (clauseOutlines clauses) := by
  induction clauses with
  | nil => simp [clauseParts, clauseOutlines]
  | cons clause clauses ih =>
    obtain ⟨head, body⟩ := clause
    rw [clauseParts, clauseOutlines]
    have hhead : ∀ m ∈ Node.headChildren head, Outlined V A m :=
      fun m hm => h m (by simp [Node.clauseChildren, hm])
    have hbody : ∀ m ∈ body, Outlined V A m := fun m hm => h m (by simp [Node.clauseChildren, hm])
    refine .cons ?_ (ih fun m hm => h m (List.mem_append_right _ hm))
    intro parts hparts
    obtain ⟨⟨patterns, guards⟩, hsplit, hparts⟩ := exists_ok_of_bind hparts
    cases hparts
    exact
      { patterns := patterns_of_splitHead hsplit
        named := fun p hp => (hhead p (headPatterns_subset head hp)).named
        guards := yields_headTests hhead
        body := yields_body (follows_all hbody) }

/-- The conditions of a branch; a guard among them is refused. -/
theorem yields_conditions {head : List Node}
    (h : ∀ m ∈ head, Follows V A (positions m) (outline m)) :
    YieldsEach V A (conditions head) exprMarks (head.flatMap fun n => (outline n).value) := by
  induction head with
  | nil =>
    rw [conditions]
    exact .nil
  | cons n head ih =>
    rw [conditions]
    exact .cons (yields_condition (h n (by simp)).value) (ih fun m hm => h m (by simp [hm]))

theorem outlines_flatMap (ns : List Node) :
    (outlines ns).flatMap (·.value) = ns.flatMap fun n => (outline n).value := by
  induction ns with
  | nil => simp [outlines]
  | cons n ns ih => rw [outlines, List.flatMap_cons, List.flatMap_cons, ih]

theorem follows_conditionParts {clauses : List (Clause Node)}
    (h : ∀ m ∈ clauses.flatMap Node.clauseChildren, Outlined V A m) :
    List.Forall₂ (ConditionFollows V A) (conditionParts clauses) (conditionOutlines clauses) := by
  induction clauses with
  | nil => simp [conditionParts, conditionOutlines]
  | cons clause clauses ih =>
    obtain ⟨head, body⟩ := clause
    rw [conditionParts, conditionOutlines, outlines_flatMap]
    have hhead : ∀ m ∈ head, Follows V A (positions m) (outline m) := by
      intro m hm
      by_cases hguarded : ∃ patterns guard, head = [.guarded patterns guard]
      · obtain ⟨patterns, guard, rfl⟩ := hguarded
        rw [List.mem_singleton.mp hm]
        exact follows_guarded patterns guard
      · have hchildren : Node.headChildren head = head := by
          unfold Node.headChildren
          split
          · simp at hguarded
          · rfl
        exact (h m (by simp [Node.clauseChildren, hchildren, hm])).follows
    have hbody : ∀ m ∈ body, Outlined V A m := fun m hm => h m (by simp [Node.clauseChildren, hm])
    exact .cons ⟨rfl, yields_conditions hhead, yields_body (follows_all hbody)⟩
      (ih fun m hm => h m (List.mem_append_right _ hm))

theorem follows_qualifierParts {qualifiers : List (Qualifier Node)}
    (h : ∀ m ∈ qualifiers.flatMap Node.qualifierChildren, Outlined V A m) :
    List.Forall₂ (QualifierFollows V A) (qualifierParts qualifiers)
      (qualifierOutlines qualifiers) := by
  induction qualifiers with
  | nil => simp [qualifierParts, qualifierOutlines]
  | cons q qualifiers ih =>
    have hrest := ih fun m hm => h m (List.mem_append_right _ hm)
    cases q with
    | generator pattern collection =>
      rw [qualifierParts, qualifierOutlines]
      have hpattern := h pattern (by simp [Node.qualifierChildren])
      have hcollection := h collection (by simp [Node.qualifierChildren])
      exact .cons (.generator hpattern.named hcollection.follows.value) hrest
    | filter condition =>
      rw [qualifierParts, qualifierOutlines]
      have hcondition := h condition (by simp [Node.qualifierChildren])
      exact .cons (.filter (yields_condition hcondition.follows.value)) hrest

end Parts

/-- A node whose parts follow their outlines follows its own. -/
theorem follows_of_children {n : Node} (hn : n.Named V A) (h : ∀ m ∈ n.children, Outlined V A m) :
    Follows V A (positions n) (outline n) := by
  cases n with
  | integer | float | string | boolean | nil =>
    simp only [positions, outline]
    exact follows_ofValue (.pure (by simp))
  | atom name =>
    simp only [positions, outline]
    exact follows_ofValue (yields_atomValue name)
  | moduleName segments =>
    simp only [positions, outline]
    exact follows_ofValue (yields_moduleValue segments)
  | var name =>
    rw [positions, outline]
    exact follows_ofValue (yields_resolve name)
  | list items =>
    rw [positions, outline]
    exact follows_ofValue (yields_array (yields_values h))
  | cons head tail =>
    rw [positions, outline]
    exact follows_ofValue (yields_consList (yields_values fun m hm => h m (by simp [Node.children, hm]))
      (h tail (by simp [Node.children])).follows.value)
  | tuple items =>
    rw [positions, outline]
    exact follows_ofValue (yields_tuple (yields_values h))
  | binary segments =>
    rw [positions, outline]
    exact follows_ofValue (yields_segments h)
  | map entries =>
    rw [positions, outline]
    exact follows_ofValue (yields_object (yields_properties h))
  | mapUpdate base updates =>
    rw [positions, outline]
    exact follows_ofValue (yields_mapUpdate (h base (by simp [Node.children])).follows.value
      (yields_properties fun m hm => h m (by simp [Node.children, hm])))
  | struct module fields update =>
    rw [positions, outline]
    exact follows_ofValue (yields_struct
      (yields_properties fun m hm => h m (by simp [Node.children, hm]))
      (yields_optionValue fun m hm => h m (by simp_all [Node.children])))
  | bind pattern value =>
    rw [positions, outline]
    exact follows_binding (h pattern (by simp [Node.children])).named
      (h value (by simp [Node.children])).follows.value
  | binaryOp op left right =>
    rw [positions, outline]
    exact follows_ofValue (yields_binaryOperation op
      (h left (by simp [Node.children])).follows.value
      (h right (by simp [Node.children])).follows.value)
  | unaryOp op operand =>
    rw [positions, outline]
    exact follows_ofValue (yields_unaryOperation (h operand (by simp [Node.children])).follows.value)
  | range first last step =>
    rw [positions, outline]
    exact follows_ofValue (yields_range (h first (by simp [Node.children])).follows.value
      (h last (by simp [Node.children])).follows.value
      (yields_optionValue fun m hm => h m (by simp_all [Node.children])))
  | call name args info =>
    rw [positions, outline]
    exact follows_ofValue (yields_namedCall (yields_values h))
  | dot target name args info =>
    rw [positions, outline]
    exact follows_ofValue (yields_dotted (h target (by simp [Node.children])).follows.value
      (yields_optionValues fun m hm => h m (by simp_all [Node.children])))
  | apply callee args =>
    rw [positions, outline]
    exact follows_ofValue (yields_applied (h callee (by simp [Node.children])).follows.value
      (yields_values fun m hm => h m (by simp [Node.children, hm])))
  | capture owner name arity =>
    rw [positions, outline]
    exact follows_ofValue (yields_captured owner name)
  | fn clauses =>
    rw [positions, outline]
    exact follows_ofValue (yields_anonymousFunction (readsAs_clauseParts h))
  | caseOf subject clauses =>
    rw [positions, outline]
    exact follows_closed (yields_caseOf (h subject (by simp [Node.children])).follows.value
      (readsAs_clauseParts fun m hm => h m (List.mem_cons_of_mem _ hm)))
  | cond clauses =>
    rw [positions, outline]
    exact follows_closed (yields_cond (follows_conditionParts h))
  | ifElse condition body otherwise | unlessElse condition body otherwise =>
    rw [positions, outline]
    exact follows_conditional
      (yields_condition (h condition (by simp [Node.children])).follows.value)
      (follows_all fun m hm => h m (by simp [Node.children, hm]))
      (follows_optionAll fun m hm => h m (by simp_all [Node.children]))
  | comprehension qualifiers body into =>
    rw [positions, outline]
    exact follows_ofValue (yields_comprehension
      (yields_bodyValue (follows_all fun m hm => h m (by simp [Node.children, hm])))
      (follows_qualifierParts fun m hm =>
        h m (List.mem_append_left _ (List.mem_append_left _ hm)))
      (yields_optionValue fun m hm => h m (List.mem_append_right _ hm)))
  | block items =>
    rw [positions, outline]
    exact follows_sequenced (follows_all h)
  | raise exception attributes =>
    rw [positions, outline]
    exact follows_raising (yields_raised (h exception (by simp [Node.children])).follows.value
      (yields_optionValue fun m hm => h m (by simp_all [Node.children])))
  | attributeRead name =>
    rw [positions, outline]
    exact follows_ofValue (yields_attributeValue name)
  | _ =>
    simp only [positions, outline]
    exact follows_misplaced _ _

theorem yields_guardTests {n : Node} (hn : Follows V A (positions n) (outline n))
    (h : ∀ m ∈ n.children, Outlined V A m) :
    List.Forall₂ (YieldsExpr V A) (guardTests (positions n) n)
      (guardOutlines (outline n).value n) := by
  unfold guardTests
  split
  next first others rest =>
    rw [guardOutlines]
    exact .cons (yields_condition (h first (by simp [Node.children])).follows.value)
      (h rest (by simp [Node.children])).guards
  next hother =>
    unfold guardOutlines
    split
    · exact (hother _ _ _ rfl).elim
    · exact .cons (yields_condition hn.value) .nil

/-- Every node follows its outline. -/
theorem outlined {n : Node} (h : n.Named V A) : Outlined V A n := by
  induction n using Node.induct with
  | step n ih =>
    have hchildren : ∀ m ∈ n.children, Outlined V A m :=
      fun m hm => ih m hm ((Node.named_iff.mp h).2 m hm)
    have hfollows := follows_of_children h hchildren
    exact ⟨h, hfollows, yields_guardTests hfollows hchildren⟩

end TreeLowering.Scoping
