import TreeLowering.Lowering
import TreeLowering.Proofs.SourceTree

/-!
The lowered parts of a node, one by one.

The lowering goes through the lists of a node's parts by recursion along with the node itself. Each
such list is what a rule makes of every part on its own.
-/
namespace TreeLowering

open Source Target LowerM Lowering

theorem all_eq_map (ns : List Node) : all ns = ns.map positions := by
  induction ns with
  | nil => rw [all, List.map_nil]
  | cons n ns ih => rw [all, ih, List.map_cons]

theorem values_eq_map (ns : List Node) : values ns = ns.map fun n => (positions n).value := by
  induction ns with
  | nil => rw [values, List.map_nil]
  | cons n ns ih => rw [values, ih, List.map_cons]

theorem optionAll_eq (o : Option (List Node)) : optionAll o = all (o.getD []) := by
  cases o <;> simp [optionAll, all]

theorem optionValue_eq (o : Option Node) : optionValue o = o.map fun n => (positions n).value := by
  cases o <;> simp [optionValue]

theorem optionValues_eq (o : Option (List Node)) : optionValues o = o.map values := by
  cases o <;> simp [optionValues]

theorem segmentValues_eq (segments : List (Segment Node)) :
    segmentValues segments = segments.map fun g => (g, (positions (Node.segmentChild g)).value) := by
  induction segments with
  | nil => simp [segmentValues]
  | cons g segments ih => cases g <;> simp [segmentValues, ih, Node.segmentChild]

theorem properties_eq (entries : List (Node × Node)) :
    properties entries =
      entries.map fun e => entry e.1 (positions e.1).value (positions e.2).value := by
  induction entries with
  | nil => rw [properties, List.map_nil]
  | cons e entries ih => rw [properties, ih, List.map_cons]

theorem conditions_eq (ns : List Node) :
    conditions ns = ns.map fun n => condition n (positions n).value := by
  induction ns with
  | nil => rw [conditions, List.map_nil]
  | cons n ns ih => rw [conditions, ih, List.map_cons]

/-- A guard is tested by its alternatives. -/
theorem guardTests_eq {guard : Node} {alternatives : List Node}
    (h : guardAlternatives guard = .ok alternatives) :
    guardTests (positions guard) guard =
      alternatives.map fun g => condition g (positions g).value := by
  fun_induction guardAlternatives guard generalizing alternatives with
  | case1 first rest ih =>
    obtain ⟨others, hothers, halternatives⟩ := exists_ok_of_bind h
    cases halternatives
    rw [guardTests, ih hothers, List.map_cons]
  | case2 => cases h
  | case3 guard hchain hother =>
    cases h
    unfold guardTests
    split
    · exact (hother _ _ rfl).elim
    · rfl

theorem headTests_eq {head patterns alternatives : List Node}
    (h : splitHead head = .ok (patterns, alternatives)) :
    headTests head = alternatives.map fun g => condition g (positions g).value := by
  unfold splitHead at h
  split at h
  next patterns guard =>
    obtain ⟨others, hothers, hpair⟩ := exists_ok_of_bind h
    cases hpair
    exact guardTests_eq hothers
  next hguarded =>
    split at h
    · cases h
    · cases h
      unfold headTests
      split
      · exact (hguarded _ _ rfl).elim
      · rfl

theorem conditionParts_eq (clauses : List (Clause Node)) :
    conditionParts clauses = clauses.map fun clause =>
      ⟨clause.head, conditions clause.head, Positions.body (all clause.body)⟩ := by
  induction clauses with
  | nil => rw [conditionParts, List.map_nil]
  | cons clause clauses ih => rw [conditionParts, ih, List.map_cons]

theorem fieldValues_eq (fields : List (String × Node)) :
    fieldValues fields = fields.map fun (name, value) => (name, (positions value).value) := by
  induction fields with
  | nil => rw [fieldValues, List.map_nil]
  | cons f fields ih => rw [fieldValues, ih, List.map_cons]

theorem items_eq (ns : List Node) : items ns = ns.map fun n => item (positions n) n := by
  induction ns with
  | nil => rw [items, List.map_nil]
  | cons n ns ih => rw [items, ih, List.map_cons]

/-- What a qualifier becomes. -/
def loweredQualifier : Qualifier Node → QualifierParts
  | .generator pattern collection => .generator pattern (positions collection).value
  | .filter test => .filter (condition test (positions test).value)

theorem qualifierParts_eq (qualifiers : List (Qualifier Node)) :
    qualifierParts qualifiers = qualifiers.map loweredQualifier := by
  induction qualifiers with
  | nil => rw [qualifierParts, List.map_nil]
  | cons q qualifiers ih => cases q <;> rw [qualifierParts, ih, List.map_cons, loweredQualifier]

/-- What holds of a clause and of the clauses of all groups holds still when the clause is added. -/
theorem forall_addClause {Q : ClauseParts → Prop} {name : String} {visibility : Visibility}
    {clause : ClauseParts} {groups groups' : List FunctionGroup} (hclause : Q clause)
    (h : ∀ g ∈ groups, ∀ clause ∈ g.clauses, Q clause.2)
    (hadded : addClause name visibility clause groups = .ok groups') :
    ∀ g ∈ groups', ∀ clause ∈ g.clauses, Q clause.2 := by
  induction groups generalizing groups' with
  | nil =>
    cases hadded
    simpa using hclause
  | cons g rest ih =>
    obtain ⟨hg, hrest⟩ := List.forall_mem_cons.mp h
    simp only [addClause] at hadded
    split at hadded
    · split at hadded
      · cases hadded
      · cases hadded
        exact List.forall_mem_cons.mpr
          ⟨List.forall_mem_append.mpr ⟨hg, by simpa using hclause⟩, hrest⟩
    · obtain ⟨more, hmore, hadded⟩ := exists_ok_of_bind hadded
      cases hadded
      exact List.forall_mem_cons.mpr ⟨hg, ih hrest hmore⟩

end TreeLowering
