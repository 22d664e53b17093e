import TreeLowering.Source.Pipe
import TreeLowering.Proofs.Run

/-!
The parts of a source tree, and proofs by induction on them.

`children` are the nodes that stand directly in a node as expressions, patterns or items. A name that
is written as a variable but names a function, in the head of a definition or to the right of a
pipe, is none of them; so `names` has the names of variables and attributes alone. Writing out the
pipes of a tree brings no new ones in.
-/
namespace TreeLowering.Source.Node

/-- The patterns and guards of a clause's head. -/
def headChildren : List Node → List Node
  | [.guarded patterns guard] => patterns ++ [guard]
  | head => head

/-- The parameters and guards of a definition's head. -/
def definitionChildren : Node → List Node
  | .call _ args _ => args
  | .var _ => []
  | .guarded [.call _ args _] guard => args ++ [guard]
  | .guarded [.var _] guard => [guard]
  | head => [head]

/-- The right side of a pipe, unless it is the name of a function. -/
def stageChildren : Node → List Node
  | .var _ => []
  | stage => [stage]

def segmentChild : Segment Node → Node
  | .plain value => value
  | .interpolated value => value

def qualifierChildren : Qualifier Node → List Node
  | .generator pattern collection => [pattern, collection]
  | .filter condition => [condition]

def clauseChildren (clause : Clause Node) : List Node := headChildren clause.head ++ clause.body

def entryChildren (entries : List (Node × Node)) : List Node := entries.flatMap fun (k, v) => [k, v]

def children : Node → List Node
  | .list items => items
  | .cons head tail => head ++ [tail]
  | .tuple items => items
  | .binary segments => segments.map segmentChild
  | .map entries => entryChildren entries
  | .mapUpdate base updates => base :: entryChildren updates
  | .struct tag fields update => tag :: entryChildren fields ++ update.toList
  | .bind pattern value => [pattern, value]
  | .pin operand => [operand]
  | .guarded exprs guard => exprs ++ [guard]
  | .binaryOp _ left right => [left, right]
  | .unaryOp _ operand => [operand]
  | .pipe left right => left :: stageChildren right
  | .range first last step => first :: last :: step.toList
  | .call _ args _ => args
  | .dot target _ args _ => target :: args.getD []
  | .apply callee args => callee :: args
  | .capture owner _ _ => owner.toList
  | .fn clauses => clauses.flatMap clauseChildren
  | .caseOf subject clauses => subject :: clauses.flatMap clauseChildren
  | .cond clauses => clauses.flatMap clauseChildren
  | .ifElse condition body otherwise => condition :: body ++ otherwise.getD []
  | .unlessElse condition body otherwise => condition :: body ++ otherwise.getD []
  | .comprehension qualifiers body into =>
    qualifiers.flatMap qualifierChildren ++ body ++ into.toList
  | .block items => items
  | .define _ head body => definitionChildren head ++ body
  | .module _ body => body
  | .attributeSet _ value => [value]
  | .defStruct fields => fields.map (·.2)
  | .defException fields => fields.map (·.2)
  | .raise exception attributes => exception :: attributes.toList
  | _ => []

section Size

variable {m n : Node}

theorem sizeOf_lt_of_mem_headChildren {head : List Node} (h : m ∈ headChildren head) :
    sizeOf m < sizeOf head := by
  unfold headChildren at h
  split at h
  next patterns guard =>
    rcases List.mem_append.mp h with h | h
    · have := List.sizeOf_lt_of_mem h
      simp
      omega
    · simp only [List.mem_singleton] at h
      subst h
      simp
      omega
  · exact List.sizeOf_lt_of_mem h

theorem sizeOf_lt_of_mem_definitionChildren (h : m ∈ definitionChildren n) :
    sizeOf m < sizeOf n + 1 := by
  unfold definitionChildren at h
  split at h
  next name args info =>
    have := List.sizeOf_lt_of_mem h
    simp
    omega
  · cases h
  next name args info guard =>
    rcases List.mem_append.mp h with h | h
    · have := List.sizeOf_lt_of_mem h
      simp
      omega
    · simp only [List.mem_singleton] at h
      subst h
      simp only [guarded.sizeOf_spec]
      omega
  next name guard =>
    simp only [List.mem_singleton] at h
    subst h
    simp only [guarded.sizeOf_spec]
    omega
  · simp only [List.mem_singleton] at h
    subst h
    omega

theorem sizeOf_lt_of_mem_entryChildren {entries : List (Node × Node)} (h : m ∈ entryChildren entries) :
    sizeOf m < sizeOf entries := by
  obtain ⟨⟨k, v⟩, hmem, h⟩ := List.mem_flatMap.mp h
  have hentry := List.sizeOf_lt_of_mem hmem
  simp only [Prod.mk.sizeOf_spec] at hentry
  simp only [List.mem_cons, List.not_mem_nil, or_false] at h
  rcases h with rfl | rfl <;> omega

theorem sizeOf_lt_of_mem_clauseChildren {clauses : List (Clause Node)}
    (h : m ∈ clauses.flatMap clauseChildren) : sizeOf m < sizeOf clauses := by
  obtain ⟨⟨head, body⟩, hmem, h⟩ := List.mem_flatMap.mp h
  have hclause := List.sizeOf_lt_of_mem hmem
  simp only [Clause.mk.sizeOf_spec] at hclause
  rcases List.mem_append.mp h with h | h
  · have := sizeOf_lt_of_mem_headChildren h
    simp only at this
    omega
  · have := List.sizeOf_lt_of_mem h
    simp only at this
    omega

theorem sizeOf_lt_of_mem_qualifierChildren {qualifiers : List (Qualifier Node)}
    (h : m ∈ qualifiers.flatMap qualifierChildren) : sizeOf m < sizeOf qualifiers := by
  obtain ⟨qualifier, hmem, h⟩ := List.mem_flatMap.mp h
  have hqualifier := List.sizeOf_lt_of_mem hmem
  cases qualifier with
  | generator pattern collection =>
    simp only [Qualifier.generator.sizeOf_spec] at hqualifier
    simp only [qualifierChildren, List.mem_cons, List.not_mem_nil, or_false] at h
    rcases h with rfl | rfl <;> omega
  | filter condition =>
    simp only [Qualifier.filter.sizeOf_spec] at hqualifier
    simp only [qualifierChildren, List.mem_singleton] at h
    subst h
    omega

theorem sizeOf_lt_of_mem_segments {segments : List (Segment Node)}
    (h : m ∈ segments.map segmentChild) : sizeOf m < sizeOf segments := by
  obtain ⟨segment, hmem, rfl⟩ := List.mem_map.mp h
  have := List.sizeOf_lt_of_mem hmem
  cases segment <;> simp_all [segmentChild] <;> omega

theorem sizeOf_lt_of_mem_fields {fields : List (String × Node)} (h : m ∈ fields.map (·.2)) :
    sizeOf m < sizeOf fields := by
  obtain ⟨⟨name, value⟩, hmem, rfl⟩ := List.mem_map.mp h
  have := List.sizeOf_lt_of_mem hmem
  simp only [Prod.mk.sizeOf_spec] at this
  show sizeOf value < sizeOf fields
  omega

theorem sizeOf_lt_of_mem_option {o : Option Node} (h : m ∈ o.toList) : sizeOf m < sizeOf o := by
  obtain rfl := Option.mem_toList.mp h
  simp

theorem sizeOf_lt_of_mem_optionList {o : Option (List Node)} (h : m ∈ o.getD []) :
    sizeOf m < sizeOf o := by
  cases o with
  | none => cases h
  | some ns =>
    have := List.sizeOf_lt_of_mem (show m ∈ ns from h)
    simp
    omega

theorem eq_of_mem_stageChildren (h : m ∈ stageChildren n) : m = n := by
  unfold stageChildren at h
  split at h
  · cases h
  · exact List.mem_singleton.mp h

theorem sizeOf_lt_of_mem_children (h : m ∈ n.children) : sizeOf m < sizeOf n := by
  cases n <;> simp only [children, List.mem_append, List.mem_cons, List.not_mem_nil, or_false] at h
  all_goals simp
  all_goals grind [→ List.sizeOf_lt_of_mem, → sizeOf_lt_of_mem_entryChildren,
    → sizeOf_lt_of_mem_clauseChildren, → sizeOf_lt_of_mem_qualifierChildren,
    → sizeOf_lt_of_mem_segments, → sizeOf_lt_of_mem_fields, → sizeOf_lt_of_mem_option,
    → sizeOf_lt_of_mem_optionList, → sizeOf_lt_of_mem_definitionChildren,
    → eq_of_mem_stageChildren]

end Size

/-- What holds of a node when it holds of its children holds of every node. -/
theorem induct {P : Node → Prop} (step : ∀ n, (∀ m ∈ n.children, P m) → P n) (n : Node) : P n :=
  step n fun m _ => induct step m
termination_by sizeOf n
decreasing_by exact sizeOf_lt_of_mem_children ‹_›

/-- A name that is given to values: of a variable, or of an attribute that is set. -/
inductive Naming where
  | variable (name : String)
  | attribute (name : String)

def ownNames : Node → List Naming
  | .var name => [.variable name]
  | .attributeSet name _ => [.attribute name]
  | _ => []

/-- The variables that occur in a tree and the attributes that are set in it. -/
def names (n : Node) : List Naming :=
  n.ownNames ++ (n.children.attach.map fun m => names m.1).flatten
termination_by sizeOf n
decreasing_by exact sizeOf_lt_of_mem_children m.2

theorem names_eq (n : Node) : n.names = n.ownNames ++ n.children.flatMap names := by
  rw [names, List.attach_map_val, List.flatMap_def]

def Naming.Satisfies (V A : String → Prop) : Naming → Prop
  | .variable name => V name
  | .attribute name => A name

/-- All variables of the tree satisfy `V`, and all attributes that are set in it satisfy `A`. -/
def Named (V A : String → Prop) (n : Node) : Prop := ∀ name ∈ n.names, name.Satisfies V A

theorem named_iff {V A : String → Prop} {n : Node} :
    n.Named V A ↔ (∀ name ∈ n.ownNames, name.Satisfies V A) ∧ ∀ m ∈ n.children, m.Named V A := by
  unfold Named
  rw [names_eq n]
  simp only [List.forall_mem_append, List.forall_mem_flatMap]

theorem Named.var {V A : String → Prop} {x : String} (h : (Node.var x).Named V A) : V x :=
  (named_iff.mp h).1 (.variable x) (List.mem_singleton_self _)

section Pipes

variable {V A : String → Prop}

/-- The tree satisfies the predicate once its pipes are written out. -/
def Stays (V A : String → Prop) (n : Node) : Prop := ∀ n', n.removePipes = .ok n' → n'.Named V A

/-- What is written out part by part satisfies the predicate if each part does. -/
theorem named_of_traversed {α : Type} (parts : α → List Node)
    (f : List α → Except LowerError (List α)) (hnil : f [] = .ok []) (l : List α) {bs : List α}
    (hcons : ∀ a ∈ l, ∀ rest bs, f (a :: rest) = .ok bs → ∃ a' rest',
      (∀ m ∈ parts a', m.Named V A) ∧ f rest = .ok rest' ∧ bs = a' :: rest')
    (h : f l = .ok bs) : ∀ b ∈ bs, ∀ m ∈ parts b, m.Named V A := by
  induction l generalizing bs with
  | nil =>
    obtain rfl := Except.ok.inj (hnil.symm.trans h)
    simp
  | cons a l ih =>
    obtain ⟨a', rest', ha, hrest, rfl⟩ := hcons a (by simp) l bs h
    have htail := ih (fun b hb => hcons b (by simp [hb])) hrest
    simpa using ⟨ha, htail⟩

theorem named_removePipesList {ns ns' : List Node} (ih : ∀ m ∈ ns, m.Stays V A)
    (h : removePipesList ns = .ok ns') : ∀ m ∈ ns', m.Named V A := by
  have hparts := named_of_traversed (fun n => [n]) removePipesList rfl ns
    (fun n hn rest bs h => by
      obtain ⟨n', hn', h⟩ := exists_ok_of_bind h
      obtain ⟨rest', hrest, h⟩ := exists_ok_of_bind h
      cases h
      exact ⟨n', rest', by simpa using ih n hn n' hn', hrest, rfl⟩) h
  simpa using hparts

theorem named_removePipesOption {o o' : Option Node} (ih : ∀ m ∈ o.toList, m.Stays V A)
    (h : removePipesOption o = .ok o') : ∀ m ∈ o'.toList, m.Named V A := by
  cases o with
  | none =>
    cases h
    simp
  | some n =>
    obtain ⟨n', hn', h⟩ := exists_ok_of_bind h
    cases h
    simpa using ih n (by simp) n' hn'

theorem named_removePipesListOption {o o' : Option (List Node)}
    (ih : ∀ m ∈ o.getD [], m.Stays V A) (h : removePipesListOption o = .ok o') :
    ∀ m ∈ o'.getD [], m.Named V A := by
  cases o with
  | none =>
    cases h
    simp
  | some ns =>
    obtain ⟨ns', hns', h⟩ := exists_ok_of_bind h
    cases h
    exact named_removePipesList ih hns'

theorem named_removePipesSegments {segments segments' : List (Segment Node)}
    (ih : ∀ m ∈ segments.map segmentChild, m.Stays V A)
    (h : removePipesSegments segments = .ok segments') :
    ∀ m ∈ segments'.map segmentChild, m.Named V A := by
  have hparts := named_of_traversed (fun s => [segmentChild s]) removePipesSegments rfl segments
    (fun segment hmem rest bs h => by
      have hstays := ih _ (List.mem_map_of_mem hmem)
      cases segment
      all_goals
        obtain ⟨n', hn', h⟩ := exists_ok_of_bind h
        obtain ⟨rest', hrest, h⟩ := exists_ok_of_bind h
        cases h
        exact ⟨_, rest', by simpa [segmentChild] using hstays n' hn', hrest, rfl⟩) h
  simpa using hparts

theorem named_removePipesEntries {entries entries' : List (Node × Node)}
    (ih : ∀ m ∈ entryChildren entries, m.Stays V A) (h : removePipesEntries entries = .ok entries') :
    ∀ m ∈ entryChildren entries', m.Named V A := by
  refine List.forall_mem_flatMap.mpr (named_of_traversed _ removePipesEntries rfl entries
    (fun (k, v) hmem rest bs h => ?_) h)
  obtain ⟨k', hk, h⟩ := exists_ok_of_bind h
  obtain ⟨v', hv, h⟩ := exists_ok_of_bind h
  obtain ⟨rest', hrest, h⟩ := exists_ok_of_bind h
  cases h
  have hkey := ih k (List.mem_flatMap.mpr ⟨_, hmem, by simp⟩) k' hk
  have hvalue := ih v (List.mem_flatMap.mpr ⟨_, hmem, by simp⟩) v' hv
  exact ⟨_, rest', by simp [hkey, hvalue], hrest, rfl⟩

theorem named_removePipesFields {fields fields' : List (String × Node)}
    (ih : ∀ m ∈ fields.map (·.2), m.Stays V A) (h : removePipesFields fields = .ok fields') :
    ∀ m ∈ fields'.map (·.2), m.Named V A := by
  have hparts := named_of_traversed (fun (field : String × Node) => [field.2]) removePipesFields rfl
    fields (fun (name, v) hmem rest bs h => by
      obtain ⟨v', hv, h⟩ := exists_ok_of_bind h
      obtain ⟨rest', hrest, h⟩ := exists_ok_of_bind h
      cases h
      exact ⟨_, rest', by simpa using ih v (List.mem_map_of_mem hmem) v' hv, hrest, rfl⟩) h
  exact List.forall_mem_map.mpr fun field hmem => hparts field hmem field.2 (by simp)

theorem named_removePipesQualifiers {qualifiers qualifiers' : List (Qualifier Node)}
    (ih : ∀ m ∈ qualifiers.flatMap qualifierChildren, m.Stays V A)
    (h : removePipesQualifiers qualifiers = .ok qualifiers') :
    ∀ m ∈ qualifiers'.flatMap qualifierChildren, m.Named V A := by
  refine List.forall_mem_flatMap.mpr (named_of_traversed _ removePipesQualifiers rfl qualifiers
    (fun qualifier hmem rest bs h => ?_) h)
  have hstays : ∀ m ∈ qualifierChildren qualifier, m.Stays V A :=
    fun m hm => ih m (List.mem_flatMap.mpr ⟨_, hmem, hm⟩)
  cases qualifier with
  | generator pattern collection =>
    obtain ⟨p', hp, h⟩ := exists_ok_of_bind h
    obtain ⟨c', hc, h⟩ := exists_ok_of_bind h
    obtain ⟨rest', hrest, h⟩ := exists_ok_of_bind h
    cases h
    have hpattern := hstays pattern (by simp [qualifierChildren]) p' hp
    have hcollection := hstays collection (by simp [qualifierChildren]) c' hc
    exact ⟨_, rest', by simp [qualifierChildren, hpattern, hcollection], hrest, rfl⟩
  | filter condition =>
    obtain ⟨c', hc, h⟩ := exists_ok_of_bind h
    obtain ⟨rest', hrest, h⟩ := exists_ok_of_bind h
    cases h
    have hcondition := hstays condition (by simp [qualifierChildren]) c' hc
    exact ⟨_, rest', by simp [qualifierChildren, hcondition], hrest, rfl⟩

theorem Named.headChildren {head : List Node} (h : ∀ m ∈ head, m.Named V A) :
    ∀ m ∈ headChildren head, m.Named V A := by
  unfold Node.headChildren
  split
  next patterns guard => exact (named_iff.mp (h (.guarded patterns guard) (by simp))).2
  · exact h

theorem Named.definitionChildren {head : Node} (h : head.Named V A) :
    ∀ m ∈ definitionChildren head, m.Named V A := by
  unfold Node.definitionChildren
  split
  · exact (named_iff.mp h).2
  · simp
  next name args info guard =>
    have hparts := (named_iff.mp h).2
    simp only [children, List.singleton_append, List.forall_mem_cons] at hparts
    have hargs := (named_iff.mp hparts.1).2
    exact List.forall_mem_append.mpr ⟨hargs, by simpa using hparts.2⟩
  next name guard =>
    have hparts := (named_iff.mp h).2
    simp only [children, List.singleton_append, List.forall_mem_cons] at hparts
    simpa using hparts.2
  · simpa using h

theorem named_removePipesHead {head head' : List Node} (ih : ∀ m ∈ headChildren head, m.Stays V A)
    (h : removePipesList head = .ok head') : ∀ m ∈ headChildren head', m.Named V A := by
  unfold Node.headChildren at ih
  split at ih
  next patterns guard =>
    obtain ⟨g, hg, h⟩ := exists_ok_of_bind h
    cases h
    rw [removePipes] at hg
    obtain ⟨patterns', hpatterns, hg⟩ := exists_ok_of_bind hg
    obtain ⟨guard', hguard, hg⟩ := exists_ok_of_bind hg
    cases hg
    simp only [List.forall_mem_append, List.forall_mem_singleton] at ih
    have hpatterns := named_removePipesList ih.1 hpatterns
    exact List.forall_mem_append.mpr ⟨hpatterns, by simpa using ih.2 guard' hguard⟩
  · exact Named.headChildren (named_removePipesList ih h)

theorem named_removePipesClauses {clauses clauses' : List (Clause Node)}
    (ih : ∀ m ∈ clauses.flatMap clauseChildren, m.Stays V A)
    (h : removePipesClauses clauses = .ok clauses') :
    ∀ m ∈ clauses'.flatMap clauseChildren, m.Named V A := by
  refine List.forall_mem_flatMap.mpr (named_of_traversed _ removePipesClauses rfl clauses
    (fun ⟨head, body⟩ hmem rest bs h => ?_) h)
  have hstays : ∀ m ∈ clauseChildren ⟨head, body⟩, m.Stays V A :=
    fun m hm => ih m (List.mem_flatMap.mpr ⟨_, hmem, hm⟩)
  obtain ⟨head', hhead, h⟩ := exists_ok_of_bind h
  obtain ⟨body', hbody, h⟩ := exists_ok_of_bind h
  obtain ⟨rest', hrest, h⟩ := exists_ok_of_bind h
  cases h
  simp only [clauseChildren, List.forall_mem_append] at hstays
  refine ⟨_, rest', ?_, hrest, rfl⟩
  exact List.forall_mem_append.mpr
    ⟨named_removePipesHead hstays.1 hhead, named_removePipesList hstays.2 hbody⟩

theorem named_removePipesDefinition {head head' : Node}
    (ih : ∀ m ∈ definitionChildren head, m.Stays V A) (h : head.removePipes = .ok head') :
    ∀ m ∈ definitionChildren head', m.Named V A := by
  unfold Node.definitionChildren at ih
  split at ih
  next name args info =>
    rw [removePipes] at h
    obtain ⟨args', hargs, h⟩ := exists_ok_of_bind h
    cases h
    exact named_removePipesList ih hargs
  · cases h
    simp [Node.definitionChildren]
  next name args info guard =>
    rw [removePipes] at h
    obtain ⟨exprs', hexprs, h⟩ := exists_ok_of_bind h
    obtain ⟨guard', hguard, h⟩ := exists_ok_of_bind h
    cases h
    obtain ⟨call', hcall, hexprs⟩ := exists_ok_of_bind hexprs
    cases hexprs
    rw [removePipes] at hcall
    obtain ⟨args', hargs, hcall⟩ := exists_ok_of_bind hcall
    cases hcall
    simp only [List.forall_mem_append, List.forall_mem_singleton] at ih
    have hargs := named_removePipesList ih.1 hargs
    exact List.forall_mem_append.mpr ⟨hargs, by simpa using ih.2 guard' hguard⟩
  next name guard =>
    rw [removePipes] at h
    obtain ⟨exprs', hexprs, h⟩ := exists_ok_of_bind h
    obtain ⟨guard', hguard, h⟩ := exists_ok_of_bind h
    cases h
    obtain ⟨var', hvar, hexprs⟩ := exists_ok_of_bind hexprs
    cases hexprs
    cases hvar
    simpa [Node.definitionChildren] using ih guard (by simp) guard' hguard
  · exact Named.definitionChildren (ih head (by simp) head' h)

theorem named_removePipesStage {stage stage' arg n' : Node}
    (ih : ∀ m ∈ stageChildren stage, m.Stays V A) (harg : arg.Named V A)
    (h : stage.removePipes = .ok stage') (hn : stage'.withFirstArgument arg = .ok n') :
    n'.Named V A := by
  by_cases hvar : ∃ name, stage = .var name
  · obtain ⟨name, rfl⟩ := hvar
    cases h
    cases hn
    exact named_iff.mpr ⟨by simp [ownNames], by simpa [children] using harg⟩
  · have hstage : stage'.Named V A := by
      refine ih stage ?_ stage' h
      rw [stageChildren]
      · simp
      · exact fun name heq => hvar ⟨name, heq⟩
    obtain ⟨hown, hchildren⟩ := named_iff.mp hstage
    unfold withFirstArgument at hn
    split at hn <;> cases hn
    all_goals
      refine named_iff.mpr ⟨by simp [ownNames], ?_⟩
      simp only [children, List.forall_mem_cons, Option.getD_some, List.not_mem_nil,
        false_implies, implies_true, and_true] at hchildren ⊢
      grind

theorem stays (n : Node) : n.Named V A → n.Stays V A := by
  induction n using induct with | step n ih
  intro hn n' h
  obtain ⟨hown, hchildren⟩ := named_iff.mp hn
  replace ih : ∀ m ∈ n.children, m.Stays V A := fun m hm => ih m hm (hchildren m hm)
  clear hchildren
  cases n
  case pipe left right =>
    rw [removePipes] at h
    obtain ⟨left', hleft, h⟩ := exists_ok_of_bind h
    obtain ⟨right', hright, h⟩ := exists_ok_of_bind h
    simp only [children, List.forall_mem_cons] at ih
    exact named_removePipesStage ih.2 (ih.1 left' hleft) hright h
  all_goals
    simp only [removePipes, bind_eq_ok_iff, pure, Except.pure, Except.ok.injEq] at h
    simp only [children, List.forall_mem_append, List.forall_mem_cons, List.not_mem_nil,
      false_implies, implies_true, and_true] at ih
  case list | tuple | block | call | module =>
    obtain ⟨ns', hns, rfl⟩ := h
    exact named_iff.mpr ⟨hown, named_removePipesList ih hns⟩
  case binary =>
    obtain ⟨segments', hsegments, rfl⟩ := h
    exact named_iff.mpr ⟨hown, named_removePipesSegments ih hsegments⟩
  case map =>
    obtain ⟨entries', hentries, rfl⟩ := h
    exact named_iff.mpr ⟨hown, named_removePipesEntries ih hentries⟩
  case fn | cond =>
    obtain ⟨clauses', hclauses, rfl⟩ := h
    exact named_iff.mpr ⟨hown, named_removePipesClauses ih hclauses⟩
  case defStruct | defException =>
    obtain ⟨fields', hfields, rfl⟩ := h
    exact named_iff.mpr ⟨hown, named_removePipesFields ih hfields⟩
  case capture =>
    obtain ⟨owner', howner, rfl⟩ := h
    exact named_iff.mpr ⟨hown, named_removePipesOption ih howner⟩
  case pin | unaryOp | attributeSet =>
    obtain ⟨m', hm, rfl⟩ := h
    exact named_iff.mpr ⟨hown, by simpa [children] using ih m' hm⟩
  case bind | binaryOp =>
    obtain ⟨left', hleft, right', hright, rfl⟩ := h
    exact named_iff.mpr ⟨hown, by simpa [children] using ⟨ih.1 left' hleft, ih.2 right' hright⟩⟩
  case cons | guarded =>
    obtain ⟨ns', hns, m', hm, rfl⟩ := h
    have hns := named_removePipesList ih.1 hns
    exact named_iff.mpr ⟨hown, List.forall_mem_append.mpr ⟨hns, by simpa using ih.2 m' hm⟩⟩
  case mapUpdate =>
    obtain ⟨base', hbase, updates', hupdates, rfl⟩ := h
    have hupdates := named_removePipesEntries ih.2 hupdates
    exact named_iff.mpr ⟨hown, List.forall_mem_cons.mpr ⟨ih.1 base' hbase, hupdates⟩⟩
  case struct =>
    obtain ⟨tag', htag, fields', hfields, update', hupdate, rfl⟩ := h
    obtain ⟨⟨iht, ihf⟩, ihu⟩ := ih
    refine named_iff.mpr ⟨hown, List.forall_mem_append.mpr ⟨List.forall_mem_cons.mpr ⟨?_, ?_⟩, ?_⟩⟩
    · exact iht tag' htag
    · exact named_removePipesEntries ihf hfields
    · exact named_removePipesOption ihu hupdate
  case range =>
    obtain ⟨first', hfirst, last', hlast, step', hstep, rfl⟩ := h
    have hstep := named_removePipesOption ih.2.2 hstep
    exact named_iff.mpr ⟨hown, List.forall_mem_cons.mpr ⟨ih.1 first' hfirst,
      List.forall_mem_cons.mpr ⟨ih.2.1 last' hlast, hstep⟩⟩⟩
  case dot =>
    obtain ⟨target', htarget, args', hargs, rfl⟩ := h
    have hargs := named_removePipesListOption ih.2 hargs
    exact named_iff.mpr ⟨hown, List.forall_mem_cons.mpr ⟨ih.1 target' htarget, hargs⟩⟩
  case apply =>
    obtain ⟨callee', hcallee, args', hargs, rfl⟩ := h
    have hargs := named_removePipesList ih.2 hargs
    exact named_iff.mpr ⟨hown, List.forall_mem_cons.mpr ⟨ih.1 callee' hcallee, hargs⟩⟩
  case caseOf =>
    obtain ⟨subject', hsubject, clauses', hclauses, rfl⟩ := h
    have hclauses := named_removePipesClauses ih.2 hclauses
    exact named_iff.mpr ⟨hown, List.forall_mem_cons.mpr ⟨ih.1 subject' hsubject, hclauses⟩⟩
  case ifElse | unlessElse =>
    obtain ⟨condition', hcondition, body', hbody, otherwise', hotherwise, rfl⟩ := h
    obtain ⟨⟨ihc, ihb⟩, iho⟩ := ih
    refine named_iff.mpr ⟨hown, List.forall_mem_append.mpr ⟨List.forall_mem_cons.mpr ⟨?_, ?_⟩, ?_⟩⟩
    · exact ihc condition' hcondition
    · exact named_removePipesList ihb hbody
    · exact named_removePipesListOption iho hotherwise
  case comprehension =>
    obtain ⟨qualifiers', hqualifiers, body', hbody, into', hinto, rfl⟩ := h
    obtain ⟨⟨ihq, ihb⟩, ihi⟩ := ih
    refine named_iff.mpr ⟨hown, List.forall_mem_append.mpr ⟨List.forall_mem_append.mpr ⟨?_, ?_⟩, ?_⟩⟩
    · exact named_removePipesQualifiers ihq hqualifiers
    · exact named_removePipesList ihb hbody
    · exact named_removePipesOption ihi hinto
  case define =>
    obtain ⟨head', hhead, body', hbody, rfl⟩ := h
    have hhead := named_removePipesDefinition ih.1 hhead
    exact named_iff.mpr ⟨hown,
      List.forall_mem_append.mpr ⟨hhead, named_removePipesList ih.2 hbody⟩⟩
  case raise =>
    obtain ⟨exception', hexception, attributes', hattributes, rfl⟩ := h
    have hattributes := named_removePipesOption ih.2 hattributes
    exact named_iff.mpr ⟨hown, List.forall_mem_cons.mpr ⟨ih.1 exception' hexception, hattributes⟩⟩
  all_goals
    subst h
    exact hn

end Pipes

end TreeLowering.Source.Node
