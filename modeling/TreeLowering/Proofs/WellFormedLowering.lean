import TreeLowering.Proofs.LoweredParts
import TreeLowering.Proofs.WellFormedRules

/-!
Whatever is lowered is well formed: every node in every position, every module, every program.
-/
namespace TreeLowering

open Source Target LowerM Lowering

section Nodes

/-- The node is well formed in every position, and so are the alternatives of the guard that it may
be. -/
structure LowersWellFormed (n : Node) : Prop where
  positions : (positions n).WellFormed
  guards : ∀ x ∈ guardTests (Lowering.positions n) n, x.Ensures Expr.WellFormed

theorem wellFormed_all {ns : List Node} (h : ∀ m ∈ ns, LowersWellFormed m) :
    ∀ p ∈ all ns, p.WellFormed := by
  rw [all_eq_map]
  exact List.forall_mem_map.mpr fun m hm => (h m hm).positions

theorem wellFormed_optionAll {o : Option (List Node)} (h : ∀ m ∈ o.getD [], LowersWellFormed m) :
    ∀ p ∈ optionAll o, p.WellFormed := by
  rw [optionAll_eq]
  exact wellFormed_all h

theorem wellFormed_values {ns : List Node} (h : ∀ m ∈ ns, LowersWellFormed m) :
    ∀ x ∈ values ns, x.Ensures Expr.WellFormed := by
  rw [values_eq_map]
  exact List.forall_mem_map.mpr fun m hm => (h m hm).positions.value

theorem wellFormed_optionValue {o : Option Node} (h : ∀ m ∈ o.toList, LowersWellFormed m) :
    ∀ x ∈ optionValue o, x.Ensures Expr.WellFormed := by
  cases o with
  | none => simp [optionValue]
  | some n =>
    rw [optionValue]
    rintro x ⟨⟩
    exact (h n (by simp)).positions.value

theorem wellFormed_optionValues {o : Option (List Node)} (h : ∀ m ∈ o.getD [], LowersWellFormed m) :
    ∀ xs ∈ optionValues o, ∀ x ∈ xs, x.Ensures Expr.WellFormed := by
  cases o with
  | none => simp [optionValues]
  | some ns =>
    rw [optionValues]
    rintro xs ⟨⟩
    exact wellFormed_values h

theorem wellFormed_segmentValues {segments : List (Segment Node)}
    (h : ∀ m ∈ segments.map Node.segmentChild, LowersWellFormed m) :
    ∀ p ∈ segmentValues segments, p.2.Ensures Expr.WellFormed := by
  rw [segmentValues_eq]
  exact List.forall_mem_map.mpr fun g hg =>
    (h (Node.segmentChild g) (List.mem_map_of_mem hg)).positions.value

theorem wellFormed_properties {entries : List (Node × Node)}
    (h : ∀ m ∈ Node.entryChildren entries, LowersWellFormed m) :
    ∀ x ∈ properties entries, x.Ensures Property.WellFormed := by
  rw [properties_eq]
  refine List.forall_mem_map.mpr fun e he => ?_
  have hkey := h e.1 (List.mem_flatMap.mpr ⟨e, he, by simp⟩)
  have hvalue := h e.2 (List.mem_flatMap.mpr ⟨e, he, by simp⟩)
  exact wellFormed_entry hkey.positions.value hvalue.positions.value

theorem wellFormed_headTests {head : List Node}
    (h : ∀ m ∈ Node.headChildren head, LowersWellFormed m) :
    ∀ x ∈ headTests head, x.Ensures Expr.WellFormed := by
  unfold headTests
  split
  · exact (h _ (by simp [Node.headChildren])).guards
  · simp

theorem wellFormed_clauseParts {clauses : List (Clause Node)}
    (h : ∀ m ∈ clauses.flatMap Node.clauseChildren, LowersWellFormed m) :
    ∀ parts, .ok parts ∈ clauseParts clauses → parts.WellFormed := by
  induction clauses with
  | nil => simp [clauseParts]
  | cons clause rest ih =>
    obtain ⟨head, body⟩ := clause
    rw [clauseParts]
    intro parts hparts
    rcases List.mem_cons.mp hparts with hparts | hparts
    · obtain ⟨⟨patterns, guards⟩, -, hparts⟩ := exists_ok_of_bind hparts.symm
      cases hparts
      exact
        { guards := wellFormed_headTests fun m hm => h m (by simp [Node.clauseChildren, hm])
          body := closed_body (wellFormed_all fun m hm => h m (by simp [Node.clauseChildren, hm])) }
    · exact ih (fun m hm => h m (List.mem_append_right _ hm)) parts hparts

theorem wellFormed_guarded (exprs : List Node) (guard : Node) :
    (positions (.guarded exprs guard)).WellFormed := by
  simp only [positions]
  exact .misplaced _

/-- The conditions of a branch; a guard among them is refused. -/
theorem wellFormed_conditions {head : List Node}
    (h : ∀ m ∈ Node.headChildren head, LowersWellFormed m) :
    ∀ x ∈ conditions head, x.Ensures Expr.WellFormed := by
  have hhead : ∀ m ∈ head, (positions m).WellFormed := by
    unfold Node.headChildren at h
    split at h
    · simpa using wellFormed_guarded _ _
    · exact fun m hm => (h m hm).positions
  rw [conditions_eq]
  exact List.forall_mem_map.mpr fun m hm => wellFormed_condition (hhead m hm).value

theorem wellFormed_conditionParts {clauses : List (Clause Node)}
    (h : ∀ m ∈ clauses.flatMap Node.clauseChildren, LowersWellFormed m) :
    ∀ parts ∈ conditionParts clauses, parts.WellFormed := by
  rw [conditionParts_eq]
  refine List.forall_mem_map.mpr fun clause hclause => ?_
  have hparts : ∀ m ∈ Node.headChildren clause.head ++ clause.body, LowersWellFormed m :=
    fun m hm => h m (List.mem_flatMap.mpr ⟨clause, hclause, hm⟩)
  obtain ⟨hhead, hbody⟩ := List.forall_mem_append.mp hparts
  exact ⟨wellFormed_conditions hhead, closed_body (wellFormed_all hbody)⟩

theorem wellFormed_qualifierParts {qualifiers : List (Qualifier Node)}
    (h : ∀ m ∈ qualifiers.flatMap Node.qualifierChildren, LowersWellFormed m) :
    ∀ q ∈ qualifierParts qualifiers, q.WellFormed := by
  rw [qualifierParts_eq]
  refine List.forall_mem_map.mpr fun q hq => ?_
  have hparts : ∀ m ∈ Node.qualifierChildren q, LowersWellFormed m :=
    fun m hm => h m (List.mem_flatMap.mpr ⟨q, hq, hm⟩)
  cases q with
  | generator pattern collection =>
    exact (hparts collection (by simp [Node.qualifierChildren])).positions.value
  | filter test =>
    exact wellFormed_condition (hparts test (by simp [Node.qualifierChildren])).positions.value

/-- One case per form: the rule of the form, on parts that are well formed. -/
theorem wellFormed_positions {n : Node} (h : ∀ m ∈ n.children, LowersWellFormed m) :
    (positions n).WellFormed := by
  cases n with
  | integer | float | string | boolean | nil | atom =>
    rw [positions]
    exact .ofValue (.pure (by simp))
  | var name =>
    rw [positions]
    exact .ofValue (.after fun _ => .pure (by simp))
  | moduleName segments =>
    rw [positions]
    exact .ofValue (.after fun _ => .pure (by simp))
  | list items =>
    rw [positions]
    exact .ofValue (.bind (.sequence (wellFormed_values h)) fun _ hitems =>
      .pure (Expr.wellFormed_array.mpr hitems))
  | cons head tail =>
    rw [positions]
    exact .ofValue (wellFormed_consList
      (wellFormed_values fun m hm => h m (by simp [Node.children, hm]))
      (h tail (by simp [Node.children])).positions.value)
  | tuple items =>
    rw [positions]
    exact .ofValue (wellFormed_tuple (wellFormed_values h))
  | binary segments =>
    rw [positions]
    exact .ofValue (wellFormed_binaryText (wellFormed_segmentValues h))
  | map entries =>
    rw [positions]
    exact .ofValue (wellFormed_object (wellFormed_properties h))
  | mapUpdate base updates =>
    rw [positions]
    exact .ofValue (wellFormed_mapUpdate (h base (by simp [Node.children])).positions.value
      (wellFormed_properties fun m hm => h m (by simp [Node.children, hm])))
  | struct module fields update =>
    rw [positions]
    exact .ofValue (wellFormed_struct
      (wellFormed_properties fun m hm => h m (by simp [Node.children, hm]))
      (wellFormed_optionValue fun m hm => h m (by simp_all [Node.children])))
  | bind pattern value =>
    rw [positions]
    exact .binding (h value (by simp [Node.children])).positions.value
  | binaryOp op left right =>
    rw [positions]
    exact .ofValue (wellFormed_binaryOperation op
      (h left (by simp [Node.children])).positions.value
      (h right (by simp [Node.children])).positions.value)
  | unaryOp op operand =>
    rw [positions]
    exact .ofValue (wellFormed_unaryOperation (h operand (by simp [Node.children])).positions.value)
  | range first last step =>
    rw [positions]
    exact .ofValue (wellFormed_range (h first (by simp [Node.children])).positions.value
      (h last (by simp [Node.children])).positions.value
      (wellFormed_optionValue fun m hm => h m (by simp_all [Node.children])))
  | call name args info =>
    rw [positions]
    exact .ofValue (wellFormed_namedCall (wellFormed_values h))
  | dot target name args info =>
    rw [positions]
    exact .ofValue (wellFormed_dotted (h target (by simp [Node.children])).positions.value
      (wellFormed_optionValues fun m hm => h m (by simp_all [Node.children])))
  | apply callee args =>
    rw [positions]
    exact .ofValue (wellFormed_applied (h callee (by simp [Node.children])).positions.value
      (wellFormed_values fun m hm => h m (by simp [Node.children, hm])))
  | capture owner name arity =>
    rw [positions]
    exact .ofValue (wellFormed_captured owner name)
  | fn clauses =>
    rw [positions]
    exact .ofValue (wellFormed_anonymousFunction (wellFormed_clauseParts h))
  | caseOf subject clauses =>
    rw [positions]
    exact .closed (closed_caseOf (h subject (by simp [Node.children])).positions.value
      (wellFormed_clauseParts fun m hm => h m (List.mem_cons_of_mem _ hm)))
  | cond clauses =>
    rw [positions]
    exact .closed (closed_cond (wellFormed_conditionParts h))
  | ifElse condition body otherwise | unlessElse condition body otherwise =>
    rw [positions]
    exact .conditional
      (wellFormed_condition (h condition (by simp [Node.children])).positions.value)
      (wellFormed_all fun m hm => h m (by simp [Node.children, hm]))
      (wellFormed_optionAll fun m hm => h m (by simp_all [Node.children]))
  | comprehension qualifiers body into =>
    rw [positions]
    exact .ofValue (wellFormed_comprehension
      (wellFormed_qualifierParts fun m hm =>
        h m (List.mem_append_left _ (List.mem_append_left _ hm)))
      (wellFormed_bodyValue (wellFormed_all fun m hm => h m (by simp [Node.children, hm])))
      (wellFormed_optionValue fun m hm => h m (List.mem_append_right _ hm)))
  | block items =>
    rw [positions]
    exact .sequenced (wellFormed_all h)
  | raise exception attributes =>
    rw [positions]
    exact .raising (wellFormed_raised (h exception (by simp [Node.children])).positions.value
      (wellFormed_optionValue fun m hm => h m (by simp_all [Node.children])))
  | attributeRead name =>
    rw [positions]
    exact .ofValue (wellFormed_attributeValue name)
  | _ =>
    simp only [positions]
    exact .misplaced _

theorem wellFormed_guardTests {n : Node} (hn : (positions n).WellFormed)
    (h : ∀ m ∈ n.children, LowersWellFormed m) :
    ∀ x ∈ guardTests (positions n) n, x.Ensures Expr.WellFormed := by
  unfold guardTests
  split
  next first others rest =>
    exact List.forall_mem_cons.mpr
      ⟨wellFormed_condition (h first (by simp [Node.children])).positions.value,
        (h rest (by simp [Node.children])).guards⟩
  · simpa using wellFormed_condition hn.value

theorem lowersWellFormed (n : Node) : LowersWellFormed n := by
  induction n using Node.induct with
  | step n ih => exact ⟨wellFormed_positions ih, wellFormed_guardTests (wellFormed_positions ih) ih⟩

end Nodes

section Modules

open Identifier (isReserved isReserved_escape isReserved_ofModule)

/-- Statements at the top of a program or of a module body: they are well formed but for the imports
and modules that stand there, and these declare no reserved word either. -/
structure TopWellFormed (stmts : List Stmt) : Prop where
  inside : ∀ p ∈ topParts stmts, p.WellFormed
  names : ∀ p ∈ stmtsParts stmts, p.Unreserved

namespace TopWellFormed

theorem nil : TopWellFormed [] := ⟨by simp, by simp⟩

theorem append {front back : List Stmt} (hfront : TopWellFormed front)
    (hback : TopWellFormed back) : TopWellFormed (front ++ back) := by
  constructor
  · rw [topParts_eq, List.flatMap_append, ← topParts_eq, ← topParts_eq]
    exact List.forall_mem_append.mpr ⟨hfront.inside, hback.inside⟩
  · rw [stmtsParts_eq, List.flatMap_append, ← stmtsParts_eq, ← stmtsParts_eq]
    exact List.forall_mem_append.mpr ⟨hfront.names, hback.names⟩

theorem flatten {parts : List (List Stmt)} (h : ∀ stmts ∈ parts, TopWellFormed stmts) :
    TopWellFormed parts.flatten := by
  induction parts with
  | nil => exact nil
  | cons stmts parts ih =>
    obtain ⟨hstmts, hparts⟩ := List.forall_mem_cons.mp h
    exact hstmts.append (ih hparts)

/-- Statements that may stand anywhere. -/
theorem of_wellFormed {stmts : List Stmt} (h : ∀ s ∈ stmts, s.WellFormed) :
    TopWellFormed stmts := by
  constructor
  · rw [topParts_eq, List.forall_mem_flatMap]
    intro s hs p hp
    have hparts := h s hs
    cases s with
    | imports declaration => exact (hparts (.stmt (.imports declaration)) (by simp)).1.elim
    | module definition => exact (hparts (.stmt (.module definition)) (by simp)).1.elim
    | _ => exact (hparts p hp).1
  · rw [forall_stmtsParts]
    exact fun s hs p hp => (h s hs p hp).2

end TopWellFormed

/-- The names of an import are not reserved. -/
def Target.Import.Unreserved (i : Import) : Prop := ∀ x ∈ i.binding.names, isReserved x = false

theorem topWellFormed_imports {imports : List Import} (h : ∀ i ∈ imports, i.Unreserved) :
    TopWellFormed (imports.map .imports) := by
  constructor
  · simp [topParts_eq]
  · rw [forall_stmtsParts, List.forall_mem_map]
    intro i hi
    simpa [Import.Unreserved] using h i hi

/-- A module whose functions are well formed, and whose body is but for the imports and modules
directly in it. -/
def Target.ModuleDef.WellFormed (m : ModuleDef) : Prop := TopWellFormed [.module m]

theorem Target.ModuleDef.wellFormed_mk {name : String} {imports : List Import} {body : List Stmt}
    {functions : List ModuleFunction} (hname : isReserved name = false)
    (himports : ∀ i ∈ imports, i.Unreserved) (hbody : TopWellFormed body)
    (hfunctions : ∀ f ∈ functions, f.function.WellFormed) :
    ModuleDef.WellFormed ⟨name, imports, body, functions⟩ := by
  have hparts : ∀ p ∈ moduleFunctionsParts functions, p.Proper := by
    rw [moduleFunctionsParts_eq, List.forall_mem_flatMap]
    intro f hf
    rw [moduleFunctionParts_eq]
    exact hfunctions f hf
  constructor
  · rw [topParts, topParts, List.append_nil, topStmtParts, insideParts]
    exact List.forall_mem_append.mpr ⟨hbody.inside, fun p hp => (hparts p hp).1⟩
  · rw [stmtsParts, stmtsParts, List.append_nil, stmtParts, List.forall_mem_cons, moduleParts]
    refine ⟨?_, List.forall_mem_append.mpr ⟨hbody.names, fun p hp => (hparts p hp).2⟩⟩
    refine List.forall_mem_cons.mpr ⟨hname, ?_⟩
    exact List.forall_mem_flatMap.mpr himports

theorem wellFormed_structDefaults {fields : List (String × LowerM Expr)} {isException : Bool}
    (h : ∀ f ∈ fields, f.2.Ensures Expr.WellFormed) :
    (structDefaults fields isException).Ensures fun ps => ∀ p ∈ ps, p.WellFormed := by
  refine .bind (.sequence (P := Property.WellFormed) fun x hx => ?_) fun given hgiven => ?_
  · obtain ⟨⟨field, value⟩, hf, rfl⟩ := List.mem_map.mp hx
    exact .bind (h _ hf).inFunction fun _ hvalue => .pure (by simpa using hvalue)
  split
  · refine .pure (List.forall_mem_append.mpr ⟨List.forall_mem_append.mpr ⟨by simp, hgiven⟩, ?_⟩)
    split <;> simp
  · exact .pure hgiven

theorem wellFormed_structFunctions {name : List String} {fields : List (String × LowerM Expr)}
    {isException hasOwnException : Bool} (h : ∀ f ∈ fields, f.2.Ensures Expr.WellFormed) :
    (structFunctions name fields isException hasOwnException).Ensures
      fun fs => ∀ f ∈ fs, f.function.WellFormed := by
  refine .bind (wellFormed_structDefaults h) fun defaults hdefaults => .after fun lib => ?_
  have hconstructor : FunctionDef.WellFormed ⟨"__struct__", ["$values"], [.return_
      (lib.specialForm "struct" [moduleValue name, .object defaults, .ident "$values"])]⟩ :=
    FunctionDef.wellFormed_mk.mpr
      ⟨by decide, rfl, by simpa [RuntimeLibrary.specialForm] using hdefaults⟩
  have hexception : FunctionDef.WellFormed ⟨"exception", ["$attrs"],
      [.return_ (.call (.ident "__struct__") [.ident "$attrs"])]⟩ :=
    FunctionDef.wellFormed_mk.mpr ⟨by decide, rfl, by simp⟩
  split
  · exact .pure (List.forall_mem_cons.mpr ⟨hconstructor, List.forall_mem_singleton.mpr hexception⟩)
  · exact .pure (List.forall_mem_singleton.mpr hconstructor)

theorem unreserved_importBinding {node : Node} {found : List String × ImportBinding}
    (h : importBinding node = .ok found) : ∀ x ∈ found.2.names, isReserved x = false := by
  unfold importBinding at h
  split at h
  next module =>
    cases h
    simpa [ImportBinding.names] using isReserved_ofModule module
  next module only =>
    cases h
    simp only [ImportBinding.names, List.mem_eraseDups, List.mem_map]
    rintro x ⟨⟨name, arity⟩, -, rfl⟩
    exact isReserved_escape name
  next module rename =>
    split at h
    next name _ =>
      cases h
      simpa [ImportBinding.names] using isReserved_escape name
    next => cases h
  next module rename =>
    cases h
    cases rename with
    | none => simpa [ImportBinding.names] using isReserved_ofModule module
    | some name => simpa [ImportBinding.names] using isReserved_escape name
  next => cases h

theorem unreserved_importDeclaration (node : Node) :
    (importDeclaration node).Ensures fun declaration => ∀ i ∈ declaration, i.Unreserved := by
  refine .bind (.ofExcept fun found => unreserved_importBinding)
    fun ⟨module, binding⟩ hnames => ?_
  dsimp only
  split
  · exact .fail _
  · refine .after fun c => ?_
    split
    · exact .pure (by simp)
    · exact .after fun c => .pure (by simpa [Import.Unreserved] using hnames)

/-- What a draft is made of: imports, statements that may stand at the top, clauses and fields. -/
structure ModuleDraft.WellFormed (draft : ModuleDraft) : Prop where
  imports : ∀ i ∈ draft.imports, i.Unreserved
  body : TopWellFormed draft.body
  clauses : ∀ g ∈ draft.groups, ∀ clause ∈ g.clauses, clause.2.WellFormed
  fields : ∀ d ∈ draft.structs, ∀ f ∈ d.1, f.2.Ensures Expr.WellFormed

theorem ModuleDraft.WellFormed.addStatements {draft : ModuleDraft} (h : draft.WellFormed)
    {stmts : List Stmt} (hstmts : TopWellFormed stmts) :
    ModuleDraft.WellFormed { draft with body := draft.body ++ stmts } :=
  { h with body := h.body.append hstmts }

theorem wellFormed_definitionTests (head : Node) :
    ∀ x ∈ definitionTests head, x.Ensures Expr.WellFormed := by
  unfold definitionTests
  split
  · exact (lowersWellFormed _).guards
  · simp

theorem wellFormed_fieldValues (fields : List (String × Node)) :
    ∀ f ∈ fieldValues fields, f.2.Ensures Expr.WellFormed := by
  rw [fieldValues_eq]
  exact List.forall_mem_map.mpr fun f _ => (lowersWellFormed f.2).positions.value

/-- The modules of that body are well formed under every name. -/
def ModulesWellFormed (body : List Node) : Prop :=
  ∀ name, (moduleDef name body (items body)).Ensures ModuleDef.WellFormed

theorem wellFormed_takeItem {name : List String} {draft : ModuleDraft} {node : Node}
    (hmodules : ∀ inner body, node = .module inner body → ModulesWellFormed body)
    (h : draft.WellFormed) :
    (takeItem name draft (item (positions node) node)).Ensures ModuleDraft.WellFormed := by
  cases node with
  | define visibility head body =>
    simp only [item, takeItem]
    refine .after fun ⟨function, patterns, _⟩ => .after fun attributes => ?_
    have hclause : ClauseParts.WellFormed
        ⟨patterns, definitionTests head, Positions.body (all body), some attributes⟩ :=
      ⟨wellFormed_definitionTests head, closed_body (wellFormed_all fun m _ => lowersWellFormed m)⟩
    refine .bind (P := fun groups => ∀ g ∈ groups, ∀ clause ∈ g.clauses, clause.2.WellFormed) ?_
      fun _ hgroups => .pure { h with clauses := hgroups }
    exact .ofExcept fun _ hadded =>
      forall_addClause (Q := ClauseParts.WellFormed) hclause h.clauses hadded
  | attributeSet key value =>
    simp only [item, takeItem]
    split
    · exact .pure h
    · refine .bind (lowersWellFormed value).positions.value fun value hvalue => ?_
      refine .bind (unreserved_defineAttribute key) fun target htarget => ?_
      exact .pure (h.addStatements (.of_wellFormed (by simpa using ⟨htarget, hvalue⟩)))
  | defStruct fields | defException fields =>
    simp only [item, takeItem]
    refine .pure { h with fields := List.forall_mem_append.mpr ⟨h.fields, ?_⟩ }
    simpa using wellFormed_fieldValues fields
  | module inner body =>
    have hmodule : (moduleDef (name ++ inner) body (items body) >>= fun m =>
        pure { draft with body := draft.body ++ [.module m] }).Ensures ModuleDraft.WellFormed :=
      .bind (hmodules inner body rfl _) fun m hm => .pure (h.addStatements hm)
    cases inner with
    | nil => simpa only [item, takeItem] using hmodule
    | cons first rest =>
      simp only [item, takeItem]
      exact .after fun _ => hmodule
  | importAll | importOnly | aliasAs | require =>
    simp only [item, takeItem]
    refine .bind (unreserved_importDeclaration _) fun declaration hdeclaration => ?_
    refine .pure { h with imports := List.forall_mem_append.mpr ⟨h.imports, ?_⟩ }
    simpa using hdeclaration
  | _ =>
    simp only [item, takeItem]
    exact .bind (lowersWellFormed _).positions.effect fun stmts hstmts =>
      .pure (h.addStatements (.of_wellFormed hstmts))

theorem wellFormed_takeItems {name : List String} {nodes : List Node} {draft : ModuleDraft}
    (hmodules : ∀ m ∈ nodes, ∀ inner body, m = .module inner body → ModulesWellFormed body)
    (h : draft.WellFormed) :
    (takeItems name draft (items nodes)).Ensures ModuleDraft.WellFormed := by
  induction nodes generalizing draft with
  | nil =>
    rw [items]
    exact .pure h
  | cons node nodes ih =>
    obtain ⟨hnode, hnodes⟩ := List.forall_mem_cons.mp hmodules
    rw [items]
    exact .bind (wellFormed_takeItem hnode h) fun middle hmiddle => ih hnodes hmiddle

/-- A module is well formed when the modules inside of it are. -/
theorem modulesWellFormed_of_inner {body : List Node}
    (hmodules : ∀ m ∈ body, ∀ inner body', m = .module inner body' → ModulesWellFormed body') :
    ModulesWellFormed body := by
  refine fun name => .inModule ?_
  refine .bind (wellFormed_takeItems hmodules ⟨by simp, .nil, by simp, by simp⟩)
    fun draft hdraft => ?_
  have hgenerated :
      (structsFunctions name draft).Ensures fun fs => ∀ f ∈ fs, f.function.WellFormed := by
    unfold structsFunctions
    split
    · exact .pure (by simp)
    next fields isException hstructs =>
      exact wellFormed_structFunctions (hdraft.fields (fields, isException) (by simp [hstructs]))
    · exact .fail _
  refine .bind hgenerated fun generated hgenerated => ?_
  refine .bind (.sequence (P := fun f => f.function.WellFormed) fun x hx => ?_)
    fun functions hfunctions => ?_
  · obtain ⟨g, hg, rfl⟩ := List.mem_map.mp hx
    have hclauses : ∀ clause ∈ g.clauses.map (·.2), clause.WellFormed := by
      simpa using fun clause visibility hclause => hdraft.clauses g hg (visibility, clause) hclause
    exact .bind (wellFormed_clausesFunction (isReserved_escape g.name) hclauses).inFunction
      fun f hf => .pure hf
  · exact .pure (ModuleDef.wellFormed_mk (isReserved_ofModule name) hdraft.imports hdraft.body
      (List.forall_mem_append.mpr ⟨hgenerated, hfunctions⟩))

theorem modulesWellFormed (node : Node) (inner : List String) (body : List Node)
    (h : node = .module inner body) : ModulesWellFormed body := by
  induction node using Node.induct generalizing inner body with
  | step node ih =>
    subst h
    exact modulesWellFormed_of_inner fun m hm => ih m hm

end Modules

section Programs

theorem wellFormed_topLevel (node : Node) : (topLevel node).Ensures TopWellFormed := by
  have heffect : (positions node).effect.Ensures TopWellFormed :=
    fun c s stmts s' hrun =>
      .of_wellFormed ((lowersWellFormed node).positions.effect c s stmts s' hrun)
  unfold topLevel
  cases node with
  | module inner body =>
    simp only [item]
    exact .bind (modulesWellFormed _ inner body rfl inner) fun m hm => .pure hm
  | importAll | importOnly | aliasAs | require =>
    simp only [item]
    refine .bind (unreserved_importDeclaration _) fun declaration hdeclaration => .pure ?_
    exact topWellFormed_imports (by simpa using hdeclaration)
  | _ => simpa only [item] using heffect

theorem wellFormed_lowerExprM (node : Node) : (lowerExprM node).Ensures Expr.WellFormed :=
  .after fun plain => (lowersWellFormed plain).positions.value

theorem wellFormed_lowerProgramM (nodes : List Node) :
    (lowerProgramM nodes).Ensures fun program => TopWellFormed program.body := by
  refine .after fun plain => .bind (P := TopWellFormed) ?_ fun _ hstmts => .pure hstmts
  refine .bind (.sequence (P := TopWellFormed) fun x hx => ?_) fun parts hparts =>
    .pure (.flatten hparts)
  obtain ⟨node, -, rfl⟩ := List.mem_map.mp hx
  exact wellFormed_topLevel node

end Programs

end TreeLowering
