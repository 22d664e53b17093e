import TreeLowering.Proofs.ExpressionParts

/-!
Operators that have no rule.

An operator without a rule makes its operation fail in every position. What stands around it fails
with it, as far as it is lowered at all: `refused_of_mem` is the step from an expression to the node
in which it stands, for every form. So a tree is refused if such an operator is used in any of the
expressions that are lowered. Those that stand behind a clause through which nothing falls are not.
-/
namespace TreeLowering

open Source Target LowerM Lowering Pattern

/-- The operators that have a rule. -/
def supportedOperators : List String :=
  ["+", "-", "*", "/", "==", "===", "!=", "!==", "<", "<=", ">", ">=", "and", "or", "&&", "||",
   "<>", "++", "--", "in"]

namespace Source.Node

/-- The item is lowered by its parts. -/
def isSpread : Node → Bool
  | .define .. | .attributeSet .. | .defStruct _ | .defException _ => true
  | _ => false

/-- The node is refused wherever it stands as an expression: in each position, as a guard, as an
item of a module body and at the top of a program. -/
structure Refused (n : Node) : Prop where
  positions : (positions n).Refused
  guard : ∀ alternatives, guardAlternatives n = .ok alternatives →
    ∃ g ∈ alternatives, (Lowering.positions g).value.Fails
  item : n.isSpread = false → ∀ name draft,
    (takeItem name draft (item (Lowering.positions n) n)).Fails
  top : (topLevel n).Fails

end Source.Node

variable {n m : Node}

theorem guardAlternatives_of_not_isGuarded (h : n.isGuarded = false) :
    guardAlternatives n = .ok [n] := by
  cases n with
  | guarded => cases h
  | _ => rfl

/-- A form that is lowered to statements is refused for what it is in its positions. -/
theorem refused_of_positions (hguard : n.isGuarded = false)
    (hitem : item (positions n) n = .statements (positions n).effect)
    (h : (positions n).Refused) : n.Refused where
  positions := h
  guard alternatives halternatives := by
    rw [guardAlternatives_of_not_isGuarded hguard] at halternatives
    cases halternatives
    exact ⟨n, List.mem_singleton_self n, h.value⟩
  item _ name draft := by
    rw [hitem]
    exact .bind h.effect
  top := by
    rw [topLevel, hitem]
    exact h.effect

/-- An item of a module body that is lowered by its parts is misplaced anywhere else. -/
theorem refused_of_isSpread (h : n.isSpread = true) : n.Refused := by
  have hpositions : (positions n).Refused := by
    cases n with
    | define | attributeSet | defStruct | defException => exact .misplaced _
    | _ => cases h
  refine ⟨hpositions, fun alternatives halternatives => ?_, fun hother => ?_, ?_⟩
  · have hguard : n.isGuarded = false := by
      cases n with
      | guarded => cases h
      | _ => rfl
    rw [guardAlternatives_of_not_isGuarded hguard] at halternatives
    cases halternatives
    exact ⟨n, List.mem_singleton_self n, hpositions.value⟩
  · rw [h] at hother
    cases hother
  · cases n with
    | define | attributeSet | defStruct | defException => exact hpositions.effect
    | _ => cases h

theorem refused_of_moduleDef {name : List String} {body : List Node}
    (h : ∀ full, (moduleDef full body (items body)).Fails) : (Node.module name body).Refused where
  positions := .misplaced _
  guard alternatives halternatives := by
    cases halternatives
    exact ⟨_, List.mem_singleton_self _, .fail _⟩
  item _ around draft := by
    intro c s draft' s' hrun
    rw [Lowering.item, takeItem_module] at hrun
    exact Fails.bind (h _) _ _ _ _ hrun
  top := .bind (h name)

section Parts

theorem value_mem_values {ns : List Node} (h : m ∈ ns) : (positions m).value ∈ values ns := by
  rw [values_eq_map]
  exact List.mem_map_of_mem h

theorem sequence_values_fails {ns : List Node} (hm : m ∈ ns) (h : m.Refused) :
    (LowerM.sequence (values ns)).Fails :=
  .sequence (value_mem_values hm) h.positions.value

theorem positions_mem_all {ns : List Node} (h : m ∈ ns) : positions m ∈ all ns := by
  rw [all_eq_map]
  exact List.mem_map_of_mem h

theorem optional_fails {o : Option Node} (hm : m ∈ o.toList) (h : m.Refused) :
    (LowerM.optional (optionValue o)).Fails := by
  obtain rfl := Option.mem_toList.mp hm
  rw [optionValue]
  exact .optional h.positions.value

theorem condition_fails (h : m.Refused) : (condition m (positions m).value).Fails :=
  .bind h.positions.value

/-- A key that is a string is not lowered, but then it is no more than that. -/
theorem entry_fails {key value : Node} (hm : m = key ∨ m = value) (h : m.Refused) :
    (entry key (positions key).value (positions value).value).Fails := by
  unfold entry
  split
  next name =>
    rcases hm with rfl | rfl
    · exact (h.positions.value {} {} _ _ rfl).elim
    · exact .bind h.positions.value
  next =>
    rcases hm with rfl | rfl
    · exact .bind h.positions.value
    · exact .after fun _ => .bind h.positions.value

theorem object_fails {entries : List (Node × Node)} (hm : m ∈ Node.entryChildren entries)
    (h : m.Refused) : (object (properties entries)).Fails := by
  obtain ⟨⟨key, value⟩, hmem, hm⟩ := List.mem_flatMap.mp hm
  have hentry := entry_fails (by simpa using hm) h
  rw [properties_eq]
  exact .bind (.sequence (List.mem_map_of_mem hmem) hentry)

theorem textPart_fails {segment : Segment Node} (h : (Node.segmentChild segment).Refused) :
    (textPart segment (positions (Node.segmentChild segment)).value).Fails := by
  unfold textPart
  split
  · exact (h.positions.value {} {} _ _ rfl).elim
  · exact .fail _
  · exact .bind h.positions.value

theorem exists_of_segmentsText? {segments : List (Segment Node)} {text : String}
    (h : segmentsText? segments = some text) :
    ∀ segment ∈ segments, ∃ s, segment = .plain (.string s) := by
  fun_induction segmentsText? segments generalizing text with
  | case1 => simp
  | case2 s rest ih =>
    obtain ⟨text', hrest, -⟩ := Option.map_eq_some_iff.mp h
    exact List.forall_mem_cons.mpr ⟨⟨s, rfl⟩, ih hrest⟩
  | case3 => cases h

/-- A binary runs all of its segments, unless they are text. -/
theorem binary_fails {segments : List (Segment Node)} (hm : m ∈ segments.map Node.segmentChild)
    (h : m.Refused) : (binary (segmentValues segments)).Fails := by
  obtain ⟨segment, hmem, rfl⟩ := List.mem_map.mp hm
  rw [binary, segmentValues_eq]
  split
  next text htext =>
    have hplain : segmentsText? segments = some text := by
      simpa [List.map_map, Function.comp_def] using htext
    obtain ⟨s, rfl⟩ := exists_of_segmentsText? hplain segment hmem
    exact (h.positions.value {} {} _ _ rfl).elim
  next =>
    split
    · refine .bind (.sequence ?_ (textPart_fails h))
      rw [List.map_map]
      exact List.mem_map_of_mem
        (f := fun g => textPart g (positions (Node.segmentChild g)).value) hmem
    · refine .bind (.sequence ?_ h.positions.value)
      rw [List.map_map]
      exact List.mem_map_of_mem (f := fun g => (positions (Node.segmentChild g)).value) hmem

theorem struct_fails {tag : Node} {fields : List (Node × Node)} {update : Option Node}
    (hm : m ∈ tag :: Node.entryChildren fields ++ update.toList) (h : m.Refused) :
    (LowerM.struct tag (properties fields) (optionValue update)).Fails := by
  have hparts : m = tag ∨ m ∈ Node.entryChildren fields ∨ m ∈ update.toList := by
    simpa [or_assoc] using hm
  unfold LowerM.struct
  split
  next segments base hbase =>
    cases update with
    | none => cases hbase
    | some base =>
      cases hbase
      rcases hparts with rfl | hfield | hupdate
      · exact (h.positions.value {} {} _ _ rfl).elim
      · exact .after fun _ => .bind (object_fails hfield h)
      · obtain rfl := List.mem_singleton.mp hupdate
        exact .bind h.positions.value
  next segments hnone =>
    cases update with
    | some => cases hnone
    | none =>
      rcases hparts with rfl | hfield | hupdate
      · exact (h.positions.value {} {} _ _ rfl).elim
      · exact .after fun _ => .bind (object_fails hfield h)
      · cases hupdate
  next => exact .fail _

theorem negation_fails {operand : Node} (h : operand.Refused) :
    (negation operand (positions operand).value).Fails := by
  unfold negation
  split
  · exact (h.positions.value {} {} _ _ rfl).elim
  · exact (h.positions.value {} {} _ _ rfl).elim
  · exact .bind h.positions.value

theorem unaryOperation_fails {op : String} {operand : Node} (h : operand.Refused) :
    (unaryOperation op operand (positions operand).value).Fails := by
  unfold unaryOperation
  split
  · exact negation_fails h
  · exact h.positions.value
  · exact .bind h.positions.value
  · exact .bind (condition_fails h)
  · exact .fail _

theorem namedCall_fails {args : List Node} (hm : m ∈ args) (h : m.Refused) (name : String)
    (info : CallMeta) : (namedCall name info (values args)).Fails := by
  unfold namedCall
  split
  all_goals exact .after fun _ => .bind (sequence_values_fails hm h)

/-- The target of a remote call is lowered unless it is the name of a module. -/
theorem remoteFunction_fails {target : Node} (h : target.Refused) (name : String) :
    (remoteFunction target (positions target).value name).Fails := by
  unfold remoteFunction
  split
  · exact (h.positions.value {} {} _ _ rfl).elim
  · exact (h.positions.value {} {} _ _ rfl).elim
  · exact .bind h.positions.value

theorem dotted_fails {target : Node} {args : Option (List Node)} (hm : m ∈ target :: args.getD [])
    (h : m.Refused) (name : String) (info : DotMeta) :
    (dotted target (positions target).value name (optionValues args) info).Fails := by
  cases args with
  | none =>
    obtain rfl := List.mem_singleton.mp hm
    rw [optionValues, dotted]
    split
    · exact .bind (remoteFunction_fails h name)
    · exact .bind h.positions.value
  | some args =>
    rw [optionValues, dotted]
    rcases List.mem_cons.mp hm with rfl | hm
    · exact .bind (remoteFunction_fails h name)
    · exact .after fun _ => .bind (sequence_values_fails hm h)

theorem captured_fails {owner : Node} (h : owner.Refused) (name : String) :
    (captured (some owner) name).Fails := by
  unfold captured
  split
  next heq => cases heq
  next heq =>
    cases heq
    exact (h.positions.value {} {} _ _ rfl).elim
  next heq =>
    cases heq
    exact (h.positions.value {} {} _ _ rfl).elim
  next => exact .fail _

theorem raised_fails {exception : Node} {attributes : Option Node}
    (hm : m ∈ exception :: attributes.toList) (h : m.Refused) :
    (raised exception (positions exception).value (optionValue attributes)).Fails := by
  unfold raised
  split
  next segments _ =>
    rcases List.mem_cons.mp hm with rfl | hm
    · exact (h.positions.value {} {} _ _ rfl).elim
    · exact .after fun _ => .bind (optional_fails hm h)
  next hnone =>
    cases attributes with
    | some => cases hnone
    | none =>
      obtain rfl := List.mem_singleton.mp hm
      exact .bind h.positions.value
  next => exact .fail _

theorem refused_conditional {negated : Bool} {test : Node} {body : List Node}
    {otherwise : Option (List Node)} (hm : m ∈ test :: body ++ otherwise.getD []) (h : m.Refused) :
    (Positions.conditional negated (condition test (positions test).value) (all body)
      (optionAll otherwise)).Refused := by
  have hparts : m = test ∨ m ∈ body ∨ m ∈ otherwise.getD [] := by simpa [or_assoc] using hm
  refine .conditional ?_
  rcases hparts with rfl | hbody | hotherwise
  · exact .inl (condition_fails h)
  · exact .inr ⟨positions m, .inl (positions_mem_all hbody), h.positions⟩
  · rw [optionAll_eq]
    exact .inr ⟨positions m, .inr (positions_mem_all hotherwise), h.positions⟩

theorem loops_fails {accumulator : String} {qualifiers : List (Qualifier Node)} {body : LowerM Expr}
    (h : body.Fails ∨ ∃ q ∈ qualifiers, (Node.qualifierExpression q).Refused) :
    (loops accumulator body (qualifierParts qualifiers)).Fails := by
  induction qualifiers with
  | nil =>
    rcases h with hbody | ⟨q, hq, -⟩
    · exact .bind hbody
    · cases hq
  | cons q rest ih =>
    have hrest : body.Fails ∨ (∃ q ∈ rest, (Node.qualifierExpression q).Refused) →
        (loops accumulator body (qualifierParts rest)).Fails := ih
    simp only [List.exists_mem_cons_iff] at h
    cases q with
    | generator pattern collection =>
      rw [qualifierParts, loops]
      rcases h with hbody | hfirst | hlater
      · exact .after fun _ => .after fun _ => .after fun _ => .after fun _ => .after fun _ =>
          .bind (hrest (.inl hbody))
      · exact .bind hfirst.positions.value
      · exact .after fun _ => .after fun _ => .after fun _ => .after fun _ => .after fun _ =>
          .bind (hrest (.inr hlater))
    | filter condition =>
      rw [qualifierParts, loops]
      rcases h with hbody | hfirst | hlater
      · exact .after fun _ => .bind (hrest (.inl hbody))
      · exact .bind (condition_fails hfirst)
      · exact .after fun _ => .bind (hrest (.inr hlater))

theorem comprehension_fails {qualifiers : List (Qualifier Node)} {body : List Node}
    {into : Option Node}
    (hm : m ∈ qualifiers.map Node.qualifierExpression ++ body ++ into.toList) (h : m.Refused) :
    (LowerM.comprehension (qualifierParts qualifiers) (Positions.bodyValue (all body))
      (optionValue into)).Fails := by
  unfold LowerM.comprehension
  split
  · exact .fail _
  · have hloops : (∃ q ∈ qualifiers, Node.qualifierExpression q = m) ∨ m ∈ body →
        ∀ accumulator, (loops accumulator (Positions.bodyValue (all body))
          (qualifierParts qualifiers)).Fails := by
      rintro (⟨q, hq, rfl⟩ | hbody) accumulator
      · exact loops_fails (.inr ⟨q, hq, h⟩)
      · exact loops_fails (.inl (Positions.bodyValue_fails (positions_mem_all hbody) h.positions))
    simp only [List.mem_append, List.mem_map] at hm
    rcases hm with hm | hinto
    · exact .after fun _ => .inScope (.after fun _ => .bind (hloops hm _))
    · exact .bind (optional_fails hinto h)

theorem closes_sourceClause {head patterns alternatives body : List Node}
    (h : splitHead head = .ok (patterns, alternatives)) :
    (sourceClause patterns alternatives body).closes = matchAll head := by
  unfold splitHead at h
  split at h
  next guardedPatterns guard =>
    obtain ⟨others, hothers, h⟩ := exists_ok_of_bind h
    cases h
    have hsome : alternatives ≠ [] := by
      rintro rfl
      unfold guardAlternatives at hothers
      split at hothers
      · obtain ⟨_, -, hothers⟩ := exists_ok_of_bind hothers
        cases hothers
      · cases hothers
      · cases hothers
    simp [ClauseParts.closes, sourceClause, hsome, matchAll, openNames]
  next =>
    split at h
    · cases h
    · cases h
      rfl

/-- A clause fails for its guard or for something in its body. -/
theorem sourceClause_fails {patterns alternatives body guards : List Node}
    (hguards : ∀ guard ∈ guards, guardAlternatives guard = .ok alternatives)
    (hm : m ∈ guards ++ body) (h : m.Refused) :
    (sourceClause patterns alternatives body).Fails := by
  rcases List.mem_append.mp hm with hguard | hbody
  · obtain ⟨g, hmem, hg⟩ := h.guard alternatives (hguards m hguard)
    exact .inr ⟨_, List.mem_map_of_mem hmem, .bind hg⟩
  · exact .inl (Positions.body_fails (positions_mem_all hbody) h.positions)

theorem guardAlternatives_of_clauseGuard {head patterns alternatives : List Node}
    (h : splitHead head = .ok (patterns, alternatives)) :
    ∀ guard ∈ Node.clauseGuard head, guardAlternatives guard = .ok alternatives := by
  unfold splitHead at h
  split at h
  next guardedPatterns guard =>
    obtain ⟨others, hothers, h⟩ := exists_ok_of_bind h
    cases h
    simpa [Node.clauseGuard, Node.headGuard] using hothers
  next hother =>
    intro guard hguard
    unfold Node.clauseGuard Node.headGuard at hguard
    split at hguard
    · split at hguard
      · exact (hother _ _ rfl).elim
      · cases hguard
    · cases hguard

theorem guardAlternatives_of_headGuard {head : Node} {function : String}
    {patterns alternatives : List Node}
    (h : definitionHead head = .ok (function, patterns, alternatives)) :
    ∀ guard ∈ head.headGuard, guardAlternatives guard = .ok alternatives := by
  unfold definitionHead at h
  split at h
  case h_3 | h_4 =>
    obtain ⟨others, hothers, h⟩ := exists_ok_of_bind h
    cases h
    simpa [Node.headGuard] using hothers
  all_goals cases h
  all_goals simp [Node.headGuard]

end Parts

section Clauses

/-- What a clause of a `case` or of an anonymous function is read as. -/
def readClause (clause : Clause Node) : Except LowerError ClauseParts := do
  let (patterns, alternatives) ← splitHead clause.head
  return sourceClause patterns alternatives clause.body

theorem readClause_fails {clause : Clause Node} (hm : m ∈ Node.clauseExpressions clause)
    (h : m.Refused) : ∀ parts, readClause clause = .ok parts → parts.Fails := by
  intro parts hparts
  obtain ⟨⟨patterns, alternatives⟩, hhead, hparts⟩ := exists_ok_of_bind hparts
  cases hparts
  exact sourceClause_fails (guardAlternatives_of_clauseGuard hhead) hm h

theorem readClause_closes {clause : Clause Node} (h : matchAll clause.head = false) :
    ∀ parts, readClause clause = .ok parts → parts.closes = false := by
  intro parts hparts
  obtain ⟨⟨patterns, alternatives⟩, hhead, hparts⟩ := exists_ok_of_bind hparts
  cases hparts
  rw [closes_sourceClause hhead, h]

/-- The clauses around one that is tried. -/
theorem clauseParts_around {clauses : List (Clause Node)}
    (hm : m ∈ (upTo (fun clause => matchAll clause.head) clauses).flatMap Node.clauseExpressions)
    (h : m.Refused) :
    ∃ before read after, clauseParts clauses = before ++ read :: after ∧
      (∀ parts, read = .ok parts → parts.Fails) ∧
      ∀ earlier ∈ before, ∀ parts, earlier = .ok parts → parts.closes = false := by
  obtain ⟨clause, hclause, hpart⟩ := List.mem_flatMap.mp hm
  obtain ⟨before, after, rfl, hbefore⟩ := exists_of_mem_upTo hclause
  refine ⟨before.map readClause, readClause clause, after.map readClause, ?_,
    readClause_fails hpart h, ?_⟩
  · rw [clauseParts_eq, List.map_append, List.map_cons]
    rfl
  · exact List.forall_mem_map.mpr fun earlier hearlier =>
      readClause_closes (hbefore earlier hearlier)

theorem cond_fails {clauses : List (Clause Node)}
    (hm : m ∈ (upTo Exits.alwaysRuns clauses).flatMap fun clause => clause.head ++ clause.body)
    (h : m.Refused) : (LowerM.cond (conditionParts clauses)).Fails := by
  obtain ⟨clause, hclause, hpart⟩ := List.mem_flatMap.mp hm
  obtain ⟨before, after, rfl, hbefore⟩ := exists_of_mem_upTo hclause
  unfold LowerM.cond
  split
  · exact .fail _
  · rw [conditionParts_eq, List.map_append, List.map_cons]
    refine condBranches_fails ?_ (List.forall_mem_map.mpr hbefore)
    rcases List.mem_append.mp hpart with hhead | hbody
    · refine .inr ⟨?_, condition m (positions m).value, ?_, condition_fails h⟩
      · -- The constant `true` is lowered, so the expression that is refused is another one.
        obtain ⟨head, body⟩ := clause
        rcases head with _ | ⟨only, _ | ⟨second, rest⟩⟩
        · rfl
        · obtain rfl := List.mem_singleton.mp hhead
          by_contra htrue
          have htrue : isAlwaysTrue m = true := by
            simpa [ConditionParts.alwaysRuns] using htrue
          cases m with
          | boolean | atom => exact h.positions.value {} {} _ _ rfl
          | _ => cases htrue
        · rfl
      · rw [conditions_eq]
        exact List.mem_map_of_mem (f := fun n => condition n (positions n).value) hhead
    · exact .inl (Positions.body_fails (positions_mem_all hbody) h.positions)

/-- A module is refused for any expression of an item that is not left out. -/
theorem moduleDef_fails {full : List String} {body : List Node}
    (hm : m ∈ (keptFrom (isLeftOut definitionHead body) [] body).flatMap Node.itemExpressions)
    (h : m.Refused) : (moduleDef full body (items body)).Fails := by
  obtain ⟨n, hn, hpart⟩ := List.mem_flatMap.mp hm
  obtain ⟨front, back, hbody, hkept⟩ := exists_of_mem_keptFrom hn
  have hmem : n ∈ body := by simp [hbody]
  rw [List.nil_append] at hkept
  cases n
  case define visibility head clauseBody =>
    refine moduleDef_fails_of_definition hbody
      (fun function patterns alternatives versions hread => ?_) hkept
    have hfails : (sourceClause patterns alternatives clauseBody).Fails :=
      sourceClause_fails (guardAlternatives_of_headGuard hread) hpart h
    exact hfails
  case attributeSet key value =>
    rw [Node.itemExpressions] at hpart
    split at hpart
    · cases hpart
    next hlisted =>
      obtain rfl := List.mem_singleton.mp hpart
      refine moduleDef_fails_of_item hmem fun draft => ?_
      rw [item, takeItem, if_neg hlisted]
      exact .bind h.positions.value
  case defStruct fields | defException fields =>
    obtain ⟨⟨name, value⟩, hfield, rfl⟩ := List.mem_map.mp hpart
    have hlowered : (name, (positions value).value) ∈ fieldValues fields := by
      rw [fieldValues_eq]
      exact List.mem_map.mpr ⟨(name, value), hfield, rfl⟩
    exact moduleDef_fails_of_struct hmem rfl hlowered h.positions.value
  all_goals
    obtain rfl := List.mem_singleton.mp hpart
    exact moduleDef_fails_of_item hmem fun draft => h.item rfl full draft

end Clauses

/-- A guard is refused for any of its alternatives. -/
theorem refused_guarded {exprs : List Node} {guard : Node} (hm : m ∈ exprs ++ [guard])
    (h : m.Refused) : (Node.guarded exprs guard).Refused where
  positions := .misplaced _
  guard alternatives halternatives := by
    unfold guardAlternatives at halternatives
    split at halternatives
    next first rest heq =>
      cases heq
      obtain ⟨others, hothers, halternatives⟩ := exists_ok_of_bind halternatives
      cases halternatives
      have hparts : m = first ∨ m = guard := by simpa using hm
      rcases hparts with rfl | rfl
      · exact ⟨m, List.mem_cons_self, h.positions.value⟩
      · obtain ⟨g, hg, hfails⟩ := h.guard others hothers
        exact ⟨g, List.mem_cons_of_mem _ hg, hfails⟩
    next => cases halternatives
    next hother => exact (hother _ _ rfl).elim
  item _ name draft := .bind (.bind (.fail _))
  top := .bind (.fail _)

/-- A node is refused for any expression that stands in it and is not left out. -/
theorem refused_of_mem (hm : m ∈ n.expressions (.lowered definitionHead)) (h : m.Refused) :
    n.Refused := by
  have hvalue := h.positions.value
  cases n
  case define | attributeSet | defStruct | defException => exact refused_of_isSpread rfl
  case module name body => exact refused_of_moduleDef fun full => moduleDef_fails hm h
  case guarded => exact refused_guarded hm h
  case integer | float | string | boolean | nil | atom | var | moduleName | attributeRead |
      importAll | importOnly | aliasAs | require => cases hm
  all_goals
    refine refused_of_positions rfl rfl ?_
    rw [Node.expressions] at hm
    rw [positions]
  case list => exact .ofValue (.bind (sequence_values_fails hm h))
  case cons head tail =>
    rcases List.mem_append.mp hm with hm | hm
    · exact .ofValue (.bind (sequence_values_fails hm h))
    · obtain rfl := List.mem_singleton.mp hm
      exact .ofValue (.after fun _ => .bind hvalue)
  case tuple => exact .ofValue (.bind (sequence_values_fails hm h))
  case binary => exact .ofValue (binary_fails hm h)
  case map => exact .ofValue (object_fails hm h)
  case mapUpdate =>
    rcases List.mem_cons.mp hm with rfl | hm
    · exact .ofValue (.bind hvalue)
    · exact .ofValue (.after fun _ => .bind (object_fails hm h))
  case struct => exact .ofValue (struct_fails hm h)
  case bind =>
    obtain rfl := List.mem_singleton.mp hm
    exact .binding hvalue
  case pin | pipe => exact .misplaced _
  case binaryOp =>
    rcases List.mem_cons.mp hm with rfl | hm
    · exact .ofValue (.bind hvalue)
    · obtain rfl := List.mem_singleton.mp hm
      exact .ofValue (.after fun _ => .bind hvalue)
  case unaryOp =>
    obtain rfl := List.mem_singleton.mp hm
    exact .ofValue (unaryOperation_fails h)
  case range =>
    rcases List.mem_cons.mp hm with rfl | hm
    · exact .ofValue (.bind hvalue)
    · rcases List.mem_cons.mp hm with rfl | hm
      · exact .ofValue (.after fun _ => .bind hvalue)
      · exact .ofValue (.after fun _ => .after fun _ => .bind (optional_fails hm h))
  case call name args info => exact .ofValue (namedCall_fails hm h name info)
  case dot name args info => exact .ofValue (dotted_fails hm h name info)
  case apply =>
    rcases List.mem_cons.mp hm with rfl | hm
    · exact .ofValue (.bind hvalue)
    · exact .ofValue (.after fun _ => .bind (sequence_values_fails hm h))
  case capture owner name arity =>
    obtain rfl := Option.mem_toList.mp hm
    exact .ofValue (captured_fails h name)
  case fn =>
    obtain ⟨before, read, after, heq, hread, hbefore⟩ := clauseParts_around hm h
    rw [heq]
    exact .ofValue (anonymousFunction_fails hread hbefore)
  case caseOf =>
    rcases List.mem_cons.mp hm with rfl | hm
    · refine .closed ?_
      unfold caseOf
      split
      · exact .fail _
      · exact .bind hvalue
    · obtain ⟨before, read, after, heq, hread, hbefore⟩ := clauseParts_around hm h
      rw [heq]
      refine .closed ?_
      unfold caseOf
      split
      · exact .fail _
      · exact .after fun _ => .after fun _ => .bind (caseBlocks_fails hread hbefore)
  case cond => exact .closed (cond_fails hm h)
  case ifElse | unlessElse => exact refused_conditional hm h
  case comprehension => exact .ofValue (comprehension_fails hm h)
  case block => exact .sequenced (positions_mem_all hm) h.positions
  case raise => exact .raising (raised_fails hm h)

theorem rules_of_unsupported {op : String} (h : op ∉ supportedOperators) :
    directOperator? op = none ∧ ∀ lib left right, indirectOperator? lib op left right = none := by
  constructor
  · unfold directOperator?
    split <;> simp_all [supportedOperators]
  · intro lib left right
    unfold indirectOperator?
    split <;> simp_all [supportedOperators]

/-- An operation without a rule is refused even if its operands are not. -/
theorem refused_of_unsupported {op : String} (h : op ∉ supportedOperators) (left right : Node) :
    (Node.binaryOp op left right).Refused := by
  obtain ⟨hdirect, hindirect⟩ := rules_of_unsupported h
  refine refused_of_positions rfl rfl ?_
  rw [positions]
  refine .ofValue (.after fun left => .after fun right => ?_)
  rw [hdirect]
  refine .after fun lib => ?_
  rw [hindirect]
  exact .fail _

theorem refused_of_usesOperator {op : String} (unsupported : op ∉ supportedOperators)
    (h : n.UsesOperator (.lowered definitionHead) op) : n.Refused := by
  induction h with
  | here => exact refused_of_unsupported unsupported _ _
  | within stands _ ih => exact refused_of_mem stands ih

theorem refused_of_writtenOut {n' : Node} {op : String} (unsupported : op ∉ supportedOperators)
    (uses : n.UsesOperator (.lowered readHead) op) (h : WrittenOut n n') : n'.Refused :=
  refused_of_usesOperator unsupported (UsesOperator.writtenOut uses h)

theorem lowerExprM_fails (h : ∀ n', WrittenOut n n' → n'.Refused) : (lowerExprM n).Fails :=
  Ensures.bind (.ofExcept fun _ => id) fun n' hn => (h n' hn).positions.value

theorem lowerProgramM_fails {nodes : List Node} (hmem : n ∈ nodes)
    (h : ∀ n', WrittenOut n n' → n'.Refused) : (lowerProgramM nodes).Fails := by
  refine Ensures.bind (.ofExcept fun _ => id) fun forms hforms => ?_
  obtain ⟨n', hmem', hn⟩ := exists_of_forall₂_mem (writtenOut_list hforms) hmem
  exact Fails.bind (.concat (List.mem_map_of_mem hmem') (h n' hn).top)

/-- An operator without a rule that is used in any expression of a tree makes lowering fail: of the
tree as an expression, and of every program in which it stands. Only the clauses that stand behind
one through which nothing falls do not count. -/
theorem unsupported_operators_are_refused (config : Config) {op : String}
    (unsupported : op ∉ supportedOperators) {node : Node}
    (uses : node.UsesOperator (.lowered readHead) op) :
    (∃ e, lowerExpr config node = .error e) ∧
      ∀ nodes, node ∈ nodes → ∃ e, lowerProgram config nodes = .error e := by
  have hrefused : ∀ n', WrittenOut node n' → n'.Refused :=
    fun n' hn => refused_of_writtenOut unsupported uses hn
  constructor
  · exact (lowerExprM_fails hrefused).error config {}
  · intro nodes hmem
    exact (lowerProgramM_fails hmem hrefused).error config {}

section Sample

def unknownOperation : Node := .binaryOp "^^^" (.var "x") (.integer 1)

/-- The guard of a clause, in a function that is an argument of a stage of a pipe, in the second
clause of a function of a module. -/
def guardedStage : Node :=
  .pipe (.var "xs") (.call "map" [.fn [⟨[.guarded [.var "x"] unknownOperation], [.var "x"]⟩]] {})

def deepModule : Node :=
  .module ["Deep"]
    [.attributeSet "doc" unknownOperation,
     .define .exported (.call "f" [.integer 0] {}) [.nil],
     .define .exported (.call "f" [.var "xs"] {}) [guardedStage],
     .define .exported (.call "f" [.var "ys"] {}) [.nil]]

theorem usesOperator_deepModule : deepModule.UsesOperator (.lowered readHead) "^^^" := by
  have hguard : guardedStage.UsesOperator (.lowered readHead) "^^^" := by
    have huses : unknownOperation.UsesOperator (.lowered readHead) "^^^" := .here
    refine .within (List.mem_cons_of_mem _ (List.mem_singleton_self _)) ?_
    refine .within (List.mem_singleton_self _) ?_
    exact .within List.mem_cons_self huses
  have hstage : guardedStage ∈ [.nil, guardedStage] := by simp
  exact .within hstage hguard

theorem unsupported_operators_are_refused_deepModule :
    "^^^" ∉ supportedOperators ∧ deepModule.UsesOperator (.lowered readHead) "^^^" ∧
      ∃ e, lowerProgram {} [.nil, deepModule] = .error e :=
  ⟨by decide, usesOperator_deepModule,
    (unsupported_operators_are_refused {} (by decide) usesOperator_deepModule).2 _ (by simp)⟩

/-- Forms with an operation without a rule behind a clause through which nothing falls. -/
def absorbingForms : List Node :=
  [.cond [⟨[.boolean true], [.integer 1]⟩, ⟨[.boolean true], [unknownOperation]⟩],
   .caseOf (.var "x") [⟨[.var "_"], [.integer 1]⟩, ⟨[.integer 0], [unknownOperation]⟩],
   .fn [⟨[.var "x"], [.integer 1]⟩, ⟨[.integer 0], [unknownOperation]⟩]]

/-- The operator is used in each of the forms, and each of them is lowered. -/
theorem unsupported_operator_behind_closing_clause :
    "^^^" ∉ supportedOperators ∧ ∀ form ∈ absorbingForms,
      form.UsesOperator .none "^^^" ∧ ∃ e, lowerExpr {} form = .ok e := by
  refine ⟨by decide, ?_⟩
  have hhere : unknownOperation.UsesOperator .none "^^^" := .here
  simp only [absorbingForms, List.forall_mem_cons]
  refine ⟨⟨.within ?_ hhere, _, rfl⟩, ⟨.within ?_ hhere, _, rfl⟩, ⟨.within ?_ hhere, _, rfl⟩,
    by simp⟩
  all_goals simp [Node.expressions, upTo, Exits.none, Node.clauseExpressions, Node.clauseGuard,
    Node.headGuard]

end Sample

end TreeLowering
