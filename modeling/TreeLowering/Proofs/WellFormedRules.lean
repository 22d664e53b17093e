import TreeLowering.Call
import TreeLowering.Collection
import TreeLowering.Comprehension
import TreeLowering.Position
import TreeLowering.Proofs.Ensures
import TreeLowering.Proofs.PatternRules
import TreeLowering.Proofs.WellFormed

/-!
Every rule of the lowering builds well-formed trees from well-formed parts.

A rule is given the steps of its parts, so what the parts ensure is a hypothesis here. Bodies are
the point: what stands at the end of one must be closed, that is, end in a return or a throw. No
spelling of a name is a word that the target reserves: none of these holds a `$`, and a name that
comes out as such a word gets one.
-/
namespace TreeLowering

open Source Target LowerM

namespace Identifier

theorem isReserved_of_dollar {x : String} (h : '$' ∈ x.toList) : isReserved x = false := by
  have hwords : ∀ word ∈ reserved, '$' ∉ word.toList := by decide
  rw [isReserved, List.contains_eq_mem, decide_eq_false_iff_not]
  exact fun hmem => hwords x hmem h

theorem isReserved_escape (name : String) : isReserved (escape name) = false := by
  unfold escape
  extract_lets spelled
  split
  next => exact isReserved_of_dollar (by simp)
  next h => exact Bool.eq_false_iff.mpr h

theorem isReserved_ofModule (segments : List String) : isReserved (ofModule segments) = false :=
  isReserved_escape _

theorem isReserved_versioned {base : String} (h : isReserved base = false) (version : Nat) :
    isReserved (versioned base version) = false := by
  unfold versioned
  split
  · exact h
  · exact isReserved_of_dollar (by simp)

theorem isReserved_invented (stem : String) (n : Nat) : isReserved (invented stem n) = false :=
  isReserved_of_dollar (by simp [invented])

end Identifier

open Identifier (isReserved isReserved_of_dollar isReserved_escape isReserved_versioned
  isReserved_invented)

section Names

theorem State.isReserved_variableBase (s : State) (name : String) :
    isReserved (s.variableBase name) = false := by
  unfold State.variableBase
  extract_lets escaped
  split
  · exact isReserved_of_dollar (by simp [Identifier.besideFunction])
  · exact isReserved_escape name

theorem unreserved_bindVariable (name : String) :
    (bindVariable name).Ensures fun x => isReserved x = false :=
  .after fun s => .after fun _ => .pure (isReserved_versioned (s.isReserved_variableBase name) _)

theorem unreserved_bindVariables (names : List String) :
    (bindVariables names).Ensures fun xs => ∀ x ∈ xs, isReserved x = false := by
  refine .sequence fun step hstep => ?_
  obtain ⟨name, -, rfl⟩ := List.mem_map.mp hstep
  exact unreserved_bindVariable name

theorem unreserved_invent (stem : String) :
    (invent stem).Ensures fun x => isReserved x = false :=
  .after fun _ => .after fun _ => .pure (isReserved_invented stem _)

theorem unreserved_defineAttribute (name : String) :
    (defineAttribute name).Ensures fun x => isReserved x = false :=
  .after fun _ => .after fun _ =>
    .pure (isReserved_versioned (isReserved_of_dollar (by simp [Identifier.ofAttribute])) _)

end Names

/-- Statements that control does not leave by their end. -/
def Closed (stmts : List Stmt) : Prop :=
  Stmt.lastIsTerminal stmts = true ∧ ∀ s ∈ stmts, s.WellFormed

theorem Closed.append {front back : List Stmt} (hfront : ∀ s ∈ front, s.WellFormed)
    (hback : Closed back) : Closed (front ++ back) :=
  ⟨Stmt.lastIsTerminal_append hback.1, List.forall_mem_append.mpr ⟨hfront, hback.2⟩⟩

/-- A node that is well formed in every position. -/
structure Positions.WellFormed (p : Positions) : Prop where
  value : p.value.Ensures Expr.WellFormed
  tail : p.tail.Ensures Closed
  effect : p.effect.Ensures fun stmts => ∀ s ∈ stmts, s.WellFormed

@[simp]
theorem wellFormed_atomValue (name : String) : (atomValue name).WellFormed := by
  unfold atomValue
  repeat' split
  all_goals simp

@[simp]
theorem wellFormed_moduleValue (segments : List String) : (moduleValue segments).WellFormed :=
  wellFormed_atomSymbol _

section Values

variable {x y : LowerM Expr} {xs : List (LowerM Expr)} {entries : List (LowerM Property)}
  {o : Option (LowerM Expr)}

theorem wellFormed_moduleMember (segments : List String) (function : String) :
    (moduleMember segments function).Ensures Expr.WellFormed := by
  unfold moduleMember
  refine .after fun module => .after fun config => ?_
  split
  · exact .after fun lib => .pure (by simp [RuntimeLibrary.moduleFunction])
  · refine .after fun s => ?_
    split <;> exact .pure (by simp)

theorem wellFormed_consList (hxs : ∀ x ∈ xs, x.Ensures Expr.WellFormed)
    (hx : x.Ensures Expr.WellFormed) : (consList xs x).Ensures Expr.WellFormed :=
  .bind (.sequence hxs) fun _ hhead => .bind hx fun _ htail =>
    .pure (by simpa [htail] using hhead)

theorem wellFormed_tuple (hxs : ∀ x ∈ xs, x.Ensures Expr.WellFormed) :
    (tuple xs).Ensures Expr.WellFormed :=
  .bind (.sequence hxs) fun _ hitems =>
    .after fun _ => .pure (by simpa [RuntimeLibrary.tuple] using hitems)

theorem wellFormed_textPart {segment : Segment Node} (hx : x.Ensures Expr.WellFormed) :
    (textPart segment x).Ensures Expr.WellFormed := by
  unfold textPart
  split
  · exact .pure (by simp)
  · exact .fail _
  · exact .bind hx fun value hvalue =>
      .after fun _ => .pure (by simp [RuntimeLibrary.display, hvalue])

theorem wellFormed_binaryText {segments : List (Segment Node × LowerM Expr)}
    (h : ∀ p ∈ segments, p.2.Ensures Expr.WellFormed) :
    (LowerM.binary segments).Ensures Expr.WellFormed := by
  unfold LowerM.binary
  split
  · exact .pure (by simp)
  · split
    · refine .bind (.sequence (P := Expr.WellFormed) fun x hx => ?_) fun parts hparts => .pure ?_
      · obtain ⟨p, hp, rfl⟩ := List.mem_map.mp hx
        exact wellFormed_textPart (h p hp)
      · cases hjoined : Expr.joined .add parts with
        | none => simp
        | some text => exact Expr.wellFormed_joined hparts hjoined
    · refine .bind (.sequence fun x hx => ?_) fun items hitems => .pure (by simpa using hitems)
      obtain ⟨p, hp, rfl⟩ := List.mem_map.mp hx
      exact h p hp

theorem wellFormed_entry {key : Node} (hx : x.Ensures Expr.WellFormed)
    (hy : y.Ensures Expr.WellFormed) : (entry key x y).Ensures Property.WellFormed := by
  unfold entry
  split
  · exact .bind hy fun _ hvalue => .pure (by simpa using hvalue)
  · exact .bind hx fun _ hkey => .bind hy fun _ hvalue => .pure (by simp [hkey, hvalue])

theorem wellFormed_object (h : ∀ e ∈ entries, e.Ensures Property.WellFormed) :
    (object entries).Ensures Expr.WellFormed :=
  .bind (.sequence h) fun _ hentries => .pure (by simpa using hentries)

theorem wellFormed_mapUpdate (hx : x.Ensures Expr.WellFormed)
    (h : ∀ e ∈ entries, e.Ensures Property.WellFormed) :
    (mapUpdate x entries).Ensures Expr.WellFormed :=
  .bind hx fun _ hbase => .bind (wellFormed_object h) fun _ hupdates =>
    .after fun _ => .pure (by simp [RuntimeLibrary.specialForm, hbase, hupdates])

theorem wellFormed_struct {module : Node} (h : ∀ e ∈ entries, e.Ensures Property.WellFormed)
    (ho : ∀ x ∈ o, x.Ensures Expr.WellFormed) :
    (LowerM.struct module entries o).Ensures Expr.WellFormed := by
  unfold LowerM.struct
  split
  · exact wellFormed_mapUpdate (ho _ rfl) h
  · exact .bind (wellFormed_moduleMember _ _) fun _ hconstructor =>
      .bind (wellFormed_object h) fun _ hfields => .pure (by simp [hconstructor, hfields])
  · exact .fail _

theorem wellFormed_indirectOperator {lib : RuntimeLibrary} {op : String} {l r e : Expr}
    (hl : l.WellFormed) (hr : r.WellFormed) (h : indirectOperator? lib op l r = some e) :
    e.WellFormed := by
  have hstring : ∀ e : Expr, e.WellFormed → (asString e).WellFormed := by
    intro e he
    unfold asString
    split <;> simp [he]
  have hdelayed : (delayed r).WellFormed :=
    Expr.wellFormed_function.mpr
      (FunctionDef.wellFormed_mk.mpr ⟨by decide, rfl, by simpa using hr⟩)
  unfold indirectOperator? at h
  split at h <;> cases h <;> simp [hl, hr, hstring, hdelayed]

theorem wellFormed_binaryOperation (op : String) (hx : x.Ensures Expr.WellFormed)
    (hy : y.Ensures Expr.WellFormed) : (binaryOperation op x y).Ensures Expr.WellFormed := by
  refine .bind hx fun left hleft => .bind hy fun right hright => ?_
  split
  · exact .pure (by simp [hleft, hright])
  · refine .after fun lib => ?_
    split
    next value hvalue => exact .pure (wellFormed_indirectOperator hleft hright hvalue)
    · exact .fail _

theorem wellFormed_condition {node : Node} (hx : x.Ensures Expr.WellFormed) :
    (condition node x).Ensures Expr.WellFormed := by
  refine .bind hx fun value hvalue => ?_
  split
  · exact .pure hvalue
  · exact .after fun _ => .pure (by simp [RuntimeLibrary.truthy, hvalue])

theorem wellFormed_negation {operand : Node} (hx : x.Ensures Expr.WellFormed) :
    (negation operand x).Ensures Expr.WellFormed := by
  unfold negation
  split
  · split <;> exact .pure (by simp)
  · exact .pure (by simp)
  · exact .bind hx fun _ hvalue => .pure (by simpa using hvalue)

theorem wellFormed_unaryOperation {op : String} {operand : Node} (hx : x.Ensures Expr.WellFormed) :
    (unaryOperation op operand x).Ensures Expr.WellFormed := by
  unfold unaryOperation
  split
  · exact wellFormed_negation hx
  · exact hx
  · exact .bind hx fun _ hvalue => .pure (by simpa [Expr.not] using hvalue)
  · exact .bind (wellFormed_condition hx) fun _ hvalue => .pure (by simpa [Expr.not] using hvalue)
  · exact .fail _

theorem wellFormed_range (hx : x.Ensures Expr.WellFormed) (hy : y.Ensures Expr.WellFormed)
    (ho : ∀ x ∈ o, x.Ensures Expr.WellFormed) : (range x y o).Ensures Expr.WellFormed := by
  refine .bind hx fun first hfirst => .bind hy fun last hlast => ?_
  refine .bind (.optional ho) fun step hstep => .after fun lib => .pure ?_
  simpa [RuntimeLibrary.range, hfirst, hlast] using hstep

theorem wellFormed_namedCall {name : String} {info : CallMeta}
    (hxs : ∀ x ∈ xs, x.Ensures Expr.WellFormed) :
    (namedCall name info xs).Ensures Expr.WellFormed := by
  have hcall : ∀ callee : Expr, callee.WellFormed →
      (LowerM.sequence xs >>= fun args => pure (.call callee args)).Ensures Expr.WellFormed :=
    fun _ hcallee => .bind (.sequence hxs) fun _ hargs =>
      .pure (Expr.wellFormed_call.mpr ⟨hcallee, hargs⟩)
  unfold namedCall
  cases info.resolution with
  | qualified module => exact .bind (wellFormed_moduleMember _ _) hcall
  | unqualified | imported => exact hcall _ (by simp)

theorem wellFormed_remoteFunction {target : Node} {name : String}
    (hx : x.Ensures Expr.WellFormed) : (remoteFunction target x name).Ensures Expr.WellFormed := by
  unfold remoteFunction
  split
  · exact wellFormed_moduleMember _ _
  · exact .after fun _ => .pure (by simp [RuntimeLibrary.atomModuleFunction])
  · exact .bind hx fun _ hvalue => .pure (by simpa using hvalue)

theorem wellFormed_remoteCall {target : Node} {name : String} (hx : x.Ensures Expr.WellFormed)
    (hxs : ∀ x ∈ xs, x.Ensures Expr.WellFormed) :
    (remoteCall target x name xs).Ensures Expr.WellFormed :=
  .bind (wellFormed_remoteFunction hx) fun _ hcallee =>
    .bind (.sequence hxs) fun _ hargs => .pure (Expr.wellFormed_call.mpr ⟨hcallee, hargs⟩)

theorem wellFormed_dotted {target : Node} {name : String} {args : Option (List (LowerM Expr))}
    {info : DotMeta} (hx : x.Ensures Expr.WellFormed)
    (hargs : ∀ xs ∈ args, ∀ x ∈ xs, x.Ensures Expr.WellFormed) :
    (dotted target x name args info).Ensures Expr.WellFormed := by
  unfold dotted
  split
  · exact wellFormed_remoteCall hx (hargs _ rfl)
  · split
    · exact wellFormed_remoteCall hx (by simp)
    · exact .bind hx fun _ hvalue => .pure (by simp [hvalue])

theorem wellFormed_applied (hx : x.Ensures Expr.WellFormed)
    (hxs : ∀ x ∈ xs, x.Ensures Expr.WellFormed) : (applied x xs).Ensures Expr.WellFormed :=
  .bind hx fun _ hcallee => .bind (.sequence hxs) fun _ hargs =>
    .pure (Expr.wellFormed_call.mpr ⟨hcallee, hargs⟩)

theorem wellFormed_captured (owner : Option Node) (name : String) :
    (captured owner name).Ensures Expr.WellFormed := by
  unfold captured
  split
  · exact .pure (by simp)
  · exact wellFormed_moduleMember _ _
  · exact .after fun _ => .pure (by simp [RuntimeLibrary.atomModuleFunction])
  · exact .fail _

theorem wellFormed_raised {exception : Node} (hx : x.Ensures Expr.WellFormed)
    (ho : ∀ x ∈ o, x.Ensures Expr.WellFormed) : (raised exception x o).Ensures Expr.WellFormed := by
  unfold raised
  split
  · refine .bind (wellFormed_moduleMember _ _) fun constructor hconstructor => ?_
    refine .bind (.optional ho) fun attributes hattributes => .pure ?_
    cases attributes with
    | none => simp [hconstructor]
    | some attributes => simpa [hconstructor] using hattributes
  · refine .bind hx fun value hvalue => ?_
    split <;> exact .after fun _ => .pure (by simp [hvalue])
  · exact .fail _

theorem wellFormed_attributeValue (name : String) :
    (attributeValue name).Ensures Expr.WellFormed := by
  refine .after fun s => ?_
  split
  · exact .fail _
  · split <;> exact .pure (by simp)

end Values

section Patterns

open Pattern

/-- A plan of well-formed tests and accessors. -/
structure Pattern.Plan.WellFormed (plan : Plan) : Prop where
  tests : ∀ e ∈ plan.tests, e.WellFormed
  accessors : ∀ b ∈ plan.bindings, b.2.WellFormed

theorem Pattern.Plan.WellFormed.requireAll {plan : Plan} (h : plan.WellFormed) {tests : List Expr}
    (htests : ∀ e ∈ tests, e.WellFormed) : (plan.requireAll tests).WellFormed :=
  ⟨List.forall_mem_append.mpr ⟨h.tests, htests⟩, h.accessors⟩

theorem Pattern.Plan.WellFormed.require {plan : Plan} (h : plan.WellFormed) {test : Expr}
    (htest : test.WellFormed) : (plan.require test).WellFormed :=
  h.requireAll (by simpa using htest)

theorem wellFormed_constant {node : Node} {value : Expr} (h : constant? node = some value) :
    value.WellFormed := by
  unfold constant? at h
  split at h
  case h_6 => cases h; simp
  case h_7 | h_9 =>
    obtain ⟨_, -, rfl⟩ := Option.map_eq_some_iff.mp h
    simp
  all_goals cases h; try simp

theorem wellFormed_key {env : Surroundings} {node : Node} {found : Expr}
    (h : key env node = .ok found) : found.WellFormed := by
  unfold key at h
  split at h
  next value hvalue =>
    cases h
    exact wellFormed_constant hvalue
  · split at h <;> cases h <;> simp [Surroundings.moduleValue, Surroundings.pinned]

/-- The subjects of a job are well formed. -/
@[simp]
def Pattern.Job.WellFormed : Job → Prop
  | .pattern _ subject => subject.WellFormed
  | .items slot _ _ => ∀ i, (slot i).WellFormed
  | .entries subject _ => subject.WellFormed

theorem wellFormed_compiled {env : Surroundings} {job : Job} {plan plan' : Plan}
    (h : Compiled env job plan plan') (hjob : job.WellFormed) (hplan : plan.WellFormed) :
    plan'.WellFormed := by
  induction h with
  | float | negatedFloat | pin =>
    exact hplan.require (by simpa [RuntimeLibrary.equals, Surroundings.pinned] using hjob)
  | moduleName =>
    exact hplan.require (by simpa [Expr.eq, Surroundings.moduleValue] using hjob)
  | constant _ literal =>
    exact hplan.require (Expr.wellFormed_binary.mpr ⟨hjob, wellFormed_constant literal⟩)
  | @var name subject plan =>
    unfold compileVariable
    split
    · exact hplan
    · split
      next first hfirst =>
        obtain ⟨before, after, hsplit, -⟩ := List.lookup_eq_some_iff.mp hfirst
        have haccessor := hplan.accessors (name, first) (by simp [hsplit])
        exact hplan.require (by simpa [RuntimeLibrary.equals] using ⟨hjob, haccessor⟩)
      · exact ⟨hplan.tests, List.forall_mem_append.mpr ⟨hplan.accessors, by simpa using hjob⟩⟩
  | tuple _ ih =>
    exact ih (fun i => Expr.wellFormed_method.mpr ⟨hjob, by simp⟩)
      (hplan.requireAll (by simpa [RuntimeLibrary.isTuple, Expr.eq] using hjob))
  | list _ ih =>
    exact ih (fun i => Expr.wellFormed_index.mpr ⟨hjob, by simp⟩)
      (hplan.requireAll (by simpa [isArray, Expr.eq] using hjob))
  | cons _ _ ihFront ihRest =>
    have hfront := ihFront (fun i => Expr.wellFormed_index.mpr ⟨hjob, by simp⟩)
      (hplan.requireAll (by simpa [isArray] using hjob))
    exact ihRest (Expr.wellFormed_method.mpr ⟨hjob, by simp⟩) hfront
  | map _ ih => exact ih hjob (hplan.require (by simpa [RuntimeLibrary.isMap] using hjob))
  | struct _ _ ihName ihParts =>
    have hname := ihName (Expr.wellFormed_index.mpr ⟨hjob, by simp⟩)
      (hplan.require (by simpa [RuntimeLibrary.isMap] using hjob))
    exact ihParts hjob hname
  | both _ _ ihFirst ihSecond => exact ihSecond hjob (ihFirst hjob hplan)
  | start _ ih =>
    exact ih (Expr.wellFormed_method.mpr ⟨hjob, by simp⟩)
      (hplan.requireAll (by simpa [Expr.eq] using hjob))
  | noItems | noEntries => exact hplan
  | item _ _ ihHead ihTail => exact ihTail hjob (ihHead (hjob _) hplan)
  | entry under _ _ ihHead ihTail =>
    have hfound := wellFormed_key under
    have hhead := ihHead (Expr.wellFormed_index.mpr ⟨hjob, hfound⟩)
      (hplan.require (Expr.wellFormed_binary.mpr ⟨hfound, hjob⟩))
    exact ihTail hjob hhead

theorem wellFormed_compileAll {env : Surroundings} {patterns : List Node} {subjects : List Expr}
    {plan plan' : Plan} (h : compileAll env patterns subjects plan = .ok plan')
    (hsubjects : ∀ e ∈ subjects, e.WellFormed) (hplan : plan.WellFormed) : plan'.WellFormed := by
  induction patterns generalizing subjects plan with
  | nil =>
    cases h
    exact hplan
  | cons pattern patterns ih =>
    cases subjects with
    | nil =>
      cases h
      exact hplan
    | cons subject subjects =>
      obtain ⟨middle, hfirst, hrest⟩ := exists_ok_of_bind h
      obtain ⟨hsubject, hsubjects⟩ := List.forall_mem_cons.mp hsubjects
      have hcompiled := (compiled_of_ok env).1 _ _ _ _ hfirst
      exact ih hrest hsubjects (wellFormed_compiled hcompiled hsubject hplan)

theorem wellFormed_plan {patterns : List Node} {subjects : List Expr}
    (hsubjects : ∀ e ∈ subjects, e.WellFormed) :
    (plan patterns subjects).Ensures Plan.WellFormed :=
  .after fun _ => .after fun _ =>
    .ofExcept fun _ h => wellFormed_compileAll h hsubjects ⟨by simp, by simp⟩

theorem wellFormed_declare {bindings : List (String × Expr)}
    (h : ∀ b ∈ bindings, b.2.WellFormed) :
    (declare bindings).Ensures fun stmts => ∀ s ∈ stmts, s.WellFormed := by
  refine .sequence fun x hx => ?_
  obtain ⟨⟨name, accessor⟩, hb, rfl⟩ := List.mem_map.mp hx
  exact .bind (unreserved_bindVariable name) fun _ hname =>
    .pure (Stmt.wellFormed_const.mpr ⟨hname, h _ hb⟩)

theorem wellFormed_hold {stem : String} {value : Expr} (h : value.WellFormed) :
    (hold stem value).Ensures fun held => (∀ s ∈ held.1, s.WellFormed) ∧ held.2.WellFormed := by
  unfold hold
  split
  · exact .pure (by simp)
  · exact .bind (unreserved_invent stem) fun _ hname => .pure (by simpa using ⟨hname, h⟩)

theorem wellFormed_bindPattern_general {pattern : Node} {value : Expr} (h : value.WellFormed) :
    (bindPattern.general pattern value).Ensures fun bound =>
      (∀ s ∈ bound.1, s.WellFormed) ∧ bound.2.WellFormed := by
  refine .bind (wellFormed_hold h) fun ⟨held, subject⟩ ⟨hheld, hsubject⟩ => ?_
  refine .bind (wellFormed_plan (by simpa using hsubject)) fun plan hplan => ?_
  have hrest : ∀ failure : List Stmt, (∀ s ∈ failure, s.WellFormed) →
      (declare plan.bindings >>= fun declared =>
        pure (held ++ failure ++ declared, subject)).Ensures fun bound => (∀ s ∈ bound.1, s.WellFormed) ∧ bound.2.WellFormed := by
    refine fun failure hfailure => .bind (wellFormed_declare hplan.accessors) fun _ hdeclared => ?_
    refine .pure ⟨?_, hsubject⟩
    exact List.forall_mem_append.mpr ⟨List.forall_mem_append.mpr ⟨hheld, hfailure⟩, hdeclared⟩
  cases htest : plan.test with
  | none => exact hrest [] (by simp)
  | some test =>
    have htest := Expr.wellFormed_joined hplan.tests htest
    exact .after fun _ => hrest _ (by simpa [Expr.not] using ⟨htest, hsubject⟩)

theorem wellFormed_bindPattern {pattern : Node} {x : LowerM Expr} (hx : x.Ensures Expr.WellFormed) :
    (bindPattern pattern x).Ensures fun bound =>
      (∀ s ∈ bound.1, s.WellFormed) ∧ bound.2.WellFormed := by
  refine .bind hx fun value hvalue => ?_
  split
  · split
    · exact wellFormed_bindPattern_general hvalue
    · exact .bind (unreserved_bindVariable _) fun _ hname =>
        .pure (by simpa using ⟨hname, hvalue⟩)
  · exact wellFormed_bindPattern_general hvalue

end Patterns

section Positions

variable {x : LowerM Expr} {stmts : LowerM (List Stmt)} {ps : List Positions}

theorem closed_return {e : Expr} (h : e.WellFormed) : Closed [.return_ e] :=
  ⟨rfl, by simpa using h⟩

theorem closed_throw {e : Expr} (h : e.WellFormed) : Closed [.throws e] :=
  ⟨rfl, by simpa using h⟩

theorem wellFormed_immediately (h : stmts.Ensures Closed) :
    (immediately stmts).Ensures Expr.WellFormed :=
  .bind h.inScope fun _ hstmts => .pure (Expr.wellFormed_immediate.mpr hstmts)

theorem wellFormed_evaluated (h : x.Ensures Expr.WellFormed) :
    (Positions.evaluated x).Ensures fun stmts => ∀ s ∈ stmts, s.WellFormed :=
  .bind h fun _ hvalue => .pure (by simpa using hvalue)

namespace Positions

theorem WellFormed.ofValue (h : x.Ensures Expr.WellFormed) : (ofValue x).WellFormed where
  value := h
  tail := .bind h fun _ hvalue => .pure (closed_return hvalue)
  effect := wellFormed_evaluated h

theorem WellFormed.ofStatements {effect : LowerM (List Stmt)} (htail : stmts.Ensures Closed)
    (heffect : effect.Ensures fun stmts => ∀ s ∈ stmts, s.WellFormed) :
    (ofStatements stmts effect).WellFormed :=
  ⟨wellFormed_immediately htail, htail, heffect⟩

theorem WellFormed.misplaced (what : Malformed) : (misplaced what).WellFormed :=
  .ofValue (.fail _)

theorem WellFormed.closed (h : stmts.Ensures Closed) : (Positions.closed stmts).WellFormed :=
  .ofStatements h (wellFormed_evaluated (wellFormed_immediately h))

theorem WellFormed.raising (h : x.Ensures Expr.WellFormed) : (raising x).WellFormed :=
  .ofStatements (.bind h fun _ hvalue => .pure (closed_throw hvalue))
    (.bind h fun _ hvalue => .pure (by simpa using hvalue))

theorem WellFormed.binding {pattern : Node} (h : x.Ensures Expr.WellFormed) :
    (binding pattern x).WellFormed :=
  .ofStatements
    (.bind (wellFormed_bindPattern h) fun _ hbound =>
      .pure ((closed_return hbound.2).append hbound.1))
    (.bind (wellFormed_bindPattern h) fun _ hbound => .pure hbound.1)

end Positions

/-- A body ends in what its last item becomes at the end, or in the return of nil. -/
theorem closed_body (h : ∀ p ∈ ps, p.WellFormed) : (Positions.body ps).Ensures Closed := by
  fun_induction Positions.body ps with
  | case1 => exact .pure (closed_return (by simp))
  | case2 last => exact (h last (by simp)).tail
  | case3 first second rest ih =>
    refine .bind (h first (by simp)).effect fun stmts hstmts => ?_
    refine .bind (ih fun p hp => h p (List.mem_cons_of_mem _ hp)) fun more hmore => ?_
    exact .pure (hmore.append hstmts)

theorem wellFormed_bodyValue (h : ∀ p ∈ ps, p.WellFormed) :
    (Positions.bodyValue ps).Ensures Expr.WellFormed := by
  unfold Positions.bodyValue
  split
  · exact .pure (by simp)
  · exact (h _ (by simp)).value.inScope
  · exact wellFormed_immediately (closed_body h)

theorem Positions.WellFormed.sequenced (h : ∀ p ∈ ps, p.WellFormed) :
    (Positions.sequenced ps).WellFormed := by
  refine .ofStatements (closed_body h) (.bind (.sequence (P := fun stmts => ∀ s ∈ stmts,
    Stmt.WellFormed s) fun x hx => ?_) fun parts hparts => .pure fun s hs => ?_)
  · obtain ⟨p, hp, rfl⟩ := List.mem_map.mp hx
    exact (h p hp).effect
  · obtain ⟨stmts, hstmts, hs⟩ := List.mem_flatten.mp hs
    exact hparts stmts hstmts s hs

theorem forall_branches {α : Type} {P : α → Prop} {negated : Bool} {a b : α} (ha : P a) (hb : P b) :
    P (Positions.branches negated a b).1 ∧ P (Positions.branches negated a b).2 := by
  cases negated
  · exact ⟨ha, hb⟩
  · exact ⟨hb, ha⟩

theorem Positions.WellFormed.conditional {negated : Bool} {qs : List Positions}
    (hx : x.Ensures Expr.WellFormed) (hps : ∀ p ∈ ps, p.WellFormed)
    (hqs : ∀ p ∈ qs, p.WellFormed) : (Positions.conditional negated x ps qs).WellFormed := by
  have hvalue : (Positions.conditional negated x ps qs).value.Ensures Expr.WellFormed := by
    refine .bind hx fun test htest => ?_
    refine .bind (wellFormed_bodyValue hps) fun a ha =>
      .bind (wellFormed_bodyValue hqs) fun b hb => ?_
    exact .pure (Expr.wellFormed_conditional.mpr ⟨htest, forall_branches ha hb⟩)
  refine ⟨hvalue, ?_, wellFormed_evaluated hvalue⟩
  refine .bind hx fun test htest => ?_
  refine .bind (closed_body hps).inScope fun a ha => .bind (closed_body hqs).inScope fun b hb => ?_
  obtain ⟨hconsequent, halternate⟩ :
      Closed (Positions.branches negated a b).1 ∧ Closed (Positions.branches negated a b).2 :=
    forall_branches ha hb
  refine .pure ⟨?_, by simpa using ⟨htest, hconsequent.2, halternate.2⟩⟩
  exact Bool.and_eq_true_iff.mpr ⟨hconsequent.1, halternate.1⟩

end Positions

section Clauses

/-- A clause whose guards and body are well formed. -/
structure ClauseParts.WellFormed (clause : ClauseParts) : Prop where
  guards : ∀ x ∈ clause.guards, x.Ensures Expr.WellFormed
  body : clause.body.Ensures Closed

structure ConditionParts.WellFormed (clause : ConditionParts) : Prop where
  tests : ∀ x ∈ clause.tests, x.Ensures Expr.WellFormed
  body : clause.body.Ensures Closed

theorem wellFormed_behind {test : Option Expr} {body : List Stmt} (htest : ∀ e ∈ test, e.WellFormed)
    (hbody : ∀ s ∈ body, s.WellFormed) : (behind test body).WellFormed := by
  cases test with
  | none => simpa [behind] using hbody
  | some test => simpa [behind] using ⟨htest test rfl, hbody⟩

theorem wellFormed_clauseBlock {preconditions : List Expr} {clause : ClauseParts}
    {subjects : List Expr} (hpreconditions : ∀ e ∈ preconditions, e.WellFormed)
    (hclause : clause.WellFormed) (hsubjects : ∀ e ∈ subjects, e.WellFormed) :
    (clauseBlock preconditions clause subjects).Ensures Stmt.WellFormed := by
  refine .inScope (.bind (wellFormed_plan hsubjects) fun plan hplan => ?_)
  have htest : ∀ e ∈ Expr.all (preconditions ++ plan.tests), e.WellFormed := fun e he =>
    Expr.wellFormed_joined (List.forall_mem_append.mpr ⟨hpreconditions, hplan.tests⟩) he
  refine .bind (wellFormed_declare hplan.accessors) fun declared hdeclared => ?_
  split
  · refine .bind hclause.body fun body hbody => .pure (wellFormed_behind htest ?_)
    exact List.forall_mem_append.mpr ⟨hdeclared, hbody.2⟩
  · refine .bind (.sequence hclause.guards) fun guards hguards => ?_
    refine .bind hclause.body fun body hbody => .pure (wellFormed_behind htest ?_)
    refine List.forall_mem_append.mpr ⟨hdeclared, ?_⟩
    have hguard : ((Expr.any guards).getD (.bool true)).WellFormed := by
      cases hany : Expr.any guards with
      | none => simp
      | some guard => exact Expr.wellFormed_joined hguards hany
    simpa using ⟨hguard, hbody.2⟩

theorem closed_closedBy {error : Expr} {stmts : List Stmt} (herror : error.WellFormed)
    (hstmts : ∀ s ∈ stmts, s.WellFormed) : Closed (closedBy (.throws error) stmts) := by
  unfold closedBy
  split
  next hlast => exact ⟨hlast, hstmts⟩
  · exact (closed_throw herror).append hstmts

theorem wellFormed_caseBlocks {subject : Expr} (hsubject : subject.WellFormed)
    {clauses : List (Except LowerError ClauseParts)}
    (h : ∀ clause, .ok clause ∈ clauses → clause.WellFormed) :
    (caseBlocks subject clauses).Ensures fun stmts => ∀ s ∈ stmts, s.WellFormed := by
  induction clauses with
  | nil => exact .pure (by simp)
  | cons read rest ih =>
    refine .bind (P := ClauseParts.WellFormed) ?_ fun clause hclause => ?_
    · exact .ofExcept fun clause hclause => h clause (by simp [hclause])
    split
    · exact .fail _
    refine .bind (wellFormed_clauseBlock (by simp) hclause (by simpa using hsubject))
      fun block hblock => ?_
    split
    · exact .pure (by simpa using hblock)
    · refine .bind (ih fun clause hclause => h clause (List.mem_cons_of_mem _ hclause))
        fun blocks hblocks => ?_
      exact .pure (List.forall_mem_cons.mpr ⟨hblock, hblocks⟩)

theorem closed_caseOf {x : LowerM Expr} (hx : x.Ensures Expr.WellFormed)
    {clauses : List (Except LowerError ClauseParts)}
    (h : ∀ clause, .ok clause ∈ clauses → clause.WellFormed) :
    (caseOf x clauses).Ensures Closed := by
  unfold caseOf
  split
  · exact .fail _
  refine .bind hx fun value hvalue => ?_
  refine .bind (wellFormed_hold hvalue) fun ⟨held, subject⟩ ⟨hheld, hsubject⟩ => ?_
  refine .bind (wellFormed_caseBlocks hsubject h) fun blocks hblocks => .after fun lib => ?_
  exact .pure (closed_closedBy (by simpa using hsubject)
    (List.forall_mem_append.mpr ⟨hheld, hblocks⟩))

theorem closed_condBranches {clauses : List ConditionParts}
    (h : ∀ clause ∈ clauses, clause.WellFormed) : (condBranches clauses).Ensures Closed := by
  fun_induction condBranches clauses with
  | case1 => exact .after fun lib => .pure (closed_throw (lib.wellFormed_error.mpr (by simp)))
  | case2 clause rest condition test htests hhead htrue =>
    refine .bind (h clause (by simp)).body.inScope fun body hbody => .pure ?_
    exact ⟨by simpa [Stmt.lastIsTerminal, Stmt.isTerminal] using hbody.1, by simpa using hbody.2⟩
  | case3 clause rest condition test htests hhead hfalse ih =>
    refine .bind ((h clause (by simp)).tests test (by simp [htests])) fun test htest => ?_
    refine .bind (h clause (by simp)).body.inScope fun body hbody => ?_
    refine .bind (ih fun clause hclause => h clause (List.mem_cons_of_mem _ hclause))
      fun branches hbranches => .pure ?_
    have hfirst : ∀ s ∈ [Stmt.when_ test (.block body)], s.WellFormed := by
      simpa using ⟨htest, hbody.2⟩
    exact hbranches.append hfirst
  | case4 => exact .fail _

theorem closed_cond {clauses : List ConditionParts} (h : ∀ clause ∈ clauses, clause.WellFormed) :
    (LowerM.cond clauses).Ensures Closed := by
  unfold LowerM.cond
  split
  · exact .fail _
  · exact closed_condBranches h

theorem wellFormed_arityTests (arity most : Nat) : ∀ e ∈ arityTests arity most, e.WellFormed := by
  unfold arityTests
  split <;> split <;> simp [Expr.ne, Expr.eq]

theorem wellFormed_functionBlocks {overloaded : Bool} {most : Nat} {clauses : List ClauseParts}
    (h : ∀ clause ∈ clauses, clause.WellFormed) :
    (functionBlocks overloaded most clauses).Ensures fun stmts => ∀ s ∈ stmts, s.WellFormed := by
  induction clauses with
  | nil => exact .pure (by simp)
  | cons clause rest ih =>
    have hpreconditions : ∀ e ∈ (if overloaded then arityTests clause.patterns.length most else []),
        e.WellFormed := by
      split
      · exact wellFormed_arityTests _ _
      · simp
    refine .bind
      (wellFormed_clauseBlock hpreconditions (h clause (by simp)) (by simp)).withAttributes
      fun block hblock => ?_
    split
    · exact .pure (by simpa using hblock)
    · refine .bind (ih fun clause hclause => h clause (List.mem_cons_of_mem _ hclause))
        fun blocks hblocks => ?_
      exact .pure (List.forall_mem_cons.mpr ⟨hblock, hblocks⟩)

theorem wellFormed_dispatch {name label : String} {clauses : List ClauseParts}
    (hname : isReserved name = false) (h : ∀ clause ∈ clauses, clause.WellFormed) :
    (dispatch name label clauses).Ensures FunctionDef.WellFormed := by
  refine .bind (wellFormed_functionBlocks h) fun blocks hblocks => .after fun lib => .pure ?_
  refine FunctionDef.wellFormed_mk.mpr ⟨?_, closed_closedBy (by simp) hblocks⟩
  exact List.forall_mem_cons.mpr
    ⟨hname, List.forall_mem_map.mpr fun i _ => isReserved_invented "arg" i⟩

theorem wellFormed_plainFunction {name : String} {params : List String} {clause : ClauseParts}
    (hname : isReserved name = false) (h : clause.WellFormed) :
    (plainFunction name params clause).Ensures FunctionDef.WellFormed :=
  .withAttributes <| .bind (unreserved_bindVariables params) fun _ hparams =>
    .bind h.body fun _ hbody =>
      .pure (FunctionDef.wellFormed_mk.mpr ⟨List.forall_mem_cons.mpr ⟨hname, hparams⟩, hbody⟩)

theorem wellFormed_clausesFunction {name label : String} {clauses : List ClauseParts}
    (hname : isReserved name = false) (h : ∀ clause ∈ clauses, clause.WellFormed) :
    (clausesFunction name label clauses).Ensures FunctionDef.WellFormed := by
  unfold clausesFunction
  split
  · split
    · split
      · exact wellFormed_plainFunction hname (h _ (by simp))
      · exact wellFormed_dispatch hname h
    · exact wellFormed_dispatch hname h
  · exact wellFormed_dispatch hname h

theorem wellFormed_anonymousFunction {clauses : List (Except LowerError ClauseParts)}
    (h : ∀ clause, .ok clause ∈ clauses → clause.WellFormed) :
    (anonymousFunction clauses).Ensures Expr.WellFormed := by
  refine .bind (.sequence (P := ClauseParts.WellFormed) fun x hx => ?_) fun clauses hclauses => ?_
  · obtain ⟨read, hread, rfl⟩ := List.mem_map.mp hx
    exact .ofExcept fun clause hclause => h clause (hclause ▸ hread)
  split
  · exact .fail _
  · split
    · exact .fail _
    · exact .bind (wellFormed_clausesFunction (by decide) hclauses).inScope fun f hf =>
        .pure (Expr.wellFormed_function.mpr hf)

end Clauses

section Comprehensions

def QualifierParts.WellFormed : QualifierParts → Prop
  | .generator _ collection => collection.Ensures Expr.WellFormed
  | .filter test => test.Ensures Expr.WellFormed

theorem wellFormed_loops {accumulator : String} {body : LowerM Expr}
    {qualifiers : List QualifierParts} (hbody : body.Ensures Expr.WellFormed)
    (h : ∀ q ∈ qualifiers, q.WellFormed) :
    (loops accumulator body qualifiers).Ensures Stmt.WellFormed := by
  induction qualifiers with
  | nil => exact .bind hbody fun _ hvalue => .pure (by simpa using hvalue)
  | cons q rest ih =>
    obtain ⟨hq, hrest⟩ := List.forall_mem_cons.mp h
    have ih := ih hrest
    cases q with
    | generator pattern collection =>
      refine .bind hq fun collection hcollection => .after fun lib => ?_
      refine .bind (unreserved_invent "gen") fun item hitem => ?_
      refine .bind (wellFormed_plan (by simp)) fun plan hplan => ?_
      refine .bind (wellFormed_declare hplan.accessors) fun declared hdeclared => ?_
      refine .bind ih fun inner hinner => .pure ?_
      have hbody : ∀ s ∈ declared ++ [inner], s.WellFormed :=
        List.forall_mem_append.mpr ⟨hdeclared, by simpa using hinner⟩
      have htest : ∀ e ∈ plan.test, e.WellFormed :=
        fun e he => Expr.wellFormed_joined hplan.tests he
      simpa [RuntimeLibrary.toList] using ⟨hitem, hcollection, wellFormed_behind htest hbody⟩
    | filter test =>
      exact .bind hq fun _ htest => .bind ih fun _ hinner => .pure (by simpa using ⟨htest, hinner⟩)

theorem wellFormed_comprehension {qualifiers : List QualifierParts} {body : LowerM Expr}
    {into : Option (LowerM Expr)} (h : ∀ q ∈ qualifiers, q.WellFormed)
    (hbody : body.Ensures Expr.WellFormed) (hinto : ∀ x ∈ into, x.Ensures Expr.WellFormed) :
    (comprehension qualifiers body into).Ensures Expr.WellFormed := by
  unfold comprehension
  split
  · exact .fail _
  refine .bind (.optional hinto) fun into hinto => .inScope ?_
  refine .bind (unreserved_invent "acc") fun accumulator haccumulator => ?_
  refine .bind (wellFormed_loops hbody h) fun loops hloops => ?_
  have hresult : ∀ result : Expr, result.WellFormed →
      (Expr.immediate [.const accumulator (.array []), loops, .return_ result]).WellFormed :=
    fun _ hresult => Expr.wellFormed_immediate.mpr
      ⟨rfl, by simpa using ⟨haccumulator, hloops, hresult⟩⟩
  cases into with
  | none => exact .pure (hresult _ (by simp))
  | some into => exact .after fun lib => .pure (hresult _ (by simpa using hinto))

end Comprehensions

end TreeLowering
