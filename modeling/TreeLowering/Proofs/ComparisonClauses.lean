import TreeLowering.Proofs.Assembly
import TreeLowering.Proofs.Comparison

/-!
Two runs of patterns, bodies and clauses.

Plans of one pattern have as many tests under both configurations and bind the same variables, so
the runs agree on which clauses are tested at all. A body always ends in a return or a throw, so
they agree as well on the clause that nothing falls through.
-/
namespace TreeLowering

open Source Target LowerM
open Assembly (node each all_node all_nodes all_map₂ all_map₃)

variable {p : Comparison}

namespace Comparison

variable {stmts stmts' more more' : List Stmt}

theorem Same.append (h : p.Stmts stmts stmts') (hmore : p.Stmts more more') :
    p.Stmts (stmts ++ more) (stmts' ++ more') :=
  fun hp => by rw [h hp, hmore hp, List.map_append]

theorem Tails.after (hmore : p.Tails more more') (h : p.Stmts stmts stmts') :
    p.Tails (stmts ++ more) (stmts' ++ more') :=
  ⟨h.append hmore.1, Stmt.lastIsTerminal_append hmore.2.1, Stmt.lastIsTerminal_append hmore.2.2⟩

theorem Same.returned {value value' : Expr} (h : p.Exprs value value') :
    p.Tails [.return_ value] [.return_ value'] :=
  ⟨fun hp => by simp [h hp], rfl, rfl⟩

theorem Same.thrown {value value' : Expr} (h : p.Exprs value value') :
    p.Tails [.throws value] [.throws value'] :=
  ⟨fun hp => by simp [h hp], rfl, rfl⟩

theorem Same.ifElse {test test' : Expr} (htest : p.Exprs test test') (h : p.Tails stmts stmts')
    (hmore : p.Tails more more') :
    p.Tails [.ifElse test (.block stmts) (some (.block more))]
      [.ifElse test' (.block stmts') (some (.block more'))] := by
  refine ⟨fun hp => by simp [htest hp, h.1 hp, hmore.1 hp], ?_, ?_⟩
  · simp [Stmt.lastIsTerminal, Stmt.isTerminal, h.2.1, hmore.2.1]
  · simp [Stmt.lastIsTerminal, Stmt.isTerminal, h.2.2, hmore.2.2]

end Comparison

section Patterns

open Pattern

namespace Comparison

/-- Plans with as many tests, and bindings of the same variables. -/
structure Plans (p : Comparison) (plan plan' : Plan) : Prop where
  tests : List.Forall₂ p.Exprs plan.tests plan'.tests
  bindings : List.Forall₂ (fun b b' => b'.1 = b.1 ∧ p.Exprs b.2 b'.2) plan.bindings plan'.bindings

theorem Plans.requireAll {plan plan' : Plan} {tests tests' : List Expr} (h : p.Plans plan plan')
    (htests : List.Forall₂ p.Exprs tests tests') :
    p.Plans (plan.requireAll tests) (plan'.requireAll tests') :=
  ⟨List.rel_append h.tests htests, h.bindings⟩

theorem Plans.require {plan plan' : Plan} {test test' : Expr} (h : p.Plans plan plan')
    (htest : p.Exprs test test') : p.Plans (plan.require test) (plan'.require test') :=
  h.requireAll (.cons htest .nil)

/-- Operands are joined if there are any. -/
theorem joined_related (op : BinaryOp) {es es' : List Expr} (h : List.Forall₂ p.Exprs es es') :
    Option.Rel p.Exprs (Expr.joined op es) (Expr.joined op es') := by
  have hjoined : p.ofTrees → Expr.joined op es' = (Expr.joined op es).map (Expr.rename p.newName) :=
    fun hp => by rw [same_map h hp, Expr.rename_joined]
  cases h with
  | nil => exact .none
  | cons => exact .some fun hp => Option.some.inj (hjoined hp)

theorem lookup_related {bindings bindings' : List (String × Expr)}
    (h : List.Forall₂ (fun b b' => b'.1 = b.1 ∧ p.Exprs b.2 b'.2) bindings bindings')
    (name : String) : Option.Rel p.Exprs (bindings.lookup name) (bindings'.lookup name) := by
  induction h with
  | nil => exact .none
  | @cons b b' _ _ hfirst _ ih =>
    obtain ⟨x, e⟩ := b
    obtain ⟨x', e'⟩ := b'
    obtain ⟨rfl, he⟩ := hfirst
    rw [List.lookup_cons, List.lookup_cons]
    cases name == x'
    · exact ih
    · exact .some he

variable {s t : State} {subject subject' : Expr} {plan plan' : Plan}

theorem equals_related {a a' b b' : Expr} (ha : p.Exprs a a') (hb : p.Exprs b b') :
    p.Exprs (p.oldLibrary.equals a b) (p.newLibrary.equals a' b') :=
  fun hp => by simp [RuntimeLibrary.equals, RuntimeLibrary.call, ha hp, hb hp]

theorem Plans.variable (h : p.Plans plan plan') (hsubject : p.Exprs subject subject')
    (name : String) :
    p.Plans (compileVariable ⟨p.oldLibrary, s⟩ name subject plan)
      (compileVariable ⟨p.newLibrary, t⟩ name subject' plan') := by
  have hlookup := lookup_related h.bindings name
  unfold compileVariable
  split
  · exact h
  · generalize plan.bindings.lookup name = first at hlookup ⊢
    generalize plan'.bindings.lookup name = first' at hlookup ⊢
    cases hlookup with
    | none => exact ⟨h.tests, List.rel_append h.bindings (.cons ⟨rfl, hsubject⟩ .nil)⟩
    | some hfirst =>
      exact h.require (equals_related hsubject hfirst)

theorem isMap_related {a a' : Expr} (ha : p.Exprs a a') :
    p.Exprs (p.oldLibrary.isMap a) (p.newLibrary.isMap a') :=
  fun hp => by simp [RuntimeLibrary.isMap, RuntimeLibrary.call, ha hp]

theorem moduleValue_related (hst : p.States s t) (segments : List String) :
    p.Exprs (Surroundings.moduleValue ⟨p.oldLibrary, s⟩ segments)
      (Surroundings.moduleValue ⟨p.newLibrary, t⟩ segments) := by
  intro hp
  simp only [Surroundings.moduleValue, hst.resolveModule_eq, rename_moduleValue hp]

theorem pinned_related (hst : p.States s t) {name : String} (h : p.Clean (.var name)) :
    p.Exprs (Surroundings.pinned ⟨p.oldLibrary, s⟩ name)
      (Surroundings.pinned ⟨p.newLibrary, t⟩ name) := by
  have hname : p.Unmarked name := h.own name (by simp [Node.ownTexts])
  intro hp
  simp only [Surroundings.pinned, hst.resolve_eq hp]
  exact (hname.resolve s).exprs hp

theorem alike_key (hst : p.States s t) {node : Node} (hnode : p.Clean node) :
    Alike p.Exprs (key ⟨p.oldLibrary, s⟩ node) (key ⟨p.newLibrary, t⟩ node) := by
  unfold key
  split
  next value hvalue => exact .ok fun hp => (rename_constant hp hvalue).symm
  · split
    · exact .ok (moduleValue_related hst _)
    next name _ => exact .ok (pinned_related hst (all_node.mp hnode.parts))
    · exact .error _
    · exact .error _

/-! Both runs refuse a pattern for the same reason, or come to related plans. -/

def PatternAlike (p : Comparison) (s t : State) (pattern : Node) (subject : Expr) (plan : Plan) :
    Prop :=
  p.Clean pattern → ∀ subject' plan', p.Exprs subject subject' → p.Plans plan plan' →
    Alike p.Plans (compile ⟨p.oldLibrary, s⟩ pattern subject plan)
      (compile ⟨p.newLibrary, t⟩ pattern subject' plan')

def EntriesAlike (p : Comparison) (s t : State) (subject : Expr) (entries : List (Node × Node))
    (plan : Plan) : Prop :=
  (each Assembly.entry entries).All p.Clean → ∀ subject' plan', p.Exprs subject subject' →
    p.Plans plan plan' → Alike p.Plans (compileEntries ⟨p.oldLibrary, s⟩ subject entries plan)
      (compileEntries ⟨p.newLibrary, t⟩ subject' entries plan')

def ItemsAlike (p : Comparison) (s t : State) (slot : Nat → Expr) (i : Nat) (items : List Node)
    (plan : Plan) : Prop :=
  (each node items).All p.Clean → ∀ slot' plan', (∀ i, p.Exprs (slot i) (slot' i)) →
    p.Plans plan plan' → Alike p.Plans (compileItems ⟨p.oldLibrary, s⟩ slot i items plan)
      (compileItems ⟨p.newLibrary, t⟩ slot' i items plan')

theorem alike_compile (hst : p.States s t) :
    (∀ pattern subject plan, PatternAlike p s t pattern subject plan) ∧
    (∀ subject entries plan, EntriesAlike p s t subject entries plan) ∧
    (∀ slot i items plan, ItemsAlike p s t slot i items plan) := by
  refine compile.mutual_induct ⟨p.oldLibrary, s⟩ (PatternAlike p s t) (EntriesAlike p s t)
    (ItemsAlike p s t)
    ?float ?negatedFloat ?moduleName ?var ?pin ?pinOther ?tuple ?list ?cons ?map ?struct ?both
    ?start ?startOther ?constant ?noItems ?item ?noEntries ?entry
  case float | negatedFloat =>
    intro x subject plan _ subject' plan' hsubject hplan
    rw [compile, compile]
    exact .ok (hplan.require (equals_related hsubject fun _ => by simp))
  case moduleName =>
    intro segments subject plan _ subject' plan' hsubject hplan
    rw [compile, compile]
    refine .ok (hplan.require fun hp => ?_)
    rw [Expr.rename_eq, hsubject hp, moduleValue_related hst segments hp]
  case var =>
    intro name subject plan _ subject' plan' hsubject hplan
    rw [compile, compile]
    exact .ok (hplan.variable hsubject name)
  case pin =>
    intro name subject plan hclean subject' plan' hsubject hplan
    rw [compile, compile]
    exact .ok (hplan.require (equals_related hsubject
      (pinned_related hst (all_node.mp hclean.parts))))
  case pinOther =>
    intro other subject plan hother _ subject' plan' _ _
    rw [compile, compile]
    · exact .error _
    all_goals exact hother
  case tuple =>
    intro items subject plan ih hclean subject' plan' hsubject hplan
    rw [compile, compile]
    refine ih hclean.parts _ _ (fun i hp => by simp [hsubject hp]) (hplan.requireAll (.cons ?_
      (.cons (fun hp => by simp [hsubject hp]) .nil)))
    exact fun hp => by simp [RuntimeLibrary.isTuple, hsubject hp]
  case list =>
    intro items subject plan ih hclean subject' plan' hsubject hplan
    rw [compile, compile]
    refine ih hclean.parts _ _ (fun i hp => by simp [hsubject hp]) (hplan.requireAll (.cons ?_
      (.cons (fun hp => by simp [hsubject hp]) .nil)))
    exact fun hp => by rw [rename_isArray hp, hsubject hp]
  case cons =>
    intro head tail subject plan ihHead ihTail hclean subject' plan' hsubject hplan
    obtain ⟨hhead, htail⟩ := all_map₂.mp hclean.parts
    rw [compile, compile]
    refine .bind (ihHead hhead _ _ (fun i hp => by simp [hsubject hp]) (hplan.requireAll (.cons ?_
      (.cons (fun hp => by simp [hsubject hp]) .nil)))) fun middle middle' hmiddle => ?_
    · exact fun hp => by rw [rename_isArray hp, hsubject hp]
    · exact ihTail middle (all_node.mp htail) _ _ (fun hp => by simp [hsubject hp]) hmiddle
  case map =>
    intro entries subject plan ih hclean subject' plan' hsubject hplan
    rw [compile, compile]
    exact ih hclean.parts _ _ hsubject (hplan.require (isMap_related hsubject))
  case struct =>
    intro tag fields subject plan ihTag ihFields hclean subject' plan' hsubject hplan
    obtain ⟨htag, hfields, -⟩ := all_map₃.mp hclean.parts
    rw [compile, compile]
    refine .bind (ihTag (all_node.mp htag) _ _ (fun hp => ?_)
      (hplan.require (isMap_related hsubject))) fun middle middle' hmiddle => ?_
    · rw [Expr.rename_index, rename_atomSymbol hp, hsubject hp]
    · exact ihFields middle hfields _ _ hsubject hmiddle
  case both =>
    intro left right subject plan ihLeft ihRight hclean subject' plan' hsubject hplan
    obtain ⟨hleft, hright⟩ := all_map₂.mp hclean.parts
    rw [compile, compile]
    exact .bind (ihLeft (all_node.mp hleft) _ _ hsubject hplan) fun middle middle' hmiddle =>
      ihRight middle (all_node.mp hright) _ _ hsubject hmiddle
  case start =>
    intro start rest subject plan ih hclean subject' plan' hsubject hplan
    rw [compile, compile]
    refine ih (all_node.mp (all_map₂.mp hclean.parts).2) _ _ (fun hp => by simp [hsubject hp])
      (hplan.requireAll (.cons (fun hp => by simp [hsubject hp])
        (.cons (fun hp => by simp [hsubject hp]) .nil)))
  case startOther =>
    intro left right subject plan hleft _ subject' plan' _ _
    rw [compile, compile]
    · exact .error _
    all_goals exact hleft
  case constant =>
    intros
    intro _ subject' plan' hsubject hplan
    rw [compile, compile]
    · unfold compileConstant
      split
      next value hvalue =>
        refine .ok (hplan.require fun hp => ?_)
        rw [Expr.rename_eq, hsubject hp, rename_constant hp hvalue]
      · exact .error _
    all_goals assumption
  case noItems | noEntries =>
    intros
    intro _ _ _ _ hplan
    simp only [compileItems, compileEntries]
    exact .ok hplan
  case item =>
    intro slot i first rest plan ihFirst ihRest hclean slot' plan' hslot hplan
    obtain ⟨hfirst, hrest⟩ := all_map₂.mp hclean
    rw [compileItems, compileItems]
    exact .bind (ihFirst (all_node.mp hfirst) _ _ (hslot i) hplan) fun middle middle' hmiddle =>
      ihRest middle hrest _ _ hslot hmiddle
  case entry =>
    intro subject name value rest plan ihValue ihRest hclean subject' plan' hsubject hplan
    obtain ⟨hentry, hrest⟩ := all_map₂.mp hclean
    obtain ⟨hname, hvalue⟩ := all_map₂.mp hentry
    rw [compileEntries, compileEntries]
    refine .bind (alike_key hst (all_node.mp hname)) fun found found' hfound => ?_
    have hslot : p.Exprs (subject.index found) (subject'.index found') :=
      fun hp => by simp [hsubject hp, hfound hp]
    have htest : p.Exprs (.binary found .in_ subject) (.binary found' .in_ subject') :=
      fun hp => by simp [hsubject hp, hfound hp]
    exact .bind (ihValue found (all_node.mp hvalue) _ _ hslot (hplan.require htest))
      fun middle middle' hmiddle => ihRest middle hrest _ _ hsubject hmiddle

theorem alike_compileAll (hst : p.States s t) {patterns : List Node}
    (hpatterns : ∀ n ∈ patterns, p.Clean n) {subjects subjects' : List Expr}
    (hsubjects : List.Forall₂ p.Exprs subjects subjects') (hplan : p.Plans plan plan') :
    Alike p.Plans (compileAll ⟨p.oldLibrary, s⟩ patterns subjects plan)
      (compileAll ⟨p.newLibrary, t⟩ patterns subjects' plan') := by
  induction patterns generalizing subjects subjects' plan plan' with
  | nil => exact .ok hplan
  | cons pattern patterns ih =>
    obtain ⟨hpattern, hrest⟩ := List.forall_mem_cons.mp hpatterns
    cases hsubjects with
    | nil => exact .ok hplan
    | cons hsubject hothers =>
      exact .bind ((alike_compile hst).1 pattern _ _ hpattern _ _ hsubject hplan) fun _ _ hmiddle =>
        ih hrest hothers hmiddle

theorem Plans.test (h : p.Plans plan plan') : Option.Rel p.Exprs plan.test plan'.test :=
  joined_related .and h.tests

/-- Statements along with the expression that they leave. -/
inductive Bound (p : Comparison) : List Stmt × Expr → List Stmt × Expr → Prop
  | mk {stmts stmts' : List Stmt} {value value' : Expr} (statements : p.Stmts stmts stmts')
      (result : p.Exprs value value') : Bound p (stmts, value) (stmts', value')

end Comparison

namespace LowerM

theorem pairs_plan {patterns : List Node} (hpatterns : ∀ n ∈ patterns, p.Clean n)
    {subjects subjects' : List Expr} (hsubjects : List.Forall₂ p.Exprs subjects subjects') :
    Pairs p p.Plans (plan patterns subjects) (plan patterns subjects') :=
  .library <| .state fun _ _ hst =>
    .ofExcept (Comparison.alike_compileAll hst hpatterns hsubjects ⟨.nil, .nil⟩)

theorem pairs_declare {bindings bindings' : List (String × Expr)}
    (h : List.Forall₂ (fun b b' => b'.1 = b.1 ∧ p.Exprs b.2 b'.2) bindings bindings') :
    Pairs p p.Stmts (declare bindings) (declare bindings') := by
  refine (Pairs.sequence (R := p.Same (Stmt.rename p.newName)) ?_).mono
    fun _ _ => Comparison.same_map
  rw [List.forall₂_map_left_iff, List.forall₂_map_right_iff]
  refine h.imp fun b b' hb => ?_
  obtain ⟨name, accessor⟩ := b
  obtain ⟨name', accessor'⟩ := b'
  obtain ⟨hname, haccessor⟩ : name' = name ∧ p.Exprs accessor accessor' := hb
  subst hname
  refine .bind (agrees_bindVariable _) fun target target' htarget => .pure fun hp => ?_
  have heq : target' = target := htarget.1 hp
  rw [heq, haccessor hp, Stmt.rename_const]

theorem hold_quiet (stem : String) (value : Expr) (c : Config) (s : State) :
    ∃ held n, hold stem value c s = (.ok held, { s with invented := n }) := by
  cases value with
  | ident name => exact ⟨_, s.invented, rfl⟩
  | _ => exact ⟨_, s.invented + 1, rfl⟩

/-- A value that is an identifier under one configuration alone is held in one run alone; the runs
still end alike. -/
theorem pairs_hold {stem : String} (hstem : p.Unmarked stem) {value value' : Expr}
    (h : p.Exprs value value') :
    Pairs p p.Bound (hold stem value) (hold stem value') := by
  by_cases hp : p.ofTrees
  · -- renaming makes an identifier of an identifier, and of nothing else
    obtain rfl := h hp
    cases value with
    | ident name => exact .pure ⟨fun _ => rfl, h⟩
    | _ =>
      refine .bind (agrees_invent hstem) fun name name' hname => .pure ⟨fun hp => ?_, hname.exprs⟩
      have heq : name' = name := hname.1 hp
      simp [heq]
  · rintro s _ ⟨-, haliases⟩
    obtain ⟨held, n, hrun⟩ := hold_quiet stem value p.first s
    obtain ⟨held', n', hrun'⟩ := hold_quiet stem value' p.second _
    rw [hrun, hrun']
    exact ⟨.ok ⟨fun h => absurd h hp, fun h => absurd h hp⟩, .mk (fun h => absurd h hp) haliases⟩

theorem pairs_bindPattern_general {pattern : Node} (hpattern : p.Clean pattern)
    {value value' : Expr} (h : p.Exprs value value') :
    Pairs p p.Bound (bindPattern.general pattern value) (bindPattern.general pattern value') := by
  refine .bind (pairs_hold (Comparison.unmarked_of_isPlain (by decide)) h) ?_
  rintro _ _ (@⟨held, held', subject, subject', hheld, hsubject⟩)
  have hpatterns : ∀ n ∈ [pattern], p.Clean n := List.forall_mem_singleton.mpr hpattern
  refine .bind (pairs_plan hpatterns (.cons hsubject .nil)) fun plan plan' hplan => ?_
  have hrest : ∀ failure failure', p.Stmts failure failure' →
      Pairs p p.Bound
        (declare plan.bindings >>= fun declared =>
          pure (held ++ failure ++ declared, subject))
        (declare plan'.bindings >>= fun declared =>
          pure (held' ++ failure' ++ declared, subject')) :=
    fun failure failure' hfailure => .bind (pairs_declare hplan.bindings) fun _ _ hdeclared =>
      .pure ⟨(hheld.append hfailure).append hdeclared, hsubject⟩
  have htest := hplan.test
  generalize plan.test = test at htest ⊢
  generalize plan'.test = test' at htest ⊢
  cases htest with
  | none => exact hrest [] [] fun _ => rfl
  | some htest =>
    refine .library (hrest _ _ fun hp => ?_)
    simp [RuntimeLibrary.error, htest hp, hsubject hp]

theorem agrees_bindPattern {pattern : Node} (hpattern : p.Clean pattern) {x : LowerM Expr}
    (hx : x.Agrees p p.Exprs) : (bindPattern pattern x).Agrees p p.Bound := by
  refine .bind hx fun value value' hvalue => ?_
  split
  next name =>
    split
    · exact pairs_bindPattern_general hpattern hvalue
    · refine .bind (agrees_bindVariable name) fun target target' htarget => ?_
      have hname : p.Unmarked name := hpattern.own name (by simp [Node.ownTexts])
      have hnames : p.Names target target' := ⟨htarget.1, htarget.2 hname⟩
      refine .pure ⟨fun hp => ?_, hnames.exprs⟩
      have heq : target' = target := htarget.1 hp
      simp [heq, hvalue hp]
  · exact pairs_bindPattern_general hpattern hvalue

end LowerM

end Patterns

section Positions

/-- A node under both configurations, in every position. -/
structure Positions.Agrees (q : Positions) (p : Comparison) : Prop where
  value : q.value.Agrees p p.Exprs
  tail : q.tail.Agrees p p.Tails
  effect : q.effect.Agrees p p.Stmts

namespace Positions.Agrees

theorem ofValue {x : LowerM Expr} (h : x.Agrees p p.Exprs) : (Positions.ofValue x).Agrees p where
  value := h
  tail := .bind h fun _ _ hvalue => .pure hvalue.returned
  effect := .bind h fun _ _ hvalue => .pure fun hp => by simp [hvalue hp]

theorem agrees_immediately {x : LowerM (List Stmt)} (h : x.Agrees p p.Tails) :
    (immediately x).Agrees p p.Exprs :=
  .bind (.inScope h) fun _ _ hbody => .pure fun hp => by simp [hbody.1 hp]

theorem ofStatements {tail effect : LowerM (List Stmt)} (htail : tail.Agrees p p.Tails)
    (heffect : effect.Agrees p p.Stmts) : (Positions.ofStatements tail effect).Agrees p where
  value := agrees_immediately htail
  tail := htail
  effect := heffect

theorem misplaced (what : Malformed) : (Positions.misplaced what).Agrees p := ofValue (.fail _)

theorem body {qs : List Positions} (h : ∀ q ∈ qs, q.Agrees p) :
    (Positions.body qs).Agrees p p.Tails := by
  induction qs with
  | nil => exact .pure ⟨fun _ => by simp, rfl, rfl⟩
  | cons first rest ih =>
    obtain ⟨hfirst, hrest⟩ := List.forall_mem_cons.mp h
    cases rest with
    | nil => exact hfirst.tail
    | cons second rest =>
      refine .bind hfirst.effect fun _ _ hstmts => .bind (ih hrest) fun _ _ hmore => ?_
      exact .pure (hmore.after hstmts)

theorem bodyValue {qs : List Positions} (h : ∀ q ∈ qs, q.Agrees p) :
    (Positions.bodyValue qs).Agrees p p.Exprs := by
  unfold Positions.bodyValue
  split
  · exact .pure fun _ => by simp
  next only => exact .inScope (h only (by simp)).value
  · exact agrees_immediately (body h)

theorem binding {pattern : Node} (hpattern : p.Clean pattern) {x : LowerM Expr}
    (h : x.Agrees p p.Exprs) : (Positions.binding pattern x).Agrees p := by
  have hbound := agrees_bindPattern hpattern h
  refine ofStatements (.bind hbound ?_) (.bind hbound ?_)
  · rintro _ _ ⟨hstmts, hresult⟩
    exact .pure (hresult.returned.after hstmts)
  · rintro _ _ ⟨hstmts, -⟩
    exact .pure hstmts

theorem sequenced {qs : List Positions} (h : ∀ q ∈ qs, q.Agrees p) :
    (Positions.sequenced qs).Agrees p :=
  ofStatements (body h) (.concat (List.forall_mem_map.mpr fun q hq => (h q hq).effect))

theorem raising {x : LowerM Expr} (h : x.Agrees p p.Exprs) : (Positions.raising x).Agrees p :=
  ofStatements (.bind h fun _ _ hvalue => .pure hvalue.thrown)
    (.bind h fun _ _ hvalue => .pure hvalue.thrown.1)

theorem closed {x : LowerM (List Stmt)} (h : x.Agrees p p.Tails) : (Positions.closed x).Agrees p :=
  ofStatements h <| .bind (agrees_immediately h) fun _ _ hvalue => .pure fun hp => by
    simp [hvalue hp]

theorem conditional {negated : Bool} {test : LowerM Expr} {thenItems elseItems : List Positions}
    (htest : test.Agrees p p.Exprs) (hthen : ∀ q ∈ thenItems, q.Agrees p)
    (helse : ∀ q ∈ elseItems, q.Agrees p) :
    (Positions.conditional negated test thenItems elseItems).Agrees p := by
  have hvalue :
      (Positions.conditional negated test thenItems elseItems).value.Agrees p p.Exprs := by
    refine .bind htest fun _ _ htest => .bind (bodyValue hthen) fun _ _ hthen => ?_
    refine .bind (bodyValue helse) fun _ _ helse => ?_
    cases negated <;> exact .pure fun hp => by simp [htest hp, hthen hp, helse hp]
  refine ⟨hvalue, ?_, .bind hvalue fun _ _ hvalue => .pure fun hp => by simp [hvalue hp]⟩
  refine .bind htest fun _ _ htest => .bind (.inScope (body hthen)) fun _ _ hthen => ?_
  refine .bind (.inScope (body helse)) fun _ _ helse => ?_
  cases negated
  · exact .pure (htest.ifElse hthen helse)
  · exact .pure (htest.ifElse helse hthen)

end Positions.Agrees

end Positions

section Clauses

variable {clauses : List ClauseParts}

structure ClauseParts.Agrees (clause : ClauseParts) (p : Comparison) : Prop where
  patterns : ∀ n ∈ clause.patterns, p.Clean n
  guards : ∀ x ∈ clause.guards, x.Agrees p p.Exprs
  body : clause.body.Agrees p p.Tails

structure ConditionParts.Agrees (clause : ConditionParts) (p : Comparison) : Prop where
  tests : ∀ x ∈ clause.tests, x.Agrees p p.Exprs
  body : clause.body.Agrees p p.Tails

namespace Comparison

/-- Statements that control can leave, or not, alike. -/
def Blocks (p : Comparison) (block block' : Stmt) : Prop :=
  p.Same (Stmt.rename p.newName) block block' ∧ block'.isTerminal = block.isTerminal

variable {test test' : Option Expr} {stmts stmts' : List Stmt}

theorem behind_same (htest : Option.Rel p.Exprs test test') (h : p.Stmts stmts stmts') :
    p.Same (Stmt.rename p.newName) (behind test stmts) (behind test' stmts') := by
  cases htest with
  | none => exact fun hp => by simp [behind, h hp]
  | some htest => exact fun hp => by simp [behind, htest hp, h hp]

theorem behind_blocks (htest : Option.Rel p.Exprs test test') (h : p.Stmts stmts stmts')
    (hlast : Stmt.lastIsTerminal stmts' = Stmt.lastIsTerminal stmts) :
    p.Blocks (behind test stmts) (behind test' stmts') := by
  refine ⟨behind_same htest h, ?_⟩
  cases htest with
  | none => simpa [behind, Stmt.isTerminal] using hlast
  | some => simp [behind, Stmt.when_, Stmt.isTerminal]

theorem lastIsTerminal_closedBy {failure : Stmt} (h : failure.isTerminal = true) :
    Stmt.lastIsTerminal (closedBy failure stmts) = true := by
  unfold closedBy
  split
  · assumption
  · rw [Stmt.lastIsTerminal_concat, h]

/-- With a failure behind them, no statements can be left. -/
theorem closedBy_tails {error error' : Expr} (herror : p.Exprs error error')
    (h : p.Stmts stmts stmts') :
    p.Tails (closedBy (.throws error) stmts) (closedBy (.throws error') stmts') := by
  refine ⟨fun hp => ?_, lastIsTerminal_closedBy rfl, lastIsTerminal_closedBy rfl⟩
  rw [map_rename_closedBy, h hp, herror hp, Stmt.rename]

theorem Tails.function (h : p.Tails stmts stmts') {name : String} {params : List String} :
    p.Functions ⟨name, params, stmts⟩ ⟨name, params, stmts'⟩ :=
  fun hp => by simp [h.1 hp]

/-- Lists of which every item is the same, and as it should be. -/
theorem forall₂_self {α : Type} {P : α → Prop} {as bs : List α}
    (h : List.Forall₂ (fun a b => b = a ∧ P a) as bs) : bs = as ∧ ∀ a ∈ as, P a := by
  induction h with
  | nil => simp
  | cons hfirst _ ih =>
    obtain ⟨rfl, hP⟩ := hfirst
    obtain ⟨rfl, hrest⟩ := ih
    exact ⟨rfl, List.forall_mem_cons.mpr ⟨hP, hrest⟩⟩

end Comparison

namespace LowerM

open Comparison

theorem pairs_clauseBlock {preconditions : List Expr}
    (hpreconditions : ∀ e ∈ preconditions, p.Exprs e e) {clause : ClauseParts}
    (h : clause.Agrees p) {subjects subjects' : List Expr}
    (hsubjects : List.Forall₂ p.Exprs subjects subjects') :
    Pairs p p.Blocks (clauseBlock preconditions clause subjects)
      (clauseBlock preconditions clause subjects') := by
  refine .inScope (.bind (pairs_plan h.patterns hsubjects) fun plan plan' hplan => ?_)
  have htest : Option.Rel p.Exprs (Expr.all (preconditions ++ plan.tests))
      (Expr.all (preconditions ++ plan'.tests)) :=
    joined_related .and (List.rel_append (List.forall₂_same.mpr hpreconditions) hplan.tests)
  refine .bind (pairs_declare hplan.bindings) fun declared declared' hdeclared => ?_
  split
  · -- nothing falls through the body, so all depends on whether there is a test
    refine .bind h.body fun body body' hbody => .pure ?_
    have hboth := hbody.after hdeclared
    exact behind_blocks htest hboth.1 (hboth.2.2.trans hboth.2.1.symm)
  · refine .bind (.sequence (List.forall₂_same.mpr h.guards)) fun guards guards' hguards => ?_
    refine .bind h.body fun body body' hbody => .pure ?_
    have hguard : p.Exprs ((Expr.any guards).getD (.bool true))
        ((Expr.any guards').getD (.bool true)) := by
      have hany : Option.Rel p.Exprs (Expr.any guards) (Expr.any guards') :=
        joined_related .or hguards
      generalize Expr.any guards = guard at hany ⊢
      generalize Expr.any guards' = guard' at hany ⊢
      cases hany with
      | none => exact fun _ => by simp
      | some hguard => exact hguard
    refine behind_blocks htest (hdeclared.append fun hp => ?_) ?_
    · simp [hguard hp, hbody.1 hp]
    · rw [Stmt.lastIsTerminal_concat, Stmt.lastIsTerminal_concat]
      rfl

theorem pairs_caseBlocks {subject subject' : Expr} (hsubject : p.Exprs subject subject')
    {reads : List (Except LowerError ClauseParts)}
    (h : ∀ read ∈ reads, ∀ clause, read = .ok clause → clause.Agrees p) :
    Pairs p p.Stmts (caseBlocks subject reads) (caseBlocks subject' reads) := by
  induction reads with
  | nil => exact .pure fun _ => rfl
  | cons read rest ih =>
    obtain ⟨hread, hrest⟩ := List.forall_mem_cons.mp h
    refine .bind (.ofExcept (.self hread)) ?_
    rintro clause _ ⟨rfl, hclause⟩
    split
    · exact .fail _
    · refine .bind (pairs_clauseBlock (by simp) hclause (.cons hsubject .nil))
        fun block block' hblock => ?_
      rw [hblock.2]
      split
      · exact .pure fun hp => by simp [hblock.1 hp]
      · exact .bind (ih hrest) fun _ _ hblocks => .pure fun hp => by simp [hblock.1 hp, hblocks hp]

theorem agrees_caseOf {subject : LowerM Expr} (hsubject : subject.Agrees p p.Exprs)
    {reads : List (Except LowerError ClauseParts)}
    (h : ∀ read ∈ reads, ∀ clause, read = .ok clause → clause.Agrees p) :
    (caseOf subject reads).Agrees p p.Tails := by
  unfold caseOf
  split
  · exact .fail _
  · refine .bind hsubject fun _ _ hvalue => ?_
    refine .bind (pairs_hold (unmarked_of_isPlain (by decide)) hvalue) ?_
    rintro _ _ ⟨hheld, hsubject⟩
    refine .bind (pairs_caseBlocks hsubject h) fun _ _ hblocks => .library (.pure ?_)
    refine closedBy_tails (fun hp => ?_) (hheld.append hblocks)
    simp [RuntimeLibrary.error, hsubject hp]

theorem agrees_condBranches {clauses : List ConditionParts}
    (h : ∀ clause ∈ clauses, clause.Agrees p) :
    (condBranches clauses).Agrees p p.Tails := by
  induction clauses with
  | nil =>
    have herror : p.Exprs (p.oldLibrary.error "CondClauseError" [])
        (p.newLibrary.error "CondClauseError" []) := fun _ => by simp [RuntimeLibrary.error]
    exact .library (.pure herror.thrown)
  | cons clause rest ih =>
    obtain ⟨hclause, hrest⟩ := List.forall_mem_cons.mp h
    unfold condBranches
    split
    next condition test hhead htests =>
      split
      · refine .bind (.inScope hclause.body) fun body body' hbody => .pure ⟨fun hp => ?_, ?_, ?_⟩
        · simp [hbody.1 hp]
        · exact hbody.2.1
        · exact hbody.2.2
      · have htest : test.Agrees p p.Exprs := hclause.tests test (by simp [htests])
        refine .bind htest fun test test' htest => ?_
        refine .bind (.inScope hclause.body) fun body body' hbody => ?_
        have hbranch : p.Stmts [.when_ test (.block body)] [.when_ test' (.block body')] :=
          fun hp => by simp [htest hp, hbody.1 hp]
        exact .bind (ih hrest) fun _ _ hmore => .pure (hmore.after hbranch)
    · exact .fail _

theorem agrees_cond {clauses : List ConditionParts} (h : ∀ clause ∈ clauses, clause.Agrees p) :
    (LowerM.cond clauses).Agrees p p.Tails := by
  unfold LowerM.cond
  split
  · exact .fail _
  · exact agrees_condBranches h

theorem unmarked_paramName (i : Nat) : p.Unmarked (paramName i) :=
  Unmarked.invented (unmarked_of_isPlain (by decide)) i

theorem arityTests_same (arity most : Nat) : ∀ e ∈ arityTests arity most, p.Exprs e e := by
  have hundefined : p.Unmarked "undefined" := unmarked_of_isPlain (by decide)
  have htest : ∀ i, p.ofTrees → p.newName (paramName i) = paramName i :=
    fun i hp => newName_eq hp (unmarked_paramName i)
  intro e he hp
  unfold arityTests at he
  rcases List.mem_append.mp he with he | he <;> split at he <;>
    simp only [List.mem_singleton, List.not_mem_nil] at he
  all_goals simp [he, htest _ hp, newName_eq hp hundefined]

theorem agrees_functionBlocks {overloaded : Bool} {most : Nat}
    (h : ∀ clause ∈ clauses, clause.Agrees p) :
    (functionBlocks overloaded most clauses).Agrees p p.Stmts := by
  induction clauses with
  | nil => exact .pure fun _ => rfl
  | cons clause rest ih =>
    obtain ⟨hclause, hrest⟩ := List.forall_mem_cons.mp h
    have hpreconditions : ∀ e ∈ if overloaded then arityTests clause.patterns.length most else [],
        p.Exprs e e := by
      split
      · exact arityTests_same _ _
      · simp
    have hsubjects : List.Forall₂ p.Exprs
        ((List.range clause.patterns.length).map fun i => Expr.ident (paramName i))
        ((List.range clause.patterns.length).map fun i => Expr.ident (paramName i)) :=
      List.forall₂_same.mpr (List.forall_mem_map.mpr fun i _ => (unmarked_paramName i).exprs)
    refine .bind (.withAttributes (pairs_clauseBlock hpreconditions hclause hsubjects))
      fun block block' hblock => ?_
    rw [hblock.2]
    split
    · exact .pure fun hp => by simp [hblock.1 hp]
    · exact .bind (ih hrest) fun _ _ hblocks => .pure fun hp => by simp [hblock.1 hp, hblocks hp]

theorem agrees_dispatch {name label : String} (h : ∀ clause ∈ clauses, clause.Agrees p) :
    (dispatch name label clauses).Agrees p p.Functions := by
  refine .bind (agrees_functionBlocks h) fun _ _ hblocks => .library (.pure ?_)
  refine (closedBy_tails (fun hp => ?_) hblocks).function
  have hparam : ∀ i, p.newName (paramName i) = paramName i :=
    fun i => newName_eq hp (unmarked_paramName i)
  simp [RuntimeLibrary.error, hparam]

/-- The parameters are bound where the function is lowered. -/
theorem agrees_clausesFunction {name label : String} (h : ∀ clause ∈ clauses, clause.Agrees p) :
    (clausesFunction name label clauses).Agrees p p.Functions := by
  unfold clausesFunction
  split
  next only =>
    split
    · split
      · refine .withAttributes (.bind (agrees_bindVariables _) fun _ _ hparams => ?_)
        refine .bind (h only (by simp)).body fun _ _ hbody => .pure fun hp => ?_
        simp [hparams hp, hbody.1 hp]
      · exact agrees_dispatch h
    · exact agrees_dispatch h
  · exact agrees_dispatch h

theorem agrees_anonymousFunction {reads : List (Except LowerError ClauseParts)}
    (h : ∀ read ∈ reads, ∀ clause, read = .ok clause → clause.Agrees p) :
    (anonymousFunction reads).Agrees p p.Exprs := by
  have hreads : ∀ x ∈ reads.map ofExcept,
      x.Agrees p fun (a b : ClauseParts) => b = a ∧ a.Agrees p :=
    List.forall_mem_map.mpr fun read hread => .ofExcept (.self (h read hread))
  refine .bind (.sequence (List.forall₂_same.mpr hreads)) fun clauses clauses' hclauses => ?_
  obtain ⟨rfl, hclauses⟩ := forall₂_self hclauses
  split
  · exact .fail _
  · split
    · exact .fail _
    · refine .bind (.inScope (agrees_clausesFunction hclauses)) fun _ _ hfunction => ?_
      exact .pure fun hp => by simp [hfunction hp]

end LowerM

end Clauses

section Comprehensions

variable {qualifiers : List QualifierParts} {body : LowerM Expr}

def QualifierParts.Agrees (p : Comparison) : QualifierParts → Prop
  | .generator pattern collection => p.Clean pattern ∧ collection.Agrees p p.Exprs
  | .filter test => test.Agrees p p.Exprs

namespace LowerM

open Comparison

theorem pairs_loops {accumulator accumulator' : String} (hname : p.Names accumulator accumulator')
    (hbody : body.Agrees p p.Exprs) (h : ∀ q ∈ qualifiers, q.Agrees p) :
    Pairs p (p.Same (Stmt.rename p.newName)) (loops accumulator body qualifiers)
      (loops accumulator' body qualifiers) := by
  induction qualifiers with
  | nil =>
    refine .bind hbody fun _ _ hvalue => .pure fun hp => ?_
    rw [Stmt.rename, Expr.rename_method, ← hname.exprs hp, hvalue hp]
    rfl
  | cons q rest ih =>
    obtain ⟨hq, hrest⟩ := List.forall_mem_cons.mp h
    cases q with
    | generator pattern collection =>
      obtain ⟨hpattern, hcollection⟩ := hq
      refine .bind hcollection fun _ _ hcollection => .library ?_
      refine .bind (agrees_invent (unmarked_of_isPlain (by decide))) fun item item' hitem => ?_
      have hpatterns : ∀ n ∈ [pattern], p.Clean n := List.forall_mem_singleton.mpr hpattern
      refine .bind (pairs_plan hpatterns (.cons hitem.exprs .nil)) fun plan plan' hplan => ?_
      refine .bind (pairs_declare hplan.bindings) fun _ _ hdeclared => ?_
      refine .bind (ih hrest) fun inner inner' hinner => .pure fun hp => ?_
      have hlast : p.Stmts [inner] [inner'] := fun hp => by simp [hinner hp]
      have hloop := behind_same hplan.test (hdeclared.append hlast) hp
      have heq : item' = item := hitem.1 hp
      simp [heq, hloop, RuntimeLibrary.toList, RuntimeLibrary.call, hcollection hp]
    | filter test =>
      have htest : test.Agrees p p.Exprs := hq
      refine .bind htest fun _ _ htest => .bind (ih hrest) fun _ _ hinner => .pure fun hp => ?_
      simp [htest hp, hinner hp]

theorem agrees_comprehension {into : Option (LowerM Expr)} (h : ∀ q ∈ qualifiers, q.Agrees p)
    (hbody : body.Agrees p p.Exprs) (hinto : ∀ x ∈ into, x.Agrees p p.Exprs) :
    (comprehension qualifiers body into).Agrees p p.Exprs := by
  unfold comprehension
  split
  · exact .fail _
  · refine .bind (.optional hinto) fun into into' hinto => .inScope ?_
    refine .bind (agrees_invent (unmarked_of_isPlain (by decide))) fun name name' hname => ?_
    refine .bind (pairs_loops hname hbody h) fun loops loops' hloops => ?_
    have hrest : ∀ result result', p.Exprs result result' →
        p.Exprs (.immediate [.const name (.array []), loops, .return_ result])
          (.immediate [.const name' (.array []), loops', .return_ result']) := by
      intro result result' hresult hp
      have heq : name' = name := hname.1 hp
      simp [heq, hloops hp, hresult hp]
    cases hinto with
    | none => exact .pure (hrest _ _ hname.exprs)
    | some hinto =>
      refine .library (.pure (hrest _ _ fun hp => ?_))
      have hident := hname.exprs hp
      simp only [Expr.rename] at hident
      simp [RuntimeLibrary.call, hident, hinto hp]

end LowerM

end Comprehensions

end TreeLowering
