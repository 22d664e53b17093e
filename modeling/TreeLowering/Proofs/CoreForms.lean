import TreeLowering.Proofs.Evaluation
import TreeLowering.Proofs.LoweredParts
import TreeLowering.Proofs.PipeRemoval

/-!
Forms with variables and closures can always be lowered.

They hold no pipes, so that writing pipes out leaves them as they are, and none of the rules that
they are lowered by refuses them: operators are known, clauses have a head of plain variables, and
bodies may even be empty.
-/
namespace TreeLowering.Evaluation

open Source Target Identifier LowerM Lowering

section Trees

theorem headChildren_vars (params : List String) :
    Node.headChildren (params.map .var) = params.map .var := by
  unfold Node.headChildren
  split
  next heq => cases params <;> simp at heq
  · rfl

theorem named_var {x : String} (h : IsSourceName x) :
    (Node.var x).Named IsSourceName IsSourceName := by
  refine Node.named_iff.mpr ⟨?_, by simp [Node.children]⟩
  rw [Node.ownNames, List.forall_mem_singleton]
  exact h

theorem IsCore.named {n : Node} (core : IsCore n) : n.Named IsSourceName IsSourceName := by
  induction core with
  | integer | string | boolean | nil =>
    exact Node.named_iff.mpr ⟨by simp [Node.ownNames], by simp [Node.children]⟩
  | var named => exact named_var named
  | bind named _ ih =>
    exact Node.named_iff.mpr ⟨by simp [Node.ownNames], by simp [Node.children, named_var named, ih]⟩
  | block _ ih => exact Node.named_iff.mpr ⟨by simp [Node.ownNames], ih⟩
  | ifElse _ _ _ iht ihi iho | unlessElse _ _ _ iht ihi iho =>
    refine Node.named_iff.mpr ⟨by simp [Node.ownNames], ?_⟩
    exact List.forall_mem_append.mpr ⟨List.forall_mem_cons.mpr ⟨iht, ihi⟩, iho⟩
  | operator _ _ _ ihl ihr =>
    exact Node.named_iff.mpr ⟨by simp [Node.ownNames], by simp [Node.children, ihl, ihr]⟩
  | @fn params body named _ _ ih =>
    refine Node.named_iff.mpr ⟨by simp [Node.ownNames], ?_⟩
    simp only [Node.children, List.flatMap_cons, List.flatMap_nil, List.append_nil,
      Node.clauseChildren, headChildren_vars]
    refine List.forall_mem_append.mpr ⟨List.forall_mem_map.mpr fun x hx => ?_, ih⟩
    exact named_var (named x hx).1
  | apply _ _ ihf ihv =>
    exact Node.named_iff.mpr ⟨by simp [Node.ownNames], List.forall_mem_cons.mpr ⟨ihf, ihv⟩⟩

theorem removePipesListOption_eq {o : Option (List Node)}
    (h : ∀ n ∈ o.getD [], n.removePipes = .ok n) : Node.removePipesListOption o = .ok o := by
  cases o with
  | none => rfl
  | some ns =>
    rw [Node.removePipesListOption, removePipesList_of_unchanged (show ∀ n ∈ ns, _ from h)]
    rfl

theorem IsCore.removePipes {n : Node} (core : IsCore n) : n.removePipes = .ok n := by
  induction core with
  | integer | string | boolean | nil | var => rfl
  | bind _ _ ih =>
    simp only [Node.removePipes, ih]
    rfl
  | block _ ih =>
    simp only [Node.removePipes, removePipesList_of_unchanged ih]
    rfl
  | ifElse _ _ _ iht ihi iho | unlessElse _ _ _ iht ihi iho =>
    simp only [Node.removePipes, iht, removePipesList_of_unchanged ihi, removePipesListOption_eq iho]
    rfl
  | operator _ _ _ ihl ihr =>
    simp only [Node.removePipes, ihl, ihr]
    rfl
  | @fn params body _ _ _ ih =>
    have hhead : Node.removePipesList (params.map .var) = .ok (params.map .var) :=
      removePipesList_of_unchanged (List.forall_mem_map.mpr fun x _ => rfl)
    simp only [Node.removePipes, Node.removePipesClauses, hhead, removePipesList_of_unchanged ih]
    rfl
  | apply _ _ ihf ihv =>
    simp only [Node.removePipes, ihf, removePipesList_of_unchanged ihv]
    rfl

end Trees

section Functions

theorem plainParams?_vars {params : List String} (named : ∀ x ∈ params, x ≠ "_")
    (distinct : params.Nodup) : plainParams? (params.map .var) = some params := by
  induction params with
  | nil => rfl
  | cons x params ih =>
    obtain ⟨hx, hrest⟩ := List.nodup_cons.mp distinct
    simp [plainParams?, ih (fun y hy => named y (by simp [hy])) hrest, named x (by simp), hx]

/-- The clause of a function of plain parameters. -/
def plainClause (params : List String) (body : List Node) : ClauseParts :=
  { patterns := params.map .var, guards := [], body := Positions.body (all body) }

theorem clauseParts_plain (params : List String) (body : List Node) :
    clauseParts [⟨params.map .var, body⟩] = [.ok (plainClause params body)] := by
  have hhead : ∀ patterns guard, params.map Node.var ≠ [.guarded patterns guard] := by
    intro patterns guard heq
    cases params <;> simp at heq
  have hsplit : splitHead (params.map .var) = .ok (params.map .var, []) := by
    unfold splitHead
    split
    next heq => exact (hhead _ _ heq).elim
    · simp [Source.Node.isGuarded]
  have htests : headTests (params.map .var) = [] := by
    unfold headTests
    split
    next heq => exact (hhead _ _ heq).elim
    · rfl
  rw [clauseParts, clauseParts, hsplit, htests]
  rfl

/-- A function of plain parameters is its body behind the names of the parameters. -/
theorem anonymousFunction_plain {params : List String} (named : ∀ x ∈ params, x ≠ "_")
    (distinct : params.Nodup) (body : List Node) :
    anonymousFunction (clauseParts [⟨params.map .var, body⟩]) = (do
      let f ← inScope do
        let targets ← bindVariables params
        let stmts ← Positions.body (all body)
        return FunctionDef.anonymous targets stmts
      return Expr.function f) := by
  have hfunction : clausesFunction "" "anonymous fn" [plainClause params body] =
      plainFunction "" params (plainClause params body) := by
    simp [clausesFunction, plainClause, plainParams?_vars named distinct]
  rw [clauseParts_plain]
  show (inScope (clausesFunction "" "anonymous fn" [plainClause params body]) >>= fun f =>
    pure (Expr.function f)) = _
  rw [hfunction]
  rfl

end Functions

/-- The step gives a result from every state. -/
def Succeeds {α : Type} (x : LowerM α) : Prop := ∀ c s, ∃ a s', x c s = (.ok a, s')

section Success

variable {α β : Type}

theorem Succeeds.pure (a : α) : Succeeds (pure a : LowerM α) := fun _ s => ⟨a, s, rfl⟩

theorem Succeeds.bind {x : LowerM α} {f : α → LowerM β} (hx : Succeeds x)
    (hf : ∀ a, Succeeds (f a)) : Succeeds (x >>= f) := by
  intro c s
  obtain ⟨a, s₁, ha⟩ := hx c s
  obtain ⟨b, s₂, hb⟩ := hf a c s₁
  exact ⟨b, s₂, bind_run.mpr ⟨a, s₁, ha, hb⟩⟩

theorem Succeeds.map {x : LowerM α} (hx : Succeeds x) (f : α → β) :
    Succeeds (x >>= fun a => Pure.pure (f a)) :=
  hx.bind fun _ => .pure _

theorem Succeeds.inScope {x : LowerM α} (hx : Succeeds x) : Succeeds (LowerM.inScope x) := by
  intro c s
  obtain ⟨a, s₁, ha⟩ := hx c s
  exact ⟨a, _, inScope_run.mpr ⟨s₁, ha, rfl⟩⟩

theorem Succeeds.sequence {xs : List (LowerM α)} (h : ∀ x ∈ xs, Succeeds x) :
    Succeeds (LowerM.sequence xs) := by
  induction xs with
  | nil => exact .pure []
  | cons x xs ih =>
    exact (h x (by simp)).bind fun _ => (ih fun y hy => h y (by simp [hy])).map _

theorem succeeds_state : Succeeds state := fun _ s => ⟨s, s, rfl⟩

theorem succeeds_library : Succeeds library := fun _ s => ⟨_, s, rfl⟩

theorem succeeds_modify (f : State → State) : Succeeds (modify f) := fun _ s => ⟨(), f s, rfl⟩

theorem succeeds_bindVariable (x : String) : Succeeds (bindVariable x) :=
  succeeds_state.bind fun _ => (succeeds_modify _).map _

theorem succeeds_invent (stem : String) : Succeeds (invent stem) :=
  succeeds_state.bind fun _ => (succeeds_modify _).map _

theorem succeeds_hold (stem : String) (value : Expr) : Succeeds (hold stem value) := by
  unfold hold
  split
  · exact .pure _
  · exact (succeeds_invent stem).map _

/-- Each position of the node can be lowered. -/
structure CanStand (p : Positions) : Prop where
  value : Succeeds p.value
  tail : Succeeds p.tail
  effect : Succeeds p.effect

theorem CanStand.ofValue {x : LowerM Expr} (h : Succeeds x) : CanStand (.ofValue x) :=
  ⟨h, h.map _, h.map _⟩

theorem CanStand.ofStatements {tail effect : LowerM (List Stmt)} (htail : Succeeds tail)
    (heffect : Succeeds effect) : CanStand (.ofStatements tail effect) :=
  ⟨htail.inScope.map _, htail, heffect⟩

theorem succeeds_body {ps : List Positions} (h : ∀ p ∈ ps, CanStand p) :
    Succeeds (Positions.body ps) := by
  induction ps with
  | nil => exact .pure _
  | cons p ps ih =>
    cases ps with
    | nil => exact (h p (by simp)).tail
    | cons q ps =>
      exact (h p (by simp)).effect.bind fun _ => (ih fun r hr => h r (by simp [hr])).map _

theorem succeeds_bodyValue {ps : List Positions} (h : ∀ p ∈ ps, CanStand p) :
    Succeeds (Positions.bodyValue ps) := by
  unfold Positions.bodyValue
  split
  · exact .pure _
  · exact (h _ (by simp)).value.inScope
  · exact (succeeds_body h).inScope.map _

theorem CanStand.sequenced {ps : List Positions} (h : ∀ p ∈ ps, CanStand p) :
    CanStand (.sequenced ps) := by
  refine .ofStatements (succeeds_body h) ?_
  exact (Succeeds.sequence (List.forall_mem_map.mpr fun p hp => (h p hp).effect)).map _

theorem succeeds_bindPattern {x : String} {value : LowerM Expr} (h : Succeeds value) :
    Succeeds (bindPattern (.var x) value) := by
  have hgeneral : ∀ e, Succeeds (bindPattern.general (.var "_") e) := by
    intro e c s
    obtain ⟨⟨held, subject⟩, s₁, hhold⟩ := succeeds_hold "m" e c s
    exact ⟨(held ++ [] ++ [], subject), s₁, bind_run.mpr ⟨_, s₁, hhold, rfl⟩⟩
  refine h.bind fun e => ?_
  simp only
  split
  next hx => exact hx ▸ hgeneral e
  next => exact (succeeds_bindVariable x).map _

theorem CanStand.binding {x : String} {value : LowerM Expr} (h : Succeeds value) :
    CanStand (.binding (.var x) value) :=
  .ofStatements ((succeeds_bindPattern h).map _) ((succeeds_bindPattern h).map _)

theorem succeeds_condition (n : Node) {value : LowerM Expr} (h : Succeeds value) :
    Succeeds (condition n value) := by
  refine h.bind fun e => ?_
  split
  · exact .pure _
  · exact succeeds_library.map _

theorem CanStand.conditional (negated : Bool) {test : LowerM Expr} {ps qs : List Positions}
    (htest : Succeeds test) (hps : ∀ p ∈ ps, CanStand p) (hqs : ∀ p ∈ qs, CanStand p) :
    CanStand (.conditional negated test ps qs) := by
  have hvalue : Succeeds (Positions.conditional negated test ps qs).value :=
    htest.bind fun _ => (succeeds_bodyValue hps).bind fun _ => (succeeds_bodyValue hqs).map _
  refine ⟨hvalue, ?_, hvalue.map _⟩
  exact htest.bind fun _ => (succeeds_body hps).inScope.bind fun _ =>
    (succeeds_body hqs).inScope.map _

end Success

section Forms

theorem canStand_all {ns : List Node} (h : ∀ n ∈ ns, CanStand (positions n)) :
    ∀ p ∈ all ns, CanStand p := by
  rw [all_eq_map]
  exact List.forall_mem_map.mpr h

theorem IsCore.canStand {n : Node} (core : IsCore n) : CanStand (positions n) := by
  induction core with
  | integer | string | boolean | nil =>
    rw [positions]
    exact .ofValue (.pure _)
  | var =>
    rw [positions]
    exact .ofValue ((succeeds_state.map _).map _)
  | bind _ _ ih =>
    rw [positions]
    exact .binding ih.value
  | block _ ih =>
    rw [positions]
    exact .sequenced (canStand_all ih)
  | ifElse _ _ _ iht ihi iho | unlessElse _ _ _ iht ihi iho =>
    rw [positions, optionAll_eq]
    exact .conditional _ (succeeds_condition _ iht.value) (canStand_all ihi) (canStand_all iho)
  | @operator op left right known _ _ ihl ihr =>
    have hdirect : ∃ direct, directOperator? op = some direct := by
      rw [← Option.isSome_iff_exists]
      revert op
      decide
    obtain ⟨direct, hdirect⟩ := hdirect
    rw [positions]
    refine .ofValue (ihl.value.bind fun _ => ihr.value.bind fun _ => ?_)
    rw [hdirect]
    exact .pure _
  | @fn params body named distinct _ ih =>
    rw [positions, anonymousFunction_plain (fun x hx => (named x hx).2) distinct]
    have hparams : Succeeds (bindVariables params) :=
      .sequence (List.forall_mem_map.mpr fun x _ => succeeds_bindVariable x)
    have hbody := succeeds_body (canStand_all ih)
    exact .ofValue ((hparams.bind fun _ => hbody.map _).inScope.map _)
  | apply _ _ ihf ihv =>
    rw [positions, values_eq_map]
    exact .ofValue (ihf.value.bind fun _ =>
      (Succeeds.sequence (List.forall_mem_map.mpr fun n hn => (ihv n hn).value)).map _)

end Forms

end TreeLowering.Evaluation
