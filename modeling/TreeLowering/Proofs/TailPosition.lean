import TreeLowering.Proofs.Comparison
import TreeLowering.Proofs.Evaluator
import TreeLowering.Proofs.FootprintLowering
import TreeLowering.Proofs.WellFormedLowering

/-!
A node at the end of a body returns what it is worth as an expression.

Most nodes are expressions by nature or statements by nature, and one position is made from the
other. Only `if` and `unless` are lowered twice: to a conditional expression, and to statements
whose branches are bodies. A branch of one form is again in one position or the other, so agreement
goes down the branches by induction. `Together` compares the two lowerings: from one state they end
alike and leave one state, the scope of the statements being closed.
-/
namespace TreeLowering

open Source Target LowerM Lowering

namespace LowerM

variable {α β γ δ : Type} {R : α → β → Prop} {Q : γ → δ → Prop}

/-- From every state the steps give related results, or fail with one error, and leave the same
state. -/
def Together (R : α → β → Prop) (x : LowerM α) (y : LowerM β) : Prop :=
  ∀ c s, Alike R (x c s).1 (y c s).1 ∧ (x c s).2 = (y c s).2

namespace Together

theorem pure {a : α} {b : β} (h : R a b) : Together R (Pure.pure a) (Pure.pure b) :=
  fun _ _ => ⟨.ok h, rfl⟩

theorem bind {x : LowerM α} {y : LowerM β} {f : α → LowerM γ} {g : β → LowerM δ}
    (h : Together R x y) (hf : ∀ a b, R a b → Together Q (f a) (g b)) :
    Together Q (x >>= f) (y >>= g) := by
  intro c s
  obtain ⟨hresults, hstates⟩ := h c s
  rcases hx : x c s with ⟨r, s'⟩
  rcases hy : y c s with ⟨r', t'⟩
  rw [hx, hy] at hresults hstates
  cases hstates
  cases hresults with
  | ok related =>
    rw [bind_of_ok hx, bind_of_ok hy]
    exact hf _ _ related c s'
  | error e =>
    rw [bind_of_error hx, bind_of_error hy]
    exact ⟨.error e, rfl⟩

/-- One step, of which something is known when it succeeds. -/
theorem self {x : LowerM α} {P : α → Prop} (h : x.Ensures P) :
    Together (fun a b => a = b ∧ P a) x x := by
  intro c s
  refine ⟨?_, rfl⟩
  cases hx : x c s with
  | mk r s' =>
    cases r with
    | ok a => exact .ok ⟨rfl, h c s a s' hx⟩
    | error e => exact .error e

theorem inScope {x : LowerM α} {y : LowerM β} (h : Together R x y) :
    Together R (LowerM.inScope x) (LowerM.inScope y) := by
  intro c s
  obtain ⟨hresults, hstates⟩ := h c s
  exact ⟨hresults, by simp only [LowerM.inScope, hstates]⟩

end Together

end LowerM

namespace Positions

/-- The statements at the end of a body, their scope closed, return the value. -/
def Agree (p : Positions) : Prop :=
  Together (fun e stmts => Returns stmts e) p.value (inScope p.tail)

/-- A step that leaves the scope as it was needs none of its own. -/
theorem inScope_of_within {α : Type} {x : LowerM α} (h : x.Within .numbers True) :
    inScope x = x := by
  funext c s
  have hscope : (x c s).2.scope = s.scope := (h.leaves c s).2
  rw [inScope, ← hscope]

theorem agree_ofValue {x : LowerM Expr} (h : x.Within .numbers True) : (ofValue x).Agree := by
  have hvalue : Together (fun e stmts => Returns stmts e) (x >>= Pure.pure) (returned x) := by
    refine .bind (.self (P := fun _ => True) fun _ _ _ _ _ => trivial) ?_
    rintro e _ ⟨rfl, -⟩
    exact .pure (returns_return e)
  have htail : (returned x).Within .numbers True := .bind h fun _ => .pure _
  rw [bind_pure] at hvalue
  rwa [Agree, ofValue, inScope_of_within htail]

theorem together_immediately {stmts : LowerM (List Stmt)} (h : stmts.Ensures Closed) :
    Together (fun e stmts => Returns stmts e) (immediately stmts) (inScope stmts) := by
  have hvalue : Together (fun e stmts => Returns stmts e) (immediately stmts)
      (inScope stmts >>= Pure.pure) := by
    refine .bind (.self (Ensures.inScope h)) ?_
    rintro stmts _ ⟨rfl, hclosed⟩
    exact .pure (returns_immediate hclosed.1)
  rwa [bind_pure] at hvalue

theorem agree_ofStatements {tail effect : LowerM (List Stmt)} (h : tail.Ensures Closed) :
    (ofStatements tail effect).Agree :=
  together_immediately h

/-- A body has the value that it returns. -/
theorem together_body {ps : List Positions} (hclosed : (body ps).Ensures Closed)
    (h : ∀ p ∈ ps, p.Agree) :
    Together (fun e stmts => Returns stmts e) (bodyValue ps) (inScope (body ps)) := by
  cases ps with
  | nil => exact fun c s => ⟨.ok (returns_return .null), rfl⟩
  | cons first rest =>
    cases rest with
    | nil => exact (h first List.mem_cons_self).inScope
    | cons second rest => exact together_immediately hclosed

/-- The branches agree, so the two forms of the conditional do. -/
theorem agree_conditional {negated : Bool} {test : LowerM Expr}
    {thenItems elseItems : List Positions} (htest : test.Within .numbers True)
    (hthenScope : (body thenItems).Within .bindings True)
    (helseScope : (body elseItems).Within .bindings True)
    (hthen : Together (fun e stmts => Returns stmts e) (bodyValue thenItems)
      (inScope (body thenItems)))
    (helse : Together (fun e stmts => Returns stmts e) (bodyValue elseItems)
      (inScope (body elseItems))) :
    (conditional negated test thenItems elseItems).Agree := by
  have htail : (conditional negated test thenItems elseItems).tail.Within .numbers True :=
    .bind htest fun _ => .bind (.inScope hthenScope) fun _ => .bind (.inScope helseScope) fun _ =>
      .pure _
  rw [Agree, inScope_of_within htail]
  refine .bind (.self (P := fun _ => True) fun _ _ _ _ _ => trivial) ?_
  rintro test _ ⟨rfl, -⟩
  refine .bind hthen fun thenValue thenStmts hthen => ?_
  refine .bind helse fun elseValue elseStmts helse => ?_
  cases negated with
  | false => exact .pure (returns_conditional hthen helse)
  | true => exact .pure (returns_conditional helse hthen)

end Positions

section Nodes

theorem agree_of_ofValue {n : Node} {x : LowerM Expr} (h : positions n = .ofValue x) :
    (positions n).Agree := by
  have hwithin : (positions n).value.Within .numbers True :=
    (lowersWithin fun _ _ _ => trivial).positions.value
  rw [h] at hwithin ⊢
  exact Positions.agree_ofValue hwithin

theorem agree_of_ofStatements {n : Node} {tail effect : LowerM (List Stmt)}
    (h : positions n = .ofStatements tail effect) : (positions n).Agree := by
  have hclosed : (positions n).tail.Ensures Closed := (lowersWellFormed n).positions.tail
  rw [h] at hclosed ⊢
  exact Positions.agree_ofStatements hclosed

/-- A body of nodes that agree has the value that it returns. -/
theorem together_sourceBody {ns : List Node} (h : ∀ n ∈ ns, (positions n).Agree) :
    Together (fun e stmts => Returns stmts e) (Positions.bodyValue (all ns))
      (inScope (Positions.body (all ns))) := by
  refine Positions.together_body (closed_body (wellFormed_all fun m _ => lowersWellFormed m)) ?_
  rw [all_eq_map]
  exact List.forall_mem_map.mpr h

theorem within_sourceBody (ns : List Node) : (Positions.body (all ns)).Within .bindings True := by
  refine Positions.Within.body ?_
  rw [all_eq_map]
  exact List.forall_mem_map.mpr fun m _ => (lowersWithin fun _ _ _ => trivial).positions

/-- Every node agrees with itself in the other position. -/
theorem positions_agree (n : Node) : (positions n).Agree := by
  induction n using Node.induct with | step n ih
  cases n with
  | ifElse test body otherwise | unlessElse test body otherwise =>
    have htest : (condition test (positions test).value).Within .numbers True :=
      within_condition (lowersWithin fun _ _ _ => trivial).positions.value
    rw [positions, optionAll_eq]
    refine Positions.agree_conditional htest (within_sourceBody _) (within_sourceBody _)
      (together_sourceBody fun m hm => ih m ?_) (together_sourceBody fun m hm => ih m ?_)
    · simp [Node.children, hm]
    · simp [Node.children, hm]
  | bind | caseOf | cond | block | raise => exact agree_of_ofStatements (by rw [positions]; rfl)
  | pin | guarded | pipe | define | module | importAll | importOnly | aliasAs | require
  | attributeSet | defStruct | defException =>
    exact agree_of_ofValue (by simp only [positions]; rfl)
  | _ => exact agree_of_ofValue (by rw [positions])

end Nodes

/-- From one state, a node at the end of a body and the node as an expression both fail, with the
same error, or both succeed. They give out the same versions and invented names. Whatever evaluates
the target, the statements then return the value of the expression: the two runs throw what the
other throws, change the store as the other does, and end when the other does. -/
theorem tail_and_value_agree (n : Node) (c : Config) (s : State) :
    ((positions n).value c s).2 = { ((positions n).tail c s).2 with scope := s.scope } ∧
    ((∃ e, ((positions n).value c s).1 = .error e ∧ ((positions n).tail c s).1 = .error e) ∨
      ∃ e stmts, ((positions n).value c s).1 = .ok e ∧ ((positions n).tail c s).1 = .ok stmts ∧
        ∀ (M : Evaluator) (env : M.Env),
          M.execAll stmts env = (do return .returned (← M.eval e env))) := by
  obtain ⟨hresults, hstates⟩ := positions_agree n c s
  refine ⟨hstates, ?_⟩
  have htail : (inScope (positions n).tail c s).1 = ((positions n).tail c s).1 := rfl
  rw [htail] at hresults
  generalize ((positions n).value c s).1 = value at hresults ⊢
  generalize ((positions n).tail c s).1 = tail at hresults ⊢
  cases hresults with
  | ok related => exact .inr ⟨_, _, rfl, rfl, related⟩
  | error e => exact .inl ⟨e, rfl, rfl⟩

/-- `unless` around `if` around `unless`, with a body of several expressions, an empty one and none
at all. -/
def nestedConditional : Node :=
  .unlessElse (.var "closed")
    [.ifElse (.boolean true)
      [.call "log" [.integer 1] {}, .bind (.var "x") .nil,
        .unlessElse (.var "x") [.integer 7] none] none]
    (some [.ifElse (.boolean false) [] (some [])])

theorem tail_and_value_agree_nestedConditional :
    ∃ e stmts, ((positions nestedConditional).value {} {}).1 = .ok e ∧
      ((positions nestedConditional).tail {} {}).1 = .ok stmts ∧
      ((sampleEvaluator ⟨"Runtime"⟩).eval e [("closed", Datum.boolean false)]).run.run {} =
        some (.ok (.integer 7), { calls := [("log", [.integer 1])] }) ∧
      ((sampleEvaluator ⟨"Runtime"⟩).execAll stmts [("closed", Datum.boolean false)]).run.run {} =
        some (.ok (.returned (.integer 7)), { calls := [("log", [.integer 1])] }) := by
  obtain ⟨-, ⟨e, hvalue, -⟩ | ⟨e, stmts, hvalue, htail, hagree⟩⟩ :=
    tail_and_value_agree nestedConditional {} {}
  · cases hvalue
  · refine ⟨e, stmts, hvalue, htail, ?_⟩
    rw [hagree]
    cases hvalue
    constructor
    · rfl
    · rfl

end TreeLowering
