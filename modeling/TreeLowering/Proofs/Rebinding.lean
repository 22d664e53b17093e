import TreeLowering.Proofs.CoreForms
import TreeLowering.Proofs.Correspondence

/-!
Rebinding and closures keep their meaning.

The target declares each name once, and the source binds names again and again; a closure of the
target refers to cells, and one of the source keeps values. `lowered_evaluates` says that a form that
has a value is lowered to an expression that has the corresponding one.

The proof follows the evaluation of the form. Each rule of it is a lemma about steps of the lowering:
what the step gives runs to a corresponding value, from every state of the lowering and every heap
that agree with the scope.
-/
namespace TreeLowering.Evaluation

open Source Target Identifier Scoping LowerM Lowering

/-- What the step gives runs to a value like this one, and no cell that was there changes. -/
def GivesValue (c : Config) (scope : Scope) (x : LowerM Expr) (v : Value) : Prop :=
  ∀ s s' e cells h, x c s = (.ok e, s') → Agrees c h scope (namesOf s) cells →
    ∃ w h', Runs c cells h (.expr e) (.value w) h' ∧ Grows cells [] h h' ∧ Corresponds c h' v w

def GivesValues (c : Config) (scope : Scope) (xs : List (LowerM Expr)) (vs : List Value) : Prop :=
  ∀ s s' es cells h, LowerM.sequence xs c s = (.ok es, s') → Agrees c h scope (namesOf s) cells →
    ∃ ws h', Runs c cells h (.exprs es) (.values ws) h' ∧ Grows cells [] h h' ∧
      List.Forall₂ (Corresponds c h') vs ws

/-- What the step gives returns a value like this one from a block where its constants are still to
be declared. -/
def GivesReturn (c : Config) (scope : Scope) (x : LowerM (List Stmt)) (v : Value) : Prop :=
  ∀ s s' stmts cells h, x c s = (.ok stmts, s') → Agrees c h scope (namesOf s) cells →
    Pending cells h (constants stmts) →
    ∃ w h', Runs c cells h (.stmts stmts) (.returned w) h' ∧ Grows cells (constants stmts) h h' ∧
      Corresponds c h' v w

/-- What the step gives runs to its end, and the names in scope after it agree with `after`. -/
def GivesScope (c : Config) (scope : Scope) (x : LowerM (List Stmt)) (after : Scope) : Prop :=
  ∀ s s' stmts cells h, x c s = (.ok stmts, s') → Agrees c h scope (namesOf s) cells →
    Pending cells h (constants stmts) →
    ∃ h', (∀ rest answer h'', Runs c cells h' (.stmts rest) answer h'' →
        Runs c cells h (.stmts (stmts ++ rest)) answer h'') ∧
      Grows cells (constants stmts) h h' ∧ Agrees c h' after (namesOf s') cells

section Steps

variable {c : Config} {scope after : Scope} {x y : LowerM Expr} {stmts : LowerM (List Stmt)}
  {es fs : List Event} {v : Value} {s s' : State} {cells : NameTable Nat} {h h' : Heap}

theorem Agrees.afterValue {e : Expr} (agrees : Agrees c h scope (namesOf s) cells)
    (hx : YieldsExpr IsSourceName IsSourceName x es) (hrun : x c s = (.ok e, s'))
    (grows : Grows cells [] h h') : Agrees c h' scope (namesOf s') cells := by
  have hemits := hx c [] s e s' hrun
  exact (agrees.later (hemits.scope_eq (flat_exprMarks e)) hemits.le).mono
    (grows.keeps (.nil cells h))

theorem GivesValue.returned (hx : GivesValue c scope x v) :
    GivesReturn c scope (Positions.returned x) v := by
  intro s s' out cells h hrun agrees _
  simp only [Positions.returned, bind_run, pure_run] at hrun
  obtain ⟨e, s₁, he, rfl, rfl⟩ := hrun
  obtain ⟨w, h', hruns, hgrows, hr⟩ := hx s s' e cells h he agrees
  exact ⟨w, h', .returns hruns, hgrows, hr⟩

theorem GivesValue.evaluated (hx : GivesValue c scope x v)
    (hy : YieldsExpr IsSourceName IsSourceName x es) :
    GivesScope c scope (Positions.evaluated x) scope := by
  intro s s' out cells h hrun agrees _
  simp only [Positions.evaluated, bind_run, pure_run] at hrun
  obtain ⟨e, s₁, he, rfl, rfl⟩ := hrun
  obtain ⟨w, h', hruns, hgrows, -⟩ := hx s s' e cells h he agrees
  exact ⟨h', fun rest answer h'' hrest => .evaluated hruns hrest, hgrows,
    agrees.afterValue hy he hgrows⟩

/-- Statements in a block of their own. -/
theorem GivesReturn.inBlock {out : List Stmt} (hx : GivesReturn c scope stmts v)
    (hy : YieldsStmts IsSourceName IsSourceName stmts es) (hrun : stmts c s = (.ok out, s'))
    (agrees : Agrees c h scope (namesOf s) cells) :
    (constants out).Nodup ∧ ∃ w h', Runs c (place cells h.length (constants out))
      (h ++ unset (constants out)) (.stmts out) (.returned w) h' ∧ Grows cells [] h h' ∧
        Corresponds c h' v w := by
  have hemits := hy c [] s out s' hrun
  obtain ⟨hgiven, hdistinct⟩ := @constants_given _ _ [] out
    (hemits.allocates (fun _ => id) fun _ => id)
  obtain ⟨w, h', hruns, hgrows, hr⟩ := hx s s' out _ _ hrun
    (agrees.enter hgiven (unset (constants out))) (@pending_place _ _ [] _ [] hdistinct rfl)
  exact ⟨hdistinct, w, h', hruns, @Grows.leave _ _ _ [] _ _ _ hdistinct hgrows, hr⟩

theorem GivesReturn.immediately (hx : GivesReturn c scope stmts v)
    (hy : YieldsStmts IsSourceName IsSourceName stmts es) :
    GivesValue c scope (LowerM.immediately stmts) v := by
  intro s s' e cells h hrun agrees
  simp only [LowerM.immediately, bind_run, pure_run, inScope_run] at hrun
  obtain ⟨out, s₁, ⟨s₂, hout, rfl⟩, rfl, rfl⟩ := hrun
  obtain ⟨hdistinct, w, h', hruns, hgrows, hr⟩ := hx.inBlock hy hout agrees
  exact ⟨w, h', .call .function .noValues rfl hdistinct hruns, hgrows, hr⟩

theorem GivesValue.inScope (hx : GivesValue c scope x v) :
    GivesValue c scope (LowerM.inScope x) v := by
  intro s s' e cells h hrun agrees
  obtain ⟨s₁, he, rfl⟩ := inScope_run.mp hrun
  exact hx s s₁ e cells h he agrees

theorem givesReturn_emptyBody : GivesReturn c scope (Positions.body []) .nil := by
  intro s s' out cells h hrun agrees _
  obtain ⟨rfl, rfl⟩ := pure_run.mp hrun
  exact ⟨_, h, .returns (.literal rfl), .refl cells _ h, .scalar .nil⟩

theorem GivesScope.body {first second : Positions} {rest : List Positions}
    (hfirst : GivesScope c scope first.effect after)
    (hrest : GivesReturn c after (Positions.body (second :: rest)) v) :
    GivesReturn c scope (Positions.body (first :: second :: rest)) v := by
  intro s s' out cells h hrun agrees pending
  simp only [Positions.body, bind_run, pure_run] at hrun
  obtain ⟨front, s₁, hfront, more, s₂, hmore, rfl, rfl⟩ := hrun
  rw [constants_append] at pending ⊢
  obtain ⟨h₁, hcontinue, hgrows, hagrees⟩ := hfirst s s₁ front cells h hfront agrees pending.left
  obtain ⟨w, h', hruns, hgrows', hr⟩ :=
    hrest s₁ s' more cells h₁ hmore hagrees (pending.right hgrows)
  exact ⟨w, h', hcontinue more _ h' hruns, hgrows.trans hgrows', hr⟩

theorem givesScope_nil : GivesScope c scope (LowerM.concat []) scope := by
  intro s s' out cells h hrun agrees _
  simp only [LowerM.concat, LowerM.sequence, bind_run, pure_run] at hrun
  obtain ⟨parts, s₁, ⟨rfl, rfl⟩, rfl, rfl⟩ := hrun
  exact ⟨h, fun rest answer h'' hrest => hrest, .refl cells _ h, agrees⟩

theorem GivesScope.concat {middle : Scope} {rest : List (LowerM (List Stmt))}
    (hfirst : GivesScope c scope stmts middle)
    (hrest : GivesScope c middle (LowerM.concat rest) after) :
    GivesScope c scope (LowerM.concat (stmts :: rest)) after := by
  intro s s' out cells h hrun agrees pending
  simp only [LowerM.concat, LowerM.sequence, bind_run, pure_run] at hrun
  obtain ⟨parts, s₁, ⟨front, s₂, hfront, more, s₃, hmore, rfl, rfl⟩, rfl, rfl⟩ := hrun
  rw [List.flatten_cons, constants_append] at pending ⊢
  obtain ⟨h₁, hcontinue, hgrows, hagrees⟩ := hfirst s s₂ front cells h hfront agrees pending.left
  have hmore : LowerM.concat rest c s₂ = (.ok more.flatten, s') :=
    bind_run.mpr ⟨more, s', hmore, rfl⟩
  obtain ⟨h₂, hcontinue', hgrows', hagrees'⟩ :=
    hrest s₂ s' more.flatten cells h₁ hmore hagrees (pending.right hgrows)
  refine ⟨h₂, fun last answer h'' hlast => ?_, hgrows.trans hgrows', hagrees'⟩
  rw [List.append_assoc]
  exact hcontinue _ _ _ (hcontinue' last answer h'' hlast)

/-- The declaration of a constant whose cell is empty. -/
theorem GivesValue.constant {e : Expr} {t : String} (hx : GivesValue c scope x v)
    (he : x c s = (.ok e, s')) (agrees : Agrees c h scope (namesOf s) cells)
    (pending : Pending cells h [t]) :
    ∃ w h' i, (∀ rest answer h'', Runs c cells h' (.stmts rest) answer h'' →
        Runs c cells h (.stmts (.const t e :: rest)) answer h'') ∧
      Grows cells [t] h h' ∧ cells.get? t = some i ∧ h'[i]? = some (some w) ∧
        Corresponds c h' v w := by
  obtain ⟨w, h₁, hruns, hgrows, hr⟩ := hx s s' e cells h he agrees
  have hpending : Pending cells h₁ [t] := Pending.right pending hgrows
  obtain ⟨i, hi, hempty⟩ := hpending.empty t (List.mem_singleton_self t)
  have hset : Grows cells [t] h₁ (h₁.set i (some w)) := .set hi w
  obtain ⟨hlt, -⟩ := List.getElem?_eq_some_iff.mp hempty
  exact ⟨w, _, i, fun rest answer h'' hrest => .constant hruns hi hempty hrest, hgrows.trans hset,
    hi, List.getElem?_set_self hlt, hr.mono (hset.keeps hpending)⟩

/-- The pattern `_` only holds the value. -/
theorem bindPattern_wildcard_run {e subject : Expr} {out : List Stmt}
    (hrun : bindPattern.general (.var "_") e c s = (.ok (out, subject), s')) :
    hold "m" e c s = (.ok (out, subject), s') := by
  obtain ⟨held, plan, failure, declared, s₁, s₂, hhold, hplan, hdeclared, rfl, hfailure⟩ :=
    bindPattern_general_run hrun
  rw [plan_run] at hplan
  cases hplan
  obtain ⟨rfl, rfl⟩ := pure_run.mp hdeclared
  rcases hfailure with rfl | ⟨test, htest, -⟩
  · simpa using hhold
  · cases htest

/-- `name = value`: the name is in scope after the statements, and the value can be read. -/
theorem GivesValue.bindPattern {name : String} {subject : Expr} {out : List Stmt}
    (named : IsSourceName name) (hx : GivesValue c scope x v)
    (hy : YieldsExpr IsSourceName IsSourceName x es)
    (hrun : LowerM.bindPattern (.var name) x c s = (.ok (out, subject), s'))
    (agrees : Agrees c h scope (namesOf s) cells) (pending : Pending cells h (constants out)) :
    ∃ w h', (∀ rest answer h'', Runs c cells h' (.stmts rest) answer h'' →
        Runs c cells h (.stmts (out ++ rest)) answer h'') ∧
      Grows cells (constants out) h h' ∧ Agrees c h' (scope.bind name v) (namesOf s') cells ∧
        Runs c cells h' (.expr subject) (.value w) h' ∧ Corresponds c h' v w := by
  simp only [LowerM.bindPattern, bind_run] at hrun
  obtain ⟨e, s₁, he, hrun⟩ := hrun
  have hemits := hy c [] s e s₁ he
  have hlater := agrees.later (hemits.scope_eq (flat_exprMarks e)) hemits.le
  split at hrun
  next hname =>
    have hhold := bindPattern_wildcard_run (hname ▸ hrun)
    rw [Scope.bind, if_pos hname]
    unfold hold at hhold
    split at hhold
    next t =>
      obtain ⟨hpair, rfl⟩ := pure_run.mp hhold
      obtain ⟨rfl, rfl⟩ := Prod.mk.inj hpair
      obtain ⟨w, h₁, hruns, hgrows, hr⟩ := hx s s' _ cells h he agrees
      cases hruns with
      | ident declared set =>
        exact ⟨w, h, fun rest answer h'' hrest => hrest, .refl .., hlater, .ident declared set, hr⟩
    next =>
      simp only [bind_run, pure_run] at hhold
      obtain ⟨t, s₂, ht, hpair, rfl⟩ := hhold
      obtain ⟨rfl, rfl⟩ := Prod.mk.inj hpair
      obtain ⟨-, hnames⟩ := invent_names ht
      obtain ⟨w, h', i, hcontinue, hgrows, hi, hw, hr⟩ := hx.constant he agrees pending
      refine ⟨w, h', hcontinue, hgrows, ?_, .ident hi hw, hr⟩
      rw [hnames]
      exact (hlater.later (m := (namesOf s₁).invent) rfl (.invent _)).mono (hgrows.keeps pending)
  next hname =>
    simp only [bind_run, pure_run] at hrun
    obtain ⟨t, s₂, ht, hpair, rfl⟩ := hrun
    obtain ⟨rfl, rfl⟩ := Prod.mk.inj hpair
    obtain ⟨rfl, hnames⟩ := bindVariable_names ht
    obtain ⟨w, h', i, hcontinue, hgrows, hi, hw, hr⟩ := hx.constant he agrees pending
    refine ⟨w, h', hcontinue, hgrows, ?_, .ident hi hw, hr⟩
    rw [Scope.bind, if_neg hname, hnames]
    exact (hlater.mono (hgrows.keeps pending)).bind named hi hw hr

theorem GivesValue.binding {name : String} (named : IsSourceName name)
    (hx : GivesValue c scope x v) (hy : YieldsExpr IsSourceName IsSourceName x es) :
    GivesReturn c scope (Positions.binding (.var name) x).tail v ∧
      GivesScope c scope (Positions.binding (.var name) x).effect (scope.bind name v) := by
  constructor
  · intro s s' out cells h hrun agrees pending
    simp only [Positions.binding, Positions.ofStatements, bind_run, pure_run] at hrun
    obtain ⟨⟨front, subject⟩, s₁, hbind, rfl, rfl⟩ := hrun
    rw [constants_append] at pending ⊢
    obtain ⟨w, h', hcontinue, hgrows, -, hruns, hr⟩ :=
      hx.bindPattern named hy hbind agrees pending.left
    exact ⟨w, h', hcontinue _ _ _ (.returns hruns),
      by simpa [constants, Stmt.return_] using hgrows, hr⟩
  · intro s s' out cells h hrun agrees pending
    simp only [Positions.binding, Positions.ofStatements, bind_run, pure_run] at hrun
    obtain ⟨⟨front, subject⟩, s₁, hbind, rfl, rfl⟩ := hrun
    obtain ⟨w, h', hcontinue, hgrows, hagrees, -, -⟩ :=
      hx.bindPattern named hy hbind agrees pending
    exact ⟨h', hcontinue, hgrows, hagrees⟩

/-- What the step gives runs to something that the target takes for true, or for false. -/
def GivesTest (c : Config) (scope : Scope) (x : LowerM Expr) (b : Bool) : Prop :=
  ∀ s s' e cells h, x c s = (.ok e, s') → Agrees c h scope (namesOf s) cells →
    ∃ w h', Runs c cells h (.expr e) (.value w) h' ∧ Grows cells [] h h' ∧ w.toBoolean = b

/-- A condition is tested by the runtime, unless its form makes it a boolean. -/
theorem GivesValue.condition {node : Node} (hx : GivesValue c scope x v)
    (boolean : isBoolean node = true → ∃ b, v = .scalar (.boolean b)) :
    GivesTest c scope (LowerM.condition node x) v.isTruthy := by
  intro s s' e cells h hrun agrees
  simp only [LowerM.condition, bind_run] at hrun
  obtain ⟨value, s₁, hvalue, hrun⟩ := hrun
  obtain ⟨w, h', hruns, hgrows, hr⟩ := hx s s₁ value cells h hvalue agrees
  split at hrun
  next hboolean =>
    obtain ⟨rfl, rfl⟩ := pure_run.mp hrun
    obtain ⟨b, rfl⟩ := boolean hboolean
    cases hr
    exact ⟨_, h', hruns, hgrows, by cases b <;> rfl⟩
  next =>
    simp only [bind_run, pure_run, library_run] at hrun
    obtain ⟨lib, s₂, ⟨rfl, rfl⟩, rfl, rfl⟩ := hrun
    exact ⟨_, h', .truthy hruns, hgrows, hr.isTruthy_eq⟩

/-- What the items of a body give, in expression position and as statements. -/
structure GivesBody (c : Config) (scope : Scope) (items : List Positions) (v : Value) : Prop where
  value : GivesValue c scope (Positions.bodyValue items) v
  tail : GivesReturn c scope (Positions.body items) v

theorem branches_selected {α : Type} (negated b : Bool) (body otherwise : α) :
    (if b then (Positions.branches negated body otherwise).1
      else (Positions.branches negated body otherwise).2) =
      if b != negated then body else otherwise := by
  cases negated <;> cases b <;> rfl

section Conditional

variable {negated b : Bool} {thenItems elseItems : List Positions} {os rs : List Outline}

theorem GivesTest.conditionalValue (htest : GivesTest c scope x b)
    (hx : YieldsExpr IsSourceName IsSourceName x es)
    (hthen : List.Forall₂ (Follows IsSourceName IsSourceName) thenItems os)
    (hbranch : GivesBody c scope (if b != negated then thenItems else elseItems) v) :
    GivesValue c scope (Positions.conditional negated x thenItems elseItems).value v := by
  intro s s' e cells h hrun agrees
  simp only [Positions.conditional, Positions.ofValue, bind_run, pure_run] at hrun
  obtain ⟨test, s₁, htest', thenValue, s₂, hthen', elseValue, s₃, helse', rfl, rfl⟩ := hrun
  obtain ⟨t, h₁, hruns, hgrows, hb⟩ := htest s s₁ test cells h htest' agrees
  have hagrees := agrees.afterValue hx htest' hgrows
  have hselected : ∃ w h', Runs c cells h₁ (.expr (if b != negated then thenValue else elseValue))
      (.value w) h' ∧ Grows cells [] h₁ h' ∧ Corresponds c h' v w := by
    split at hbranch
    next hthens =>
      rw [if_pos hthens]
      exact hbranch.value s₁ s₂ thenValue cells h₁ hthen' hagrees
    next helses =>
      rw [if_neg helses]
      exact hbranch.value s₂ s' elseValue cells h₁ helse'
        (hagrees.afterValue (yields_bodyValue hthen) hthen' (.refl ..))
  obtain ⟨w, h', hselected, hgrows', hr⟩ := hselected
  rw [← branches_selected, ← hb] at hselected
  exact ⟨w, h', .conditional hruns hselected, hgrows.trans hgrows', hr⟩

theorem GivesTest.conditionalTail (htest : GivesTest c scope x b)
    (hx : YieldsExpr IsSourceName IsSourceName x es)
    (hthen : List.Forall₂ (Follows IsSourceName IsSourceName) thenItems os)
    (helse : List.Forall₂ (Follows IsSourceName IsSourceName) elseItems rs)
    (hbranch : GivesBody c scope (if b != negated then thenItems else elseItems) v) :
    GivesReturn c scope (Positions.conditional negated x thenItems elseItems).tail v := by
  intro s s' out cells h hrun agrees _
  simp only [Positions.conditional, Positions.ofValue, bind_run, pure_run, inScope_run] at hrun
  obtain ⟨test, s₁, htest', thens, s₂, ⟨s₃, hthen', rfl⟩, elses, s₄, ⟨s₅, helse', rfl⟩, rfl, rfl⟩ :=
    hrun
  obtain ⟨t, h₁, hruns, hgrows, hb⟩ := htest s s₁ test cells h htest' agrees
  have hagrees := agrees.afterValue hx htest' hgrows
  have hselected : ∃ w h', Runs c cells h₁
      (.stmts [.block (if b != negated then thens else elses)]) (.returned w) h' ∧
        Grows cells [] h₁ h' ∧ Corresponds c h' v w := by
    split at hbranch
    next hthens =>
      obtain ⟨hdistinct, w, h', hblock, hgrows', hr⟩ :=
        hbranch.tail.inBlock (yields_body hthen) hthen' hagrees
      rw [if_pos hthens]
      exact ⟨w, h', .blockReturns hdistinct hblock, hgrows', hr⟩
    next helses =>
      have hle := (yields_body hthen c [] s₁ thens s₃ hthen').le.leave (namesOf s₁)
      obtain ⟨hdistinct, w, h', hblock, hgrows', hr⟩ :=
        hbranch.tail.inBlock (yields_body helse) helse' (hagrees.later rfl hle)
      rw [if_neg helses]
      exact ⟨w, h', .blockReturns hdistinct hblock, hgrows', hr⟩
  obtain ⟨w, h', hselected, hgrows', hr⟩ := hselected
  refine ⟨w, h', .ifElse hruns ?_, hgrows.trans hgrows', hr⟩
  rw [hb]
  cases b <;> cases negated <;> exact hselected

end Conditional

theorem direct_of_operate {op : String} {a b r : Scalar} (h : operate op a b = some r) :
    ∃ direct, directOperator? op = some direct ∧ applyOperator direct a b = some r := by
  unfold operate at h
  split at h
  · exact ⟨.add, rfl, h⟩
  · exact ⟨.sub, rfl, h⟩
  · exact ⟨.lt, rfl, h⟩
  · exact ⟨.le, rfl, h⟩
  · exact ⟨.gt, rfl, h⟩
  · exact ⟨.ge, rfl, h⟩
  · exact ⟨.eq, rfl, h⟩
  · exact ⟨.eq, rfl, h⟩
  · exact ⟨.ne, rfl, h⟩
  · exact ⟨.ne, rfl, h⟩
  · cases h

theorem GivesValue.operator {op : String} {a b r : Scalar} (hx : GivesValue c scope x (.scalar a))
    (hx' : YieldsExpr IsSourceName IsSourceName x es) (hy : GivesValue c scope y (.scalar b))
    (result : operate op a b = some r) :
    GivesValue c scope (binaryOperation op x y) (.scalar r) := by
  obtain ⟨direct, hdirect, happly⟩ := direct_of_operate result
  intro s s' e cells h hrun agrees
  simp only [binaryOperation, hdirect, bind_run, pure_run] at hrun
  obtain ⟨left, s₁, hleft, right, s₂, hright, rfl, rfl⟩ := hrun
  obtain ⟨w, h₁, hruns, hgrows, hr⟩ := hx s s₁ left cells h hleft agrees
  obtain ⟨u, h₂, hruns', hgrows', hr'⟩ :=
    hy s₁ s' right cells h₁ hright (agrees.afterValue hx' hleft hgrows)
  cases hr
  cases hr'
  exact ⟨_, h₂, .binary hruns hruns' happly, hgrows.trans hgrows', .scalar r⟩

theorem givesValue_var {name : String} (found : scope.get? name = some v) :
    GivesValue c scope (do return .ident (← LowerM.resolve name)) v := by
  intro s s' e cells h hrun agrees
  simp only [LowerM.resolve, bind_run, pure_run, state_run] at hrun
  obtain ⟨t, s₁, ⟨r, s₂, ⟨rfl, rfl⟩, rfl, rfl⟩, rfl, rfl⟩ := hrun
  obtain ⟨version, i, w, hversion, hi, hw, hr⟩ := agrees.found name v found
  have hname : (namesOf s').resolve name = ofVariable (namesOf s').functions name version := by
    rw [Names.resolve, hversion, Option.getD_some]
  rw [← hname] at hi
  exact ⟨w, h, .ident hi hw, .refl .., hr⟩

/-- The arguments of a call are bound to the parameters. -/
theorem Agrees.bindAll {params targets : List String} {vs : List Value} {ws : List TargetValue}
    (agrees : Agrees c h scope (namesOf s) cells) (named : ∀ x ∈ params, IsSourceName x)
    (bound : bindVariables params c s = (.ok targets, s')) (arity : vs.length = params.length)
    (related : List.Forall₂ (Corresponds c h) vs ws)
    (placed : ∀ (i : Nat) t w, targets[i]? = some t → ws[i]? = some w →
      ∃ j, cells.get? t = some j ∧ h[j]? = some (some w)) :
    Agrees c h (scope.bindAll params vs) (namesOf s') cells := by
  unfold bindVariables at bound
  induction related generalizing scope params targets s with
  | nil =>
    obtain rfl := List.length_eq_zero_iff.mp arity.symm
    obtain ⟨rfl, rfl⟩ := pure_run.mp bound
    exact agrees
  | @cons v w vs ws hr hrest ih =>
    cases params with
    | nil => cases arity
    | cons x params =>
      simp only [List.map_cons, LowerM.sequence, bind_run, pure_run] at bound
      obtain ⟨t, s₁, ht, rest, s₂, hbound, rfl, rfl⟩ := bound
      obtain ⟨rfl, hnames⟩ := bindVariable_names ht
      obtain ⟨j, hj, hw⟩ := placed 0 _ w rfl rfl
      have hfirst := agrees.bind (named x (by simp)) hj hw hr
      rw [← hnames] at hfirst
      exact ih hfirst (fun y hy => named y (by simp [hy])) hbound (by simpa using arity)
        fun i t w hi hw => placed (i + 1) t w hi hw

theorem Corresponds.exists_closure {made : Scope} {params : List String} {body : List Node}
    {f : TargetValue} (r : Corresponds c h (.closure made params body) f) :
    ∃ made' targets out s s₁ s₂, f = .closure made' targets out ∧
      bindVariables params c s = (.ok targets, s₁) ∧
      Positions.body (all body) c s₁ = (.ok out, s₂) ∧ Agrees c h made (namesOf s) made' ∧
        (∀ x ∈ params, IsSourceName x) ∧ ∀ n ∈ body, IsCore n := by
  cases r with
  | closure named items bound lowered known cell content found related =>
    refine ⟨_, _, _, _, _, _, rfl, bound, lowered, ⟨known, fun x v hx => ?_⟩, named, items⟩
    obtain ⟨version, hversion, hcell, hcontent⟩ := found x v hx
    exact ⟨version, cell x, content x, hversion, hcell, hcontent, related x v hx⟩

/-- A call of corresponding functions with corresponding arguments. -/
theorem Corresponds.call {made : Scope} {params : List String} {body : List Node} {vs : List Value}
    {f : TargetValue} {ws : List TargetValue} (r : Corresponds c h (.closure made params body) f)
    (related : List.Forall₂ (Corresponds c h) vs ws) (arity : vs.length = params.length)
    (hbody : (∀ n ∈ body, IsCore n) →
      GivesReturn c (made.bindAll params vs) (Positions.body (all body)) v) :
    ∃ made' targets out, f = .closure made' targets out ∧ ws.length = targets.length ∧
      (targets ++ constants out).Nodup ∧
      ∃ w h', Runs c (place made' h.length (targets ++ constants out))
        (h ++ (ws.map some ++ unset (constants out))) (.stmts out) (.returned w) h' ∧
          Grows cells [] h h' ∧ Corresponds c h' v w := by
  obtain ⟨made', targets, out, s, s₁, s₂, rfl, bound, lowered, agrees, named, items⟩ :=
    r.exists_closure
  have hparams : Emits c IsSourceName IsSourceName [] (namesOf s) (params.map .bind)
      (targets.map .param) (namesOf s₁) := bindVariables_emits named bound
  have hout := yields_body (follows_all fun n hn => outlined (items n hn).named) c [] s₁ out s₂
    lowered
  obtain ⟨hgiven, hdistinct⟩ :=
    constants_given ((hparams.append hout).allocates (fun _ => id) fun _ => id)
  have hlength : ws.length = targets.length := by
    rw [← related.length_eq, arity, length_of_sequence bound, List.length_map]
  have hkeeps := Heap.Keeps.append h (ws.map some ++ unset (constants out))
  have hrelated := related.imp fun _ _ hr => hr.mono hkeeps
  have hentered := agrees.enter hgiven (ws.map some ++ unset (constants out))
  have hbound := hentered.bindAll named bound arity hrelated ?_
  · obtain ⟨w, h', hruns, hgrows, hr⟩ := hbody items s₁ s₂ out _ _ lowered hbound
      (pending_place hdistinct (by simpa using hlength))
    exact ⟨made', targets, out, rfl, hlength, hdistinct, w, h', hruns, hgrows.leave hdistinct, hr⟩
  · intro i t w hi hw
    obtain ⟨hlt, -⟩ := List.getElem?_eq_some_iff.mp hi
    obtain ⟨hlt', -⟩ := List.getElem?_eq_some_iff.mp hw
    refine ⟨h.length + i, get?_place hdistinct ?_ h.length, ?_⟩
    · rw [List.getElem?_append_left hlt, hi]
    · rw [List.getElem?_append_right (Nat.le_add_right _ _), Nat.add_sub_cancel_left,
        List.getElem?_append_left (by simpa using hlt'), List.getElem?_map, hw, Option.map_some]

theorem GivesValue.apply {args : List (LowerM Expr)} {made : Scope} {params : List String}
    {body : List Node} {vs : List Value} (hx : GivesValue c scope x (.closure made params body))
    (hx' : YieldsExpr IsSourceName IsSourceName x es) (hargs : GivesValues c scope args vs)
    (arity : vs.length = params.length)
    (hbody : (∀ n ∈ body, IsCore n) →
      GivesReturn c (made.bindAll params vs) (Positions.body (all body)) v) :
    GivesValue c scope (applied x args) v := by
  intro s s' e cells h hrun agrees
  simp only [applied, bind_run, pure_run] at hrun
  obtain ⟨callee, s₁, hcallee, args', s₂, hargs', rfl, rfl⟩ := hrun
  obtain ⟨f, h₁, hruns, hgrows, hr⟩ := hx s s₁ callee cells h hcallee agrees
  obtain ⟨ws, h₂, hruns', hgrows', hrs⟩ :=
    hargs s₁ s' args' cells h₁ hargs' (agrees.afterValue hx' hcallee hgrows)
  have hf := hr.mono (hgrows'.keeps (.nil cells h₁))
  obtain ⟨made', targets, out, rfl, hlength, hdistinct, w, h', hcall, hgrows'', hr'⟩ :=
    hf.call hrs arity hbody
  exact ⟨w, h', .call hruns hruns' hlength hdistinct hcall,
    (hgrows.trans hgrows').trans hgrows'', hr'⟩

theorem givesValue_fn {params : List String} {body : List Node}
    (named : ∀ x ∈ params, IsSourceName x ∧ x ≠ "_") (distinct : params.Nodup)
    (items : ∀ n ∈ body, IsCore n) :
    GivesValue c scope (anonymousFunction (clauseParts [⟨params.map .var, body⟩]))
      (.closure scope params body) := by
  intro s s' e cells h hrun agrees
  rw [anonymousFunction_plain (fun x hx => (named x hx).2) distinct] at hrun
  simp only [bind_run, pure_run, inScope_run] at hrun
  obtain ⟨f, s₁, ⟨s₂, ⟨targets, s₃, hbound, out, s₄, hbody, rfl, rfl⟩, rfl⟩, rfl, rfl⟩ := hrun
  exact ⟨_, h, .function, .refl .., agrees.closure (fun x hx => (named x hx).1) items hbound hbody⟩

theorem givesValues_nil : GivesValues c scope [] [] := by
  intro s s' out cells h hrun agrees
  obtain ⟨rfl, rfl⟩ := pure_run.mp hrun
  exact ⟨[], h, .noValues, .refl .., .nil⟩

theorem GivesValue.cons {xs : List (LowerM Expr)} {vs : List Value} (hx : GivesValue c scope x v)
    (hx' : YieldsExpr IsSourceName IsSourceName x es) (hxs : GivesValues c scope xs vs) :
    GivesValues c scope (x :: xs) (v :: vs) := by
  intro s s' out cells h hrun agrees
  simp only [LowerM.sequence, bind_run, pure_run] at hrun
  obtain ⟨e, s₁, he, rest, s₂, hrest, rfl, rfl⟩ := hrun
  obtain ⟨w, h₁, hruns, hgrows, hr⟩ := hx s s₁ e cells h he agrees
  obtain ⟨ws, h₂, hruns', hgrows', hrs⟩ :=
    hxs s₁ s' rest cells h₁ hrest (agrees.afterValue hx' he hgrows)
  have hfirst := hr.mono (hgrows'.keeps (.nil cells h₁))
  exact ⟨w :: ws, h₂, .values hruns hruns', hgrows.trans hgrows', .cons hfirst hrs⟩

end Steps

section Forms

variable {c : Config} {scope : Scope}

/-- A form that is a boolean by its form evaluates to one. -/
theorem Evaluates.boolean_of_isBoolean {n : Node} {v : Value}
    (evaluates : Evaluates scope (.value n) (.value v)) (h : isBoolean n = true) :
    ∃ b, v = .scalar (.boolean b) := by
  cases evaluates with
  | boolean => exact ⟨_, rfl⟩
  | operator _ _ result =>
    unfold operate at result
    split at result <;> cases result
    case h_1 | h_2 => simp [isBoolean, directOperator?, BinaryOp.isBoolean] at h
    all_goals exact ⟨_, rfl⟩
  | _ => cases h

theorem IsCore.yields {n : Node} (core : IsCore n) :
    YieldsExpr IsSourceName IsSourceName (positions n).value (outline n).value :=
  (outlined core.named).follows.value

theorem follows_core {ns : List Node} (items : ∀ n ∈ ns, IsCore n) :
    List.Forall₂ (Follows IsSourceName IsSourceName) (all ns) (outlines ns) :=
  follows_all fun n hn => outlined (items n hn).named

theorem IsCore.of_fn {params : List String} {body : List Node}
    (core : IsCore (.fn [⟨params.map .var, body⟩])) :
    (∀ x ∈ params, IsSourceName x ∧ x ≠ "_") ∧ params.Nodup ∧ ∀ n ∈ body, IsCore n := by
  generalize hn : Node.fn _ = n at core
  cases core with
  | fn named distinct items =>
    simp only [Node.fn.injEq, List.cons.injEq, Clause.mk.injEq, and_true] at hn
    obtain ⟨hparams, rfl⟩ := hn
    obtain rfl := List.map_injective_iff.mpr (fun _ _ => Node.var.inj) hparams
    exact ⟨named, distinct, items⟩
  | _ => cases hn

/-- A form that leaves no bindings behind is run for its effect by giving its value. -/
theorem IsCore.effect_eq {n : Node} (core : IsCore n) (h : binds n = false) :
    (positions n).effect = Positions.evaluated (positions n).value := by
  cases core with
  | bind | block => cases h
  | _ => rw [positions]; rfl

/-- What forms that evaluate so become runs to what corresponds to it. -/
def Gives (c : Config) (scope : Scope) : Task → Outcome → Prop
  | .value n, .value v =>
    IsCore n → GivesValue c scope (positions n).value v ∧ GivesReturn c scope (positions n).tail v
  | .values ns, .values vs => (∀ n ∈ ns, IsCore n) → GivesValues c scope (values ns) vs
  | .body ns, .value v => (∀ n ∈ ns, IsCore n) → GivesBody c scope (all ns) v
  | .effect n, .scope after => IsCore n → GivesScope c scope (positions n).effect after
  | .effects ns, .scope after =>
    (∀ n ∈ ns, IsCore n) → GivesScope c scope (concat ((all ns).map (·.effect))) after
  | _, _ => False

/-- What an expression by nature gives as a value, it also returns. -/
theorem GivesValue.ofValue {x : LowerM Expr} {v : Value} (h : GivesValue c scope x v) :
    GivesValue c scope (Positions.ofValue x).value v ∧
      GivesReturn c scope (Positions.ofValue x).tail v :=
  ⟨h, h.returned⟩

theorem givesValue_literal {l : Literal} {a : Scalar} (h : literalValue l = some a) :
    GivesValue c scope (pure (.literal l)) (.scalar a) := by
  intro s s' e cells heap hrun agrees
  obtain ⟨rfl, rfl⟩ := pure_run.mp hrun
  exact ⟨_, heap, .literal h, .refl .., .scalar a⟩

/-- `if` and `unless` run the branch that the source chooses. -/
theorem gives_conditional {negated : Bool} {condition : Node} {body others : List Node}
    {t v : Value} (test : IsCore condition) (items : ∀ n ∈ body, IsCore n)
    (otherItems : ∀ n ∈ others, IsCore n)
    (evaluates : Evaluates scope (.value condition) (.value t))
    (htest : GivesValue c scope (positions condition).value t)
    (hbranch : GivesBody c scope (all (if t.isTruthy != negated then body else others)) v) :
    let p := Positions.conditional negated (LowerM.condition condition (positions condition).value)
      (all body) (all others)
    GivesValue c scope p.value v ∧ GivesReturn c scope p.tail v := by
  have hcondition := htest.condition fun h => evaluates.boolean_of_isBoolean h
  have hyields : YieldsExpr IsSourceName IsSourceName
      (LowerM.condition condition (positions condition).value) (outline condition).value :=
    yields_condition test.yields
  rw [apply_ite all] at hbranch
  exact ⟨hcondition.conditionalValue hyields (follows_core items) hbranch,
    hcondition.conditionalTail hyields (follows_core items) (follows_core otherItems) hbranch⟩

theorem Evaluates.gives {task : Task} {outcome : Outcome}
    (evaluates : Evaluates scope task outcome) : Gives c scope task outcome := by
  induction evaluates with
  | integer | string | boolean | nil =>
    intro _
    rw [positions]
    exact (givesValue_literal rfl).ofValue
  | var found =>
    intro _
    rw [positions]
    exact (givesValue_var found).ofValue
  | bind _ ih =>
    rintro (_ | _ | _ | _ | _ | ⟨named, value⟩)
    have htail := ((ih value).1.binding named value.yields).1
    have hyields := (follows_binding (named_var named) value.yields).tail
    rw [positions]
    exact ⟨htail.immediately hyields, htail⟩
  | block _ ih =>
    rintro (_ | _ | _ | _ | _ | _ | items)
    rw [positions]
    exact ⟨(ih items).tail.immediately (yields_body (follows_core items)), (ih items).tail⟩
  | ifElse evaluates _ iht ihb =>
    intro core
    cases core with
    | ifElse test items others =>
      rw [positions, optionAll_eq]
      have hbranch := ihb (by split <;> assumption)
      exact gives_conditional test items others evaluates (iht test).1 (by simpa using hbranch)
  | @unlessElse _ _ _ _ t _ evaluates _ iht ihb =>
    intro core
    cases core with
    | unlessElse test items others =>
      rw [positions, optionAll_eq]
      have hbranch := ihb (by split <;> assumption)
      refine gives_conditional test items others evaluates (iht test).1 ?_
      cases htruthy : t.isTruthy <;> simpa [htruthy] using hbranch
  | operator _ _ result ih₁ ih₂ =>
    intro core
    cases core with
    | operator _ first second =>
      rw [positions]
      exact ((ih₁ first).1.operator first.yields (ih₂ second).1 result).ofValue
  | fn =>
    intro core
    obtain ⟨named, distinct, items⟩ := core.of_fn
    rw [positions]
    exact (givesValue_fn named distinct items).ofValue
  | apply _ _ arity _ ihf ihv ihb =>
    intro core
    cases core with
    | apply function values =>
      rw [positions]
      exact ((ihf function).1.apply function.yields (ihv values) arity
        fun items => (ihb items).tail).ofValue
  | noValues =>
    intro _
    rw [Lowering.values]
    exact givesValues_nil
  | values _ _ ih₁ ih₂ =>
    intro items
    obtain ⟨first, rest⟩ := List.forall_mem_cons.mp items
    rw [Lowering.values]
    exact (ih₁ first).1.cons first.yields (ih₂ rest)
  | emptyBody =>
    intro _
    rw [all]
    exact ⟨givesValue_literal rfl, givesReturn_emptyBody⟩
  | lastOfBody _ ih =>
    intro items
    obtain ⟨hvalue, htail⟩ := ih (items _ (by simp))
    rw [all, all]
    exact ⟨hvalue.inScope, htail⟩
  | body _ _ ih₁ ih₂ =>
    intro items
    obtain ⟨first, rest⟩ := List.forall_mem_cons.mp items
    have hyields := yields_body (follows_core items)
    have hrest := (ih₂ rest).tail
    simp only [all] at hrest hyields ⊢
    have htail := (ih₁ first).body hrest
    exact ⟨htail.immediately hyields, htail⟩
  | binding _ ih =>
    rintro (_ | _ | _ | _ | _ | ⟨named, value⟩)
    rw [positions]
    exact ((ih value).1.binding named value.yields).2
  | sequence _ ih =>
    rintro (_ | _ | _ | _ | _ | _ | items)
    rw [positions]
    exact ih items
  | ignored form _ ih =>
    intro core
    have heffect := (ih core).1.evaluated core.yields
    rwa [← core.effect_eq form] at heffect
  | noEffects =>
    intro _
    rw [all]
    exact givesScope_nil
  | effects _ _ ih₁ ih₂ =>
    intro items
    obtain ⟨first, rest⟩ := List.forall_mem_cons.mp items
    rw [all]
    exact (ih₁ first).concat (ih₂ rest)

/-- A closure over a variable that is bound again, and a branch that binds it once more. -/
def reboundForm : Node :=
  .block
    [.bind (.var "x") (.integer 1),
     .bind (.var "f") (.fn [⟨[.var "y"], [.binaryOp "+" (.var "x") (.var "y")]⟩]),
     .bind (.var "x") (.integer 10),
     .ifElse (.var "x") [.bind (.var "x") (.integer 100), .var "x"] none,
     .apply (.var "f") [.var "x"]]

end Forms

end TreeLowering.Evaluation
