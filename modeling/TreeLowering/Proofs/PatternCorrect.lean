import TreeLowering.Proofs.PatternMeaning
import TreeLowering.Proofs.PatternNames

/-!
Compiled patterns decide whether values match.

A plan decides a condition when its tests, read from the left and stopped at the first that fails,
give an answer, and that answer is whether some assignment meets the condition; when they hold, the
accessors of its bindings give the one assignment that the condition leaves. Every rule of the
compiler keeps this: it adds a part to the condition and the tests for that part. An accessor is
only read where the tests before it hold, which is what makes it safe.
-/
namespace TreeLowering.Matching

open Source Target Pattern

section Operations

variable (lib : RuntimeLibrary) (σ : String → Option Value)

@[simp]
theorem evaluate_literal (l : Literal) : evaluate lib σ (.literal l) = literalOf l := by
  simp [evaluate]

@[simp]
theorem evaluate_ident (name : String) : evaluate lib σ (.ident name) = (σ name).map .value := by
  simp [evaluate]

theorem evaluate_natural {n : Nat} (h : n < 2 ^ 63) :
    evaluate lib σ (.natural n) = some (.value (.integer n)) := by
  simp [Expr.natural, Expr.integer, literalOf, Int64.toInt_ofNat_of_lt h]

@[simp]
theorem evaluate_atomSymbol (name : String) :
    evaluate lib σ (atomSymbol name) = some (.value (.atom name)) := by
  simp [atomSymbol, Expr.method, Expr.property, Expr.string, evaluate, global?, evaluateEach,
    literalOf, applyGlobal]

theorem evaluate_atomValue (name : String) :
    evaluate lib σ (atomValue name) = some (.value (.ofAtom name)) := by
  unfold atomValue Value.ofAtom
  split_ifs <;> simp [Expr.bool, Expr.null, literalOf, ofBool]

theorem evaluate_isTuple {e : Expr} {x : Operand} (h : evaluate lib σ e = some x) :
    evaluate lib σ (lib.isTuple e) = some (ofBool x.isTuple) := by
  simp [RuntimeLibrary.isTuple, RuntimeLibrary.path, RuntimeLibrary.root, Expr.property,
    Expr.string, evaluate, isTupleClass, h]

theorem evaluate_isArray {e : Expr} {x : Operand} (h : evaluate lib σ e = some x) :
    evaluate lib σ (isArray e) = some (ofBool x.isArray) := by
  simp [isArray, Expr.method, Expr.property, Expr.string, evaluate, global?, evaluateEach, h,
    applyGlobal]

theorem evaluate_isMap {e : Expr} {v : Value} (h : evaluate lib σ e = some (.value v)) :
    evaluate lib σ (lib.isMap e) = some (ofBool v.isMap) := by
  simp [RuntimeLibrary.isMap, RuntimeLibrary.call, RuntimeLibrary.path, RuntimeLibrary.root,
    Expr.property, Expr.string, evaluate, global?, evaluateEach, h, applyGlobal]

theorem evaluate_equals {a b : Expr} {v w : Value} (ha : evaluate lib σ a = some (.value v))
    (hb : evaluate lib σ b = some (.value w)) :
    evaluate lib σ (lib.equals a b) = some (ofBool (v.same w)) := by
  simp [RuntimeLibrary.equals, RuntimeLibrary.call, RuntimeLibrary.path, RuntimeLibrary.root,
    Expr.property, Expr.string, evaluate, global?, evaluateEach, ha, hb, applyGlobal]

/-- Comparison with a scalar is equality. -/
theorem evaluate_eq {a b : Expr} {v w : Value} (ha : evaluate lib σ a = some (.value v))
    (hb : evaluate lib σ b = some (.value w)) (hw : w.isScalar = true) :
    evaluate lib σ (a.eq b) = some (ofBool (v.same w)) := by
  simp [Expr.eq, evaluate, ha, hb, Operand.identical, Operand.isScalar, hw]

theorem evaluate_property {e : Expr} {x : Operand} (h : evaluate lib σ e = some x)
    (name : String) : evaluate lib σ (e.property name) = propertyOf name x := by
  simp [Expr.property, Expr.string, evaluate, h]

theorem evaluate_index {e k : Expr} {x y : Operand} (he : evaluate lib σ e = some x)
    (hk : evaluate lib σ k = some y) : evaluate lib σ (e.index k) = entryOf x y := by
  simp [Expr.index, evaluate, he, hk]

theorem evaluate_in {k e : Expr} {w : Value} {key : Key} {keys : Finset Key}
    {entry : {k // k ∈ keys} → Value} (hk : evaluate lib σ k = some (.value w))
    (hw : w.key? = some key) (he : evaluate lib σ e = some (.value (.map keys entry))) :
    evaluate lib σ (.binary k .in_ e) = some (ofBool (key ∈ keys)) := by
  simp only [evaluate, hk, he, hw, Option.bind_eq_bind, Option.bind_some, Option.pure_def]

/-- The methods that patterns call are of values. -/
theorem global?_method (e : Expr) {name : String} (h : name ∈ ["get", "slice", "startsWith"]) :
    global? lib e name = none := by
  unfold global?
  split <;> simp_all

theorem evaluate_method {e arg : Expr} {x y : Operand} (name : String)
    (hn : name ∈ ["get", "slice", "startsWith"]) (he : evaluate lib σ e = some x)
    (ha : evaluate lib σ arg = some y) :
    evaluate lib σ (e.method name [arg]) = methodOf name x [y] := by
  simp [Expr.method, Expr.property, Expr.string, evaluate, global?_method lib e hn, he,
    evaluateEach, ha]

theorem evaluate_isString {e : Expr} {v : Value} (h : evaluate lib σ e = some (.value v)) :
    evaluate lib σ (.eq (.unary .typeOf e) (.string "string")) =
      some (ofBool ((Operand.value v).typeName == "string")) := by
  simp [Expr.eq, Expr.string, evaluate, h, literalOf, Operand.identical, Operand.isScalar,
    Value.isScalar, Value.same]

end Operations

section Plans

variable (lib : RuntimeLibrary) (σ : String → Option Value)

/-- The answer of tests that are read from the left, up to the first that fails. -/
def holds? : List Expr → Option Bool
  | [] => some true
  | t :: ts =>
    match test? lib σ t with
    | some true => holds? ts
    | answer => answer

theorem holds?_append_of_true {ts : List Expr} (h : holds? lib σ ts = some true)
    (us : List Expr) : holds? lib σ (ts ++ us) = holds? lib σ us := by
  induction ts with
  | nil => rfl
  | cons t ts ih =>
    unfold holds? at h
    split at h
    next ht => simp only [List.cons_append, holds?, ht, ih h]
    next hne => exact absurd h hne

theorem holds?_append_of_false {ts : List Expr} (h : holds? lib σ ts = some false)
    (us : List Expr) : holds? lib σ (ts ++ us) = some false := by
  induction ts with
  | nil => cases h
  | cons t ts ih =>
    unfold holds? at h
    split at h
    next ht => simp only [List.cons_append, holds?, ht, ih h]
    next hne => simp only [List.cons_append, holds?, h]

/-- A conjunction built from the left is its operands read from the left. -/
theorem test?_joined (t : Expr) (ts : List Expr) :
    test? lib σ (ts.foldl (fun acc u => .binary acc .and u) t) = holds? lib σ (t :: ts) := by
  induction ts generalizing t with
  | nil =>
    simp only [List.foldl_nil, holds?]
    split <;> simp_all
  | cons u us ih =>
    rw [List.foldl_cons, ih]
    have hand : test? lib σ (.binary t .and u) =
        match test? lib σ t with
        | some true => test? lib σ u
        | answer => answer := by
      simp only [test?, evaluate]
      cases evaluate lib σ t with
      | none => rfl
      | some x =>
        rcases x with v | _
        · cases v with
          | boolean b => cases b <;> rfl
          | _ => rfl
        · rfl
    simp only [holds?, hand]
    rcases test? lib σ t with _ | b
    · rfl
    · cases b <;> rfl

theorem outcome?_all (ts : List Expr) : outcome? lib σ (Expr.all ts) = holds? lib σ ts := by
  cases ts with
  | nil => rfl
  | cons t ts => exact test?_joined lib σ t ts

/-- The accessors give the values, name by name. -/
def Bound (bindings : List (String × Expr)) (values : List (String × Value)) : Prop :=
  List.Forall₂ (fun b w => b.1 = w.1 ∧ evaluate lib σ b.2 = some (.value w.2)) bindings values

def Agrees (θ : Assignment) (values : List (String × Value)) : Prop :=
  ∀ w ∈ values, θ w.1 = w.2

/-- The tests of the plan answer whether the condition can be met, and its bindings give the
assignments that meet it. -/
def Decides (plan : Plan) (condition : Assignment → Prop) : Prop :=
  (holds? lib σ plan.tests = some true ∧
    ∃ values, Bound lib σ plan.bindings values ∧ ∀ θ, condition θ ↔ Agrees θ values) ∨
  (holds? lib σ plan.tests = some false ∧ ∀ θ, ¬ condition θ)

variable {lib σ} {plan plan' : Plan} {condition part : Assignment → Prop}

theorem Decides.congr (h : Decides lib σ plan condition) (he : ∀ θ, condition θ ↔ part θ) :
    Decides lib σ plan part := by
  have : condition = part := funext fun θ => propext (he θ)
  exact this ▸ h

/-- A plan that cannot be met stays so, whatever tests are added. -/
theorem Decides.never (h : holds? lib σ plan.tests = some false) (hp : ∀ θ, ¬ part θ)
    (hadd : ∃ ts, plan'.tests = plan.tests ++ ts) : Decides lib σ plan' part := by
  obtain ⟨ts, hts⟩ := hadd
  exact .inr ⟨hts ▸ holds?_append_of_false lib σ h ts, hp⟩

/-- Adds a test whose answer does not depend on the assignment. -/
theorem Decides.require (h : Decides lib σ plan condition) {t : Expr} {b : Bool}
    (ht : holds? lib σ plan.tests = some true → test? lib σ t = some b)
    (hb : ∀ θ, part θ ↔ b = true) :
    Decides lib σ (plan.require t) (fun θ => condition θ ∧ part θ) := by
  rcases h with ⟨hold, values, hbound, hmeet⟩ | ⟨hold, hnot⟩
  · have htest : holds? lib σ (plan.tests ++ [t]) = some b := by
      rw [holds?_append_of_true lib σ hold]
      cases b <;> simp [holds?, ht hold]
    cases b with
    | true => exact .inl ⟨htest, values, hbound, fun θ => by simp [hb, hmeet]⟩
    | false => exact .inr ⟨htest, fun θ => by simp [hb]⟩
  · exact .never hold (fun θ hc => hnot θ hc.1) ⟨[t], rfl⟩

/-- A test either holds, and what was decided still is, or the plan cannot be met any more. -/
theorem Decides.split (h : Decides lib σ plan condition) {t : Expr} {b : Bool}
    (ht : test? lib σ t = some b) :
    (b = true ∧ Decides lib σ (plan.require t) condition) ∨
      (b = false ∧ holds? lib σ (plan.require t).tests = some false) := by
  cases b with
  | true =>
    have hd : Decides lib σ (plan.require t) (fun θ => condition θ ∧ True) :=
      h.require (fun _ => ht) (fun _ => by simp)
    exact .inl ⟨rfl, hd.congr fun θ => by simp⟩
  | false =>
    refine .inr ⟨rfl, ?_⟩
    rcases h with ⟨hold, _⟩ | ⟨hold, _⟩
    · simp [Plan.require, holds?_append_of_true lib σ hold, holds?, ht]
    · exact holds?_append_of_false lib σ hold [t]

/-- The same for two tests, the second being safe where the first holds. -/
theorem Decides.splitPair (h : Decides lib σ plan condition) {t u : Expr} {b c : Bool}
    (ht : test? lib σ t = some b) (hu : b = true → test? lib σ u = some c) :
    (b = true ∧ c = true ∧ Decides lib σ (plan.requireAll [t, u]) condition) ∨
      (¬ (b = true ∧ c = true) ∧ holds? lib σ (plan.requireAll [t, u]).tests = some false) := by
  have hpair : plan.requireAll [t, u] = (plan.require t).require u := by
    simp [Plan.requireAll, Plan.require]
  rw [hpair]
  rcases h.split ht with ⟨hb, hd⟩ | ⟨hb, hold⟩
  · rcases hd.split (hu hb) with ⟨hc, hd⟩ | ⟨hc, hold⟩
    · exact .inl ⟨hb, hc, hd⟩
    · exact .inr ⟨by simp [hc], hold⟩
  · exact .inr ⟨by simp [hb], holds?_append_of_false lib σ hold [u]⟩

end Plans

section Decisions

/-- What patterns are read with says the same as what they are compiled with. -/
structure Suits (r : Reading) (env : Surroundings) (σ : String → Option Value) : Prop where
  pins : ∀ x v, r.pinned x = some v → σ (env.state.resolve x) = some v
  names : r.fullName = env.state.resolveModule

variable (r : Reading) (lib : RuntimeLibrary) (σ : String → Option Value)

/-- The condition that a job adds, its subjects having values. -/
inductive Asks : Job → (Assignment → Prop) → Prop
  | pattern {pattern : Node} {subject : Expr} {v : Value} (covered : r.Covers pattern)
      (value : evaluate lib σ subject = some (.value v)) :
      Asks (.pattern pattern subject) (fun θ => r.Matches θ pattern v)
  | items {slot : Nat → Expr} {i : Nat} {patterns : List Node} {vs : List Value}
      (covered : r.CoversEach patterns) (lengths : patterns.length = vs.length)
      (values : ∀ j v, vs[j]? = some v → evaluate lib σ (slot (i + j)) = some (.value v)) :
      Asks (.items slot i patterns) (fun θ => r.MatchesEach θ patterns vs)
  | entries {subject : Expr} {entries : List (Node × Node)} {keys : Finset Key}
      {entry : {k // k ∈ keys} → Value} (covered : r.CoversEntries entries)
      (value : evaluate lib σ subject = some (.value (.map keys entry))) :
      Asks (.entries subject entries) (fun θ => r.MatchesEntries θ entries (.map keys entry))

theorem toInt_of_negated {n m : Int64} (h : negated? n = some m) : m.toInt = -n.toInt := by
  unfold negated? at h
  split at h
  · cases h
  next hne =>
    cases h
    exact BitVec.toInt_neg_of_ne_intMin fun hmin => hne (Int64.toBitVec_inj.mp hmin)

/-- A literal stands for one scalar, and matches that alone. -/
theorem constant_value {node : Node} {c : Expr} (hexact : isExact node = true)
    (h : constant? node = some c) :
    ∃ w, evaluate lib σ c = some (.value w) ∧ w.isScalar = true ∧
      ∀ θ v, r.Matches θ node v ↔ v = w := by
  unfold constant? at h
  split at h
  next n =>
    cases h
    exact ⟨_, evaluate_literal .., rfl, fun θ v => by simp [Reading.Matches]⟩
  next => cases hexact
  next s =>
    cases h
    exact ⟨_, evaluate_literal .., rfl, fun θ v => by simp [Reading.Matches]⟩
  next b =>
    cases h
    exact ⟨_, evaluate_literal .., rfl, fun θ v => by simp [Reading.Matches]⟩
  next =>
    cases h
    exact ⟨_, evaluate_literal .., rfl, fun θ v => by simp [Reading.Matches]⟩
  next name =>
    cases h
    refine ⟨.ofAtom name, evaluate_atomValue lib σ name, ?_, fun θ v => by simp [Reading.Matches]⟩
    unfold Value.ofAtom
    split_ifs <;> rfl
  next n =>
    obtain ⟨m, hm, rfl⟩ := Option.map_eq_some_iff.mp h
    refine ⟨_, evaluate_literal .., rfl, fun θ v => ?_⟩
    simp [Reading.Matches, toInt_of_negated hm]
  next => cases hexact
  next segments =>
    obtain ⟨text, htext, rfl⟩ := Option.map_eq_some_iff.mp h
    refine ⟨_, evaluate_literal .., rfl, fun θ v => ?_⟩
    simp [Reading.Matches, htext]
  next => cases h

variable {r lib σ} {env : Surroundings}

theorem moduleValue_value (suits : Suits r env σ) (segments : List String) :
    evaluate lib σ (env.moduleValue segments) = some (.value (.atom (r.moduleAtom segments))) := by
  rw [Surroundings.moduleValue, TreeLowering.moduleValue, evaluate_atomSymbol,
    Reading.moduleAtom, suits.names]

theorem pinned_value (suits : Suits r env σ) {name : String} {v : Value}
    (h : r.pinned name = some v) : evaluate lib σ (env.pinned name) = some (.value v) := by
  rw [Surroundings.pinned, evaluate_ident, suits.pins name v h]
  rfl

/-- The key of an entry is compiled to a value that is that key. -/
theorem key_value (suits : Suits r env σ) {node : Node} {found : Expr} {k : Key}
    (h : key env node = .ok found) (hk : r.key? node = some k) :
    ∃ w, evaluate lib σ found = some (.value w) ∧ w.key? = some k := by
  unfold Reading.key? at hk
  split at hk
  next text =>
    cases h
    cases hk
    exact ⟨.string text, evaluate_literal .., rfl⟩
  next segments =>
    obtain ⟨text, htext, rfl⟩ := Option.map_eq_some_iff.mp hk
    simp only [key, constant?, htext, Option.map_some, Except.ok.injEq] at h
    subst h
    exact ⟨.string text, evaluate_literal .., rfl⟩
  next name =>
    cases h
    exact ⟨.ofAtom name, evaluate_atomValue lib σ name, hk⟩
  next segments =>
    cases h
    cases hk
    exact ⟨_, moduleValue_value suits segments, rfl⟩
  next name =>
    cases h
    obtain ⟨v, hv, hvk⟩ := Option.bind_eq_some_iff.mp hk
    exact ⟨v, pinned_value suits hv, hvk⟩
  next => cases hk

theorem test?_of_evaluate {e : Expr} {b : Bool} (h : evaluate lib σ e = some (ofBool b)) :
    test? lib σ e = some b := by
  simp [test?, h, ofBool]

/-- The first accessor of a name that is bound gives the value that the name has. -/
theorem Bound.lookup {bindings : List (String × Expr)} {values : List (String × Value)}
    (h : Bound lib σ bindings values) {name : String} {first : Expr}
    (hfirst : bindings.lookup name = some first) :
    ∃ w, (name, w) ∈ values ∧ evaluate lib σ first = some (.value w) := by
  induction h with
  | nil => cases hfirst
  | @cons b w bs ws hhead _ ih =>
    rw [List.lookup_cons] at hfirst
    split at hfirst
    next heq =>
      cases hfirst
      have hname : name = w.1 := (eq_of_beq heq).trans hhead.1
      exact ⟨w.2, by simp [hname], hhead.2⟩
    next =>
      obtain ⟨v, hmem, hv⟩ := ih hfirst
      exact ⟨v, List.mem_cons_of_mem _ hmem, hv⟩

variable {plan plan' : Plan} {condition part : Assignment → Prop}

theorem compileVariable_decides (hd : Decides env.library σ plan condition) (name : String)
    {subject : Expr} {v : Value} (hv : evaluate env.library σ subject = some (.value v)) :
    Decides env.library σ (compileVariable env name subject plan)
      (fun θ => condition θ ∧ (name = "_" ∨ v = θ name)) := by
  unfold compileVariable
  split
  next hname => exact hd.congr fun θ => by simp [hname]
  next hname =>
    split
    next first hfirst =>
      rcases hd with ⟨hold, values, hbound, hmeet⟩ | ⟨hold, hnot⟩
      · obtain ⟨w, hmem, hw⟩ := hbound.lookup hfirst
        have htest : Decides env.library σ (plan.require (env.library.equals subject first))
            (fun θ => condition θ ∧ v = w) :=
          Decides.require (.inl ⟨hold, values, hbound, hmeet⟩)
            (fun _ => test?_of_evaluate (evaluate_equals _ σ hv hw))
            (fun _ => (Value.same_iff v w).symm)
        refine htest.congr fun θ => and_congr_right fun hc => ?_
        have hθ : θ name = w := (hmeet θ).mp hc _ hmem
        simp [hname, hθ]
      · exact .never hold (fun θ hc => hnot θ hc.1) ⟨_, rfl⟩
    next hnone =>
      rcases hd with ⟨hold, values, hbound, hmeet⟩ | ⟨hold, hnot⟩
      · refine .inl ⟨hold, values ++ [(name, v)], ?_, fun θ => ?_⟩
        · exact List.rel_append hbound (.cons ⟨rfl, hv⟩ .nil)
        · simp only [hmeet θ, Agrees, List.mem_append, List.mem_singleton, hname, false_or]
          constructor
          · rintro ⟨hold, hnew⟩ w (hw | rfl)
            · exact hold w hw
            · exact hnew.symm
          · intro hall
            exact ⟨fun w hw => hall w (.inl hw), (hall _ (.inr rfl)).symm⟩
      · exact .never hold (fun θ hc => hnot θ hc.1) ⟨[], by simp [Plan.bind]⟩

/-- The tests of a tuple pattern: the value is a tuple of that size, or the match has failed. -/
theorem Decides.tuple (hd : Decides lib σ plan condition) {subject : Expr} {v : Value} {n : Nat}
    (hn : n < 2 ^ 63) (hv : evaluate lib σ subject = some (.value v)) :
    (∃ vs, v = .tuple vs ∧ vs.length = n ∧ Decides lib σ (plan.requireAll
      [lib.isTuple subject, .eq (subject.property "size") (.natural n)]) condition) ∨
    ((∀ vs, v = .tuple vs → vs.length ≠ n) ∧ holds? lib σ (plan.requireAll
      [lib.isTuple subject, .eq (subject.property "size") (.natural n)]).tests = some false) := by
  have ht := test?_of_evaluate (evaluate_isTuple lib σ hv)
  cases v with
  | tuple vs =>
    have hsize := evaluate_property lib σ hv "size"
    have hu := test?_of_evaluate (evaluate_eq lib σ hsize (evaluate_natural lib σ hn) rfl)
    rcases hd.splitPair ht (fun _ => hu) with ⟨_, hc, hd⟩ | ⟨hno, hold⟩
    · have hlen := Value.integer.inj ((Value.same_iff _ _).mp hc)
      exact .inl ⟨vs, rfl, by omega, hd⟩
    · refine .inr ⟨?_, hold⟩
      rintro _ ⟨⟩ hlen
      exact hno ⟨rfl, (Value.same_iff _ _).mpr (by simp [hlen])⟩
  | _ =>
    rcases hd.splitPair (c := false) ht (fun h => absurd h Bool.false_ne_true) with
      ⟨_, hc, _⟩ | ⟨_, hold⟩
    · cases hc
    · exact .inr ⟨by simp, hold⟩

/-- The tests of a list pattern without a tail. -/
theorem Decides.list (hd : Decides lib σ plan condition) {subject : Expr} {v : Value} {n : Nat}
    (hn : n < 2 ^ 63) (hv : evaluate lib σ subject = some (.value v)) :
    (∃ vs, v = .list vs ∧ vs.length = n ∧ Decides lib σ (plan.requireAll
      [isArray subject, .eq (subject.property "length") (.natural n)]) condition) ∨
    ((∀ vs, v = .list vs → vs.length ≠ n) ∧ holds? lib σ (plan.requireAll
      [isArray subject, .eq (subject.property "length") (.natural n)]).tests = some false) := by
  have ht := test?_of_evaluate (evaluate_isArray lib σ hv)
  cases v with
  | list vs =>
    have hlength := evaluate_property lib σ hv "length"
    have hu := test?_of_evaluate (evaluate_eq lib σ hlength (evaluate_natural lib σ hn) rfl)
    rcases hd.splitPair ht (fun _ => hu) with ⟨_, hc, hd⟩ | ⟨hno, hold⟩
    · have hlen := Value.integer.inj ((Value.same_iff _ _).mp hc)
      exact .inl ⟨vs, rfl, by omega, hd⟩
    · refine .inr ⟨?_, hold⟩
      rintro _ ⟨⟩ hlen
      exact hno ⟨rfl, (Value.same_iff _ _).mpr (by simp [hlen])⟩
  | _ =>
    rcases hd.splitPair (c := false) ht (fun h => absurd h Bool.false_ne_true) with
      ⟨_, hc, _⟩ | ⟨_, hold⟩
    · cases hc
    · exact .inr ⟨by simp, hold⟩

/-- The tests of a list pattern with a tail: the value is a list that is long enough. -/
theorem Decides.cons (hd : Decides lib σ plan condition) {subject : Expr} {v : Value} {n : Nat}
    (hn : n < 2 ^ 63) (hv : evaluate lib σ subject = some (.value v)) :
    (∃ vs, v = .list vs ∧ n ≤ vs.length ∧ Decides lib σ (plan.requireAll
      [isArray subject, .binary (subject.property "length") .ge (.natural n)]) condition) ∨
    ((∀ vs, v = .list vs → vs.length < n) ∧ holds? lib σ (plan.requireAll
      [isArray subject, .binary (subject.property "length") .ge (.natural n)]).tests =
        some false) := by
  have ht := test?_of_evaluate (evaluate_isArray lib σ hv)
  cases v with
  | list vs =>
    have hlength := evaluate_property lib σ hv "length"
    have hge : evaluate lib σ (.binary (subject.property "length") .ge (.natural n)) =
        some (ofBool (n ≤ vs.length)) := by
      simp [evaluate, hlength, propertyOf, evaluate_natural lib σ hn]
    rcases hd.splitPair ht (fun _ => test?_of_evaluate hge) with ⟨_, hc, hd⟩ | ⟨hno, hold⟩
    · exact .inl ⟨vs, rfl, by simpa using hc, hd⟩
    · refine .inr ⟨?_, hold⟩
      rintro _ ⟨⟩
      by_contra hlen
      exact hno ⟨rfl, by simpa using hlen⟩
  | _ =>
    rcases hd.splitPair (c := false) ht (fun h => absurd h Bool.false_ne_true) with
      ⟨_, hc, _⟩ | ⟨_, hold⟩
    · cases hc
    · exact .inr ⟨by simp, hold⟩

/-- The tests of a text that must begin with another. -/
theorem Decides.text (hd : Decides lib σ plan condition) {subject : Expr} {v : Value}
    (start : String) (hv : evaluate lib σ subject = some (.value v)) :
    (∃ rest, v = .string (start ++ rest) ∧ Decides lib σ (plan.requireAll
      [.eq (.unary .typeOf subject) (.string "string"),
       subject.method "startsWith" [.string start]]) condition) ∨
    ((∀ rest, v ≠ .string (start ++ rest)) ∧ holds? lib σ (plan.requireAll
      [.eq (.unary .typeOf subject) (.string "string"),
       subject.method "startsWith" [.string start]]).tests = some false) := by
  have ht := test?_of_evaluate (evaluate_isString lib σ hv)
  cases v with
  | string text =>
    have hu := evaluate_method lib σ "startsWith" (by simp) hv
      (evaluate_literal lib σ (.string start))
    rcases hd.splitPair ht (fun _ => test?_of_evaluate hu) with ⟨_, hc, hd⟩ | ⟨hno, hold⟩
    · obtain ⟨rest, rfl⟩ := (beginsWith_iff text start).mp hc
      exact .inl ⟨rest, rfl, hd⟩
    · refine .inr ⟨?_, hold⟩
      rintro rest ⟨⟩
      exact hno ⟨rfl, (beginsWith_iff _ start).mpr ⟨rest, rfl⟩⟩
  | _ =>
    rcases hd.splitPair (c := false) ht (fun h => absurd h Bool.false_ne_true) with
      ⟨_, hc, _⟩ | ⟨_, hold⟩
    · cases hc
    · exact .inr ⟨by simp, hold⟩

theorem length_eq_of_matchesEach {θ : Assignment} :
    ∀ {patterns : List Node} {vs : List Value}, r.MatchesEach θ patterns vs →
      patterns.length = vs.length
  | [], [], _ => rfl
  | [], _ :: _, h => by simp [Reading.MatchesEach] at h
  | _ :: _, [], h => by simp [Reading.MatchesEach] at h
  | _ :: _, _ :: _, h => by
    simp only [Reading.MatchesEach] at h
    simp [length_eq_of_matchesEach h.2]

/-- A list with a tail is taken apart in one way only. -/
theorem matches_cons_iff {θ : Assignment} {head : List Node} {tail : Node} {vs : List Value}
    (hlen : head.length ≤ vs.length) :
    r.Matches θ (.cons head tail) (.list vs) ↔
      r.MatchesEach θ head (vs.take head.length) ∧
        r.Matches θ tail (.list (vs.drop head.length)) := by
  rw [Reading.Matches]
  constructor
  · rintro ⟨front, rest, hvs, hfront, hrest⟩
    cases hvs
    have hn := length_eq_of_matchesEach hfront
    rw [hn, List.take_left, List.drop_left]
    exact ⟨hfront, hrest⟩
  · rintro ⟨hfront, hrest⟩
    exact ⟨_, _, by rw [List.take_append_drop], hfront, hrest⟩

/-- Slots of a list give its items, as far as it goes. -/
theorem evaluate_item {subject : Expr} {vs : List Value} {n j : Nat} {v : Value} (hn : n < 2 ^ 63)
    (hv : evaluate lib σ subject = some (.value (.list vs))) (hj : (vs.take n)[j]? = some v) :
    evaluate lib σ (subject.index (.natural (0 + j))) = some (.value v) := by
  have hlt := (List.getElem?_eq_some_iff.mp hj).1
  rw [List.length_take] at hlt
  rw [List.getElem?_take_of_lt (by omega)] at hj
  rw [Nat.zero_add, evaluate_index lib σ hv (evaluate_natural lib σ (by omega))]
  simp [entryOf, hj]

theorem covers_struct {tag : Node} {fields : List (Node × Node)} {update : Option Node}
    (h : r.Covers (.struct tag fields update)) :
    (∃ segments, tag = .moduleName segments) ∧ r.CoversEntries fields := by
  unfold Reading.Covers at h
  split at h <;> simp_all

/-- The tag of a map is compared also where there is none. -/
theorem test?_tag {subject tag : Expr} {keys : Finset Key} {entry : {k // k ∈ keys} → Value}
    {w : Value} (hv : evaluate lib σ subject = some (.value (.map keys entry)))
    (ht : evaluate lib σ tag = some (.value w)) (hw : w.isScalar = true) :
    test? lib σ (.eq (subject.index (atomSymbol "__struct__")) tag) =
      some (decide ((Value.map keys entry).get? (.atom "__struct__") = some w)) := by
  apply test?_of_evaluate
  rw [Expr.eq, evaluate, evaluate_index lib σ hv (evaluate_atomSymbol lib σ _), ht]
  cases hget : (Value.map keys entry).get? (.atom "__struct__") with
  | none => simp [entryOf, Value.key?, hget, Operand.identical, Operand.isScalar]
  | some x =>
    have hsame : x.same w = decide (x = w) := by
      rw [Bool.eq_iff_iff, Value.same_iff, decide_eq_true_iff]
    simp [entryOf, Value.key?, hget, Operand.identical, Operand.isScalar, hw, hsame]

/-- Every rule adds to what is decided the condition that its job asks. -/
theorem compiled_decides (suits : Suits r env σ) {job : Job} (h : Compiled env job plan plan')
    (hd : Decides env.library σ plan condition) (hask : Asks r env.library σ job part) :
    Decides env.library σ plan' (fun θ => condition θ ∧ part θ) := by
  induction h generalizing condition part with
  | float =>
    cases hask with
    | pattern covered _ => simp [Reading.Covers] at covered
  | negatedFloat =>
    cases hask with
    | pattern covered _ => simp [Reading.Covers] at covered
  | @moduleName segments =>
    cases hask with
    | pattern _ hv =>
      have ht := evaluate_eq _ σ hv (moduleValue_value suits segments) rfl
      refine hd.require (fun _ => test?_of_evaluate ht) fun θ => ?_
      simp [Reading.Matches, Value.same_iff]
  | var =>
    cases hask with
    | pattern _ hv =>
      refine (compileVariable_decides hd _ hv).congr fun θ => ?_
      simp [Reading.Matches]
  | pin =>
    cases hask with
    | @pattern _ _ v covered hv =>
      obtain ⟨w, hw⟩ := Option.isSome_iff_exists.mp (by simpa [Reading.Covers] using covered)
      have ht := evaluate_equals _ σ hv (pinned_value suits hw)
      refine hd.require (fun _ => test?_of_evaluate ht) fun θ => ?_
      simp [Reading.Matches, hw, Value.same_iff, @eq_comm _ w v]
  | constant exact literal =>
    cases hask with
    | pattern _ hv =>
      obtain ⟨w, hw, hscalar, hmatch⟩ := constant_value r env.library σ exact literal
      have ht := evaluate_eq _ σ hv hw hscalar
      refine hd.require (fun _ => test?_of_evaluate ht) fun θ => ?_
      rw [hmatch, Value.same_iff]
  | tuple parts ih =>
    cases hask with
    | pattern covered hv =>
      simp only [Reading.Covers] at covered
      rcases hd.tuple covered.1 hv with ⟨vs, rfl, hlen, hd⟩ | ⟨hno, hold⟩
      · have hitems := ih hd (.items covered.2 hlen.symm fun j v hj => ?_)
        · exact hitems.congr fun θ => by simp [Reading.Matches]
        · have hi : j < 2 ^ 63 := by
            have := (List.getElem?_eq_some_iff.mp hj).1
            omega
          rw [Nat.zero_add, evaluate_method _ σ "get" (by simp) hv (evaluate_natural _ σ hi)]
          simp [methodOf, hj]
      · refine .never hold (fun θ hc => ?_) (compiled_adds parts).1
        obtain ⟨vs, rfl, hmatch⟩ := by simpa [Reading.Matches] using hc.2
        exact hno vs rfl (length_eq_of_matchesEach hmatch).symm
  | list parts ih =>
    cases hask with
    | pattern covered hv =>
      simp only [Reading.Covers] at covered
      rcases hd.list covered.1 hv with ⟨vs, rfl, hlen, hd⟩ | ⟨hno, hold⟩
      · have hitems := ih hd (.items covered.2 hlen.symm fun j v hj =>
          evaluate_item covered.1 hv (by rw [List.take_of_length_le hlen.le, hj]))
        exact hitems.congr fun θ => by simp [Reading.Matches]
      · refine .never hold (fun θ hc => ?_) (compiled_adds parts).1
        obtain ⟨vs, rfl, hmatch⟩ := by simpa [Reading.Matches] using hc.2
        exact hno vs rfl (length_eq_of_matchesEach hmatch).symm
  | cons front rest ihFront ihRest =>
    cases hask with
    | pattern covered hv =>
      simp only [Reading.Covers] at covered
      obtain ⟨hn, hhead, htail⟩ := covered
      rcases hd.cons hn hv with ⟨vs, rfl, hlen, hd⟩ | ⟨hno, hold⟩
      · have hitems := ihFront hd (.items hhead (by simp [hlen]) fun j v hj =>
          evaluate_item hn hv hj)
        have hslice := evaluate_method _ σ "slice" (by simp) hv (evaluate_natural _ σ hn)
        have hrest := ihRest hitems (.pattern htail (by simpa [methodOf] using hslice))
        exact hrest.congr fun θ => by simp only [matches_cons_iff hlen, and_assoc]
      · refine .never hold (fun θ hc => ?_)
          ((compiled_adds front).trans (compiled_adds rest)).1
        obtain ⟨head, tail, rfl, hmatch, _⟩ := by simpa [Reading.Matches] using hc.2
        have hlong := hno _ rfl
        rw [List.length_append, length_eq_of_matchesEach hmatch] at hlong
        omega
  | map parts ih =>
    cases hask with
    | @pattern _ _ v covered hv =>
      simp only [Reading.Covers] at covered
      rcases hd.split (test?_of_evaluate (evaluate_isMap _ σ hv)) with ⟨hmap, hd⟩ | ⟨hmap, hold⟩
      · cases v with
        | map keys entry =>
          exact (ih hd (.entries covered hv)).congr fun θ => by simp [Reading.Matches, Value.isMap]
        | _ => cases hmap
      · refine .never hold (fun θ hc => ?_) (compiled_adds parts).1
        simp [Reading.Matches, hmap] at hc
  | struct name parts ihName ihParts =>
    cases hask with
    | @pattern _ _ v covered hv =>
      obtain ⟨⟨segments, rfl⟩, hfields⟩ := covers_struct covered
      rcases hd.split (test?_of_evaluate (evaluate_isMap _ σ hv)) with ⟨hmap, hd⟩ | ⟨hmap, hold⟩
      · cases v with
        | map keys entry =>
          cases name with
          | moduleName =>
            have ht := test?_tag hv (moduleValue_value suits segments) rfl
            have htag := hd.require (fun _ => ht) (fun θ => decide_eq_true_iff.symm)
            have hentries := ihParts htag (.entries hfields hv)
            exact hentries.congr fun θ => by simp [Reading.Matches, and_assoc]
          | constant _ literal => simp [constant?] at literal
        | _ => cases hmap
      · refine .never hold (fun θ hc => ?_) ((compiled_adds name).trans (compiled_adds parts)).1
        cases v <;> simp_all [Reading.Matches, Value.get?, Value.isMap]
  | both first second ihFirst ihSecond =>
    cases hask with
    | pattern covered hv =>
      simp only [Reading.Covers] at covered
      have hfirst := ihFirst hd (.pattern covered.1 hv)
      have hsecond := ihSecond hfirst (.pattern covered.2 hv)
      exact hsecond.congr fun θ => by simp [Reading.Matches, and_assoc]
  | @start start _ _ _ _ parts ih =>
    cases hask with
    | pattern covered hv =>
      simp only [Reading.Covers] at covered
      rcases hd.text start hv with ⟨rest, rfl, hd⟩ | ⟨hno, hold⟩
      · have hslice := evaluate_method _ σ "slice" (by simp) hv (evaluate_natural _ σ covered.1)
        have hrest := ih hd (.pattern covered.2
          (by simpa [methodOf, dropUnits_append] using hslice))
        exact hrest.congr fun θ => by simp [Reading.Matches]
      · refine .never hold (fun θ hc => ?_) (compiled_adds parts).1
        obtain ⟨rest, rfl, _⟩ := by simpa [Reading.Matches] using hc.2
        exact hno rest rfl
  | noItems =>
    cases hask with
    | items _ lengths _ =>
      obtain rfl := List.length_eq_zero_iff.mp lengths.symm
      exact hd.congr fun θ => by simp [Reading.MatchesEach]
  | item head tail ihHead ihTail =>
    cases hask with
    | @items _ _ _ vs covered lengths values =>
      cases vs with
      | nil => cases lengths
      | cons v vs =>
        simp only [Reading.CoversEach] at covered
        have hhead := ihHead hd (.pattern covered.1 (values 0 v rfl))
        have htail := ihTail hhead (.items covered.2 (by simpa using lengths) fun j w hj => by
          rw [Nat.add_right_comm]
          exact values (j + 1) w hj)
        exact htail.congr fun θ => by simp [Reading.MatchesEach, and_assoc]
  | noEntries =>
    cases hask with
    | entries => exact hd.congr fun θ => by simp [Reading.MatchesEntries]
  | entry under head tail ihHead ihTail =>
    cases hask with
    | @entries _ _ keys entry covered hv =>
      simp only [Reading.CoversEntries] at covered
      obtain ⟨hkey, hvalue, hrest⟩ := covered
      obtain ⟨k, hk⟩ := Option.isSome_iff_exists.mp hkey
      obtain ⟨w, hw, hwk⟩ := key_value suits under hk
      rcases hd.split (test?_of_evaluate (evaluate_in _ σ hw hwk hv)) with ⟨hin, hd⟩ | ⟨hin, hold⟩
      · have hin : k ∈ keys := of_decide_eq_true hin
        have hget : (Value.map keys entry).get? k = some (entry ⟨k, hin⟩) := by
          simp [Value.get?, hin]
        have hfound : evaluate env.library σ _ = some (.value (entry ⟨k, hin⟩)) :=
          (evaluate_index _ σ hv hw).trans (by simp [entryOf, hwk, hget])
        have hhead := ihHead hd (.pattern hvalue hfound)
        have htail := ihTail hhead (.entries hrest hv)
        exact htail.congr fun θ => by simp [Reading.MatchesEntries, hk, hget, and_assoc]
      · refine .never hold (fun θ hc => ?_) ((compiled_adds head).trans (compiled_adds tail)).1
        have hin : k ∉ keys := of_decide_eq_false hin
        simp [Reading.MatchesEntries, hk, Value.get?, hin] at hc

/-- The patterns of a clause together, each on its own subject. -/
theorem compileAll_decides (suits : Suits r env σ) {patterns : List Node} {subjects : List Expr}
    {vs : List Value} (h : compileAll env patterns subjects plan = .ok plan')
    (hcovers : r.CoversEach patterns) (hlength : patterns.length = vs.length)
    (hvalues : List.Forall₂ (fun e v => evaluate env.library σ e = some (.value v)) subjects vs)
    (hd : Decides env.library σ plan condition) :
    Adds plan plan' (boundNamesEach patterns) ∧
      Decides env.library σ plan' (fun θ => condition θ ∧ r.MatchesEach θ patterns vs) := by
  induction patterns generalizing plan condition subjects vs with
  | nil =>
    obtain rfl := List.length_eq_zero_iff.mp hlength.symm
    cases h
    exact ⟨⟨⟨[], by simp⟩, rfl⟩, hd.congr fun θ => by simp [Reading.MatchesEach]⟩
  | cons pattern patterns ih =>
    cases hvalues with
    | nil => cases hlength
    | @cons subject v subjects vs hv hvalues =>
      simp only [Reading.CoversEach] at hcovers
      obtain ⟨middle, hfirst, hrest⟩ := exists_ok_of_bind h
      have hcompiled := (compiled_of_ok env).1 _ _ _ _ hfirst
      obtain ⟨hadds, hall⟩ := ih hrest hcovers.2 (by simpa using hlength) hvalues
        (compiled_decides suits hcompiled hd (.pattern hcovers.1 hv))
      exact ⟨(compiled_adds hcompiled).trans hadds,
        hall.congr fun θ => by simp [Reading.MatchesEach, and_assoc]⟩

end Decisions

/-- Values under different names are those of some assignment. -/
theorem exists_agrees {values : List (String × Value)} (h : (values.map (·.1)).Nodup) :
    ∃ θ, Agrees θ values := by
  refine ⟨fun x => (values.lookup x).getD .nil, fun w hw => ?_⟩
  induction values with
  | nil => cases hw
  | cons first rest ih =>
    obtain ⟨x, v⟩ := first
    simp only [List.map_cons, List.nodup_cons] at h
    rcases List.mem_cons.mp hw with rfl | hrest
    · simp
    · have hne : w.1 ≠ x := fun heq => h.1 (heq ▸ List.mem_map_of_mem hrest)
      simpa [List.lookup_cons, beq_false_of_ne hne] using ih h.2 hrest

theorem Bound.names {lib : RuntimeLibrary} {σ : String → Option Value}
    {bindings : List (String × Expr)} {values : List (String × Value)}
    (h : Bound lib σ bindings values) : values.map (·.1) = bindings.map (·.1) := by
  induction h with
  | nil => rfl
  | cons hhead _ ih => simp [hhead.1, ih]

theorem Bound.evaluate {lib : RuntimeLibrary} {σ : String → Option Value}
    {bindings : List (String × Expr)} {values : List (String × Value)}
    (h : Bound lib σ bindings values) {θ : Assignment} (hθ : Agrees θ values) {x : String}
    {e : Expr} (hmem : (x, e) ∈ bindings) :
    Matching.evaluate lib σ e = some (.value (θ x)) := by
  induction h with
  | nil => cases hmem
  | @cons b w bs ws hhead _ ih =>
    rcases List.mem_cons.mp hmem with rfl | hrest
    · have hname : x = w.1 := hhead.1
      rw [hname, hθ w (by simp)]
      exact hhead.2
    · exact ih (fun w hw => hθ w (List.mem_cons_of_mem _ hw)) hrest

/-- Patterns that compile on subjects with values are tested safely, and the answer is whether the
values match: no operation meets a value of the wrong kind, the test holds exactly when some
assignment matches, every variable of the patterns is bound once, and under a match each binding
gives the value that its variable has. -/
theorem plan_decides_matching (c : Config) (s s' : State) (patterns : List Node)
    (subjects : List Expr) (plan : Plan) (pinned σ : String → Option Value) (values : List Value)
    (hplan : LowerM.plan patterns subjects c s = (.ok plan, s'))
    (hcovers : Reading.CoversEach ⟨pinned, s.resolveModule⟩ patterns)
    (hpins : ∀ x v, pinned x = some v → σ (s.resolve x) = some v)
    (hlength : patterns.length = values.length)
    (hvalues : List.Forall₂ (fun e v => evaluate ⟨c.runtimeName⟩ σ e = some (.value v))
      subjects values) :
    ∃ b, outcome? ⟨c.runtimeName⟩ σ plan.test = some b ∧
      (b = true ↔ ∃ θ, Reading.MatchesEach ⟨pinned, s.resolveModule⟩ θ patterns values) ∧
      (plan.bindings.map (·.1)).Nodup ∧
      (∀ x, x ∈ plan.bindings.map (·.1) ↔ x ∈ boundNamesEach patterns) ∧
      ∀ θ, Reading.MatchesEach ⟨pinned, s.resolveModule⟩ θ patterns values →
        ∀ x e, (x, e) ∈ plan.bindings →
          evaluate ⟨c.runtimeName⟩ σ e = some (.value (θ x)) := by
  have hcompile : compileAll ⟨⟨c.runtimeName⟩, s⟩ patterns subjects {} = .ok plan :=
    congrArg Prod.fst ((LowerM.plan_run patterns subjects c s).symm.trans hplan)
  obtain ⟨⟨_, hnames⟩, hd⟩ := compileAll_decides ⟨hpins, rfl⟩ hcompile hcovers hlength hvalues
    (.inl ⟨rfl, [], .nil, fun θ => (iff_of_true trivial (by simp [Agrees]))⟩)
  have hnodup : (plan.bindings.map (·.1)).Nodup := hnames ▸ nodup_withNames (by simp) _
  have hmem : ∀ x, x ∈ plan.bindings.map (·.1) ↔ x ∈ boundNamesEach patterns := fun x => by
    rw [hnames, mem_withNames]
    simp
  rcases hd with ⟨hold, bound, hbound, hmeet⟩ | ⟨hold, hnot⟩
  · refine ⟨true, (outcome?_all _ σ _).trans hold, iff_of_true rfl ?_, hnodup, hmem, ?_⟩
    · obtain ⟨θ, hθ⟩ := exists_agrees (hbound.names ▸ hnodup)
      exact ⟨θ, ((hmeet θ).mpr hθ).2⟩
    · intro θ hθ x e hxe
      exact hbound.evaluate ((hmeet θ).mp ⟨trivial, hθ⟩) hxe
  · refine ⟨false, (outcome?_all _ σ _).trans hold, ?_, hnodup, hmem, ?_⟩
    · exact iff_of_false (by simp) fun ⟨θ, hθ⟩ => hnot θ ⟨trivial, hθ⟩
    · exact fun θ hθ => (hnot θ ⟨trivial, hθ⟩).elim

/-- A tagged value whose text starts outside of the basic plane. -/
def taggedText : Value :=
  .tuple [.atom "ok", .string "😀a", .map {.atom "rest"} fun _ => .string "a"]

def taggedTextNames : String → Option Value
  | "tag" => some (.atom "ok")
  | "$m0" => some taggedText
  | _ => none

/-- The tag is pinned, and the variable of the text occurs again as an entry of the map. -/
def taggedTextPattern : Node :=
  .tuple [.pin (.var "tag"), .binaryOp "<>" (.string "😀") (.var "rest"),
    .map [(.atom "rest", .var "rest")]]

def taggedTextPins : String → Option Value
  | "tag" => some (.atom "ok")
  | _ => none

theorem plan_decides_matching_taggedText :
    ∃ plan, LowerM.plan [taggedTextPattern] [.ident "$m0"] {} {} = (.ok plan, {}) ∧
      outcome? ⟨"Runtime"⟩ taggedTextNames plan.test = some true := by
  refine ⟨_, rfl, ?_⟩
  have hpins : ∀ x v, taggedTextPins x = some v →
      taggedTextNames (({} : State).resolve x) = some v := by
    intro x v h
    unfold taggedTextPins at h
    split at h
    · exact h
    · cases h
  obtain ⟨b, hb, hiff, -⟩ := plan_decides_matching {} {} {} [taggedTextPattern] [.ident "$m0"] _
    taggedTextPins taggedTextNames [taggedText] rfl
    ⟨⟨by decide, rfl, ⟨by decide, trivial⟩, ⟨rfl, trivial, trivial⟩, trivial⟩, trivial⟩
    hpins rfl (.cons rfl .nil)
  have htrue : b = true :=
    hiff.mpr ⟨fun _ => .string "a", ⟨_, rfl, rfl, ⟨"a", rfl, .inr rfl⟩,
      ⟨rfl, ⟨.atom "rest", .string "a", rfl, rfl, .inr rfl⟩, trivial⟩, trivial⟩, trivial⟩
  exact htrue ▸ hb

end TreeLowering.Matching
