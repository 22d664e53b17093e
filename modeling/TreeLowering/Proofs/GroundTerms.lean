import TreeLowering.Proofs.Data
import TreeLowering.Proofs.LoweredParts

/-!
Terms without variables, built as expressions and matched as patterns.

A ground term is lowered to an expression that builds a value, and compiled to tests on a subject.
The tests can be read off the expression alone: `testsFor` has, for each literal, the very constant
that is built, and for each entry of a map the very key under which the entry is put. The value that
the expression builds meets them, so that a ground term always matches itself.
-/
namespace TreeLowering

open Source Target Pattern Data

/-- The property that the key of a map stands for: a text, or an atom that is no constant. -/
def keyName? : Node → Option Name
  | .string text => some (.text text)
  | .binary segments => (segmentsText? segments).map .text
  | .atom name =>
    if name = "true" ∨ name = "false" ∨ name = "nil" then none else some (.symbol name)
  | _ => none

/-- Terms without variables. No sequence is longer than a signed 64-bit number can count. -/
inductive IsGround : Node → Prop
  | integer (n : Int64) : IsGround (.integer n)
  | float (x : Binary64) : IsGround (.float x)
  | string (text : String) : IsGround (.string text)
  | boolean (b : Bool) : IsGround (.boolean b)
  | nil : IsGround .nil
  | atom (name : String) : IsGround (.atom name)
  | negatedInteger (n : Int64) : IsGround (.unaryOp "-" (.integer n))
  | negatedFloat (x : Binary64) : IsGround (.unaryOp "-" (.float x))
  | binary {segments : List (Segment Node)} {text : String}
      (plain : segmentsText? segments = some text) : IsGround (.binary segments)
  | moduleName (segments : List String) : IsGround (.moduleName segments)
  | tuple {items : List Node} (countable : items.length < 2 ^ 63)
      (parts : ∀ i ∈ items, IsGround i) : IsGround (.tuple items)
  | list {items : List Node} (countable : items.length < 2 ^ 63)
      (parts : ∀ i ∈ items, IsGround i) : IsGround (.list items)
  | map {entries : List (Node × Node)} (keys : ∀ e ∈ entries, (keyName? e.1).isSome = true)
      (distinct : (entries.map fun e => keyName? e.1).Nodup)
      (parts : ∀ e ∈ entries, IsGround e.2) : IsGround (.map entries)

/-- The pattern compiles, in some surroundings. -/
def Pattern.Accepted (n : Node) : Prop :=
  ∃ env subject plan plan', compile env n subject plan = .ok plan'

/-- The key of a property as it is tested and read. -/
def keyExpression : PropertyKey → Expr
  | .name text => .string text
  | .computed key => key

mutual

/-- The tests of a subject for being what the expression builds. -/
def testsFor (lib : RuntimeLibrary) : Expr → Expr → List Expr
  | .literal (.float x), subject => [lib.equals subject (.float x)]
  | .construct _ items, subject =>
    [lib.isTuple subject, .eq (subject.property "size") (.natural items.length)] ++
      itemTests lib (fun i => subject.method "get" [.natural i]) 0 items
  | .array items, subject =>
    [isArray subject, .eq (subject.property "length") (.natural items.length)] ++
      itemTests lib (fun i => subject.index (.natural i)) 0 items
  | .object properties, subject => lib.isMap subject :: propertyTests lib subject properties
  | constant, subject => [.eq subject constant]

def itemTests (lib : RuntimeLibrary) (slot : Nat → Expr) : Nat → List Expr → List Expr
  | _, [] => []
  | i, e :: es => testsFor lib e (slot i) ++ itemTests lib slot (i + 1) es

def propertyTests (lib : RuntimeLibrary) (subject : Expr) : List Property → List Expr
  | [] => []
  | ⟨key, e⟩ :: rest =>
    .binary (keyExpression key) .in_ subject ::
      (testsFor lib e (subject.index (keyExpression key)) ++ propertyTests lib subject rest)

end

section Building

variable {P : Platform} {lib : RuntimeLibrary}

/-- The expression builds the value, wherever it stands, and the value meets the tests for it. -/
structure BuildsMatch (P : Platform) (lib : RuntimeLibrary) (e : Expr) (v : Value) : Prop where
  builds : ∀ env, evaluate P lib env e = some (.value v)
  meets : ∀ env subject, evaluate P lib env subject = some (.value v) →
    ∀ t ∈ testsFor lib e subject, Holds P lib env t

/-- The property is put under the name, and holds the value. -/
structure BuildsProperty (P : Platform) (lib : RuntimeLibrary) (p : Property)
    (entry : Name × Value) : Prop where
  key : ∀ env, ∃ k, evaluate P lib env (keyExpression p.key) = some (.value k) ∧
    P.nameOf k = entry.1
  value : BuildsMatch P lib p.value entry.2

/-- A constant that is identical to itself. -/
theorem buildsMatch_constant {e : Expr} {v : Value}
    (hbuilds : ∀ env, evaluate P lib env e = some (.value v)) (hself : P.sameValue v v = true)
    (htests : ∀ subject, testsFor lib e subject = [.eq subject e]) : BuildsMatch P lib e v where
  builds := hbuilds
  meets env subject hsubject t ht := by
    rw [htests, List.mem_singleton] at ht
    subst ht
    rw [holds_iff (evaluate_eq hsubject (hbuilds env))]
    exact hself

theorem buildsMatch_float (P : Platform) (lib : RuntimeLibrary) (x : Binary64) :
    BuildsMatch P lib (.float x) (.float x) where
  builds env := evaluate_float P lib env x
  meets env subject hsubject t ht := by
    rw [Expr.float, testsFor, List.mem_singleton] at ht
    subst ht
    rw [holds_iff (evaluate_equals hsubject (evaluate_float P lib env x))]
    exact P.equals_self _

theorem testsFor_literal (lib : RuntimeLibrary) {l : Literal} (h : ∀ x, l ≠ .float x)
    (subject : Expr) : testsFor lib (.literal l) subject = [.eq subject (.literal l)] := by
  rw [testsFor]
  all_goals simp [h]

theorem testsFor_atomSymbol (lib : RuntimeLibrary) (name : String) (subject : Expr) :
    testsFor lib (atomSymbol name) subject = [.eq subject (atomSymbol name)] := by
  rw [atomSymbol, Expr.method, testsFor]
  all_goals simp

theorem testsFor_atomValue (lib : RuntimeLibrary) (name : String) (subject : Expr) :
    testsFor lib (atomValue name) subject = [.eq subject (atomValue name)] := by
  unfold atomValue
  split_ifs
  · exact testsFor_literal lib (by simp) subject
  · exact testsFor_literal lib (by simp) subject
  · exact testsFor_literal lib (by simp) subject
  · exact testsFor_atomSymbol lib name subject

theorem buildsMatch_literal (P : Platform) (lib : RuntimeLibrary) {l : Literal}
    (h : ∀ x, l ≠ .float x) : BuildsMatch P lib (.literal l) (.ofLiteral l) := by
  refine buildsMatch_constant (fun env => evaluate_literal P lib env l) ?_ (testsFor_literal lib h)
  cases l with
  | float x => exact (h x rfl).elim
  | _ => simp [Value.ofLiteral, Platform.sameValue]

theorem buildsMatch_symbol (P : Platform) (lib : RuntimeLibrary) (name : String) :
    BuildsMatch P lib (atomSymbol name) (.symbol name) :=
  buildsMatch_constant (fun env => evaluate_atomSymbol P lib env name)
    (by simp [Platform.sameValue]) (testsFor_atomSymbol lib name)

theorem buildsMatch_atom (P : Platform) (lib : RuntimeLibrary) (name : String) :
    ∃ v, BuildsMatch P lib (atomValue name) v := by
  unfold atomValue
  split_ifs
  · exact ⟨_, buildsMatch_literal P lib (by simp)⟩
  · exact ⟨_, buildsMatch_literal P lib (by simp)⟩
  · exact ⟨_, buildsMatch_literal P lib (by simp)⟩
  · exact ⟨_, buildsMatch_symbol P lib name⟩

theorem mapM_value? (vs : List Value) : vs.mapM (Operand.value? ∘ Operand.value) = some vs := by
  induction vs with
  | nil => rfl
  | cons v vs ih => simp [Operand.value?, ih]

theorem evaluateEach_of_builds {es : List Expr} {vs : List Value}
    (h : List.Forall₂ (BuildsMatch P lib) es vs) (env : NameTable Operand) :
    evaluateEach P lib env es = some (vs.map .value) := by
  induction h with
  | nil => rw [evaluateEach, List.map_nil]
  | cons hhead _ ih => simp [evaluateEach, hhead.builds env, ih]

/-- Items meet their tests where the slots hold them. -/
theorem itemTests_hold {es : List Expr} {vs : List Value}
    (h : List.Forall₂ (BuildsMatch P lib) es vs) {env : NameTable Operand} {slot : Nat → Expr}
    {i : Nat}
    (hslots : ∀ j v, vs[j]? = some v → evaluate P lib env (slot (i + j)) = some (.value v)) :
    ∀ t ∈ itemTests lib slot i es, Holds P lib env t := by
  induction h generalizing i with
  | nil => simp [itemTests]
  | @cons e v es vs hhead _ ih =>
    rw [itemTests, List.forall_mem_append]
    refine ⟨hhead.meets env (slot i) (hslots 0 v rfl), ih fun j w hj => ?_⟩
    have hnext := hslots (j + 1) w (by simpa using hj)
    rwa [Nat.add_comm j, ← Nat.add_assoc] at hnext

/-- The same behind the tests of the kind and of the size. -/
theorem sequenceTests_hold {es : List Expr} {vs : List Value} (hcount : es.length < 2 ^ 63)
    (h : List.Forall₂ (BuildsMatch P lib) es vs) {env : NameTable Operand} {kind size : Expr}
    {slot : Nat → Expr} (hkind : Holds P lib env kind)
    (hsize : evaluate P lib env size = some (.value (.integer vs.length)))
    (hslots : ∀ j v, j < 2 ^ 63 → vs[j]? = some v →
      evaluate P lib env (slot j) = some (.value v)) :
    ∀ t ∈ [kind, .eq size (.natural es.length)] ++ itemTests lib slot 0 es, Holds P lib env t := by
  have hlength := h.length_eq
  have hcounted : Holds P lib env (.eq size (.natural es.length)) := by
    rw [holds_iff (evaluate_eq hsize (evaluate_natural hcount)), hlength]
    exact beq_self_eq_true _
  rw [List.forall_mem_append, List.forall_mem_cons, List.forall_mem_singleton]
  refine ⟨⟨hkind, hcounted⟩, itemTests_hold h fun j v hj => ?_⟩
  have hbound := (List.getElem?_eq_some_iff.mp hj).1
  rw [Nat.zero_add]
  exact hslots j v (by omega) hj

theorem buildsMatch_tuple {es : List Expr} {vs : List Value} (hcount : es.length < 2 ^ 63)
    (h : List.Forall₂ (BuildsMatch P lib) es vs) :
    BuildsMatch P lib (lib.tuple es) (.tuple vs) where
  builds env := by
    simp [RuntimeLibrary.tuple, RuntimeLibrary.path, RuntimeLibrary.root, Expr.property,
      Expr.string, Matching.isTupleClass, evaluateEach_of_builds h env, mapM_value?]
  meets env subject hsubject := by
    rw [RuntimeLibrary.tuple, testsFor]
    apply sequenceTests_hold hcount h (evaluate_isTuple hsubject)
      (evaluate_property hsubject "size")
    intro j v hj hv
    rw [evaluate_method "get" (by simp) hsubject (evaluate_natural hj)]
    simp [methodOf, hv]

theorem buildsMatch_array {es : List Expr} {vs : List Value} (hcount : es.length < 2 ^ 63)
    (h : List.Forall₂ (BuildsMatch P lib) es vs) : BuildsMatch P lib (.array es) (.array vs) where
  builds env := by simp [evaluateEach_of_builds h env, mapM_value?]
  meets env subject hsubject := by
    rw [testsFor]
    apply sequenceTests_hold hcount h (evaluate_isArray hsubject)
      (evaluate_property hsubject "length")
    intro j v hj hv
    rw [evaluate_index hsubject (evaluate_natural hj)]
    simp [Platform.entryOf, hv]

theorem evaluateProperties_of_builds {ps : List Property} {entries : List (Name × Value)}
    (h : List.Forall₂ (BuildsProperty P lib) ps entries) (env : NameTable Operand) :
    evaluateProperties P lib env ps = some entries := by
  induction h with
  | nil => rw [evaluateProperties]
  | @cons p entry ps entries hhead _ ih =>
    obtain ⟨key, e⟩ := p
    obtain ⟨k, hk, hname⟩ := hhead.key env
    have hvalue := hhead.value.builds env
    cases key with
    | name text =>
      rw [keyExpression, Expr.string, evaluate_literal] at hk
      cases hk
      simp only [evaluateProperties, hvalue, ih, Operand.value?, Option.bind_eq_bind,
        Option.bind_some, Option.pure_def]
      rw [← Prod.mk.eta (p := entry), ← hname]
      rfl
    | computed key =>
      rw [keyExpression] at hk
      simp only [evaluateProperties, hk, hvalue, ih, Operand.value?, Option.bind_eq_bind,
        Option.bind_some, Option.pure_def, hname]

theorem propertyTests_hold {ps : List Property} {entries all : List (Name × Value)}
    (h : List.Forall₂ (BuildsProperty P lib) ps entries) {env : NameTable Operand} {subject : Expr}
    (hsubject : evaluate P lib env subject = some (.value (.object all)))
    (hheld : ∀ entry ∈ entries, (Value.object all).get? entry.1 = some entry.2) :
    ∀ t ∈ propertyTests lib subject ps, Holds P lib env t := by
  induction h with
  | nil => simp [propertyTests]
  | @cons p entry ps entries hhead _ ih =>
    obtain ⟨key, e⟩ := p
    obtain ⟨k, hk, hname⟩ := hhead.key env
    obtain ⟨hfirst, hrest⟩ := List.forall_mem_cons.mp hheld
    rw [propertyTests, List.forall_mem_cons, List.forall_mem_append]
    refine ⟨?_, hhead.value.meets env _ ?_, ih hrest⟩
    · rw [Holds, evaluate_in hk hsubject, Platform.has, hname, hfirst]
      rfl
    · rw [evaluate_index hsubject hk, Platform.entryOf, hname, hfirst]
      rfl

theorem buildsMatch_object {ps : List Property} {entries : List (Name × Value)}
    (h : List.Forall₂ (BuildsProperty P lib) ps entries)
    (hdistinct : (entries.map (·.1)).Nodup) :
    BuildsMatch P lib (.object ps) (.object entries.reverse) where
  builds env := by simp [evaluate, evaluateProperties_of_builds h env]
  meets env subject hsubject := by
    rw [testsFor, List.forall_mem_cons]
    refine ⟨evaluate_isMap hsubject, propertyTests_hold h hsubject fun entry hentry => ?_⟩
    have hreversed : (entries.reverse.map (·.1)).Nodup := by
      rw [List.map_reverse, List.nodup_reverse]
      exact hdistinct
    exact lookup_of_nodup hreversed (List.mem_reverse.mpr hentry)

end Building

namespace Pattern

@[simp]
theorem Plan.requireAll_requireAll (plan : Plan) (front back : List Expr) :
    (plan.requireAll front).requireAll back = plan.requireAll (front ++ back) := by
  simp [Plan.requireAll]

theorem Plan.require_eq (plan : Plan) (test : Expr) : plan.require test = plan.requireAll [test] :=
  rfl

theorem Plan.requireAll_nil (plan : Plan) : plan.requireAll [] = plan := by
  simp [Plan.requireAll]

/-- A literal that is no float is compared with its constant. -/
theorem compile_of_constant {n : Node} {value : Expr} (hexact : isExact n = true)
    (h : constant? n = some value) (env : Surroundings) (subject : Expr) (plan : Plan) :
    compile env n subject plan = .ok (plan.require (.eq subject value)) := by
  have hconstant : compileConstant n subject plan = .ok (plan.require (.eq subject value)) := by
    rw [compileConstant, h]
  rw [← hconstant]
  unfold constant? at h
  split at h
  case h_2 | h_8 => cases hexact
  case h_10 => cases h
  all_goals
    rw [compile]
    all_goals simp

theorem key_of_constant {n : Node} {value : Expr} (h : constant? n = some value)
    (env : Surroundings) : key env n = .ok value := by
  unfold key
  rw [h]

theorem accepted_of_items {env : Surroundings} {slot : Nat → Expr} {i : Nat} {items : List Node}
    {plan plan' : Plan} (h : compileItems env slot i items plan = .ok plan') :
    ∀ n ∈ items, Accepted n := by
  induction items generalizing i plan with
  | nil => simp
  | cons n items ih =>
    rw [compileItems] at h
    obtain ⟨middle, hn, hitems⟩ := exists_ok_of_bind h
    exact List.forall_mem_cons.mpr ⟨⟨env, slot i, plan, middle, hn⟩, ih hitems⟩

theorem accepted_of_entries {env : Surroundings} {subject : Expr} {entries : List (Node × Node)}
    {plan plan' : Plan} (h : compileEntries env subject entries plan = .ok plan') :
    ∀ e ∈ entries, Accepted e.2 := by
  induction entries generalizing plan with
  | nil => simp
  | cons e entries ih =>
    rw [compileEntries] at h
    obtain ⟨k, -, h⟩ := exists_ok_of_bind h
    obtain ⟨middle, he, hentries⟩ := exists_ok_of_bind h
    exact List.forall_mem_cons.mpr ⟨⟨env, _, _, middle, he⟩, ih hentries⟩

end Pattern

section Terms

open LowerM Lowering

variable {P : Platform} {c : Config} {s : State}

/-- The term is lowered to the expression, which builds the value, and compiled to the tests for
it, wherever the names of modules mean the same. -/
structure Written (P : Platform) (c : Config) (s : State) (n : Node) (e : Expr) (v : Value) :
    Prop where
  lowers : (positions n).value c s = (.ok e, s)
  built : BuildsMatch P ⟨c.runtimeName⟩ e v
  compiles : ∀ t : State, t.resolveModule = s.resolveModule → ∀ subject plan,
    compile ⟨⟨c.runtimeName⟩, t⟩ n subject plan =
      .ok (plan.requireAll (testsFor ⟨c.runtimeName⟩ e subject))

/-- A literal whose constant is identical to itself. -/
theorem written_constant {n : Node} {e : Expr} {v : Value} (hexact : isExact n = true)
    (hconstant : constant? n = some e) (hlowers : (positions n).value c s = (.ok e, s))
    (hbuilt : BuildsMatch P ⟨c.runtimeName⟩ e v)
    (htests : ∀ subject, testsFor ⟨c.runtimeName⟩ e subject = [.eq subject e]) :
    Written P c s n e v where
  lowers := hlowers
  built := hbuilt
  compiles t _ subject plan := by
    rw [compile_of_constant hexact hconstant, htests, Plan.require_eq]

theorem written_literal {n : Node} {l : Literal} (hexact : isExact n = true)
    (hl : ∀ x, l ≠ .float x) (hconstant : constant? n = some (.literal l))
    (hlowers : (positions n).value c s = (.ok (.literal l), s)) :
    Written P c s n (.literal l) (.ofLiteral l) :=
  written_constant hexact hconstant hlowers (buildsMatch_literal P _ hl) (testsFor_literal _ hl)

/-- A binary of plain strings is its text. -/
theorem binary_value {segments : List (Segment Node)} {text : String}
    (h : segmentsText? segments = some text) :
    (positions (.binary segments)).value c s = (.ok (.string text), s) := by
  have hsegments : (segmentValues segments).map (·.1) = segments := by
    rw [segmentValues_eq, List.map_map]
    exact List.map_id segments
  rw [positions]
  show LowerM.binary (segmentValues segments) c s = _
  rw [LowerM.binary, hsegments, h]
  rfl

theorem written_negatedInteger {n m : Int64} (h : negated? n = some m) :
    Written P c s (.unaryOp "-" (.integer n)) (.integer m) (.integer m.toInt) := by
  refine written_literal rfl (by simp) (by simp [constant?, h, Expr.integer]) ?_
  rw [positions]
  show LowerM.negation (.integer n) (positions (.integer n)).value c s = _
  rw [LowerM.negation, h]
  rfl

/-- A float is tested by structural equality. -/
theorem written_float {n : Node} {x : Binary64}
    (hlowers : (positions n).value c s = (.ok (.float x), s))
    (hcompile : ∀ env subject plan, compile env n subject plan =
      .ok (plan.require (env.library.equals subject (.float x)))) :
    Written P c s n (.float x) (.float x) where
  lowers := hlowers
  built := buildsMatch_float P _ x
  compiles t _ subject plan := by
    rw [hcompile, Expr.float, testsFor, Plan.require_eq]
    rfl

theorem written_moduleName (segments : List String) :
    Written P c s (.moduleName segments) (moduleValue (s.resolveModule segments))
      (.symbol (Identifier.moduleAtom (s.resolveModule segments))) where
  lowers := by rw [positions]; rfl
  built := buildsMatch_symbol P _ _
  compiles t ht subject plan := by
    rw [compile, Surroundings.moduleValue, ht, moduleValue, testsFor_atomSymbol, Plan.require_eq]

/-- Items one after another, each in the state in which the first was lowered. -/
theorem written_items {items : List Node} (h : ∀ n ∈ items, ∃ e v, Written P c s n e v) :
    ∃ es vs, LowerM.sequence (values items) c s = (.ok es, s) ∧ es.length = items.length ∧
      List.Forall₂ (BuildsMatch P ⟨c.runtimeName⟩) es vs ∧
      ∀ t : State, t.resolveModule = s.resolveModule → ∀ slot i plan,
        compileItems ⟨⟨c.runtimeName⟩, t⟩ slot i items plan =
          .ok (plan.requireAll (itemTests ⟨c.runtimeName⟩ slot i es)) := by
  induction items with
  | nil =>
    refine ⟨[], [], rfl, rfl, .nil, fun t _ slot i plan => ?_⟩
    rw [compileItems, itemTests, Plan.requireAll_nil]
  | cons n items ih =>
    obtain ⟨⟨e, v, hn⟩, hitems⟩ := List.forall_mem_cons.mp h
    obtain ⟨es, vs, hsequence, hlength, hbuilt, hcompile⟩ := ih hitems
    refine ⟨e :: es, v :: vs, ?_, congrArg _ hlength, .cons hn.built hbuilt,
      fun t ht slot i plan => ?_⟩
    · rw [values, LowerM.sequence, bind_of_ok hn.lowers, bind_of_ok hsequence]
      rfl
    · rw [compileItems, hn.compiles t ht, itemTests, ← Plan.requireAll_requireAll]
      exact hcompile t ht slot (i + 1) _

/-- The key of an entry names one property, as it is put in an object and as it is asked for. -/
theorem written_key (P : Platform) (c : Config) (s : State) {n : Node} {name : Name}
    (h : keyName? n = some name) :
    ∃ key : PropertyKey,
      (∀ env, ∃ k, evaluate P ⟨c.runtimeName⟩ env (keyExpression key) = some (.value k) ∧
        P.nameOf k = name) ∧
      (∀ x e, x c s = (.ok e, s) →
        LowerM.entry n (positions n).value x c s = (.ok ⟨key, e⟩, s)) ∧
      ∀ env, Pattern.key env n = .ok (keyExpression key) := by
  unfold keyName? at h
  split at h
  next text =>
    cases h
    refine ⟨.name text, fun env => ⟨.text text, evaluate_string P _ env text, rfl⟩,
      fun x e hx => ?_, fun env => rfl⟩
    rw [LowerM.entry, bind_of_ok hx]
    rfl
  next segments =>
    obtain ⟨text, htext, rfl⟩ := Option.map_eq_some_iff.mp h
    refine ⟨.computed (.string text), fun env => ⟨.text text, evaluate_string P _ env text, rfl⟩,
      fun x e hx => ?_, fun env => ?_⟩
    · rw [LowerM.entry, bind_of_ok (binary_value htext), bind_of_ok hx]
      · rfl
      · simp
    · exact key_of_constant (by rw [constant?, htext]; rfl) env
  next atom =>
    split_ifs at h with hconstant
    cases h
    have hvalue : atomValue atom = atomSymbol atom := by
      simp only [not_or] at hconstant
      simp [atomValue, hconstant]
    have hlowers : (positions (.atom atom)).value c s = (.ok (atomSymbol atom), s) := by
      rw [positions, hvalue]
      rfl
    refine ⟨.computed (atomSymbol atom), fun env => ⟨.symbol atom, evaluate_atomSymbol P _ env _,
      rfl⟩, fun x e hx => ?_, fun env => ?_⟩
    · rw [LowerM.entry, bind_of_ok hlowers, bind_of_ok hx]
      · rfl
      · simp
    · exact key_of_constant (by rw [constant?, hvalue]; rfl) env
  next => cases h

theorem written_entries {entries : List (Node × Node)}
    (hkeys : ∀ e ∈ entries, (keyName? e.1).isSome = true)
    (h : ∀ entry ∈ entries, ∃ e v, Written P c s entry.2 e v) :
    ∃ ps held, LowerM.sequence (properties entries) c s = (.ok ps, s) ∧
      List.Forall₂ (BuildsProperty P ⟨c.runtimeName⟩) ps held ∧
      entries.map (fun e => keyName? e.1) = (held.map (·.1)).map some ∧
      ∀ t : State, t.resolveModule = s.resolveModule → ∀ subject plan,
        compileEntries ⟨⟨c.runtimeName⟩, t⟩ subject entries plan =
          .ok (plan.requireAll (propertyTests ⟨c.runtimeName⟩ subject ps)) := by
  induction entries with
  | nil =>
    refine ⟨[], [], rfl, .nil, rfl, fun t _ subject plan => ?_⟩
    rw [compileEntries, propertyTests, Plan.requireAll_nil]
  | cons entry entries ih =>
    obtain ⟨⟨e, v, hvalue⟩, hvalues⟩ := List.forall_mem_cons.mp h
    obtain ⟨hkey, hkeys⟩ := List.forall_mem_cons.mp hkeys
    obtain ⟨name, hname⟩ := Option.isSome_iff_exists.mp hkey
    obtain ⟨key, hnames, hput, hasked⟩ := written_key P c s hname
    obtain ⟨ps, held, hsequence, hbuilt, hheld, hcompile⟩ := ih hkeys hvalues
    refine ⟨⟨key, e⟩ :: ps, (name, v) :: held, ?_, .cons ⟨hnames, hvalue.built⟩ hbuilt, ?_,
      fun t ht subject plan => ?_⟩
    · rw [properties, LowerM.sequence, bind_of_ok (hput _ e hvalue.lowers), bind_of_ok hsequence]
      rfl
    · rw [List.map_cons, List.map_cons, List.map_cons, hname, hheld]
    · rw [compileEntries, hasked]
      show (do
        let plan ← compile _ entry.2 (subject.index (keyExpression key))
          (plan.require (.binary (keyExpression key) .in_ subject))
        compileEntries _ subject entries plan) = _
      rw [hvalue.compiles t ht, Plan.require_eq, Plan.requireAll_requireAll]
      refine (hcompile t ht subject _).trans ?_
      rw [Plan.requireAll_requireAll, List.append_assoc, propertyTests]
      rfl

/-- A ground term that is accepted as a pattern is written out the same way on both sides. -/
theorem written_of_ground {n : Node} (hground : IsGround n) (haccepted : Accepted n) :
    ∃ e v, Written P c s n e v := by
  induction hground with
  | integer n => exact ⟨_, _, written_literal rfl (by simp) rfl (by rw [positions]; rfl)⟩
  | string text => exact ⟨_, _, written_literal rfl (by simp) rfl (by rw [positions]; rfl)⟩
  | boolean b => exact ⟨_, _, written_literal rfl (by simp) rfl (by rw [positions]; rfl)⟩
  | nil => exact ⟨_, _, written_literal rfl (by simp) rfl (by rw [positions]; rfl)⟩
  | atom name =>
    obtain ⟨v, hbuilt⟩ := buildsMatch_atom P ⟨c.runtimeName⟩ name
    exact ⟨_, v, written_constant rfl rfl (by rw [positions]; rfl) hbuilt
      (testsFor_atomValue _ name)⟩
  | float x => exact ⟨_, _, written_float (by rw [positions]; rfl) fun _ _ _ => by rw [compile]⟩
  | negatedFloat x =>
    exact ⟨_, _, written_float (by rw [positions]; rfl) fun _ _ _ => by rw [compile]⟩
  | negatedInteger n =>
    -- the least integer has no opposite, and is refused as a pattern
    obtain ⟨env, subject, plan, plan', hcompile⟩ := haccepted
    cases (compiled_of_ok env).1 _ _ _ _ hcompile with
    | constant _ literal =>
      obtain ⟨m, hm, -⟩ := Option.map_eq_some_iff.mp literal
      exact ⟨_, _, written_negatedInteger hm⟩
  | @binary segments text plain =>
    exact ⟨_, _, written_literal rfl (by simp) (by rw [constant?, plain]; rfl) (binary_value plain)⟩
  | moduleName segments => exact ⟨_, _, written_moduleName segments⟩
  | @tuple items countable _ ih =>
    obtain ⟨env, subject, plan, plan', hcompile⟩ := haccepted
    rw [compile] at hcompile
    have hparts := accepted_of_items hcompile
    obtain ⟨es, vs, hsequence, hlength, hbuilt, hitems⟩ :=
      written_items fun n hn => ih n hn (hparts n hn)
    refine ⟨_, _, ?_, buildsMatch_tuple (by omega) hbuilt, fun t ht subject plan => ?_⟩
    · rw [positions]
      show LowerM.tuple (values items) c s = _
      rw [LowerM.tuple, bind_of_ok hsequence]
      rfl
    · rw [compile, hitems t ht, Plan.requireAll_requireAll, RuntimeLibrary.tuple, testsFor, hlength]
  | @list items countable _ ih =>
    obtain ⟨env, subject, plan, plan', hcompile⟩ := haccepted
    rw [compile] at hcompile
    have hparts := accepted_of_items hcompile
    obtain ⟨es, vs, hsequence, hlength, hbuilt, hitems⟩ :=
      written_items fun n hn => ih n hn (hparts n hn)
    refine ⟨_, _, ?_, buildsMatch_array (by omega) hbuilt, fun t ht subject plan => ?_⟩
    · rw [positions]
      show (do return Expr.array (← LowerM.sequence (values items)) : LowerM Expr) c s = _
      rw [bind_of_ok hsequence]
      rfl
    · rw [compile, hitems t ht, Plan.requireAll_requireAll, testsFor, hlength]
  | @map entries keys distinct _ ih =>
    obtain ⟨env, subject, plan, plan', hcompile⟩ := haccepted
    rw [compile] at hcompile
    have hparts := accepted_of_entries hcompile
    obtain ⟨ps, held, hsequence, hbuilt, hheld, hentries⟩ :=
      written_entries keys fun e he => ih e he (hparts e he)
    have hdistinct : (held.map (·.1)).Nodup := by
      rw [hheld] at distinct
      exact distinct.of_map
    refine ⟨_, _, ?_, buildsMatch_object hbuilt hdistinct, fun t ht subject plan => ?_⟩
    · rw [positions]
      show LowerM.object (properties entries) c s = _
      rw [LowerM.object, bind_of_ok hsequence]
      rfl
    · rw [compile, hentries t ht, Plan.require_eq, Plan.requireAll_requireAll, testsFor]
      rfl

/-- What raises a match error unless the tests hold. -/
def unlessTests (lib : RuntimeLibrary) (tests : List Expr) (subject : Expr) : List Stmt :=
  (Expr.all tests).toList.map fun test =>
    .when_ (.not test) (.throws (lib.error "MatchError" [subject]))

theorem execAll_unlessTests {lib : RuntimeLibrary} {tests : List Expr} {subject : Expr}
    {env : NameTable Operand} (h : ∀ t ∈ tests, Holds P lib env t) :
    (P.machine lib).execAll (unlessTests lib tests subject) env = pure (.normal env) := by
  unfold unlessTests
  cases hall : Expr.all tests with
  | none => rfl
  | some test =>
    have hnot : evaluate P lib env (.not test) = some (.ofBool false) := by
      have htest : evaluate P lib env test = some (.ofBool true) := holds_all hall h
      simp [Expr.not, evaluate, htest, Operand.ofBool, Operand.truthy]
    rw [Option.toList_some, List.map_singleton, Machine.execAll_singleton, Stmt.when_, Machine.exec,
      Machine.holds, machine_eval hnot]
    rfl

/-- The statements that match a value with the ground term it is of. -/
theorem bindPattern_of_written {n : Node} {e : Expr} {v : Value} (h : Written P c s n e v)
    (hvar : ∀ name, n ≠ .var name) :
    ∃ name s₁, bindPattern n (positions n).value c s =
      (.ok (.const name e :: unlessTests ⟨c.runtimeName⟩ (testsFor ⟨c.runtimeName⟩ e (.ident name))
        (.ident name), .ident name), s₁) := by
  have hheld : hold "m" e c s = (.ok ([.const (Identifier.invented "m" s.invented) e],
      .ident (Identifier.invented "m" s.invented)), { s with invented := s.invented + 1 }) := by
    unfold hold
    split
    next x =>
      -- what an identifier holds is not the same everywhere
      have hbuilds := h.built.builds []
      simp [evaluate, NameTable.get?] at hbuilds
    next => rfl
  have hplan : ∀ name, plan [n] [.ident name] c { s with invented := s.invented + 1 } =
      (.ok ⟨testsFor ⟨c.runtimeName⟩ e (.ident name), []⟩,
        { s with invented := s.invented + 1 }) := by
    intro name
    have hcompiled := h.compiles { s with invented := s.invented + 1 } rfl (.ident name) {}
    rw [plan_run, compileAll, hcompiled]
    rfl
  refine ⟨Identifier.invented "m" s.invented, { s with invented := s.invented + 1 }, ?_⟩
  unfold bindPattern
  rw [bind_of_ok h.lowers]
  split
  next name => exact (hvar name rfl).elim
  next =>
    unfold bindPattern.general
    refine (bind_of_ok hheld).trans ((bind_of_ok (hplan _)).trans ?_)
    simp only [Plan.test, unlessTests]
    cases Expr.all (testsFor ⟨c.runtimeName⟩ e (.ident (Identifier.invented "m" s.invented)))
    · rfl
    · rfl

/-- Control goes on behind them, and the value is held under the name. -/
theorem execAll_match {n : Node} {e : Expr} {v : Value} (h : Written P c s n e v) (name : String)
    (env : NameTable Operand) :
    (P.machine ⟨c.runtimeName⟩).execAll
      (.const name e :: unlessTests ⟨c.runtimeName⟩ (testsFor ⟨c.runtimeName⟩ e (.ident name))
        (.ident name)) env = pure (.normal (env.set name (.value v))) := by
  have hsubject : evaluate P ⟨c.runtimeName⟩ (env.set name (.value v)) (.ident name) =
      some (.value v) := evaluate_ident (by simp [NameTable.get?_set])
  rw [Machine.execAll, Stmt.const, Machine.exec, Machine.evalOption,
    machine_eval (h.built.builds env), pure_bind, pure_bind, Completion.next,
    execAll_unlessTests (h.built.meets _ _ hsubject)]

/-- Before the end of a body, control goes on behind the match of the term with itself. -/
theorem match_goes_on {n : Node} {e : Expr} {v : Value} (h : Written P c s n e v)
    (hvar : ∀ name, n ≠ .var name) :
    ∃ stmts s₁, (positions (.bind n n)).effect c s = (.ok stmts, s₁) ∧
      ∀ env, ∃ env', (P.machine ⟨c.runtimeName⟩).execAll stmts env = pure (.normal env') := by
  obtain ⟨name, s₁, hbind⟩ := bindPattern_of_written h hvar
  refine ⟨_, s₁, ?_, fun env => ⟨_, execAll_match h name env⟩⟩
  rw [positions]
  exact bind_of_ok hbind

/-- At the end of a body, the match returns the value. -/
theorem match_returns {n : Node} {e : Expr} {v : Value} (h : Written P c s n e v)
    (hvar : ∀ name, n ≠ .var name) :
    ∃ stmts s₁, (positions (.bind n n)).tail c s = (.ok stmts, s₁) ∧
      ∀ env, (P.machine ⟨c.runtimeName⟩).execAll stmts env = pure (.returned (.value v)) := by
  obtain ⟨name, s₁, hbind⟩ := bindPattern_of_written h hvar
  have htail : (positions (.bind n n)).tail c s =
      (.ok (.const name e :: unlessTests ⟨c.runtimeName⟩ (testsFor ⟨c.runtimeName⟩ e (.ident name))
        (.ident name) ++ [.return_ (.ident name)]), s₁) := by
    rw [positions]
    exact bind_of_ok hbind
  refine ⟨_, s₁, htail, fun env => ?_⟩
  have hsubject : evaluate P ⟨c.runtimeName⟩ (env.set name (.value v)) (.ident name) =
      some (.value v) := evaluate_ident (by simp [NameTable.get?_set])
  rw [Machine.execAll_append, execAll_match h name env, pure_bind, Completion.next,
    Machine.execAll_singleton, Stmt.return_, Machine.exec, Machine.evalOption,
    machine_eval hsubject, pure_bind]

/-- The term stands for one value, as an expression and as a pattern. -/
structure MatchesItself (P : Platform) (c : Config) (s : State) (n : Node) (e : Expr) (v : Value) :
    Prop where
  lowers : (positions n).value c s = (.ok e, s)
  builds : ∀ env, evaluate P ⟨c.runtimeName⟩ env e = some (.value v)
  /-- What is tested follows from what is built. -/
  compiles : ∀ t : State, t.resolveModule = s.resolveModule → ∀ subject,
    compile ⟨⟨c.runtimeName⟩, t⟩ n subject {} = .ok ⟨testsFor ⟨c.runtimeName⟩ e subject, []⟩
  meets : ∀ env subject, evaluate P ⟨c.runtimeName⟩ env subject = some (.value v) →
    ∀ test ∈ testsFor ⟨c.runtimeName⟩ e subject, Holds P ⟨c.runtimeName⟩ env test
  /-- `term = term` goes on, before the end of a body. -/
  goesOn : ∃ stmts s₁, (positions (.bind n n)).effect c s = (.ok stmts, s₁) ∧
    ∀ env, ∃ env', (P.machine ⟨c.runtimeName⟩).execAll stmts env = pure (.normal env')
  /-- `term = term` returns the value, at the end of a body. -/
  returns : ∃ stmts s₁, (positions (.bind n n)).tail c s = (.ok stmts, s₁) ∧
    ∀ env, (P.machine ⟨c.runtimeName⟩).execAll stmts env = pure (.returned (.value v))

/-- A ground term matches itself, whatever the scope and the module around it. -/
theorem ground_term_matches_itself {n : Node} (hground : IsGround n) (haccepted : Accepted n)
    (P : Platform) (c : Config) (s : State) : ∃ e v, MatchesItself P c s n e v := by
  have hvar : ∀ name, n ≠ .var name := by
    rintro name rfl
    cases hground
  obtain ⟨e, v, hwritten⟩ := written_of_ground (P := P) (c := c) (s := s) hground haccepted
  refine ⟨e, v, hwritten.lowers, hwritten.built.builds, fun t ht subject => ?_,
    hwritten.built.meets, match_goes_on hwritten hvar, match_returns hwritten hvar⟩
  rw [hwritten.compiles t ht]
  rfl

/-- A map of a tuple and a list. -/
def nestedTerm : Node :=
  .map [
    (.string "place", .tuple [.unaryOp "-" (.integer 3), .float ⟨0x3ff8000000000000⟩,
      .moduleName ["Inner"]]),
    (.atom "tags", .list [.nil, .atom "true",
      .binary [.plain (.string "a"), .plain (.string "b")]])]

/-- Inside of a module, behind a module that is nested in it. -/
def besideInner : State :=
  { context := some { name := ["Outer"], aliases := [("Inner", ["Outer", "Inner"])] } }

theorem nestedTerm_matches_itself :
    IsGround nestedTerm ∧ Accepted nestedTerm ∧
      ∃ e v, MatchesItself .exact {} besideInner nestedTerm e v := by
  have hground : IsGround nestedTerm := by
    refine .map (by simp [keyName?]) (by simp [keyName?]) ?_
    simp only [List.forall_mem_cons, List.not_mem_nil, false_implies, implies_true, and_true]
    constructor
    · refine .tuple (by simp) ?_
      simp only [List.forall_mem_cons, List.not_mem_nil, false_implies, implies_true, and_true]
      exact ⟨.negatedInteger 3, .float _, .moduleName _⟩
    · refine .list (by simp) ?_
      simp only [List.forall_mem_cons, List.not_mem_nil, false_implies, implies_true, and_true]
      exact ⟨.nil, .atom _, .binary rfl⟩
  have haccepted : Accepted nestedTerm := ⟨⟨⟨"Runtime"⟩, {}⟩, .ident "x", {}, _, rfl⟩
  exact ⟨hground, haccepted, ground_term_matches_itself hground haccepted .exact {} besideInner⟩

end Terms

end TreeLowering
