import TreeLowering.Proofs.Data
import TreeLowering.Proofs.OpenPatterns

/-!
Struct patterns and the tags of maps.

A struct pattern asks for a map, and then for what stands in the place of its tag to match the
`__struct__` entry; whether there is such an entry is not asked. Where it is missing, `undefined`
is matched instead. Every pattern but those that are made of variables alone refuses `undefined`,
so that the entry is there, and matches, unless the tag is such a pattern: then every map matches.

`Sense.Matches` says what patterns mean, floats and missing entries included, by recursion on the
pattern. A struct matches a struct pattern only if it has a tag.
-/
namespace TreeLowering.Data

open Source Target Pattern

/-- The property that holds the tag of a struct. -/
def tagName : Name := .symbol "__struct__"

/-- The constants `true`, `false` and `nil` are atoms of the source, and values of their own. -/
def Value.ofAtom (name : String) : Value :=
  if name = "true" then .boolean true
  else if name = "false" then .boolean false
  else if name = "nil" then .null
  else .symbol name

/-- What a literal stands for. -/
def literalValue? : Node → Option Value
  | .integer n => some (.integer n.toInt)
  | .float x => some (.float x)
  | .string text => some (.text text)
  | .boolean b => some (.boolean b)
  | .nil => some .null
  | .atom name => some (.ofAtom name)
  | .unaryOp "-" (.integer n) => some (.integer (-n.toInt))
  | .unaryOp "-" (.float x) => some (.float x.neg)
  | .binary segments => (segmentsText? segments).map .text
  | _ => none

/-- What patterns refer to outside of themselves. -/
structure Sense where
  platform : Platform
  /-- The values of variables that may be pinned. -/
  pinned : String → Option Value
  /-- The full name of the module that a name stands for. -/
  fullName : List String → List String

abbrev Assignment := String → Value

namespace Sense

variable (S : Sense)

def moduleSymbol (segments : List String) : Value :=
  .symbol (Identifier.moduleAtom (S.fullName segments))

/-- The property that the key of an entry stands for. -/
def keyName? : Node → Option Name
  | .moduleName segments => some (S.platform.nameOf (S.moduleSymbol segments))
  | .pin (.var name) => (S.pinned name).map S.platform.nameOf
  | key => (literalValue? key).map S.platform.nameOf

mutual

/-- The value matches the pattern when its variables have the assigned values. -/
def Matches (θ : Assignment) : Node → Value → Prop
  | .float x, v => S.platform.equals v (.float x) = true
  | .unaryOp "-" (.float x), v => S.platform.equals v (.float x.neg) = true
  | .moduleName segments, v => v = S.moduleSymbol segments
  | .var name, v => name = "_" ∨ S.platform.equals v (θ name) = true
  | .pin (.var name), v => ∃ w, S.pinned name = some w ∧ S.platform.equals v w = true
  | .tuple items, v => ∃ vs, v = .tuple vs ∧ MatchesEach θ items vs
  | .list items, v => ∃ vs, v = .array vs ∧ MatchesEach θ items vs
  | .cons head tail, v =>
    ∃ front rest, v = .array (front ++ rest) ∧ MatchesEach θ head front ∧
      Matches θ tail (.array rest)
  | .map entries, v => v.isObject = true ∧ MatchesEntries θ entries v
  | .struct tag fields none, v =>
    (∃ w, v.get? tagName = some w ∧ Matches θ tag w) ∧ MatchesEntries θ fields v
  | .bind pattern other, v => Matches θ pattern v ∧ Matches θ other v
  | .binaryOp "<>" (.string start) rest, v =>
    ∃ text, v = .text (start ++ text) ∧ Matches θ rest (.text text)
  | literal, v => ∃ w, literalValue? literal = some w ∧ S.platform.sameValue v w = true

/-- As many values as patterns, each matching its own. -/
def MatchesEach (θ : Assignment) : List Node → List Value → Prop
  | [], [] => True
  | pattern :: patterns, v :: vs => Matches θ pattern v ∧ MatchesEach θ patterns vs
  | _, _ => False

/-- The value has an entry under every key, matching the pattern beside it. -/
def MatchesEntries (θ : Assignment) : List (Node × Node) → Value → Prop
  | [], _ => True
  | (key, pattern) :: rest, v =>
    (∃ k w, S.keyName? key = some k ∧ v.get? k = some w ∧ Matches θ pattern w) ∧
      MatchesEntries θ rest v

end

end Sense

mutual

/-- No struct inside of the pattern has a tag that is made of variables alone, and no sequence is
longer than a signed 64-bit number can count. -/
def hasNamedTags : Node → Bool
  | .tuple items => decide (items.length < 2 ^ 63) && haveNamedTags items
  | .list items => decide (items.length < 2 ^ 63) && haveNamedTags items
  | .cons head tail => decide (head.length < 2 ^ 63) && haveNamedTags head && hasNamedTags tail
  | .map entries => entriesHaveNamedTags entries
  | .struct tag fields _ =>
    (openNames tag).isNone && hasNamedTags tag && entriesHaveNamedTags fields
  | .bind pattern other => hasNamedTags pattern && hasNamedTags other
  | .binaryOp _ (.string start) rest => decide (utf16Length start < 2 ^ 63) && hasNamedTags rest
  | _ => true

def haveNamedTags : List Node → Bool
  | [] => true
  | pattern :: patterns => hasNamedTags pattern && haveNamedTags patterns

def entriesHaveNamedTags : List (Node × Node) → Bool
  | [] => true
  | (_, pattern) :: rest => hasNamedTags pattern && entriesHaveNamedTags rest

end

section Literals

variable (P : Platform) (lib : RuntimeLibrary) (env : NameTable Operand)

theorem evaluate_atomValue (name : String) :
    evaluate P lib env (atomValue name) = some (.value (.ofAtom name)) := by
  unfold atomValue Value.ofAtom
  split_ifs
  · exact evaluate_literal P lib env _
  · exact evaluate_literal P lib env _
  · exact evaluate_literal P lib env _
  · exact evaluate_atomSymbol P lib env name

/-- The constant of a literal is what the literal stands for. -/
theorem evaluate_constant {n : Node} {e : Expr} (h : constant? n = some e) :
    ∃ w, literalValue? n = some w ∧ evaluate P lib env e = some (.value w) := by
  unfold constant? at h
  split at h
  case h_6 name =>
    cases h
    exact ⟨_, rfl, evaluate_atomValue P lib env name⟩
  case h_7 n =>
    obtain ⟨m, hm, rfl⟩ := Option.map_eq_some_iff.mp h
    refine ⟨_, rfl, (evaluate_literal P lib env _).trans ?_⟩
    rw [Value.ofLiteral, Matching.toInt_of_negated hm]
  case h_9 segments =>
    obtain ⟨text, htext, rfl⟩ := Option.map_eq_some_iff.mp h
    exact ⟨.text text, by rw [literalValue?, htext]; rfl, evaluate_literal P lib env _⟩
  case h_10 => cases h
  all_goals
    cases h
    exact ⟨_, rfl, evaluate_literal P lib env _⟩

end Literals

section Passing

variable {P : Platform} {lib : RuntimeLibrary} {env : NameTable Operand} {plan plan' : Plan}

/-- All tests of the plan hold. -/
def Passes (P : Platform) (lib : RuntimeLibrary) (env : NameTable Operand) (plan : Plan) : Prop :=
  ∀ t ∈ plan.tests, Holds P lib env t

theorem passes_require {test : Expr} :
    Passes P lib env (plan.require test) ↔ Passes P lib env plan ∧ Holds P lib env test := by
  simp only [Passes, Plan.require, List.forall_mem_append, List.forall_mem_singleton]

theorem passes_requirePair {test next : Expr} :
    Passes P lib env (plan.requireAll [test, next]) ↔
      Passes P lib env plan ∧ Holds P lib env test ∧ Holds P lib env next := by
  simp only [Passes, Plan.requireAll, List.forall_mem_append, List.forall_mem_cons,
    List.not_mem_nil, false_implies, implies_true, and_true]

/-- Tests are only added, so that those from before hold too. -/
theorem passes_of_compiled {surroundings : Surroundings} {job : Job}
    (h : Compiled surroundings job plan plan') (hpasses : Passes P lib env plan') :
    Passes P lib env plan := by
  obtain ⟨⟨ts, hts⟩, -⟩ := compiled_adds h
  rw [Passes, hts] at hpasses
  exact (List.forall_mem_append.mp hpasses).1

end Passing

section Missing

variable {P : Platform} {lib : RuntimeLibrary} {s : State} {env : NameTable Operand}
  {plan plan' : Plan}

/-- No identifier holds `undefined`. -/
def HoldsValues (env : NameTable Operand) : Prop := ∀ name, env.get? name ≠ some .undefined

theorem ne_undefined_of_mark {name : String} (h : '$' ∈ name.toList) : name ≠ "undefined" := by
  rintro rfl
  revert h
  decide

theorem escape_ne_undefined (name : String) : Identifier.escape name ≠ "undefined" := by
  unfold Identifier.escape
  dsimp only
  split
  next => exact ne_undefined_of_mark (by simp)
  next hfree =>
    intro h
    rw [h] at hfree
    revert hfree
    decide

/-- No variable is spelled as the global is. -/
theorem resolve_ne_undefined (s : State) (name : String) : s.resolve name ≠ "undefined" := by
  unfold State.resolve Identifier.versioned
  split
  next =>
    unfold State.variableBase
    dsimp only
    split
    next => exact ne_undefined_of_mark (by simp [Identifier.besideFunction])
    next => exact escape_ne_undefined name
  next => exact ne_undefined_of_mark (by simp)

theorem HoldsValues.pinned (h : HoldsValues env) (s : State) (name : String) :
    evaluate P lib env (.ident (s.resolve name)) ≠ some .undefined := by
  rw [evaluate, if_neg (resolve_ne_undefined s name), Option.or_none]
  exact h _

/-- A comparison that holds compares operands. -/
theorem operand_of_holds_equals {a b : Expr} {x : Operand} (ha : evaluate P lib env a = some x)
    (h : Holds P lib env (lib.equals a b)) :
    ∃ y, evaluate P lib env b = some y ∧ P.equalOperands x y = true := by
  cases hb : evaluate P lib env b with
  | none =>
    simp [Holds, RuntimeLibrary.equals, RuntimeLibrary.call, RuntimeLibrary.path,
      RuntimeLibrary.root, Expr.property, Expr.string, Matching.global?, ha, hb] at h
  | some y => exact ⟨y, rfl, (holds_iff (evaluate_equals ha hb)).mp h⟩

theorem not_holds_equals_undefined {a b : Expr} (ha : evaluate P lib env a = some .undefined)
    (hb : evaluate P lib env b ≠ some .undefined) : ¬ Holds P lib env (lib.equals a b) := by
  intro h
  obtain ⟨y, hy, hequal⟩ := operand_of_holds_equals ha h
  cases y with
  | value w => cases hequal
  | undefined => exact hb hy

theorem not_holds_eq_undefined {a b : Expr} {w : Value}
    (ha : evaluate P lib env a = some .undefined) (hb : evaluate P lib env b = some (.value w)) :
    ¬ Holds P lib env (a.eq b) := by
  rw [holds_iff (evaluate_eq ha hb)]
  simp [Platform.same]

/-- A form that is no variable and no pair of patterns tests its subject. -/
theorem not_passes_of_undefined (hpins : HoldsValues env) {n : Node} {subject : Expr}
    (h : Compiled ⟨lib, s⟩ (.pattern n subject) plan plan') (hvar : ∀ name, n ≠ .var name)
    (hbind : ∀ pattern other, n ≠ .bind pattern other)
    (hsubject : evaluate P lib env subject = some .undefined) : ¬ Passes P lib env plan' := by
  intro hpasses
  have hnoTuple : ¬ Holds P lib env (lib.isTuple subject) := by
    rw [holds_iff (evaluate_isTuple hsubject)]
    exact Bool.false_ne_true
  have hnoArray : ¬ Holds P lib env (isArray subject) := by
    rw [holds_iff (evaluate_isArray hsubject)]
    exact Bool.false_ne_true
  have hnoMap : ¬ Holds P lib env (lib.isMap subject) := by
    rw [holds_iff (evaluate_isMap hsubject)]
    exact Bool.false_ne_true
  cases h with
  | var => exact hvar _ rfl
  | both => exact hbind _ _ rfl
  | float | negatedFloat =>
    refine not_holds_equals_undefined hsubject ?_ (passes_require.mp hpasses).2
    simp [evaluate_float]
  | pin =>
    exact not_holds_equals_undefined hsubject (hpins.pinned s _) (passes_require.mp hpasses).2
  | moduleName =>
    exact not_holds_eq_undefined hsubject (evaluate_atomSymbol P lib env _)
      (passes_require.mp hpasses).2
  | constant _ literal =>
    obtain ⟨w, -, hw⟩ := evaluate_constant P lib env literal
    exact not_holds_eq_undefined hsubject hw (passes_require.mp hpasses).2
  | tuple parts => exact hnoTuple (passes_requirePair.mp (passes_of_compiled parts hpasses)).2.1
  | list parts => exact hnoArray (passes_requirePair.mp (passes_of_compiled parts hpasses)).2.1
  | cons front rest =>
    have hfront := passes_of_compiled front (passes_of_compiled rest hpasses)
    exact hnoArray (passes_requirePair.mp hfront).2.1
  | map parts => exact hnoMap (passes_require.mp (passes_of_compiled parts hpasses)).2
  | struct name parts =>
    have hname := passes_of_compiled name (passes_of_compiled parts hpasses)
    exact hnoMap (passes_require.mp hname).2
  | start parts =>
    have htest := (passes_requirePair.mp (passes_of_compiled parts hpasses)).2.1
    rw [holds_iff (evaluate_isString hsubject)] at htest
    simp [Operand.typeName] at htest

/-- What is missing matches patterns of variables only. -/
theorem openNames_of_undefined (hpins : HoldsValues env) {n : Node} {subject : Expr}
    (h : Compiled ⟨lib, s⟩ (.pattern n subject) plan plan')
    (hsubject : evaluate P lib env subject = some .undefined) (hpasses : Passes P lib env plan') :
    ∃ names, openNames n = some names := by
  fun_induction openNames n generalizing subject plan plan' with
  | case1 name => exact ⟨_, rfl⟩
  | case2 pattern other ihPattern ihOther =>
    cases h with
    | constant _ literal => cases literal
    | both first second =>
      obtain ⟨names, hnames⟩ := ihPattern first hsubject (passes_of_compiled second hpasses)
      obtain ⟨more, hmore⟩ := ihOther second hsubject hpasses
      exact ⟨_, openNames_bind.mpr ⟨names, more, hnames, hmore, rfl⟩⟩
  | case3 n hvar hbind => exact (not_passes_of_undefined hpins h hvar hbind hsubject hpasses).elim

end Missing

section Shapes

variable {P : Platform} {lib : RuntimeLibrary} {env : NameTable Operand} {subject : Expr}
  {v : Value}

theorem object_of_holds (hv : evaluate P lib env subject = some (.value v))
    (hmap : Holds P lib env (lib.isMap subject)) : ∃ properties, v = .object properties := by
  rw [holds_iff (evaluate_isMap hv)] at hmap
  cases v with
  | object properties => exact ⟨properties, rfl⟩
  | _ => cases hmap

theorem natural_of_holds {n m : Nat} (hn : n < 2 ^ 63)
    (hv : evaluate P lib env subject = some (.value (.integer m)))
    (h : Holds P lib env (.eq subject (.natural n))) : n = m := by
  rw [holds_iff (evaluate_eq hv (evaluate_natural hn))] at h
  have heq : (m : Int) = n := eq_of_beq h
  omega

theorem tuple_of_holds {n : Nat} (hn : n < 2 ^ 63)
    (hv : evaluate P lib env subject = some (.value v))
    (htuple : Holds P lib env (lib.isTuple subject))
    (hsize : Holds P lib env (.eq (subject.property "size") (.natural n))) :
    ∃ vs, v = .tuple vs ∧ n = vs.length := by
  rw [holds_iff (evaluate_isTuple hv)] at htuple
  cases v with
  | tuple vs => exact ⟨vs, rfl, natural_of_holds hn (evaluate_property hv "size") hsize⟩
  | _ => cases htuple

theorem array_of_holds {n : Nat} (hn : n < 2 ^ 63)
    (hv : evaluate P lib env subject = some (.value v))
    (harray : Holds P lib env (isArray subject))
    (hsize : Holds P lib env (.eq (subject.property "length") (.natural n))) :
    ∃ vs, v = .array vs ∧ n = vs.length := by
  rw [holds_iff (evaluate_isArray hv)] at harray
  cases v with
  | array vs => exact ⟨vs, rfl, natural_of_holds hn (evaluate_property hv "length") hsize⟩
  | _ => cases harray

theorem longArray_of_holds {n : Nat} (hn : n < 2 ^ 63)
    (hv : evaluate P lib env subject = some (.value v))
    (harray : Holds P lib env (isArray subject))
    (hsize : Holds P lib env (.binary (subject.property "length") .ge (.natural n))) :
    ∃ vs, v = .array vs ∧ n ≤ vs.length := by
  rw [holds_iff (evaluate_isArray hv)] at harray
  cases v with
  | array vs =>
    have hlength := evaluate_property hv "length"
    simp [Holds, hlength, propertyOf, evaluate_natural hn, atLeast, Operand.ofBool] at hsize
    exact ⟨vs, rfl, hsize⟩
  | _ => cases harray

theorem text_of_holds {start : String} (hv : evaluate P lib env subject = some (.value v))
    (htext : Holds P lib env (.eq (.unary .typeOf subject) (.string "string")))
    (hstart : Holds P lib env (subject.method "startsWith" [.string start])) :
    ∃ rest, v = .text (start ++ rest) := by
  rw [holds_iff (evaluate_isString hv)] at htext
  cases v with
  | text text =>
    have hmethod := evaluate_method "startsWith" (by simp) hv (evaluate_string P lib env start)
    rw [holds_iff hmethod, Matching.beginsWith_iff] at hstart
    obtain ⟨rest, rfl⟩ := hstart
    exact ⟨rest, rfl⟩
  | _ => simp [Operand.typeName] at htext

end Shapes

section Soundness

variable {P : Platform} {lib : RuntimeLibrary} {s : State} {env : NameTable Operand}
  {plan middle plan' : Plan} {condition part : Assignment → Prop}

/-- The sense of patterns that are compiled in a state, when the identifiers hold the operands. -/
def senseOf (P : Platform) (lib : RuntimeLibrary) (s : State) (env : NameTable Operand) :
    Sense where
  platform := P
  pinned name := (evaluate P lib env (.ident (s.resolve name))).bind Operand.value?
  fullName := s.resolveModule

/-- The accessors give the values that are assigned to the names. -/
def Bound (P : Platform) (lib : RuntimeLibrary) (env : NameTable Operand) (θ : Assignment)
    (bindings : List (String × Expr)) : Prop :=
  ∀ b ∈ bindings, evaluate P lib env b.2 = some (.value (θ b.1))

/-- The accessors give values. -/
def Valued (P : Platform) (lib : RuntimeLibrary) (env : NameTable Operand)
    (bindings : List (String × Expr)) : Prop :=
  ∀ b ∈ bindings, ∃ w, evaluate P lib env b.2 = some (.value w)

theorem exists_bound {bindings : List (String × Expr)} (hdistinct : (bindings.map (·.1)).Nodup)
    (h : Valued P lib env bindings) : ∃ θ, Bound P lib env θ bindings := by
  refine ⟨fun name => ((bindings.lookup name).bind fun e =>
    (evaluate P lib env e).bind Operand.value?).getD .null, fun b hb => ?_⟩
  obtain ⟨w, hw⟩ := h b hb
  have hfound := lookup_of_nodup hdistinct hb
  simp [hfound, hw, Operand.value?]

/-- What a plan has come to: the new bindings give values, and an assignment that agrees with all
bindings meets the condition. -/
structure Settled (P : Platform) (lib : RuntimeLibrary) (env : NameTable Operand)
    (plan plan' : Plan) (condition : Assignment → Prop) : Prop where
  valued : Valued P lib env plan.bindings → Valued P lib env plan'.bindings
  meets : ∀ θ, Bound P lib env θ plan'.bindings → condition θ

theorem compileVariable_keeps (surroundings : Surroundings) (name : String) (subject : Expr)
    (plan : Plan) :
    plan.bindings <+: (compileVariable surroundings name subject plan).bindings := by
  unfold compileVariable
  split
  · exact List.prefix_rfl
  · split
    · exact List.prefix_rfl
    · exact List.prefix_append _ _

/-- Bindings are only added. -/
theorem compiled_keeps {surroundings : Surroundings} {job : Job}
    (h : Compiled surroundings job plan plan') : plan.bindings <+: plan'.bindings := by
  induction h with
  | float | negatedFloat | moduleName | pin | constant | noItems | noEntries =>
    exact List.prefix_rfl
  | var => exact compileVariable_keeps _ _ _ _
  | tuple _ ih | list _ ih | map _ ih | start _ ih => exact ih
  | cons _ _ first second | struct _ _ first second | both _ _ first second
  | item _ _ first second | entry _ _ _ first second => exact first.trans second

theorem Settled.unchanged (hbindings : plan'.bindings = plan.bindings) (h : ∀ θ, condition θ) :
    Settled P lib env plan plan' condition where
  valued := by rw [hbindings]; exact id
  meets θ _ := h θ

theorem Settled.imp (h : Settled P lib env plan plan' condition)
    (himp : ∀ θ, condition θ → part θ) : Settled P lib env plan plan' part where
  valued := h.valued
  meets θ hθ := himp θ (h.meets θ hθ)

theorem Settled.trans (h : Settled P lib env plan middle condition)
    (h' : Settled P lib env middle plan' part) (hkeeps : middle.bindings <+: plan'.bindings) :
    Settled P lib env plan plan' (fun θ => condition θ ∧ part θ) where
  valued := h'.valued ∘ h.valued
  meets θ hθ := ⟨h.meets θ fun b hb => hθ b (hkeeps.subset hb), h'.meets θ hθ⟩

/-- Tests bind nothing. -/
theorem Settled.behind {tests : List Expr}
    (h : Settled P lib env (plan.requireAll tests) plan' condition) :
    Settled P lib env plan plan' condition :=
  ⟨h.valued, h.meets⟩

/-- The condition that a job adds, its subjects having values. -/
inductive Asks (S : Sense) (lib : RuntimeLibrary) (env : NameTable Operand) :
    Job → (Assignment → Prop) → Prop
  | pattern {pattern : Node} {subject : Expr} {v : Value} (named : hasNamedTags pattern = true)
      (value : evaluate S.platform lib env subject = some (.value v)) :
      Asks S lib env (.pattern pattern subject) (fun θ => S.Matches θ pattern v)
  | items {slot : Nat → Expr} {i : Nat} {patterns : List Node} {vs : List Value}
      (named : haveNamedTags patterns = true) (lengths : patterns.length = vs.length)
      (values : ∀ j v, vs[j]? = some v →
        evaluate S.platform lib env (slot (i + j)) = some (.value v)) :
      Asks S lib env (.items slot i patterns) (fun θ => S.MatchesEach θ patterns vs)
  | entries {subject : Expr} {entries : List (Node × Node)} {properties : List (Name × Value)}
      (named : entriesHaveNamedTags entries = true)
      (value : evaluate S.platform lib env subject = some (.value (.object properties))) :
      Asks S lib env (.entries subject entries)
        (fun θ => S.MatchesEntries θ entries (.object properties))

theorem eq_symbol_of_same {v : Value} {name : String} (h : P.sameValue v (.symbol name) = true) :
    v = .symbol name := by
  cases v with
  | symbol other => rw [eq_of_beq h]
  | _ => cases h

theorem matches_of_constant {S : Sense} {θ : Assignment} {n : Node} {e : Expr} {v : Value}
    (hexact : isExact n = true) (h : constant? n = some e) :
    S.Matches θ n v ↔ ∃ w, literalValue? n = some w ∧ S.platform.sameValue v w = true := by
  unfold constant? at h
  split at h
  case h_2 | h_8 => cases hexact
  case h_10 => cases h
  all_goals
    rw [Sense.Matches]
    all_goals simp

theorem compileVariable_settles (s : State) (name : String) {subject : Expr} {v : Value}
    (hv : evaluate P lib env subject = some (.value v))
    (hpasses : Passes P lib env (compileVariable ⟨lib, s⟩ name subject plan)) :
    Settled P lib env plan (compileVariable ⟨lib, s⟩ name subject plan)
      (fun θ => name = "_" ∨ P.equals v (θ name) = true) := by
  unfold compileVariable at hpasses ⊢
  split
  next hname => exact .unchanged rfl fun θ => .inl hname
  next hname =>
    rw [if_neg hname] at hpasses
    split
    next first hfirst =>
      rw [hfirst] at hpasses
      refine ⟨id, fun θ hθ => .inr ?_⟩
      obtain ⟨before, behind, hsplit, -⟩ := List.lookup_eq_some_iff.mp hfirst
      have hθfirst := hθ (name, first) (by simp [Plan.require, hsplit])
      exact (holds_iff (evaluate_equals hv hθfirst)).mp (passes_require.mp hpasses).2
    next =>
      refine ⟨fun hvalued => ?_, fun θ hθ => .inr ?_⟩
      · exact List.forall_mem_append.mpr ⟨hvalued, List.forall_mem_singleton.mpr ⟨v, hv⟩⟩
      · have hnew := hθ (name, subject) (by simp [Plan.bind])
        rw [hv] at hnew
        cases hnew
        exact P.equals_self _

theorem keyName?_of_constant {S : Sense} {n : Node} {e : Expr} (h : constant? n = some e) :
    S.keyName? n = (literalValue? n).map S.platform.nameOf := by
  unfold constant? at h
  split at h
  case h_10 => cases h
  all_goals
    rw [Sense.keyName?]
    all_goals simp

/-- A key stands for the property that its value names. -/
theorem keyName?_of_key {key : Node} {found : Expr} {u : Value}
    (h : Pattern.key ⟨lib, s⟩ key = .ok found) (hu : evaluate P lib env found = some (.value u)) :
    (senseOf P lib s env).keyName? key = some (P.nameOf u) := by
  unfold Pattern.key at h
  split at h
  next value hconstant =>
    cases h
    obtain ⟨w, hw, hvalue⟩ := evaluate_constant P lib env hconstant
    rw [hvalue] at hu
    cases hu
    rw [keyName?_of_constant hconstant, hw]
    rfl
  next =>
    split at h
    next segments _ =>
      cases h
      have hsymbol : evaluate P lib env (Surroundings.moduleValue ⟨lib, s⟩ segments) =
          some (.value ((senseOf P lib s env).moduleSymbol segments)) :=
        evaluate_atomSymbol P lib env _
      rw [hsymbol] at hu
      cases hu
      rw [Sense.keyName?]
      rfl
    next name _ =>
      cases h
      have hpinned : (senseOf P lib s env).pinned name = some u := by
        show (evaluate P lib env (.ident (s.resolve name))).bind Operand.value? = some u
        rw [Surroundings.pinned] at hu
        rw [hu]
        rfl
      rw [Sense.keyName?, hpinned]
      rfl
    next => cases h
    next => cases h

/-- An entry that is there is read under the property that its key stands for. -/
theorem entry_of_holds {key : Node} {found subject : Expr} {properties : List (Name × Value)}
    (hkey : Pattern.key ⟨lib, s⟩ key = .ok found)
    (hv : evaluate P lib env subject = some (.value (.object properties)))
    (hin : Holds P lib env (.binary found .in_ subject)) :
    ∃ k w, (senseOf P lib s env).keyName? key = some k ∧
      (Value.object properties).get? k = some w ∧
      evaluate P lib env (subject.index found) = some (.value w) := by
  obtain ⟨u, hu⟩ : ∃ u, evaluate P lib env found = some (.value u) := by
    cases hfound : evaluate P lib env found with
    | none => simp [Holds, hfound] at hin
    | some x =>
      cases x with
      | value u => exact ⟨u, rfl⟩
      | undefined => simp [Holds, hfound, hv, Platform.has] at hin
  rw [Holds, evaluate_in hu hv, Platform.has] at hin
  cases hget : (Value.object properties).get? (P.nameOf u) with
  | none => simp [hget, Operand.ofBool] at hin
  | some w =>
    refine ⟨P.nameOf u, w, keyName?_of_key hkey hu, hget, ?_⟩
    rw [evaluate_index hv hu, Platform.entryOf, hget]
    rfl

/-- The entry of a tag, which is read without asking whether it is there. -/
theorem evaluate_tag {subject : Expr} {properties : List (Name × Value)}
    (hv : evaluate P lib env subject = some (.value (.object properties))) :
    evaluate P lib env (subject.index (atomSymbol "__struct__")) =
      some (((Value.object properties).get? tagName).elim .undefined .value) :=
  evaluate_index hv (evaluate_atomSymbol P lib env _)

/-- A map that passes has the tag, if the tag is not made of variables alone. -/
theorem tagged_of_passes (hpins : HoldsValues env) {tag : Node} {subject : Expr}
    (h : Compiled ⟨lib, s⟩ (.pattern tag (subject.index (atomSymbol "__struct__"))) plan plan')
    {properties : List (Name × Value)}
    (hv : evaluate P lib env subject = some (.value (.object properties)))
    (hpasses : Passes P lib env plan') (hnamed : openNames tag = none) :
    ∃ w, (Value.object properties).get? tagName = some w ∧
      evaluate P lib env (subject.index (atomSymbol "__struct__")) = some (.value w) := by
  have hentry := evaluate_tag hv
  cases hget : (Value.object properties).get? tagName with
  | some w =>
    rw [hget] at hentry
    exact ⟨w, rfl, hentry⟩
  | none =>
    rw [hget] at hentry
    obtain ⟨names, hnames⟩ := openNames_of_undefined hpins h hentry hpasses
    rw [hnamed] at hnames
    cases hnames

/-- Slots of an array give its items, as far as it goes. -/
theorem evaluate_item {subject : Expr} {vs : List Value} {n j : Nat} {v : Value} (hn : n < 2 ^ 63)
    (hv : evaluate P lib env subject = some (.value (.array vs))) (hj : (vs.take n)[j]? = some v) :
    evaluate P lib env (subject.index (.natural (0 + j))) = some (.value v) := by
  have hlt := (List.getElem?_eq_some_iff.mp hj).1
  rw [List.length_take] at hlt
  rw [List.getElem?_take_of_lt (by omega)] at hj
  rw [Nat.zero_add, evaluate_index hv (evaluate_natural (by omega))]
  simp [Platform.entryOf, hj]

/-- Where the tests hold, what a job asks is met. -/
theorem compiled_settles (hpins : HoldsValues env) {job : Job}
    (h : Compiled ⟨lib, s⟩ job plan plan') (hpasses : Passes P lib env plan')
    (hask : Asks (senseOf P lib s env) lib env job part) : Settled P lib env plan plan' part := by
  induction h generalizing part with
  | @float x =>
    cases hask with
    | pattern _ hv =>
      refine .unchanged rfl fun θ => ?_
      rw [Sense.Matches]
      exact (holds_iff (evaluate_equals hv (evaluate_float P lib env x))).mp
        (passes_require.mp hpasses).2
  | @negatedFloat x =>
    cases hask with
    | pattern _ hv =>
      refine .unchanged rfl fun θ => ?_
      rw [Sense.Matches]
      exact (holds_iff (evaluate_equals hv (evaluate_float P lib env x.neg))).mp
        (passes_require.mp hpasses).2
  | @moduleName segments =>
    cases hask with
    | pattern _ hv =>
      refine .unchanged rfl fun θ => ?_
      rw [Sense.Matches]
      exact eq_symbol_of_same ((holds_iff (evaluate_eq hv (evaluate_atomSymbol P lib env _))).mp
        (passes_require.mp hpasses).2)
  | var =>
    cases hask with
    | pattern _ hv =>
      refine (compileVariable_settles s _ hv hpasses).imp fun θ hθ => ?_
      rw [Sense.Matches]
      exact hθ
  | pin =>
    cases hask with
    | pattern _ hv =>
      obtain ⟨y, hy, hequal⟩ := operand_of_holds_equals hv (passes_require.mp hpasses).2
      cases y with
      | undefined => cases hequal
      | value w =>
        refine .unchanged rfl fun θ => ?_
        rw [Sense.Matches]
        exact ⟨w, Option.bind_eq_some_iff.mpr ⟨_, hy, rfl⟩, hequal⟩
  | constant exact literal =>
    cases hask with
    | pattern _ hv =>
      obtain ⟨w, hw, hvalue⟩ := evaluate_constant P lib env literal
      refine .unchanged rfl fun θ => (matches_of_constant exact literal).mpr ⟨w, hw, ?_⟩
      exact (holds_iff (evaluate_eq hv hvalue)).mp (passes_require.mp hpasses).2
  | tuple parts ih =>
    cases hask with
    | pattern named hv =>
      rw [hasNamedTags, Bool.and_eq_true, decide_eq_true_iff] at named
      obtain ⟨-, htuple, hsize⟩ := passes_requirePair.mp (passes_of_compiled parts hpasses)
      obtain ⟨vs, rfl, hlength⟩ := tuple_of_holds named.1 hv htuple hsize
      refine ((ih hpasses (.items named.2 hlength fun j v hj => ?_)).behind).imp fun θ hθ => ?_
      · have hj' := (List.getElem?_eq_some_iff.mp hj).1
        have hget := evaluate_method "get" (by simp) hv (evaluate_natural (n := j) (by omega))
        rw [Nat.zero_add]
        simpa [methodOf, hj] using hget
      · rw [Sense.Matches]
        exact ⟨vs, rfl, hθ⟩
  | list parts ih =>
    cases hask with
    | pattern named hv =>
      rw [hasNamedTags, Bool.and_eq_true, decide_eq_true_iff] at named
      obtain ⟨-, harray, hsize⟩ := passes_requirePair.mp (passes_of_compiled parts hpasses)
      obtain ⟨vs, rfl, hlength⟩ := array_of_holds named.1 hv harray hsize
      refine ((ih hpasses (.items named.2 hlength fun j v hj =>
        evaluate_item named.1 hv ?_)).behind).imp fun θ hθ => ?_
      · rw [List.take_of_length_le hlength.ge, hj]
      · rw [Sense.Matches]
        exact ⟨vs, rfl, hθ⟩
  | cons front rest ihFront ihRest =>
    cases hask with
    | pattern named hv =>
      rw [hasNamedTags, Bool.and_eq_true, Bool.and_eq_true, decide_eq_true_iff] at named
      obtain ⟨⟨hn, hhead⟩, htail⟩ := named
      have hpassesFront := passes_of_compiled rest hpasses
      obtain ⟨-, harray, hsize⟩ := passes_requirePair.mp (passes_of_compiled front hpassesFront)
      obtain ⟨vs, rfl, hlength⟩ := longArray_of_holds hn hv harray hsize
      have hitems := ihFront hpassesFront (.items hhead (by simp [hlength]) fun j v hj =>
        evaluate_item hn hv hj)
      have hslice := evaluate_method "slice" (by simp) hv (evaluate_natural hn)
      have hrest := ihRest hpasses (.pattern htail (by simpa [methodOf] using hslice))
      refine (hitems.trans hrest (compiled_keeps rest)).behind.imp fun θ hθ => ?_
      rw [Sense.Matches]
      exact ⟨_, _, by rw [List.take_append_drop], hθ.1, hθ.2⟩
  | map parts ih =>
    cases hask with
    | pattern named hv =>
      rw [hasNamedTags] at named
      obtain ⟨-, hmap⟩ := passes_require.mp (passes_of_compiled parts hpasses)
      obtain ⟨properties, rfl⟩ := object_of_holds hv hmap
      refine (ih hpasses (.entries named hv)).behind.imp fun θ hθ => ?_
      rw [Sense.Matches]
      exact ⟨rfl, hθ⟩
  | struct name parts ihName ihParts =>
    cases hask with
    | pattern named hv =>
      rw [hasNamedTags, Bool.and_eq_true, Bool.and_eq_true, Option.isNone_iff_eq_none] at named
      obtain ⟨⟨hopen, htag⟩, hfields⟩ := named
      have hpassesName := passes_of_compiled parts hpasses
      obtain ⟨-, hmap⟩ := passes_require.mp (passes_of_compiled name hpassesName)
      obtain ⟨properties, rfl⟩ := object_of_holds hv hmap
      obtain ⟨w, hget, hentry⟩ := tagged_of_passes hpins name hv hpassesName hopen
      have hmatches := ihName hpassesName (.pattern htag hentry)
      have hentries := ihParts hpasses (.entries hfields hv)
      refine (hmatches.trans hentries (compiled_keeps parts)).behind.imp fun θ hθ => ?_
      rw [Sense.Matches]
      exact ⟨⟨w, hget, hθ.1⟩, hθ.2⟩
  | both first second ihFirst ihSecond =>
    cases hask with
    | pattern named hv =>
      rw [hasNamedTags, Bool.and_eq_true] at named
      have hfirst := ihFirst (passes_of_compiled second hpasses) (.pattern named.1 hv)
      have hsecond := ihSecond hpasses (.pattern named.2 hv)
      refine (hfirst.trans hsecond (compiled_keeps second)).imp fun θ hθ => ?_
      rw [Sense.Matches]
      exact hθ
  | start parts ih =>
    cases hask with
    | pattern named hv =>
      rw [hasNamedTags, Bool.and_eq_true, decide_eq_true_iff] at named
      obtain ⟨-, htext, hstart⟩ := passes_requirePair.mp (passes_of_compiled parts hpasses)
      obtain ⟨rest, rfl⟩ := text_of_holds hv htext hstart
      have hslice := evaluate_method "slice" (by simp) hv (evaluate_natural named.1)
      have hrest := ih hpasses (.pattern named.2
        (by simpa [methodOf, Matching.dropUnits_append] using hslice))
      refine hrest.behind.imp fun θ hθ => ?_
      rw [Sense.Matches]
      exact ⟨rest, rfl, hθ⟩
  | noItems =>
    cases hask with
    | items _ lengths _ =>
      obtain rfl := List.length_eq_zero_iff.mp lengths.symm
      exact .unchanged rfl fun θ => by rw [Sense.MatchesEach]; trivial
  | item head tail ihHead ihTail =>
    cases hask with
    | @items _ _ _ vs named lengths values =>
      rw [haveNamedTags, Bool.and_eq_true] at named
      cases vs with
      | nil => cases lengths
      | cons v vs =>
        have hhead := ihHead (passes_of_compiled tail hpasses)
          (.pattern named.1 (values 0 v rfl))
        have htail := ihTail hpasses (.items named.2 (Nat.succ.inj lengths) fun j w hj => by
          have hnext := values (j + 1) w (by simpa using hj)
          rwa [Nat.add_comm j, ← Nat.add_assoc] at hnext)
        refine (hhead.trans htail (compiled_keeps tail)).imp fun θ hθ => ?_
        rw [Sense.MatchesEach]
        exact hθ
  | noEntries =>
    cases hask with
    | entries => exact .unchanged rfl fun θ => by rw [Sense.MatchesEntries]; trivial
  | entry under head tail ihHead ihTail =>
    cases hask with
    | entries named hv =>
      rw [entriesHaveNamedTags, Bool.and_eq_true] at named
      have hpassesHead := passes_of_compiled tail hpasses
      obtain ⟨-, hin⟩ := passes_require.mp (passes_of_compiled head hpassesHead)
      obtain ⟨k, w, hk, hget, hvalue⟩ := entry_of_holds under hv hin
      have hhead := ihHead hpassesHead (.pattern named.1 hvalue)
      have htail := ihTail hpasses (.entries named.2 hv)
      refine (hhead.trans htail (compiled_keeps tail)).behind.imp fun θ hθ => ?_
      rw [Sense.MatchesEntries]
      exact ⟨⟨k, w, hk, hget, hθ.1⟩, hθ.2⟩

end Soundness

section Structs

variable {P : Platform} {lib : RuntimeLibrary} {s : State} {env : NameTable Operand} {tag : Node}
  {fields : List (Node × Node)} {subject : Expr} {middle plan : Plan} {v : Value}

/-- The bindings of a compiled pattern have distinct names. -/
theorem nodup_of_compiled {n : Node} {surroundings : Surroundings} {tests : List Expr}
    (h : Compiled surroundings (.pattern n subject) ⟨tests, []⟩ plan) :
    (plan.bindings.map (·.1)).Nodup := by
  rw [(compiled_adds h).2]
  exact nodup_withNames List.nodup_nil _

theorem exists_matches {n : Node} {tests : List Expr} (hpins : HoldsValues env)
    (h : Compiled ⟨lib, s⟩ (.pattern n subject) ⟨tests, []⟩ plan) (hpasses : Passes P lib env plan)
    (hv : evaluate P lib env subject = some (.value v)) (hnamed : hasNamedTags n = true) :
    ∃ θ, (senseOf P lib s env).Matches θ n v ∧ Bound P lib env θ plan.bindings := by
  have hsettled := compiled_settles hpins h hpasses (.pattern hnamed hv)
  have hvalued := hsettled.valued (by simp [Valued])
  obtain ⟨θ, hθ⟩ := exists_bound (nodup_of_compiled h) hvalued
  exact ⟨θ, hsettled.meets θ hθ, hθ⟩

/-- A struct pattern passes maps only, and unless its tag is made of variables alone, maps with a
tag that matches. With such a tag, and no fields, it passes every map. -/
theorem struct_pattern_asks_for_tag_unless_open
    (hplan : compile ⟨lib, s⟩ (.struct tag fields none) subject {} = .ok plan)
    (hpins : HoldsValues env) (hv : evaluate P lib env subject = some (.value v)) :
    (Passes P lib env plan →
      v.isObject = true ∧
      (openNames tag = none → ∃ w, v.get? tagName = some w ∧
        (hasNamedTags tag = true → ∃ θ, (senseOf P lib s env).Matches θ tag w ∧
          ∀ b ∈ plan.bindings, b.1 ∈ boundNames tag →
            evaluate P lib env b.2 = some (.value (θ b.1))))) ∧
    (∀ names, openNames tag = some names → names.Nodup → fields = [] →
      (Passes P lib env plan ↔ v.isObject = true)) := by
  have hcompiled := (compiled_of_ok ⟨lib, s⟩).1 _ _ _ _ hplan
  have hdistinct := nodup_of_compiled hcompiled
  cases hcompiled with
  | constant _ literal => cases literal
  | @struct _ _ _ _ middle _ htag hfields =>
    refine ⟨fun hpasses => ?_, fun names hopen hnew hnone => ?_⟩
    · have hpassesTag := passes_of_compiled hfields hpasses
      obtain ⟨-, hmap⟩ := passes_require.mp (passes_of_compiled htag hpassesTag)
      obtain ⟨properties, rfl⟩ := object_of_holds hv hmap
      refine ⟨rfl, fun hnamed => ?_⟩
      obtain ⟨w, hget, hentry⟩ := tagged_of_passes hpins htag hv hpassesTag hnamed
      refine ⟨w, hget, fun hnames => ?_⟩
      obtain ⟨θ, hmatches, hbound⟩ := exists_matches hpins htag hpassesTag hentry hnames
      refine ⟨θ, hmatches, fun b hb hname => ?_⟩
      -- a variable of the tag has been bound when the fields come
      have htagNames := (compiled_adds htag).2
      obtain ⟨b', hb', heq⟩ : ∃ b' ∈ middle.bindings, b'.1 = b.1 := by
        rw [← List.mem_map, htagNames, mem_withNames]
        exact .inr hname
      have hsame := List.inj_on_of_nodup_map hdistinct ((compiled_keeps hfields).subset hb') hb heq
      exact hsame ▸ hbound b' hb'
    · subst hnone
      cases hfields
      have htests : plan.tests = [lib.isMap subject] :=
        (compiled_tests_iff htag).mpr ⟨names, hopen, hnew, by simp [Plan.require]⟩
      rw [Passes, htests, List.forall_mem_singleton, holds_iff (evaluate_isMap hv)]
      rfl

/-- The module of a user, whose name is kept. -/
def userTag : Node := .bind (.var "module") (.moduleName ["User"])

def taggedUser : Value :=
  .object [(tagName, .symbol "Elixir.User"), (.symbol "name", .text "ann")]

theorem struct_pattern_asks_for_tag_taggedUser :
    ∃ plan, compile ⟨⟨"Runtime"⟩, {}⟩ (.struct userTag [(.atom "name", .var "n")] none) (.ident "x")
        {} = .ok plan ∧
      HoldsValues [("x", .value taggedUser)] ∧
      Passes .exact ⟨"Runtime"⟩ [("x", .value taggedUser)] plan ∧
      ∃ w, taggedUser.get? tagName = some w ∧
        ∃ θ, (senseOf .exact ⟨"Runtime"⟩ {} [("x", .value taggedUser)]).Matches θ userTag w := by
  have hsubject : evaluate .exact ⟨"Runtime"⟩ [("x", .value taggedUser)] (.ident "x") =
      some (.value taggedUser) := rfl
  have hpins : HoldsValues [("x", .value taggedUser)] := by
    intro name
    simp only [NameTable.get?, List.lookup_cons]
    split <;> simp
  obtain ⟨plan, hplan⟩ : ∃ plan, compile ⟨⟨"Runtime"⟩, {}⟩
      (.struct userTag [(.atom "name", .var "n")] none) (.ident "x") {} = .ok plan := ⟨_, rfl⟩
  have hpasses : Passes .exact ⟨"Runtime"⟩ [("x", .value taggedUser)] plan := by
    cases hplan
    show ∀ t ∈ [_, _, _], Holds _ _ _ t
    simp only [List.forall_mem_cons, List.not_mem_nil, false_implies, implies_true, and_true]
    exact ⟨rfl, rfl, rfl⟩
  obtain ⟨w, hw, hmatches⟩ :=
    ((struct_pattern_asks_for_tag_unless_open hplan hpins hsubject).1 hpasses).2 rfl
  obtain ⟨θ, hθ, -⟩ := hmatches rfl
  exact ⟨plan, hplan, hpins, hpasses, w, hw, θ, hθ⟩

/-- A map without a tag passes a struct pattern with a variable for its tag. -/
theorem untagged_map_passes_open_struct_pattern :
    ∃ plan, compile ⟨⟨"Runtime"⟩, {}⟩ (.struct (.var "_") [] none) (.ident "x") {} = .ok plan ∧
      Passes .exact ⟨"Runtime"⟩ [("x", .value (.object []))] plan ∧
      (Value.object []).get? tagName = none := by
  refine ⟨_, rfl, ?_, rfl⟩
  exact List.forall_mem_singleton.mpr (evaluate_isMap (x := .value (.object [])) rfl)

end Structs

end TreeLowering.Data
