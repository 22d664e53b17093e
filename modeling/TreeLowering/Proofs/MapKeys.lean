import TreeLowering.Proofs.GroundTerms
import TreeLowering.Proofs.Naming

/-!
The keys of map literals.

The source tells integers, texts, booleans, `nil` and atoms apart; the properties of an object have
texts and symbols for names. A text names itself and an atom its symbol, while an integer or a
constant names a property by its wording, which a text may spell as well. This is the only way in
which different keys of a literal come to one name, and without it every entry is found in the
object under the name of its key.
-/
namespace TreeLowering.Data

open Source Target LowerM Lowering

/-- The scalar that a literal in the place of a key is. -/
def scalar? : Node → Option Matching.Value
  | .integer n => some (.integer n.toInt)
  | .string text => some (.string text)
  | .boolean b => some (.boolean b)
  | .nil => some .nil
  | .atom name => some (.ofAtom name)
  | _ => none

/-- The text that stands for an integer or a constant. -/
def wording? : Matching.Value → Option String
  | .integer n => some (toString n)
  | .boolean b => some (toString b)
  | .nil => some "null"
  | _ => none

/-- The property that a scalar names. -/
def scalarName? : Matching.Value → Option Name
  | .string text => some (.text text)
  | .atom name => some (.symbol name)
  | k => (wording? k).map .text

/-- The platform names properties by the wordings of integers and constants. -/
structure Platform.SpellsOut (P : Platform) : Prop where
  integer : ∀ n, P.nameText (.integer n) = toString n
  boolean : ∀ b, P.nameText (.boolean b) = toString b
  null : P.nameText .null = "null"

/-- The name under which a property is put. -/
def propertyName? (P : Platform) (lib : RuntimeLibrary) (env : NameTable Operand) (p : Property) :
    Option Name := do
  return P.nameOf (← (← evaluate P lib env (keyExpression p.key)).value?)

section Wordings

variable {j k : Matching.Value} {text : String}

theorem toList_toString_negSucc (m : Nat) :
    (toString (Int.negSucc m)).toList = '-' :: (toString (m + 1)).toList := by
  show ("-" ++ toString (m + 1)).toList = _
  simp

theorem mem_toString_integer {n : Int} {c : Char} (h : c ∈ (toString n).toList) :
    c = '-' ∨ c.isDigit = true := by
  cases n with
  | ofNat m => exact .inr (Identifier.isDigit_of_mem_toString (n := m) h)
  | negSucc m =>
    rw [toList_toString_negSucc] at h
    exact (List.mem_cons.mp h).imp_right Identifier.isDigit_of_mem_toString

theorem toString_ofNat_ne_negSucc (m n : Nat) :
    toString (Int.ofNat m) ≠ toString (Int.negSucc n) := by
  intro h
  have hsign : '-' ∈ (toString m).toList := by
    show '-' ∈ (toString (Int.ofNat m)).toList
    rw [h, toList_toString_negSucc]
    exact List.mem_cons_self
  exact absurd (Identifier.isDigit_of_mem_toString hsign) (by decide)

theorem toString_integer_inj {m n : Int} (h : toString m = toString n) : m = n := by
  cases m with
  | ofNat m =>
    cases n with
    | ofNat n => rw [Identifier.toString_inj (m := m) (n := n) (congrArg String.toList h)]
    | negSucc n => exact absurd h (toString_ofNat_ne_negSucc m n)
  | negSucc m =>
    cases n with
    | ofNat n => exact absurd h.symm (toString_ofNat_ne_negSucc n m)
    | negSucc n =>
      have hlist := congrArg String.toList h
      rw [toList_toString_negSucc, toList_toString_negSucc] at hlist
      rw [Nat.succ.inj (Identifier.toString_inj (List.cons.inj hlist).2)]

/-- A text with a letter in it is not the text of an integer. -/
theorem toString_integer_ne {c : Char} (hc : c ∈ text.toList) (hsign : c ≠ '-')
    (hdigit : c.isDigit = false) (n : Int) : toString n ≠ text := by
  rintro rfl
  rcases mem_toString_integer hc with rfl | hc
  · exact hsign rfl
  · rw [hdigit] at hc
    cases hc

theorem toString_integer_ne_bool (n : Int) (b : Bool) : toString n ≠ toString b := by
  cases b
  · exact toString_integer_ne (c := 'a') (by decide) (by decide) (by decide) n
  · exact toString_integer_ne (c := 'r') (by decide) (by decide) (by decide) n

theorem toString_integer_ne_null (n : Int) : toString n ≠ "null" :=
  toString_integer_ne (c := 'u') (by decide) (by decide) (by decide) n

theorem toString_bool_inj {a b : Bool} (h : toString a = toString b) : a = b := by
  cases a <;> cases b <;> simp_all [toString]

/-- Different integers and constants have different wordings. -/
theorem wording?_inj (hj : wording? j = some text) (hk : wording? k = some text) : j = k := by
  cases j <;> cases hj
  case integer m =>
    cases k with
    | integer n => rw [toString_integer_inj (Option.some.inj hk)]
    | boolean b => exact absurd (Option.some.inj hk).symm (toString_integer_ne_bool m b)
    | nil => exact absurd (Option.some.inj hk).symm (toString_integer_ne_null m)
    | _ => cases hk
  case boolean a =>
    cases k with
    | integer n => exact absurd (Option.some.inj hk) (toString_integer_ne_bool n a)
    | boolean b => rw [toString_bool_inj (Option.some.inj hk)]
    | nil => cases a <;> simp [wording?, toString] at hk
    | _ => cases hk
  case nil =>
    cases k with
    | integer n => exact absurd (Option.some.inj hk) (toString_integer_ne_null n)
    | boolean b => cases b <;> simp [wording?, toString] at hk
    | nil => rfl
    | _ => cases hk

end Wordings

section Names

variable {P : Platform} {lib : RuntimeLibrary} {keys : List Matching.Value}

theorem scalarName?_eq_text {k : Matching.Value} {text : String} :
    scalarName? k = some (.text text) ↔ k = .string text ∨ wording? k = some text := by
  cases k <;> simp [scalarName?, wording?]

theorem scalarName?_eq_symbol {k : Matching.Value} {name : String} :
    scalarName? k = some (.symbol name) ↔ k = .atom name := by
  cases k <;> simp [scalarName?, wording?]

/-- Different keys that have names have different ones if no text spells the wording of another
key. -/
theorem scalarName?_inj_on (hspelled : ∀ k ∈ keys, ∀ text, wording? k = some text →
      .string text ∉ keys) {j k : Matching.Value} {name : Name} (hj : j ∈ keys) (hk : k ∈ keys)
    (hjname : scalarName? j = some name) (hkname : scalarName? k = some name) : j = k := by
  cases name with
  | symbol name => rw [scalarName?_eq_symbol.mp hjname, scalarName?_eq_symbol.mp hkname]
  | text text =>
    rcases scalarName?_eq_text.mp hjname with rfl | hjword
    · rcases scalarName?_eq_text.mp hkname with rfl | hkword
      · rfl
      · exact absurd hj (hspelled k hk text hkword)
    · rcases scalarName?_eq_text.mp hkname with rfl | hkword
      · exact absurd hk (hspelled j hj text hjword)
      · exact wording?_inj hjword hkword

/-- Names of different scalars are different exactly if no text spells the wording of another. -/
theorem names_nodup_iff (hdistinct : keys.Nodup) {names : List Name}
    (hnames : keys.map scalarName? = names.map some) :
    names.Nodup ↔ ∀ k ∈ keys, ∀ text, wording? k = some text → .string text ∉ keys := by
  rw [← List.nodup_map_iff (Option.some_injective Name), ← hnames,
    List.nodup_map_iff_inj_on hdistinct]
  constructor
  · intro hinj k hk text hword htext
    have hsame := hinj k hk _ htext ((scalarName?_eq_text.mpr (.inr hword)).trans
      (scalarName?_eq_text.mpr (.inl rfl)).symm)
    rw [hsame] at hword
    cases hword
  · intro hspelled j hj k hk hsame
    obtain ⟨name, -, hname⟩ : ∃ name ∈ names, some name = scalarName? j := by
      rw [← List.mem_map, ← hnames]
      exact List.mem_map_of_mem hj
    exact scalarName?_inj_on hspelled hj hk hname.symm (hsame ▸ hname.symm)

end Names

section Lowering

variable {P : Platform} {c : Config} {s s' : State}

theorem propertyName?_named (P : Platform) (lib : RuntimeLibrary) (env : NameTable Operand)
    (text : String) (e : Expr) : propertyName? P lib env (.named text e) = some (.text text) := by
  simp [propertyName?, Property.named, keyExpression, evaluate_string, Operand.value?,
    Platform.nameOf]

theorem propertyName?_computed {lib : RuntimeLibrary} {env : NameTable Operand} {key : Expr}
    {v : Value} (h : evaluate P lib env key = some (.value v)) (e : Expr) :
    propertyName? P lib env (.computed key e) = some (P.nameOf v) := by
  simp [propertyName?, Property.computed, keyExpression, h, Operand.value?]

theorem scalarName?_boolean (hP : P.SpellsOut) (b : Bool) :
    scalarName? (.boolean b) = some (P.nameOf (.boolean b)) := by
  rw [Platform.nameOf, hP.boolean]
  · rfl
  all_goals simp

theorem scalarName?_nil (hP : P.SpellsOut) : scalarName? .nil = some (P.nameOf .null) := by
  rw [Platform.nameOf, hP.null]
  · rfl
  all_goals simp

theorem scalarName?_integer (hP : P.SpellsOut) (n : Int) :
    scalarName? (.integer n) = some (P.nameOf (.integer n)) := by
  rw [Platform.nameOf, hP.integer]
  · rfl
  all_goals simp

/-- An atom is a constant or a symbol. -/
theorem evaluate_atomValue_name (hP : P.SpellsOut) (name : String) :
    ∃ v, (∀ lib env, evaluate P lib env (atomValue name) = some (.value v)) ∧
      scalarName? (.ofAtom name) = some (P.nameOf v) := by
  unfold atomValue Matching.Value.ofAtom
  split_ifs
  · exact ⟨_, fun lib env => evaluate_literal P lib env _, scalarName?_boolean hP true⟩
  · exact ⟨_, fun lib env => evaluate_literal P lib env _, scalarName?_boolean hP false⟩
  · exact ⟨_, fun lib env => evaluate_literal P lib env _, scalarName?_nil hP⟩
  · exact ⟨_, fun lib env => evaluate_atomSymbol P lib env name, rfl⟩

/-- The key of an entry is written without a step of its own, and names what the scalar names. -/
def WritesKey (P : Platform) (n : Node) (k : Matching.Value) : Prop :=
  ∃ key name, scalarName? k = some name ∧
    (∀ value : LowerM Expr, entry n (positions n).value value = do return ⟨key, ← value⟩) ∧
    ∀ lib env e, propertyName? P lib env ⟨key, e⟩ = some name

theorem writesKey_constant {n : Node} {k : Matching.Value} {e : Expr} {v : Value}
    (hn : ∀ text, n ≠ .string text) (hlowers : (positions n).value = pure e)
    (hvalue : ∀ lib env, evaluate P lib env e = some (.value v))
    (hname : scalarName? k = some (P.nameOf v)) : WritesKey P n k := by
  refine ⟨.computed e, P.nameOf v, hname, fun value => ?_, fun lib env value => ?_⟩
  · rw [hlowers]
    unfold entry
    split
    · exact (hn _ rfl).elim
    · rfl
  · exact propertyName?_computed (hvalue lib env) value

theorem writesKey_of_scalar (hP : P.SpellsOut) {n : Node} {k : Matching.Value}
    (h : scalar? n = some k) : WritesKey P n k := by
  cases n <;> cases h
  case string text =>
    exact ⟨.name text, .text text, rfl, fun value => rfl,
      fun lib env e => propertyName?_named P lib env text e⟩
  case integer n =>
    exact writesKey_constant (v := .integer n.toInt) (by simp) (by rw [positions]; rfl)
      (fun lib env => evaluate_literal P lib env _) (scalarName?_integer hP n.toInt)
  case boolean b =>
    exact writesKey_constant (v := .boolean b) (by simp) (by rw [positions]; rfl)
      (fun lib env => evaluate_literal P lib env _) (scalarName?_boolean hP b)
  case nil =>
    exact writesKey_constant (v := .null) (by simp) (by rw [positions]; rfl)
      (fun lib env => evaluate_literal P lib env _) (scalarName?_nil hP)
  case atom name =>
    obtain ⟨v, hv, hname⟩ := evaluate_atomValue_name hP name
    exact writesKey_constant (by simp) (by rw [positions]; rfl) hv hname

/-- The entries of a literal with scalar keys come from their values alone. -/
theorem sequence_entries (hP : P.SpellsOut) {entries : List (Node × Node)}
    {keys : List Matching.Value} {es : List Expr}
    (hkeys : entries.map (fun e => scalar? e.1) = keys.map some)
    (hvalues : LowerM.sequence (values (entries.map (·.2))) c s = (.ok es, s')) :
    ∃ (ps : List Property) (names : List Name),
      LowerM.sequence (properties entries) c s = (.ok ps, s') ∧
      ps.map (·.value) = es ∧ keys.map scalarName? = names.map some ∧
      ∀ lib env, ps.map (propertyName? P lib env) = names.map some := by
  induction entries generalizing keys es s with
  | nil =>
    obtain rfl : keys = [] := by simpa using hkeys
    obtain ⟨rfl, rfl⟩ := pure_run.mp hvalues
    exact ⟨[], [], by rw [properties]; rfl, rfl, rfl, fun lib env => rfl⟩
  | cons entry entries ih =>
    obtain ⟨k, keys, rfl⟩ : ∃ k rest, keys = k :: rest := by
      cases keys with
      | nil => simp at hkeys
      | cons k rest => exact ⟨k, rest, rfl⟩
    obtain ⟨hkey, hkeys⟩ := List.cons.inj hkeys
    rw [List.map_cons, values, LowerM.sequence] at hvalues
    obtain ⟨e, t, hvalue, hvalues⟩ := bind_run.mp hvalues
    obtain ⟨rest, t', hrest, hdone⟩ := bind_run.mp hvalues
    obtain ⟨rfl, rfl⟩ := pure_run.mp hdone
    obtain ⟨key, name, hname, hentry, hput⟩ := writesKey_of_scalar hP hkey
    obtain ⟨ps, names, hps, hparts, hnames, hputs⟩ := ih hkeys hrest
    refine ⟨⟨key, e⟩ :: ps, name :: names, ?_, ?_, ?_, fun lib env => ?_⟩
    · rw [properties, hentry, LowerM.sequence]
      simp only [bind_run, pure_run]
      exact ⟨_, t, ⟨e, t, hvalue, rfl, rfl⟩, ps, _, hps, rfl, rfl⟩
    · rw [List.map_cons, hparts]
    · rw [List.map_cons, List.map_cons, hname, hnames]
    · rw [List.map_cons, List.map_cons, hput, hputs]

theorem eq_value_of_value? {x : Operand} {v : Value} (h : x.value? = some v) : x = .value v := by
  cases x <;> cases h
  rfl

/-- The fields of an object are its properties, evaluated. -/
theorem map_of_evaluateProperties {lib : RuntimeLibrary} {env : NameTable Operand}
    {ps : List Property} {fields : List (Name × Value)}
    (h : evaluateProperties P lib env ps = some fields) :
    ps.map (fun p => (propertyName? P lib env p, evaluate P lib env p.value)) =
      fields.map fun field => (some field.1, some (.value field.2)) := by
  induction ps generalizing fields with
  | nil =>
    rw [evaluateProperties] at h
    cases h
    rfl
  | cons p ps ih =>
    obtain ⟨key, e⟩ := p
    cases key with
    | name text =>
      simp only [evaluateProperties, Option.bind_eq_bind, Option.bind_eq_some_iff,
        Option.pure_def, Option.some.injEq] at h
      obtain ⟨x, he, v, hv, rest, hrest, rfl⟩ := h
      rw [List.map_cons, List.map_cons, ih hrest, he, eq_value_of_value? hv]
      exact congrArg (fun name => (name, _) :: _) (propertyName?_named P lib env text e)
    | computed key =>
      simp only [evaluateProperties, Option.bind_eq_bind, Option.bind_eq_some_iff,
        Option.pure_def, Option.some.injEq] at h
      obtain ⟨y, hkey, k, hk, x, he, v, hv, rest, hrest, rfl⟩ := h
      rw [eq_value_of_value? hk] at hkey
      rw [List.map_cons, List.map_cons, ih hrest, he, eq_value_of_value? hv]
      exact congrArg (fun name => (name, _) :: _) (propertyName?_computed hkey e)

/-- Under distinct names every property is found in the object with its value. -/
theorem property_found {lib : RuntimeLibrary} {env : NameTable Operand} {ps : List Property}
    {names : List Name} {object : Value}
    (hnames : ps.map (propertyName? P lib env) = names.map some) (hdistinct : names.Nodup)
    (h : evaluate P lib env (.object ps) = some (.value object)) {p : Property} (hp : p ∈ ps) :
    ∃ name v, propertyName? P lib env p = some name ∧
      evaluate P lib env p.value = some (.value v) ∧ object.get? name = some v := by
  simp only [evaluate, Option.bind_eq_bind, Option.bind_eq_some_iff, Option.pure_def,
    Option.some.injEq, Operand.value.injEq] at h
  obtain ⟨fields, hfields, rfl⟩ := h
  have hput := map_of_evaluateProperties hfields
  have hfieldNames : (fields.map (·.1)).map some = names.map some := by
    have hfirst := congrArg (List.map Prod.fst) hput
    rw [List.map_map, List.map_map] at hfirst
    rw [← hnames, List.map_map]
    exact hfirst.symm
  have hreversed : (fields.reverse.map (·.1)).Nodup := by
    rw [List.map_reverse, List.nodup_reverse]
    rwa [List.map_injective_iff.mpr (Option.some_injective Name) hfieldNames]
  obtain ⟨field, hfield, hparts⟩ := List.mem_map.mp (hput ▸ List.mem_map_of_mem hp)
  obtain ⟨hname, hvalue⟩ := Prod.mk.inj hparts
  exact ⟨field.1, field.2, hname.symm, hvalue.symm,
    lookup_of_nodup hreversed (List.mem_reverse.mpr hfield)⟩

end Lowering

/-- A platform on which integers and constants name properties by their wordings. -/
noncomputable def Platform.spelling : Platform :=
  { Platform.exact with
    nameText := fun
      | .integer n => toString n
      | .boolean b => toString b
      | .null => "null"
      | _ => "" }

theorem Platform.spelling_spellsOut : Platform.spelling.SpellsOut where
  integer _ := rfl
  boolean _ := rfl
  null := rfl

def mixedEntries : List (Node × Node) :=
  [(.integer 1, .string "a"), (.string "2", .integer 20), (.atom "three", .nil),
    (.atom "true", .integer 40), (.string "nil", .integer 50), (.nil, .integer 60)]

def mixedKeys : List Matching.Value :=
  [.integer 1, .string "2", .atom "three", .boolean true, .string "nil", .nil]

def doubledEntries : List (Node × Node) :=
  [(.integer 1, .integer 10), (.string "1", .integer 20)]

end TreeLowering.Data
