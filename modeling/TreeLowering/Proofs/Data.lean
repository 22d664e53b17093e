import TreeLowering.Proofs.Arms
import TreeLowering.Proofs.PatternCorrect

/-!
Data of the target, and the expressions that build them and take them apart.

Beside the values that the source has, an expression can give `undefined`: what is read under a name
that an object lacks. `evaluate` gives nothing where an operation is applied to a value of the wrong
kind. A `Platform` is what runtimes are free in; of its structural equality no more is known than
that a value equals itself. `Platform.machine` runs statements on these data.
-/
namespace TreeLowering.Data

open Source Target
open Matching (Global global? isTupleClass beginsWith dropUnits)

/-- Under distinct names an entry is what is found under its name. -/
theorem lookup_of_nodup {α β : Type} [DecidableEq α] {entries : List (α × β)} {entry : α × β}
    (hdistinct : (entries.map (·.1)).Nodup) (hmem : entry ∈ entries) :
    entries.lookup entry.1 = some entry.2 := by
  obtain ⟨before, behind, rfl⟩ := List.append_of_mem hmem
  refine List.lookup_eq_some_iff.mpr ⟨before, behind, rfl, fun other hother => ?_⟩
  rw [List.map_append, List.map_cons] at hdistinct
  have hne := (List.nodup_append.mp hdistinct).2.2 other.1 (List.mem_map.mpr ⟨other, hother, rfl⟩)
    entry.1 (by simp)
  simpa using hne.symm

/-- What a property is called. -/
inductive Name where
  | text (text : String)
  | symbol (name : String)
deriving DecidableEq, Repr

/-- Values of the source, as the target has them. Of the properties of one name the first
counts. -/
inductive Value where
  | null
  | boolean (b : Bool)
  | integer (n : Int)
  | float (x : Binary64)
  | text (text : String)
  | symbol (name : String)
  | function (id : Nat)
  | tuple (items : List Value)
  | array (items : List Value)
  | object (properties : List (Name × Value))

namespace Value

def isCompound : Value → Bool
  | .tuple _ | .array _ | .object _ => true
  | _ => false

def ofLiteral : Literal → Value
  | .null => .null
  | .bool b => .boolean b
  | .integer n => .integer n.toInt
  | .float x => .float x
  | .string s => .text s

/-- The property of an object. -/
def get? : Value → Name → Option Value
  | .object properties, name => properties.lookup name
  | _, _ => none

def isObject : Value → Bool
  | .object _ => true
  | _ => false

end Value

/-- What an expression gives. -/
inductive Operand where
  | value (v : Value)
  | undefined

namespace Operand

def ofBool (b : Bool) : Operand := .value (.boolean b)

def value? : Operand → Option Value
  | .value v => some v
  | .undefined => none

def isTuple : Operand → Bool
  | .value (.tuple _) => true
  | _ => false

def isArray : Operand → Bool
  | .value (.array _) => true
  | _ => false

def isObject : Operand → Bool
  | .value v => v.isObject
  | .undefined => false

def truthy : Operand → Bool
  | .undefined | .value .null => false
  | .value (.boolean b) => b
  | .value (.integer n) => n ≠ 0
  | .value (.float x) => !x.isNaN && x.magnitude ≠ 0
  | .value (.text text) => text ≠ ""
  | .value _ => true

/-- The answer of `typeof`. -/
def typeName : Operand → String
  | .undefined => "undefined"
  | .value (.boolean _) => "boolean"
  | .value (.integer _) | .value (.float _) => "number"
  | .value (.text _) => "string"
  | .value (.symbol _) => "symbol"
  | .value (.function _) => "function"
  | .value _ => "object"

end Operand

/-- What runtimes are free in. -/
structure Platform where
  /-- Structural equality, as the runtime library has it. -/
  equals : Value → Value → Bool
  equals_self : ∀ v, equals v v = true
  /-- Whether an integer and a float are one number. -/
  sameNumber : Int → Binary64 → Bool
  /-- Whether two compound values are one. -/
  sameObject : Value → Value → Bool
  /-- The text by which a value that is no text and no symbol names a property. -/
  nameText : Value → String

namespace Platform

variable (P : Platform)

def sameValue : Value → Value → Bool
  | .null, .null => true
  | .boolean a, .boolean b => a == b
  | .integer m, .integer n => m == n
  | .float x, .float y => x.numericEq y
  | .integer n, .float x | .float x, .integer n => P.sameNumber n x
  | .text a, .text b => a == b
  | .symbol a, .symbol b => a == b
  | .function f, .function g => f == g
  | v, w => v.isCompound && w.isCompound && P.sameObject v w

/-- `===`. -/
def same : Operand → Operand → Bool
  | .value v, .value w => P.sameValue v w
  | .undefined, .undefined => true
  | _, _ => false

/-- Structural equality where `undefined` may stand: it equals nothing else. -/
def equalOperands : Operand → Operand → Bool
  | .value v, .value w => P.equals v w
  | .undefined, .undefined => true
  | _, _ => false

/-- The property that a value names. -/
def nameOf : Value → Name
  | .text text => .text text
  | .symbol name => .symbol name
  | v => .text (P.nameText v)

/-- `in`. -/
def has : Operand → Operand → Option Operand
  | .value k, .value (.object properties) =>
    some (.ofBool ((Value.object properties).get? (P.nameOf k)).isSome)
  | _, _ => none

/-- What is read in brackets. -/
def entryOf : Operand → Operand → Option Operand
  | .value (.object properties), .value k =>
    some (((Value.object properties).get? (P.nameOf k)).elim .undefined .value)
  | .value (.array items), .value (.integer n) =>
    if 0 ≤ n then some ((items[n.toNat]?).elim .undefined .value) else none
  | _, _ => none

def applyGlobal : Global → List Operand → Option Operand
  | .symbolFor, [.value (.text name)] => some (.value (.symbol name))
  | .isArray, [x] => some (.ofBool x.isArray)
  | .equals, [x, y] => some (.ofBool (P.equalOperands x y))
  | .isMap, [x] => some (.ofBool x.isObject)
  | _, _ => none

open Classical in
/-- A platform that takes for equal what is the same, and no integer for a float. -/
noncomputable def exact : Platform where
  equals v w := decide (v = w)
  equals_self v := by simp
  sameNumber _ _ := false
  sameObject _ _ := false
  nameText _ := ""

end Platform

/-- A property that is read by name. -/
def propertyOf (name : String) : Operand → Option Operand
  | .value (.tuple items) => if name = "size" then some (.value (.integer items.length)) else none
  | .value (.array items) => if name = "length" then some (.value (.integer items.length)) else none
  | _ => none

/-- A call of a method. -/
def methodOf (name : String) : Operand → List Operand → Option Operand
  | .value (.tuple items), [.value (.integer n)] =>
    if name = "get" ∧ 0 ≤ n then some ((items[n.toNat]?).elim .undefined .value) else none
  | .value (.array items), [.value (.integer n)] =>
    if name = "slice" ∧ 0 ≤ n then some (.value (.array (items.drop n.toNat))) else none
  | .value (.text text), [.value (.integer n)] =>
    if name = "slice" ∧ 0 ≤ n then (dropUnits n.toNat text).map (.value ∘ .text) else none
  | .value (.text text), [.value (.text start)] =>
    if name = "startsWith" then some (.ofBool (beginsWith text start)) else none
  | _, _ => none

def atLeast : Operand → Operand → Option Operand
  | .value (.integer m), .value (.integer n) => some (.ofBool (n ≤ m))
  | _, _ => none

section Evaluation

variable (P : Platform) (lib : RuntimeLibrary) (env : NameTable Operand)

mutual

/-- What an expression gives when the identifiers hold the given operands. -/
@[simp] def evaluate : Expr → Option Operand
  | .literal l => some (.value (.ofLiteral l))
  | .ident name => (env.get? name).or (if name = "undefined" then some .undefined else none)
  | .unary .typeOf e => do return .value (.text (← evaluate e).typeName)
  | .unary .not e => do return .ofBool !(← evaluate e).truthy
  | .binary a .and b => do
    let x ← evaluate a
    if x.truthy then evaluate b else return x
  | .binary a .or b => do
    let x ← evaluate a
    if x.truthy then return x else evaluate b
  | .binary a .eq b => do return .ofBool (P.same (← evaluate a) (← evaluate b))
  | .binary a .ne b => do return .ofBool !(P.same (← evaluate a) (← evaluate b))
  | .binary a .ge b => do atLeast (← evaluate a) (← evaluate b)
  | .binary a .in_ b => do P.has (← evaluate a) (← evaluate b)
  | .binary a .instanceOf b => do
    if isTupleClass lib b then return .ofBool (← evaluate a).isTuple else none
  | .construct callee args => do
    if isTupleClass lib callee then
      return .value (.tuple (← (← evaluateEach args).mapM Operand.value?))
    else none
  | .array items => do return .value (.array (← (← evaluateEach items).mapM Operand.value?))
  | .object properties => do
    -- of properties with one name the last counts
    return .value (.object (← evaluateProperties properties).reverse)
  | .member object (.literal (.string name)) false => do propertyOf name (← evaluate object)
  | .member object key true => do P.entryOf (← evaluate object) (← evaluate key)
  | .call (.member object (.literal (.string name)) false) args =>
    match global? lib object name with
    | some f => do P.applyGlobal f (← evaluateEach args)
    | none => do methodOf name (← evaluate object) (← evaluateEach args)
  | _ => none

@[simp] def evaluateEach : List Expr → Option (List Operand)
  | [] => some []
  | e :: es => do return (← evaluate e) :: (← evaluateEach es)

@[simp] def evaluateProperties : List Property → Option (List (Name × Value))
  | [] => some []
  | ⟨.name text, e⟩ :: rest => do
    return (.text text, ← (← evaluate e).value?) :: (← evaluateProperties rest)
  | ⟨.computed k, e⟩ :: rest => do
    return (P.nameOf (← (← evaluate k).value?), ← (← evaluate e).value?) ::
      (← evaluateProperties rest)

end

/-- The expression gives `true`. -/
def Holds (e : Expr) : Prop := evaluate P lib env e = some (.ofBool true)

end Evaluation

section Operations

variable {P : Platform} {lib : RuntimeLibrary} {env : NameTable Operand} {e : Expr} {x y : Operand}

theorem holds_iff {b : Bool} (h : evaluate P lib env e = some (.ofBool b)) :
    Holds P lib env e ↔ b = true := by
  rw [Holds, h]
  simp [Operand.ofBool]

theorem evaluate_literal (P : Platform) (lib : RuntimeLibrary) (env : NameTable Operand)
    (l : Literal) : evaluate P lib env (.literal l) = some (.value (.ofLiteral l)) := by
  rw [evaluate]

theorem evaluate_float (P : Platform) (lib : RuntimeLibrary) (env : NameTable Operand)
    (x : Binary64) : evaluate P lib env (.float x) = some (.value (.float x)) :=
  evaluate_literal P lib env (.float x)

theorem evaluate_string (P : Platform) (lib : RuntimeLibrary) (env : NameTable Operand)
    (text : String) : evaluate P lib env (.string text) = some (.value (.text text)) :=
  evaluate_literal P lib env (.string text)

theorem evaluate_ident {name : String} (h : env.get? name = some x) :
    evaluate P lib env (.ident name) = some x := by
  rw [evaluate, h, Option.some_or]

theorem evaluate_natural {n : Nat} (h : n < 2 ^ 63) :
    evaluate P lib env (.natural n) = some (.value (.integer n)) := by
  rw [Expr.natural, Expr.integer, evaluate, Value.ofLiteral, Int64.toInt_ofNat_of_lt h]

theorem evaluate_atomSymbol (P : Platform) (lib : RuntimeLibrary) (env : NameTable Operand)
    (name : String) : evaluate P lib env (atomSymbol name) = some (.value (.symbol name)) := by
  simp [atomSymbol, Expr.method, Expr.property, Expr.string, evaluate, global?, evaluateEach,
    Value.ofLiteral, Platform.applyGlobal]

theorem evaluate_isTuple (h : evaluate P lib env e = some x) :
    evaluate P lib env (lib.isTuple e) = some (.ofBool x.isTuple) := by
  simp [RuntimeLibrary.isTuple, RuntimeLibrary.path, RuntimeLibrary.root, Expr.property,
    Expr.string, evaluate, isTupleClass, h]

theorem evaluate_isArray (h : evaluate P lib env e = some x) :
    evaluate P lib env (Pattern.isArray e) = some (.ofBool x.isArray) := by
  simp [Pattern.isArray, Expr.method, Expr.property, Expr.string, evaluate, global?, evaluateEach,
    h, Platform.applyGlobal]

theorem evaluate_isMap (h : evaluate P lib env e = some x) :
    evaluate P lib env (lib.isMap e) = some (.ofBool x.isObject) := by
  simp [RuntimeLibrary.isMap, RuntimeLibrary.call, RuntimeLibrary.path, RuntimeLibrary.root,
    Expr.property, Expr.string, evaluate, global?, evaluateEach, h, Platform.applyGlobal]

theorem evaluate_equals {a b : Expr} (ha : evaluate P lib env a = some x)
    (hb : evaluate P lib env b = some y) :
    evaluate P lib env (lib.equals a b) = some (.ofBool (P.equalOperands x y)) := by
  simp [RuntimeLibrary.equals, RuntimeLibrary.call, RuntimeLibrary.path, RuntimeLibrary.root,
    Expr.property, Expr.string, evaluate, global?, evaluateEach, ha, hb, Platform.applyGlobal]

theorem evaluate_eq {a b : Expr} (ha : evaluate P lib env a = some x)
    (hb : evaluate P lib env b = some y) :
    evaluate P lib env (a.eq b) = some (.ofBool (P.same x y)) := by
  simp [Expr.eq, evaluate, ha, hb]

theorem evaluate_in {k : Expr} (hk : evaluate P lib env k = some y)
    (he : evaluate P lib env e = some x) :
    evaluate P lib env (.binary k .in_ e) = P.has y x := by
  simp [evaluate, hk, he]

theorem evaluate_property (h : evaluate P lib env e = some x) (name : String) :
    evaluate P lib env (e.property name) = propertyOf name x := by
  simp [Expr.property, Expr.string, evaluate, h]

theorem evaluate_index {k : Expr} (he : evaluate P lib env e = some x)
    (hk : evaluate P lib env k = some y) :
    evaluate P lib env (e.index k) = P.entryOf x y := by
  simp [Expr.index, evaluate, he, hk]

theorem evaluate_method {arg : Expr} (name : String) (hn : name ∈ ["get", "slice", "startsWith"])
    (he : evaluate P lib env e = some x) (ha : evaluate P lib env arg = some y) :
    evaluate P lib env (e.method name [arg]) = methodOf name x [y] := by
  simp [Expr.method, Expr.property, Expr.string, evaluate, Matching.global?_method lib e hn, he,
    evaluateEach, ha]

theorem evaluate_isString (h : evaluate P lib env e = some x) :
    evaluate P lib env (.eq (.unary .typeOf e) (.string "string")) =
      some (.ofBool (x.typeName == "string")) := by
  have htype : evaluate P lib env (.unary .typeOf e) = some (.value (.text x.typeName)) := by
    simp [h]
  rw [evaluate_eq htype (evaluate_string P lib env _)]
  rfl

theorem holds_and {a b : Expr} (ha : Holds P lib env a) (hb : Holds P lib env b) :
    Holds P lib env (.binary a .and b) := by
  rw [Holds] at ha hb
  simp [Holds, evaluate, ha, hb, Operand.ofBool, Operand.truthy]

/-- A conjunction holds if all of its tests do. -/
theorem holds_all {tests : List Expr} {test : Expr} (h : Expr.all tests = some test)
    (hall : ∀ t ∈ tests, Holds P lib env t) : Holds P lib env test := by
  cases tests with
  | nil => cases h
  | cons first rest =>
    cases h
    induction rest generalizing first with
    | nil => exact hall first (by simp)
    | cons next rest ih =>
      rw [List.foldl_cons]
      apply ih
      obtain ⟨hfirst, hnext, hrest⟩ : Holds P lib env first ∧ Holds P lib env next ∧
          ∀ t ∈ rest, Holds P lib env t := by simpa using hall
      exact List.forall_mem_cons.mpr ⟨holds_and hfirst hnext, hrest⟩

end Operations

section Statements

variable {Store Value α β : Type}

/-- A computation that has its result, or does not end. -/
def settled (result : Option α) : Run Store Value α :=
  ExceptT.mk fun σ => result.map fun a => (.ok a, σ)

theorem settled_some (a : α) : (settled (some a) : Run Store Value α) = pure a := rfl

theorem settled_bind (result : Option α) (f : α → Option β) :
    (settled (result >>= f) : Run Store Value β) = settled result >>= fun a => settled (f a) := by
  cases result <;> rfl

/-- The machine on which expressions give what they evaluate to. -/
abbrev Platform.machine (P : Platform) (lib : RuntimeLibrary) : Machine where
  Value := Operand
  Store := Unit
  undefined := .undefined
  boolean := .ofBool
  truthy := Operand.truthy
  same := P.same
  eval e env := settled (evaluate P lib env e)
  iterate
    | .value (.array items) => pure (items.map .value)
    | _ => settled none
  establish _ _ := settled none
  truthy_boolean _ := rfl
  same_undefined x := by cases x <;> simp [Platform.same]
  eval_bool b env := by rw [Expr.bool, evaluate_literal]; rfl
  eval_ident x env v h := by rw [evaluate_ident h]; rfl
  eval_undefined env h := by rw [evaluate, h]; rfl
  eval_and l r env := by
    rw [evaluate, settled_bind]
    congr 1
    funext x
    cases x.truthy <;> rfl
  eval_or l r env := by
    rw [evaluate, settled_bind]
    congr 1
    funext x
    cases x.truthy <;> rfl
  eval_eq l r env := by
    rw [Expr.eq, evaluate, settled_bind]
    congr 1
    funext x
    rw [settled_bind]
    rfl
  eval_ne l r env := by
    rw [Expr.ne, evaluate, settled_bind]
    congr 1
    funext x
    rw [settled_bind]
    rfl

end Statements

section Machine

variable {P : Platform} {lib : RuntimeLibrary} {env : NameTable Operand}

theorem machine_eval {e : Expr} {x : Operand} (h : evaluate P lib env e = some x) :
    (P.machine lib).eval e env = pure x := by
  show settled (evaluate P lib env e) = pure x
  rw [h, settled_some]

end Machine

end TreeLowering.Data
