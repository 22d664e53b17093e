import TreeLowering.Proofs.WellFormed
import TreeLowering.Target.Equality

/-!
Equality up to spelling is equality of normal forms.

The normal form of a tree makes each choice of spelling the same way: declarations are constants, a
property named by a string is written with a dot and an entry's name in brackets, and a zero has no
sign. On trees without a NaN, two trees are the same with hints ignored exactly when their normal
forms are equal.
-/
namespace TreeLowering.Target

/-- A literal with the sign of a zero cleared. -/
def Literal.norm : Literal → Literal
  | .float x => .float x.unsignedZero
  | l => l

mutual

def Expr.norm : Expr → Expr
  | .literal value => .literal value.norm
  | .ident name => .ident name
  | .binary left op right => .binary left.norm op right.norm
  | .unary op operand => .unary op operand.norm
  | .call callee args => .call callee.norm (normExprs args)
  | .construct callee args => .construct callee.norm (normExprs args)
  | .member object property computed =>
    .member object.norm property.norm (computed && !property.isStringLiteral)
  | .array items => .array (normExprs items)
  | .object properties => .object (normProperties properties)
  | .function definition => .function definition.norm
  | .conditional test consequent alternate =>
    .conditional test.norm consequent.norm alternate.norm

def normExprs : List Expr → List Expr
  | [] => []
  | e :: es => e.norm :: normExprs es

def normOption : Option Expr → Option Expr
  | none => none
  | some e => some e.norm

def PropertyKey.norm : PropertyKey → PropertyKey
  | .name text => .computed (.string text)
  | .computed key => .computed key.norm

def Property.norm : Property → Property
  | ⟨key, value⟩ => ⟨key.norm, value.norm⟩

def normProperties : List Property → List Property
  | [] => []
  | p :: ps => p.norm :: normProperties ps

def FunctionDef.norm : FunctionDef → FunctionDef
  | ⟨name, params, body⟩ => ⟨name, params, normStmts body⟩

def Stmt.norm : Stmt → Stmt
  | .expr value => .expr value.norm
  | .declare name init _ => .declare name (normOption init) false
  | .block body => .block (normStmts body)
  | .ifElse test consequent alternate =>
    .ifElse test.norm consequent.norm (normOptionStmt alternate)
  | .forOf name iterable body => .forOf name iterable.norm body.norm
  | .returns value => .returns (normOption value)
  | .throws value => .throws value.norm
  | .function definition => .function definition.norm
  | .imports declaration => .imports declaration
  | .module definition => .module definition.norm

def normOptionStmt : Option Stmt → Option Stmt
  | none => none
  | some s => some s.norm

def normStmts : List Stmt → List Stmt
  | [] => []
  | s :: rest => s.norm :: normStmts rest

def ModuleFunction.norm : ModuleFunction → ModuleFunction
  | ⟨function, exported⟩ => ⟨function.norm, exported⟩

def normFunctions : List ModuleFunction → List ModuleFunction
  | [] => []
  | f :: rest => f.norm :: normFunctions rest

def ModuleDef.norm : ModuleDef → ModuleDef
  | ⟨name, imports, body, functions⟩ =>
    ⟨name, imports, normStmts body, normFunctions functions⟩

end

/-- A part that is not the literal of a NaN. -/
def Part.NaNFree : Part → Prop
  | .expr (.literal (.float x)) => x.isNaN = false
  | _ => True

theorem numericEq_iff {x y : Binary64} (hx : x.isNaN = false) (hy : y.isNaN = false) :
    x.numericEq y = true ↔ x.unsignedZero = y.unsignedZero := by
  have hzero : Binary64.zero.magnitude = 0 := rfl
  have hbits : x.bits = y.bits ↔ x = y := ⟨fun h => by cases x; cases y; simp_all, congrArg _⟩
  unfold Binary64.numericEq Binary64.unsignedZero
  by_cases hx₀ : x.magnitude = 0 <;> by_cases hy₀ : y.magnitude = 0
  · simp [hx, hy, hx₀, hy₀]
  · have hne : Binary64.zero ≠ y := fun h => hy₀ (h ▸ hzero)
    have hne' : x ≠ y := fun h => hy₀ (h ▸ hx₀)
    simp [hx, hy, hx₀, hy₀, hbits, hne, hne']
  · have hne : x ≠ Binary64.zero := fun h => hx₀ (h ▸ hzero)
    have hne' : x ≠ y := fun h => hx₀ (h ▸ hy₀)
    simp [hx, hy, hx₀, hy₀, hbits, hne, hne']
  · simp [hx, hy, hx₀, hy₀, hbits]

theorem Literal.same_iff {a b : Literal} (ha : (Part.expr (.literal a)).NaNFree)
    (hb : (Part.expr (.literal b)).NaNFree) : a.same b = true ↔ a.norm = b.norm := by
  cases a <;> cases b <;> simp [Literal.same, Literal.norm]
  exact numericEq_iff ha hb

theorem Expr.isStringLiteral_norm (e : Expr) : e.norm.isStringLiteral = e.isStringLiteral := by
  cases e with
  | literal l => cases l <;> simp [Expr.norm, Literal.norm, isStringLiteral]
  | _ => simp [Expr.norm, isStringLiteral]

theorem Expr.norm_eq_string {e : Expr} {text : String} :
    e.norm = .literal (.string text) ↔ e = .literal (.string text) := by
  cases e with
  | literal l => cases l <;> simp [Expr.norm, Literal.norm]
  | _ => simp [Expr.norm]

/-- A name is the same key as the string in brackets, and as no other expression. -/
theorem PropertyKey.same_name_computed {text : String} {e : Expr} :
    (PropertyKey.name text).same .ignored (.computed e) = true ↔ e = .literal (.string text) := by
  cases e with
  | literal l =>
    cases l with
    | string s => simpa [PropertyKey.same, Hints.areIgnored] using eq_comm
    | _ => simp [PropertyKey.same]
  | _ => simp [PropertyKey.same]

theorem PropertyKey.same_computed_name {text : String} {e : Expr} :
    (PropertyKey.computed e).same .ignored (.name text) = true ↔ e = .literal (.string text) := by
  cases e with
  | literal l => cases l <;> simp [PropertyKey.same, Hints.areIgnored]
  | _ => simp [PropertyKey.same]

/-- Whether a computed property counts, as `same` and `norm` decide it. -/
theorem computed_iff {p q : Expr} {c d : Bool} (h : p.norm = q.norm) :
    (c == d || (Hints.ignored.areIgnored && p.isStringLiteral && q.isStringLiteral)) = true ↔
      (c && !p.isStringLiteral) = (d && !q.isStringLiteral) := by
  have hstring : p.isStringLiteral = q.isStringLiteral := by
    rw [← p.isStringLiteral_norm, h, q.isStringLiteral_norm]
  rw [hstring, Hints.areIgnored]
  cases c <;> cases d <;> cases q.isStringLiteral <;> decide

mutual

theorem Expr.same_iff : ∀ (a b : Expr), (∀ p ∈ exprParts a, p.NaNFree) →
    (∀ p ∈ exprParts b, p.NaNFree) → (a.same .ignored b = true ↔ a.norm = b.norm)
  | .literal l, b, ha, hb => by
    cases b with
    | literal m =>
      simp only [exprParts, List.forall_mem_singleton] at ha hb
      simp only [Expr.same, Expr.norm, Expr.literal.injEq, Literal.same_iff ha hb]
    | _ => simp [Expr.same, Expr.norm]
  | .ident x, b, _, _ => by cases b <;> simp [Expr.same, Expr.norm]
  | .binary l o r, b, ha, hb => by
    cases b with
    | binary l' o' r' =>
      simp only [exprParts, List.forall_mem_cons, List.forall_mem_append] at ha hb
      simp only [Expr.same, Expr.norm, Bool.and_eq_true, beq_iff_eq, Expr.binary.injEq,
        Expr.same_iff l l' ha.2.1 hb.2.1, Expr.same_iff r r' ha.2.2 hb.2.2]
      grind
    | _ => simp [Expr.same, Expr.norm]
  | .unary o e, b, ha, hb => by
    cases b with
    | unary o' e' =>
      simp only [exprParts, List.forall_mem_cons] at ha hb
      simp only [Expr.same, Expr.norm, Bool.and_eq_true, beq_iff_eq, Expr.unary.injEq,
        Expr.same_iff e e' ha.2 hb.2]
    | _ => simp [Expr.same, Expr.norm]
  | .call f as, b, ha, hb => by
    cases b with
    | call f' as' =>
      simp only [exprParts, List.forall_mem_cons, List.forall_mem_append] at ha hb
      simp only [Expr.same, Expr.norm, Bool.and_eq_true, Expr.call.injEq,
        Expr.same_iff f f' ha.2.1 hb.2.1, sameExprs_iff as as' ha.2.2 hb.2.2]
    | _ => simp [Expr.same, Expr.norm]
  | .construct f as, b, ha, hb => by
    cases b with
    | construct f' as' =>
      simp only [exprParts, List.forall_mem_cons, List.forall_mem_append] at ha hb
      simp only [Expr.same, Expr.norm, Bool.and_eq_true, Expr.construct.injEq,
        Expr.same_iff f f' ha.2.1 hb.2.1, sameExprs_iff as as' ha.2.2 hb.2.2]
    | _ => simp [Expr.same, Expr.norm]
  | .member o p c, b, ha, hb => by
    cases b with
    | member o' p' c' =>
      simp only [exprParts, List.forall_mem_cons, List.forall_mem_append] at ha hb
      simp only [Expr.same, Expr.norm, Bool.and_eq_true, Expr.member.injEq,
        Expr.same_iff o o' ha.2.1 hb.2.1, Expr.same_iff p p' ha.2.2 hb.2.2]
      rw [and_assoc]
      exact and_congr_right fun _ => and_congr_right fun h => computed_iff h
    | _ => simp [Expr.same, Expr.norm]
  | .array es, b, ha, hb => by
    cases b with
    | array es' =>
      simp only [exprParts, List.forall_mem_cons] at ha hb
      simp only [Expr.same, Expr.norm, Expr.array.injEq, sameExprs_iff es es' ha.2 hb.2]
    | _ => simp [Expr.same, Expr.norm]
  | .object ps, b, ha, hb => by
    cases b with
    | object ps' =>
      simp only [exprParts, List.forall_mem_cons] at ha hb
      simp only [Expr.same, Expr.norm, Expr.object.injEq, sameProperties_iff ps ps' ha.2 hb.2]
    | _ => simp [Expr.same, Expr.norm]
  | .function f, b, ha, hb => by
    cases b with
    | function f' =>
      simp only [exprParts, List.forall_mem_cons] at ha hb
      simp only [Expr.same, Expr.norm, Expr.function.injEq, FunctionDef.same_iff f f' ha.2 hb.2]
    | _ => simp [Expr.same, Expr.norm]
  | .conditional t e f, b, ha, hb => by
    cases b with
    | conditional t' e' f' =>
      simp only [exprParts, List.forall_mem_cons, List.forall_mem_append] at ha hb
      simp only [Expr.same, Expr.norm, Bool.and_eq_true, Expr.conditional.injEq, and_assoc,
        Expr.same_iff t t' ha.2.1.1 hb.2.1.1, Expr.same_iff e e' ha.2.1.2 hb.2.1.2,
        Expr.same_iff f f' ha.2.2 hb.2.2]
    | _ => simp [Expr.same, Expr.norm]

theorem sameExprs_iff : ∀ (as bs : List Expr), (∀ p ∈ exprsParts as, p.NaNFree) →
    (∀ p ∈ exprsParts bs, p.NaNFree) →
    (sameExprs .ignored as bs = true ↔ normExprs as = normExprs bs)
  | [], bs, _, _ => by cases bs <;> simp [sameExprs, normExprs]
  | a :: as, bs, ha, hb => by
    cases bs with
    | nil => simp [sameExprs, normExprs]
    | cons b bs =>
      simp only [exprsParts, List.forall_mem_append] at ha hb
      simp only [sameExprs, normExprs, Bool.and_eq_true, List.cons.injEq,
        Expr.same_iff a b ha.1 hb.1, sameExprs_iff as bs ha.2 hb.2]

theorem sameOptionExpr_iff : ∀ (a b : Option Expr), (∀ p ∈ optionParts a, p.NaNFree) →
    (∀ p ∈ optionParts b, p.NaNFree) →
    (sameOptionExpr .ignored a b = true ↔ normOption a = normOption b)
  | none, b, _, _ => by cases b <;> simp [sameOptionExpr, normOption]
  | some a, b, ha, hb => by
    cases b with
    | none => simp [sameOptionExpr, normOption]
    | some b =>
      rw [optionParts] at ha hb
      simp only [sameOptionExpr, normOption, Option.some.injEq, Expr.same_iff a b ha hb]

theorem PropertyKey.same_iff : ∀ (a b : PropertyKey), (∀ p ∈ keyParts a, p.NaNFree) →
    (∀ p ∈ keyParts b, p.NaNFree) → (a.same .ignored b = true ↔ a.norm = b.norm)
  | .name s, b, _, _ => by
    cases b with
    | name t => simp [PropertyKey.same, PropertyKey.norm, Expr.string]
    | computed e =>
      rw [PropertyKey.same_name_computed, PropertyKey.norm, PropertyKey.norm, Expr.string,
        PropertyKey.computed.injEq, ← Expr.norm_eq_string]
      exact eq_comm
  | .computed e, b, ha, hb => by
    cases b with
    | name t =>
      rw [PropertyKey.same_computed_name, PropertyKey.norm, PropertyKey.norm, Expr.string,
        PropertyKey.computed.injEq, Expr.norm_eq_string]
    | computed e' =>
      rw [keyParts] at ha hb
      simp only [PropertyKey.same, PropertyKey.norm, PropertyKey.computed.injEq,
        Expr.same_iff e e' ha hb]

theorem Property.same_iff : ∀ (a b : Property), (∀ p ∈ propertyParts a, p.NaNFree) →
    (∀ p ∈ propertyParts b, p.NaNFree) → (a.same .ignored b = true ↔ a.norm = b.norm)
  | ⟨k, v⟩, ⟨k', v'⟩, ha, hb => by
    simp only [propertyParts, List.forall_mem_append] at ha hb
    simp only [Property.same, Property.norm, Bool.and_eq_true, Property.mk.injEq,
      PropertyKey.same_iff k k' ha.1 hb.1, Expr.same_iff v v' ha.2 hb.2]

theorem sameProperties_iff : ∀ (as bs : List Property), (∀ p ∈ propertiesParts as, p.NaNFree) →
    (∀ p ∈ propertiesParts bs, p.NaNFree) →
    (sameProperties .ignored as bs = true ↔ normProperties as = normProperties bs)
  | [], bs, _, _ => by cases bs <;> simp [sameProperties, normProperties]
  | a :: as, bs, ha, hb => by
    cases bs with
    | nil => simp [sameProperties, normProperties]
    | cons b bs =>
      simp only [propertiesParts, List.forall_mem_append] at ha hb
      simp only [sameProperties, normProperties, Bool.and_eq_true, List.cons.injEq,
        Property.same_iff a b ha.1 hb.1, sameProperties_iff as bs ha.2 hb.2]

theorem FunctionDef.same_iff : ∀ (a b : FunctionDef), (∀ p ∈ functionParts a, p.NaNFree) →
    (∀ p ∈ functionParts b, p.NaNFree) → (a.same .ignored b = true ↔ a.norm = b.norm)
  | ⟨n, ps, body⟩, ⟨n', ps', body'⟩, ha, hb => by
    simp only [functionParts, List.forall_mem_cons] at ha hb
    simp only [FunctionDef.same, FunctionDef.norm, Bool.and_eq_true, beq_iff_eq,
      FunctionDef.mk.injEq, and_assoc, sameStmts_iff body body' ha.2 hb.2]

theorem Stmt.same_iff : ∀ (a b : Stmt), (∀ p ∈ stmtParts a, p.NaNFree) →
    (∀ p ∈ stmtParts b, p.NaNFree) → (a.same .ignored b = true ↔ a.norm = b.norm)
  | .expr e, b, ha, hb => by
    cases b with
    | expr e' =>
      simp only [stmtParts, List.forall_mem_cons] at ha hb
      simp only [Stmt.same, Stmt.norm, Stmt.expr.injEq, Expr.same_iff e e' ha.2 hb.2]
    | _ => simp [Stmt.same, Stmt.norm]
  | .declare x init m, b, ha, hb => by
    cases b with
    | declare x' init' m' =>
      simp only [stmtParts, List.forall_mem_cons] at ha hb
      simp [Stmt.same, Stmt.norm, Hints.areIgnored, sameOptionExpr_iff init init' ha.2 hb.2]
    | _ => simp [Stmt.same, Stmt.norm]
  | .block body, b, ha, hb => by
    cases b with
    | block body' =>
      simp only [stmtParts, List.forall_mem_cons] at ha hb
      simp only [Stmt.same, Stmt.norm, Stmt.block.injEq, sameStmts_iff body body' ha.2 hb.2]
    | _ => simp [Stmt.same, Stmt.norm]
  | .ifElse t s o, b, ha, hb => by
    cases b with
    | ifElse t' s' o' =>
      simp only [stmtParts, List.forall_mem_cons, List.forall_mem_append] at ha hb
      simp only [Stmt.same, Stmt.norm, Bool.and_eq_true, Stmt.ifElse.injEq, and_assoc,
        Expr.same_iff t t' ha.2.1.1 hb.2.1.1, Stmt.same_iff s s' ha.2.1.2 hb.2.1.2,
        sameOptionStmt_iff o o' ha.2.2 hb.2.2]
    | _ => simp [Stmt.same, Stmt.norm]
  | .forOf x e s, b, ha, hb => by
    cases b with
    | forOf x' e' s' =>
      simp only [stmtParts, List.forall_mem_cons, List.forall_mem_append] at ha hb
      simp only [Stmt.same, Stmt.norm, Bool.and_eq_true, beq_iff_eq, Stmt.forOf.injEq, and_assoc,
        Expr.same_iff e e' ha.2.1 hb.2.1, Stmt.same_iff s s' ha.2.2 hb.2.2]
    | _ => simp [Stmt.same, Stmt.norm]
  | .returns e, b, ha, hb => by
    cases b with
    | returns e' =>
      simp only [stmtParts, List.forall_mem_cons] at ha hb
      simp only [Stmt.same, Stmt.norm, Stmt.returns.injEq, sameOptionExpr_iff e e' ha.2 hb.2]
    | _ => simp [Stmt.same, Stmt.norm]
  | .throws e, b, ha, hb => by
    cases b with
    | throws e' =>
      simp only [stmtParts, List.forall_mem_cons] at ha hb
      simp only [Stmt.same, Stmt.norm, Stmt.throws.injEq, Expr.same_iff e e' ha.2 hb.2]
    | _ => simp [Stmt.same, Stmt.norm]
  | .function f, b, ha, hb => by
    cases b with
    | function f' =>
      simp only [stmtParts, List.forall_mem_cons] at ha hb
      simp only [Stmt.same, Stmt.norm, Stmt.function.injEq, FunctionDef.same_iff f f' ha.2 hb.2]
    | _ => simp [Stmt.same, Stmt.norm]
  | .imports i, b, _, _ => by cases b <;> simp [Stmt.same, Stmt.norm]
  | .module m, b, ha, hb => by
    cases b with
    | module m' =>
      simp only [stmtParts, List.forall_mem_cons] at ha hb
      simp only [Stmt.same, Stmt.norm, Stmt.module.injEq, ModuleDef.same_iff m m' ha.2 hb.2]
    | _ => simp [Stmt.same, Stmt.norm]

theorem sameOptionStmt_iff : ∀ (a b : Option Stmt), (∀ p ∈ optionStmtParts a, p.NaNFree) →
    (∀ p ∈ optionStmtParts b, p.NaNFree) →
    (sameOptionStmt .ignored a b = true ↔ normOptionStmt a = normOptionStmt b)
  | none, b, _, _ => by cases b <;> simp [sameOptionStmt, normOptionStmt]
  | some a, b, ha, hb => by
    cases b with
    | none => simp [sameOptionStmt, normOptionStmt]
    | some b =>
      rw [optionStmtParts] at ha hb
      simp only [sameOptionStmt, normOptionStmt, Option.some.injEq, Stmt.same_iff a b ha hb]

theorem sameStmts_iff : ∀ (as bs : List Stmt), (∀ p ∈ stmtsParts as, p.NaNFree) →
    (∀ p ∈ stmtsParts bs, p.NaNFree) →
    (sameStmts .ignored as bs = true ↔ normStmts as = normStmts bs)
  | [], bs, _, _ => by cases bs <;> simp [sameStmts, normStmts]
  | a :: as, bs, ha, hb => by
    cases bs with
    | nil => simp [sameStmts, normStmts]
    | cons b bs =>
      simp only [stmtsParts, List.forall_mem_append] at ha hb
      simp only [sameStmts, normStmts, Bool.and_eq_true, List.cons.injEq,
        Stmt.same_iff a b ha.1 hb.1, sameStmts_iff as bs ha.2 hb.2]

theorem ModuleFunction.same_iff : ∀ (a b : ModuleFunction),
    (∀ p ∈ moduleFunctionParts a, p.NaNFree) → (∀ p ∈ moduleFunctionParts b, p.NaNFree) →
    (a.same .ignored b = true ↔ a.norm = b.norm)
  | ⟨f, e⟩, ⟨f', e'⟩, ha, hb => by
    rw [moduleFunctionParts] at ha hb
    simp only [ModuleFunction.same, ModuleFunction.norm, Bool.and_eq_true, beq_iff_eq,
      ModuleFunction.mk.injEq, FunctionDef.same_iff f f' ha hb]
    exact and_comm

theorem sameFunctions_iff : ∀ (as bs : List ModuleFunction),
    (∀ p ∈ moduleFunctionsParts as, p.NaNFree) → (∀ p ∈ moduleFunctionsParts bs, p.NaNFree) →
    (sameFunctions .ignored as bs = true ↔ normFunctions as = normFunctions bs)
  | [], bs, _, _ => by cases bs <;> simp [sameFunctions, normFunctions]
  | a :: as, bs, ha, hb => by
    cases bs with
    | nil => simp [sameFunctions, normFunctions]
    | cons b bs =>
      simp only [moduleFunctionsParts, List.forall_mem_append] at ha hb
      simp only [sameFunctions, normFunctions, Bool.and_eq_true, List.cons.injEq,
        ModuleFunction.same_iff a b ha.1 hb.1, sameFunctions_iff as bs ha.2 hb.2]

theorem ModuleDef.same_iff : ∀ (a b : ModuleDef), (∀ p ∈ moduleParts a, p.NaNFree) →
    (∀ p ∈ moduleParts b, p.NaNFree) → (a.same .ignored b = true ↔ a.norm = b.norm)
  | ⟨n, is, body, fs⟩, ⟨n', is', body', fs'⟩, ha, hb => by
    simp only [moduleParts, List.forall_mem_append] at ha hb
    simp only [ModuleDef.same, ModuleDef.norm, Bool.and_eq_true, beq_iff_eq, ModuleDef.mk.injEq,
      and_assoc, sameStmts_iff body body' ha.1 hb.1, sameFunctions_iff fs fs' ha.2 hb.2]

end

end TreeLowering.Target
