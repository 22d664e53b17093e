import TreeLowering.Target.Tree

/-!
Two equalities of target trees.

`same .compared` asks for the same tree, numbers being compared as numbers. `same .ignored` leaves
out the hints that only choose a spelling: whether a declaration is mutable, whether a property
named by a string is written with a dot or in brackets, and whether an entry's string key is
written as a name or in brackets.
-/
namespace TreeLowering.Target

/-- Whether spelling hints count. -/
inductive Hints where
  | compared
  | ignored
deriving DecidableEq, Repr

namespace Hints

def areIgnored : Hints → Bool
  | .compared => false
  | .ignored => true

end Hints

/-- Equality of literals, floats being compared as numbers. -/
def Literal.same : Literal → Literal → Bool
  | .float x, .float y => x.numericEq y
  | a, b => a == b

mutual

def Expr.same (h : Hints) : Expr → Expr → Bool
  | .literal a, .literal b => a.same b
  | .ident a, .ident b => a == b
  | .binary l₁ o₁ r₁, .binary l₂ o₂ r₂ => o₁ == o₂ && l₁.same h l₂ && r₁.same h r₂
  | .unary o₁ e₁, .unary o₂ e₂ => o₁ == o₂ && e₁.same h e₂
  | .call c₁ a₁, .call c₂ a₂ => c₁.same h c₂ && sameExprs h a₁ a₂
  | .construct c₁ a₁, .construct c₂ a₂ => c₁.same h c₂ && sameExprs h a₁ a₂
  | .member o₁ p₁ c₁, .member o₂ p₂ c₂ =>
    o₁.same h o₂ && p₁.same h p₂ &&
      (c₁ == c₂ || (h.areIgnored && p₁.isStringLiteral && p₂.isStringLiteral))
  | .array a, .array b => sameExprs h a b
  | .object a, .object b => sameProperties h a b
  | .function a, .function b => a.same h b
  | .conditional t₁ c₁ a₁, .conditional t₂ c₂ a₂ =>
    t₁.same h t₂ && c₁.same h c₂ && a₁.same h a₂
  | _, _ => false

def sameExprs (h : Hints) : List Expr → List Expr → Bool
  | [], [] => true
  | a :: as, b :: bs => a.same h b && sameExprs h as bs
  | _, _ => false

def PropertyKey.same (h : Hints) : PropertyKey → PropertyKey → Bool
  | .name a, .name b => a == b
  | .computed a, .computed b => a.same h b
  | .name a, .computed (.literal (.string b)) => h.areIgnored && a == b
  | .computed (.literal (.string a)), .name b => h.areIgnored && a == b
  | _, _ => false

def Property.same (h : Hints) : Property → Property → Bool
  | ⟨k₁, v₁⟩, ⟨k₂, v₂⟩ => k₁.same h k₂ && v₁.same h v₂

def sameProperties (h : Hints) : List Property → List Property → Bool
  | [], [] => true
  | a :: as, b :: bs => a.same h b && sameProperties h as bs
  | _, _ => false

def FunctionDef.same (h : Hints) : FunctionDef → FunctionDef → Bool
  | ⟨n₁, p₁, b₁⟩, ⟨n₂, p₂, b₂⟩ => n₁ == n₂ && p₁ == p₂ && sameStmts h b₁ b₂

def Stmt.same (h : Hints) : Stmt → Stmt → Bool
  | .expr a, .expr b => a.same h b
  | .declare n₁ i₁ m₁, .declare n₂ i₂ m₂ =>
    n₁ == n₂ && sameOptionExpr h i₁ i₂ && (m₁ == m₂ || h.areIgnored)
  | .block a, .block b => sameStmts h a b
  | .ifElse t₁ c₁ a₁, .ifElse t₂ c₂ a₂ =>
    t₁.same h t₂ && c₁.same h c₂ && sameOptionStmt h a₁ a₂
  | .forOf v₁ i₁ b₁, .forOf v₂ i₂ b₂ => v₁ == v₂ && i₁.same h i₂ && b₁.same h b₂
  | .returns a, .returns b => sameOptionExpr h a b
  | .throws a, .throws b => a.same h b
  | .function a, .function b => a.same h b
  | .imports a, .imports b => a == b
  | .module a, .module b => a.same h b
  | _, _ => false

def sameStmts (h : Hints) : List Stmt → List Stmt → Bool
  | [], [] => true
  | a :: as, b :: bs => a.same h b && sameStmts h as bs
  | _, _ => false

def sameOptionExpr (h : Hints) : Option Expr → Option Expr → Bool
  | none, none => true
  | some a, some b => a.same h b
  | _, _ => false

def sameOptionStmt (h : Hints) : Option Stmt → Option Stmt → Bool
  | none, none => true
  | some a, some b => a.same h b
  | _, _ => false

def ModuleFunction.same (h : Hints) : ModuleFunction → ModuleFunction → Bool
  | ⟨f₁, e₁⟩, ⟨f₂, e₂⟩ => e₁ == e₂ && f₁.same h f₂

def sameFunctions (h : Hints) : List ModuleFunction → List ModuleFunction → Bool
  | [], [] => true
  | a :: as, b :: bs => a.same h b && sameFunctions h as bs
  | _, _ => false

def ModuleDef.same (h : Hints) : ModuleDef → ModuleDef → Bool
  | ⟨n₁, i₁, b₁, f₁⟩, ⟨n₂, i₂, b₂, f₂⟩ =>
    n₁ == n₂ && i₁ == i₂ && sameStmts h b₁ b₂ && sameFunctions h f₁ f₂

end

def Program.same (h : Hints) (a b : Program) : Bool := sameStmts h a.body b.body

end TreeLowering.Target
