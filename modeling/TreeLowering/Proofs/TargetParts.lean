import TreeLowering.Target.Tree

/-!
The parts of a target tree.

A tree's parts are the expressions, statements and functions that occur anywhere in it, the tree
itself among them. A fact about all of a tree is said of its parts.
-/
namespace TreeLowering.Target

inductive Part where
  | expr (e : Expr)
  | stmt (s : Stmt)
  | function (f : FunctionDef)

mutual

@[simp]
def exprParts : Expr → List Part
  | .literal value => [.expr (.literal value)]
  | .ident name => [.expr (.ident name)]
  | .binary left op right => .expr (.binary left op right) :: (exprParts left ++ exprParts right)
  | .unary op operand => .expr (.unary op operand) :: exprParts operand
  | .call callee args => .expr (.call callee args) :: (exprParts callee ++ exprsParts args)
  | .construct callee args =>
    .expr (.construct callee args) :: (exprParts callee ++ exprsParts args)
  | .member object property computed =>
    .expr (.member object property computed) :: (exprParts object ++ exprParts property)
  | .array items => .expr (.array items) :: exprsParts items
  | .object properties => .expr (.object properties) :: propertiesParts properties
  | .function definition => .expr (.function definition) :: functionParts definition
  | .conditional test consequent alternate =>
    .expr (.conditional test consequent alternate) ::
      (exprParts test ++ exprParts consequent ++ exprParts alternate)

@[simp]
def exprsParts : List Expr → List Part
  | [] => []
  | e :: es => exprParts e ++ exprsParts es

@[simp]
def optionParts : Option Expr → List Part
  | none => []
  | some e => exprParts e

@[simp]
def keyParts : PropertyKey → List Part
  | .name _ => []
  | .computed key => exprParts key

@[simp]
def propertyParts : Property → List Part
  | ⟨key, value⟩ => keyParts key ++ exprParts value

@[simp]
def propertiesParts : List Property → List Part
  | [] => []
  | p :: ps => propertyParts p ++ propertiesParts ps

@[simp]
def functionParts : FunctionDef → List Part
  | ⟨name, params, body⟩ => .function ⟨name, params, body⟩ :: stmtsParts body

@[simp]
def stmtParts : Stmt → List Part
  | .expr value => .stmt (.expr value) :: exprParts value
  | .declare name init isMutable => .stmt (.declare name init isMutable) :: optionParts init
  | .block body => .stmt (.block body) :: stmtsParts body
  | .ifElse test consequent alternate =>
    .stmt (.ifElse test consequent alternate) ::
      (exprParts test ++ stmtParts consequent ++ optionStmtParts alternate)
  | .forOf name iterable body =>
    .stmt (.forOf name iterable body) :: (exprParts iterable ++ stmtParts body)
  | .returns value => .stmt (.returns value) :: optionParts value
  | .throws value => .stmt (.throws value) :: exprParts value
  | .function definition => .stmt (.function definition) :: functionParts definition
  | .imports declaration => [.stmt (.imports declaration)]
  | .module definition => .stmt (.module definition) :: moduleParts definition

@[simp]
def optionStmtParts : Option Stmt → List Part
  | none => []
  | some s => stmtParts s

@[simp]
def stmtsParts : List Stmt → List Part
  | [] => []
  | s :: rest => stmtParts s ++ stmtsParts rest

@[simp]
def moduleFunctionParts : ModuleFunction → List Part
  | ⟨function, _⟩ => functionParts function

@[simp]
def moduleFunctionsParts : List ModuleFunction → List Part
  | [] => []
  | f :: rest => moduleFunctionParts f ++ moduleFunctionsParts rest

@[simp]
def moduleParts : ModuleDef → List Part
  | ⟨_, _, body, functions⟩ => stmtsParts body ++ moduleFunctionsParts functions

end

mutual

/-- The parts of statements at the top of a program or of a module body, without the imports and
the modules that stand there. -/
@[simp]
def topParts : List Stmt → List Part
  | [] => []
  | s :: rest => topStmtParts s ++ topParts rest

@[simp]
def topStmtParts : Stmt → List Part
  | .imports _ => []
  | .module definition => insideParts definition
  | s => stmtParts s

@[simp]
def insideParts : ModuleDef → List Part
  | ⟨_, _, body, functions⟩ => topParts body ++ moduleFunctionsParts functions

end

theorem exprsParts_eq (es : List Expr) : exprsParts es = es.flatMap exprParts := by
  induction es with
  | nil => rfl
  | cons e es ih => simp [ih]

theorem propertiesParts_eq (ps : List Property) :
    propertiesParts ps = ps.flatMap propertyParts := by
  induction ps with
  | nil => rfl
  | cons p ps ih => simp [ih]

theorem stmtsParts_eq (ss : List Stmt) : stmtsParts ss = ss.flatMap stmtParts := by
  induction ss with
  | nil => rfl
  | cons s ss ih => simp [ih]

theorem moduleFunctionParts_eq (f : ModuleFunction) :
    moduleFunctionParts f = functionParts f.function := by
  cases f
  rw [moduleFunctionParts]

theorem moduleFunctionsParts_eq (fs : List ModuleFunction) :
    moduleFunctionsParts fs = fs.flatMap moduleFunctionParts := by
  induction fs with
  | nil => rfl
  | cons f fs ih => simp [ih]

theorem topParts_eq (ss : List Stmt) : topParts ss = ss.flatMap topStmtParts := by
  induction ss with
  | nil => rfl
  | cons s ss ih => simp [ih]

end TreeLowering.Target
