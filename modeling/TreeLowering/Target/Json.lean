import TreeLowering.Source.Json
import TreeLowering.Target.Tree

/-!
Target trees as JSON, in the form in which a printer takes them over. Floats are read as JSON numbers
and written by their bits.
-/
namespace TreeLowering.Target

open Json Json.Decoder

def Literal.decoder : Decoder Literal :=
  unionOf [("Null", .null)]
    [("Bool", .bool <$> flag), ("Integer", .integer <$> int64), ("Float", .float <$> binary64),
     ("String", .string <$> text)]

def Literal.toJson : Literal → Value
  | .null => .text "Null"
  | .bool b => .tagged "Bool" (.bool b)
  | .integer n => .tagged "Integer" (.int n.toInt)
  | .float x => .tagged "Float" x.toJson
  | .string s => .tagged "String" (.text s)

namespace BinaryOp

def tag : BinaryOp → String
  | .add => "Add"
  | .sub => "Sub"
  | .mul => "Mul"
  | .div => "Div"
  | .mod => "Mod"
  | .eq => "Eq"
  | .ne => "Ne"
  | .lt => "Lt"
  | .le => "Le"
  | .gt => "Gt"
  | .ge => "Ge"
  | .and => "And"
  | .or => "Or"
  | .in_ => "In"
  | .instanceOf => "InstanceOf"

def all : List BinaryOp :=
  [.add, .sub, .mul, .div, .mod, .eq, .ne, .lt, .le, .gt, .ge, .and, .or, .in_, .instanceOf]

def decoder : Decoder BinaryOp := unionOf (all.map fun op => (op.tag, op)) []

def toJson (op : BinaryOp) : Value := .text op.tag

end BinaryOp

def UnaryOp.decoder : Decoder UnaryOp :=
  unionOf [("Neg", .neg), ("Not", .not), ("TypeOf", .typeOf)] []

def UnaryOp.toJson : UnaryOp → Value
  | .neg => .text "Neg"
  | .not => .text "Not"
  | .typeOf => .text "TypeOf"

def ImportBinding.decoder : Decoder ImportBinding :=
  unionOf []
    [("Namespace", .everything <$> text), ("Named", .named <$> listOf text),
     ("Default", .default <$> text)]

def ImportBinding.toJson : ImportBinding → Value
  | .everything name => .tagged "Namespace" (.text name)
  | .named names => .tagged "Named" (.texts names)
  | .default name => .tagged "Default" (.text name)

def Import.decoder : Decoder Import :=
  recordOf ["binding", "source"] fun r => do
    return ⟨← r.required "binding" ImportBinding.decoder, ← r.required "source" text⟩

def Import.toJson (i : Import) : Value :=
  .record [("binding", i.binding.toJson), ("source", .text i.source)]

def PropertyKey.decoderWith (expr : Decoder Expr) : Decoder PropertyKey :=
  unionOf [] [("Name", .name <$> text), ("Computed", .computed <$> expr)]

def Property.decoderWith (expr : Decoder Expr) : Decoder Property :=
  recordOf ["key", "value"] fun r => do
    return ⟨← r.required "key" (PropertyKey.decoderWith expr), ← r.required "value" expr⟩

def FunctionDef.decoderWith (stmt : Decoder Stmt) : Decoder FunctionDef :=
  recordOf ["name", "params", "body"] fun r => do
    return ⟨← r.required "name" text, ← r.required "params" (listOf text),
      ← r.required "body" (listOf stmt)⟩

def ModuleFunction.decoderWith (stmt : Decoder Stmt) : Decoder ModuleFunction :=
  recordOf ["function", "exported"] fun r => do
    return ⟨← r.required "function" (FunctionDef.decoderWith stmt), ← r.required "exported" flag⟩

def ModuleDef.decoderWith (stmt : Decoder Stmt) : Decoder ModuleDef :=
  recordOf ["name", "imports", "body", "functions"] fun r => do
    return ⟨← r.required "name" text, ← r.required "imports" (listOf Import.decoder),
      ← r.required "body" (listOf stmt),
      ← r.required "functions" (listOf (ModuleFunction.decoderWith stmt))⟩

/-- The expressions with a payload, given how trees inside it are read. -/
def Expr.variants (expr : Decoder Expr) (stmt : Decoder Stmt) : List (String × Decoder Expr) :=
  let exprs := listOf expr
  [("Literal", .literal <$> Literal.decoder),
   ("Ident", .ident <$> text),
   ("Binary", recordOf ["left", "op", "right"] fun r => do
      return .binary (← r.required "left" expr) (← r.required "op" BinaryOp.decoder)
        (← r.required "right" expr)),
   ("Unary", recordOf ["op", "expr"] fun r => do
      return .unary (← r.required "op" UnaryOp.decoder) (← r.required "expr" expr)),
   ("Call", recordOf ["callee", "args"] fun r => do
      return .call (← r.required "callee" expr) (← r.required "args" exprs)),
   ("New", recordOf ["callee", "args"] fun r => do
      return .construct (← r.required "callee" expr) (← r.required "args" exprs)),
   ("Member", recordOf ["object", "property", "computed"] fun r => do
      return .member (← r.required "object" expr) (← r.required "property" expr)
        (← r.required "computed" flag)),
   ("Array", .array <$> exprs),
   ("Object", .object <$> listOf (Property.decoderWith expr)),
   ("Function", .function <$> FunctionDef.decoderWith stmt),
   ("Conditional", recordOf ["test", "consequent", "alternate"] fun r => do
      return .conditional (← r.required "test" expr) (← r.required "consequent" expr)
        (← r.required "alternate" expr))]

/-- The statements, given how trees inside them are read. -/
def Stmt.variants (expr : Decoder Expr) (stmt : Decoder Stmt) : List (String × Decoder Stmt) :=
  [("Expr", .expr <$> expr),
   ("Let", recordOf ["name", "init", "mutable"] fun r => do
      return .declare (← r.required "name" text) (← r.optional "init" expr)
        (← r.required "mutable" flag)),
   ("Block", .block <$> listOf stmt),
   ("If", recordOf ["test", "consequent", "alternate"] fun r => do
      return .ifElse (← r.required "test" expr) (← r.required "consequent" stmt)
        (← r.optional "alternate" stmt)),
   ("ForIn", recordOf ["variable", "iterable", "body"] fun r => do
      return .forOf (← r.required "variable" text) (← r.required "iterable" expr)
        (← r.required "body" stmt)),
   ("Return", .returns <$> optionOf expr),
   ("Throw", .throws <$> expr),
   ("Function", .function <$> FunctionDef.decoderWith stmt),
   ("Import", .imports <$> Import.decoder),
   ("Module", .module <$> ModuleDef.decoderWith stmt)]

mutual

/-- Reads an expression in which trees nest at most so many times. -/
def Expr.decoderWithin : Nat → Decoder Expr
  | 0 => fun _ _ => none
  | depth + 1 =>
    unionOf [] (Expr.variants (Expr.decoderWithin depth) (Stmt.decoderWithin depth))

/-- Reads a statement in which trees nest at most so many times. -/
def Stmt.decoderWithin : Nat → Decoder Stmt
  | 0 => fun _ _ => none
  | depth + 1 =>
    unionOf [] (Stmt.variants (Expr.decoderWithin depth) (Stmt.decoderWithin depth))

end

/-- Reads an expression; a tree inside a tree takes a level of nesting. -/
def Expr.decoder : Decoder Expr := fun levels v => Expr.decoderWithin (levels + 1) levels v

/-- Reads a statement; a tree inside a tree takes a level of nesting. -/
def Stmt.decoder : Decoder Stmt := fun levels v => Stmt.decoderWithin (levels + 1) levels v

def Property.decoder : Decoder Property := Property.decoderWith Expr.decoder

def FunctionDef.decoder : Decoder FunctionDef := FunctionDef.decoderWith Stmt.decoder

def ModuleFunction.decoder : Decoder ModuleFunction := ModuleFunction.decoderWith Stmt.decoder

def ModuleDef.decoder : Decoder ModuleDef := ModuleDef.decoderWith Stmt.decoder

def Program.decoder : Decoder Program :=
  recordOf ["body"] fun r => do return ⟨← r.required "body" (listOf Stmt.decoder)⟩

mutual

def Expr.toJson : Expr → Value
  | .literal l => .tagged "Literal" l.toJson
  | .ident name => .tagged "Ident" (.text name)
  | .binary left op right =>
    .tagged "Binary"
      (.record [("left", left.toJson), ("op", op.toJson), ("right", right.toJson)])
  | .unary op operand =>
    .tagged "Unary" (.record [("op", op.toJson), ("expr", operand.toJson)])
  | .call callee args =>
    .tagged "Call" (.record [("callee", callee.toJson), ("args", .array (exprsToJson args))])
  | .construct callee args =>
    .tagged "New" (.record [("callee", callee.toJson), ("args", .array (exprsToJson args))])
  | .member object property computed =>
    .tagged "Member" (.record
      [("object", object.toJson), ("property", property.toJson), ("computed", .bool computed)])
  | .array items => .tagged "Array" (.array (exprsToJson items))
  | .object properties => .tagged "Object" (.array (propertiesToJson properties))
  | .function f => .tagged "Function" f.toJson
  | .conditional test consequent alternate =>
    .tagged "Conditional" (.record
      [("test", test.toJson), ("consequent", consequent.toJson),
       ("alternate", alternate.toJson)])

def exprsToJson : List Expr → List Value
  | [] => []
  | e :: es => e.toJson :: exprsToJson es

def PropertyKey.toJson : PropertyKey → Value
  | .name s => .tagged "Name" (.text s)
  | .computed key => .tagged "Computed" key.toJson

def Property.toJson : Property → Value
  | ⟨key, value⟩ => .record [("key", key.toJson), ("value", value.toJson)]

def propertiesToJson : List Property → List Value
  | [] => []
  | p :: ps => p.toJson :: propertiesToJson ps

def FunctionDef.toJson : FunctionDef → Value
  | ⟨name, params, body⟩ =>
    .record [("name", .text name), ("params", .texts params), ("body", .array (stmtsToJson body))]

def Stmt.toJson : Stmt → Value
  | .expr value => .tagged "Expr" value.toJson
  | .declare name init isMutable =>
    .tagged "Let" (.record
      [("name", .text name), ("init", optionExprToJson init), ("mutable", .bool isMutable)])
  | .block body => .tagged "Block" (.array (stmtsToJson body))
  | .ifElse test consequent alternate =>
    .tagged "If" (.record
      [("test", test.toJson), ("consequent", consequent.toJson),
       ("alternate", optionStmtToJson alternate)])
  | .forOf name iterable body =>
    .tagged "ForIn" (.record
      [("variable", .text name), ("iterable", iterable.toJson), ("body", body.toJson)])
  | .returns value => .tagged "Return" (optionExprToJson value)
  | .throws value => .tagged "Throw" value.toJson
  | .function f => .tagged "Function" f.toJson
  | .imports i => .tagged "Import" i.toJson
  | .module m => .tagged "Module" m.toJson

def stmtsToJson : List Stmt → List Value
  | [] => []
  | s :: ss => s.toJson :: stmtsToJson ss

def optionExprToJson : Option Expr → Value
  | none => .null
  | some e => e.toJson

def optionStmtToJson : Option Stmt → Value
  | none => .null
  | some s => s.toJson

def ModuleFunction.toJson : ModuleFunction → Value
  | ⟨f, exported⟩ => .record [("function", f.toJson), ("exported", .bool exported)]

def functionsToJson : List ModuleFunction → List Value
  | [] => []
  | f :: fs => f.toJson :: functionsToJson fs

def ModuleDef.toJson : ModuleDef → Value
  | ⟨name, imports, body, functions⟩ =>
    .record
      [("name", .text name), ("imports", .array (imports.map Import.toJson)),
       ("body", .array (stmtsToJson body)), ("functions", .array (functionsToJson functions))]

end

def Program.toJson (p : Program) : Value := .record [("body", .array (stmtsToJson p.body))]

end TreeLowering.Target
