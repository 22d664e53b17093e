import TreeLowering.Json.Decoder
import TreeLowering.Json.Reader
import TreeLowering.Source.Node

/-!
Source trees as JSON.

`Node.decoder` reads the form in which a front end hands a tree over, and `Node.toJson` writes a tree
in that form with every field present. Floats are the one exception: they are read as JSON numbers
and written by their bits, in hexadecimal, which loses nothing.
-/
namespace TreeLowering

open Json

/-- A double by its bits. -/
def Binary64.toJson (x : Binary64) : Value :=
  let digits := Nat.toDigits 16 x.bits.toNat
  .text ("f64:" ++ String.ofList (List.replicate (16 - digits.length) '0' ++ digits))

namespace Json.Value

def optional {α : Type} (f : α → Value) : Option α → Value
  | none => .null
  | some a => f a

def texts (ss : List String) : Value := .array (ss.map .text)

end Json.Value

namespace Source

open Json.Decoder

def Visibility.decoder : Decoder Visibility :=
  unionOf [("Public", .exported), ("Private", .internal)] []

def Visibility.toJson : Visibility → Value
  | .exported => .text "Public"
  | .internal => .text "Private"

def Resolution.decoder : Decoder Resolution :=
  unionOf [("Local", .unqualified), ("ImportedUnqualified", .imported)]
    [("Qualified", .qualified <$> listOf text)]

def Resolution.toJson : Resolution → Value
  | .unqualified => .text "Local"
  | .imported => .text "ImportedUnqualified"
  | .qualified module => .tagged "Qualified" (.texts module)

def CallMeta.decoder : Decoder CallMeta :=
  recordOf ["resolution", "line"] fun r => do
    return ⟨← r.defaulted "resolution" Resolution.decoder .unqualified,
      ← r.defaulted "line" (optionOf uint32) none⟩

def CallMeta.toJson (info : CallMeta) : Value :=
  .record [("resolution", info.resolution.toJson), ("line", .optional (.int ·.toNat) info.line)]

def Access.decoder : Decoder Access := unionOf [("Field", .field), ("Call", .call)] []

def Access.toJson : Access → Value
  | .field => .text "Field"
  | .call => .text "Call"

def DotMeta.decoder : Decoder DotMeta :=
  recordOf ["access", "line"] fun r => do
    return ⟨← r.defaulted "access" (optionOf Access.decoder) none,
      ← r.defaulted "line" (optionOf uint32) none⟩

def DotMeta.toJson (info : DotMeta) : Value :=
  .record
    [("access", .optional Access.toJson info.access), ("line", .optional (.int ·.toNat) info.line)]

def Segment.decoder {α : Type} (d : Decoder α) : Decoder (Segment α) :=
  unionOf [] [("Value", .plain <$> d), ("Interpolated", .interpolated <$> d)]

def Clause.decoder {α : Type} (d : Decoder α) : Decoder (Clause α) :=
  recordOf ["head", "body"] fun r => do
    return ⟨← r.required "head" (listOf d), ← r.required "body" (listOf d)⟩

def Qualifier.decoder {α : Type} (d : Decoder α) : Decoder (Qualifier α) :=
  unionOf []
    [("Generator", recordOf ["pattern", "collection"] fun r => do
        return .generator (← r.required "pattern" d) (← r.required "collection" d)),
     ("Filter", .filter <$> d)]

namespace Node

/-- The forms with a payload, given how nodes inside it are read. -/
def variants (node : Decoder Node) : List (String × Decoder Node) :=
  let nodes := listOf node
  let entries := listOf (pairOf node node)
  let clauses := listOf (Clause.decoder node)
  let fields := listOf (pairOf text node)
  let names := listOf text
  [("Integer", .integer <$> int64),
   ("Float", .float <$> binary64),
   ("String", .string <$> text),
   ("Boolean", .boolean <$> flag),
   ("Atom", .atom <$> text),
   ("Var", recordOf ["name"] fun r => do return .var (← r.required "name" text)),
   ("Alias", recordOf ["segments"] fun r => do return .moduleName (← r.required "segments" names)),
   ("List", .list <$> nodes),
   ("Cons", recordOf ["head", "tail"] fun r => do
      return .cons (← r.required "head" nodes) (← r.required "tail" node)),
   ("Tuple", .tuple <$> nodes),
   ("Binary", .binary <$> listOf (Segment.decoder node)),
   ("Map", .map <$> entries),
   ("MapUpdate", recordOf ["map", "updates"] fun r => do
      return .mapUpdate (← r.required "map" node) (← r.required "updates" entries)),
   ("Struct", recordOf ["module", "fields", "update"] fun r => do
      return .struct (← r.required "module" node) (← r.required "fields" entries)
        (← r.optional "update" node)),
   ("Bind", recordOf ["pattern", "value"] fun r => do
      return .bind (← r.required "pattern" node) (← r.required "value" node)),
   ("Pin", .pin <$> node),
   ("When", recordOf ["exprs", "guard"] fun r => do
      return .guarded (← r.required "exprs" nodes) (← r.required "guard" node)),
   ("BinaryOp", recordOf ["op", "left", "right"] fun r => do
      return .binaryOp (← r.required "op" text) (← r.required "left" node)
        (← r.required "right" node)),
   ("UnaryOp", recordOf ["op", "operand"] fun r => do
      return .unaryOp (← r.required "op" text) (← r.required "operand" node)),
   ("Pipe", recordOf ["left", "right"] fun r => do
      return .pipe (← r.required "left" node) (← r.required "right" node)),
   ("Range", recordOf ["first", "last", "step"] fun r => do
      return .range (← r.required "first" node) (← r.required "last" node)
        (← r.optional "step" node)),
   ("Call", recordOf ["name", "args", "meta"] fun r => do
      return .call (← r.required "name" text) (← r.required "args" nodes)
        (← r.defaulted "meta" CallMeta.decoder {})),
   ("Dot", recordOf ["target", "name", "args", "meta"] fun r => do
      return .dot (← r.required "target" node) (← r.required "name" text)
        (← r.optional "args" nodes) (← r.defaulted "meta" DotMeta.decoder {})),
   ("Apply", recordOf ["fun", "args"] fun r => do
      return .apply (← r.required "fun" node) (← r.required "args" nodes)),
   ("Capture", recordOf ["module", "name", "arity"] fun r => do
      return .capture (← r.optional "module" node) (← r.required "name" text)
        (← r.required "arity" uint64)),
   ("Fn", .fn <$> clauses),
   ("Case", recordOf ["subject", "clauses"] fun r => do
      return .caseOf (← r.required "subject" node) (← r.required "clauses" clauses)),
   ("Cond", .cond <$> clauses),
   ("If", recordOf ["condition", "then", "otherwise"] fun r => do
      return .ifElse (← r.required "condition" node) (← r.required "then" nodes)
        (← r.optional "otherwise" nodes)),
   ("Unless", recordOf ["condition", "then", "otherwise"] fun r => do
      return .unlessElse (← r.required "condition" node) (← r.required "then" nodes)
        (← r.optional "otherwise" nodes)),
   ("For", recordOf ["qualifiers", "body", "into"] fun r => do
      return .comprehension (← r.required "qualifiers" (listOf (Qualifier.decoder node)))
        (← r.required "body" nodes) (← r.optional "into" node)),
   ("Block", .block <$> nodes),
   ("Def", recordOf ["visibility", "head", "body"] fun r => do
      return .define (← r.required "visibility" Visibility.decoder) (← r.required "head" node)
        (← r.required "body" nodes)),
   ("Module", recordOf ["name", "body"] fun r => do
      return .module (← r.required "name" names) (← r.required "body" nodes)),
   ("Attribute", recordOf ["name", "value"] fun r => do
      return .attributeSet (← r.required "name" text) (← r.required "value" node)),
   ("AttributeRef", .attributeRead <$> text),
   ("Import", recordOf ["module"] fun r => do return .importAll (← r.required "module" names)),
   ("ImportOnly", recordOf ["module", "only"] fun r => do
      return .importOnly (← r.required "module" names)
        (← r.required "only" (listOf (pairOf text uint64)))),
   ("AliasDecl", recordOf ["module", "as_name"] fun r => do
      return .aliasAs (← r.required "module" names) (← r.optional "as_name" text)),
   ("Require", recordOf ["module", "as_name"] fun r => do
      return .require (← r.required "module" names) (← r.optional "as_name" text)),
   ("DefStruct", .defStruct <$> fields),
   ("DefException", .defException <$> fields),
   ("Raise", recordOf ["exception", "attributes"] fun r => do
      return .raise (← r.required "exception" node) (← r.optional "attributes" node))]

/-- Reads a node in which nodes nest at most so many times. -/
def decoderWithin : Nat → Decoder Node
  | 0 => fun _ _ => none
  | depth + 1 => unionOf [("Nil", .nil)] (variants (decoderWithin depth))

/-- Reads a node. A node inside a node takes a level of nesting, unless it is a bare tag. -/
def decoder : Decoder Node := fun levels v => decoderWithin (levels + 1) levels v

/-- The node that a JSON text writes. -/
def ofText? (s : String) : Option Node := do decoder.decode? (← Value.ofText? s)

mutual

def toJson : Node → Value
  | .integer n => .tagged "Integer" (.int n.toInt)
  | .float x => .tagged "Float" x.toJson
  | .string s => .tagged "String" (.text s)
  | .boolean b => .tagged "Boolean" (.bool b)
  | .nil => .text "Nil"
  | .atom name => .tagged "Atom" (.text name)
  | .var name => .tagged "Var" (.record [("name", .text name)])
  | .moduleName segments => .tagged "Alias" (.record [("segments", .texts segments)])
  | .list items => .tagged "List" (.array (listToJson items))
  | .cons head tail =>
    .tagged "Cons" (.record [("head", .array (listToJson head)), ("tail", tail.toJson)])
  | .tuple items => .tagged "Tuple" (.array (listToJson items))
  | .binary segments => .tagged "Binary" (.array (segmentsToJson segments))
  | .map entries => .tagged "Map" (.array (entriesToJson entries))
  | .mapUpdate base updates =>
    .tagged "MapUpdate"
      (.record [("map", base.toJson), ("updates", .array (entriesToJson updates))])
  | .struct tag fields update =>
    .tagged "Struct" (.record
      [("module", tag.toJson), ("fields", .array (entriesToJson fields)),
       ("update", optionToJson update)])
  | .bind pattern value =>
    .tagged "Bind" (.record [("pattern", pattern.toJson), ("value", value.toJson)])
  | .pin operand => .tagged "Pin" operand.toJson
  | .guarded exprs guard =>
    .tagged "When" (.record [("exprs", .array (listToJson exprs)), ("guard", guard.toJson)])
  | .binaryOp op left right =>
    .tagged "BinaryOp"
      (.record [("op", .text op), ("left", left.toJson), ("right", right.toJson)])
  | .unaryOp op operand =>
    .tagged "UnaryOp" (.record [("op", .text op), ("operand", operand.toJson)])
  | .pipe left right => .tagged "Pipe" (.record [("left", left.toJson), ("right", right.toJson)])
  | .range first last step =>
    .tagged "Range" (.record
      [("first", first.toJson), ("last", last.toJson), ("step", optionToJson step)])
  | .call name args info =>
    .tagged "Call" (.record
      [("name", .text name), ("args", .array (listToJson args)), ("meta", info.toJson)])
  | .dot target name args info =>
    .tagged "Dot" (.record
      [("target", target.toJson), ("name", .text name), ("args", optionListToJson args),
       ("meta", info.toJson)])
  | .apply callee args =>
    .tagged "Apply" (.record [("fun", callee.toJson), ("args", .array (listToJson args))])
  | .capture owner name arity =>
    .tagged "Capture" (.record
      [("module", optionToJson owner), ("name", .text name), ("arity", .int arity.toNat)])
  | .fn clauses => .tagged "Fn" (.array (clausesToJson clauses))
  | .caseOf subject clauses =>
    .tagged "Case"
      (.record [("subject", subject.toJson), ("clauses", .array (clausesToJson clauses))])
  | .cond clauses => .tagged "Cond" (.array (clausesToJson clauses))
  | .ifElse condition body otherwise =>
    .tagged "If" (.record
      [("condition", condition.toJson), ("then", .array (listToJson body)),
       ("otherwise", optionListToJson otherwise)])
  | .unlessElse condition body otherwise =>
    .tagged "Unless" (.record
      [("condition", condition.toJson), ("then", .array (listToJson body)),
       ("otherwise", optionListToJson otherwise)])
  | .comprehension qualifiers body into =>
    .tagged "For" (.record
      [("qualifiers", .array (qualifiersToJson qualifiers)), ("body", .array (listToJson body)),
       ("into", optionToJson into)])
  | .block items => .tagged "Block" (.array (listToJson items))
  | .define visibility head body =>
    .tagged "Def" (.record
      [("visibility", visibility.toJson), ("head", head.toJson),
       ("body", .array (listToJson body))])
  | .module name body =>
    .tagged "Module" (.record [("name", .texts name), ("body", .array (listToJson body))])
  | .attributeSet name value =>
    .tagged "Attribute" (.record [("name", .text name), ("value", value.toJson)])
  | .attributeRead name => .tagged "AttributeRef" (.text name)
  | .importAll path => .tagged "Import" (.record [("module", .texts path)])
  | .importOnly path only =>
    .tagged "ImportOnly" (.record
      [("module", .texts path),
       ("only", .array (only.map fun (name, n) => .array [.text name, .int n.toNat]))])
  | .aliasAs path rename =>
    .tagged "AliasDecl" (.record [("module", .texts path), ("as_name", .optional .text rename)])
  | .require path rename =>
    .tagged "Require" (.record [("module", .texts path), ("as_name", .optional .text rename)])
  | .defStruct fields => .tagged "DefStruct" (.array (fieldsToJson fields))
  | .defException fields => .tagged "DefException" (.array (fieldsToJson fields))
  | .raise exception attributes =>
    .tagged "Raise" (.record
      [("exception", exception.toJson), ("attributes", optionToJson attributes)])

def listToJson : List Node → List Value
  | [] => []
  | n :: ns => n.toJson :: listToJson ns

def optionToJson : Option Node → Value
  | none => .null
  | some n => n.toJson

def optionListToJson : Option (List Node) → Value
  | none => .null
  | some ns => .array (listToJson ns)

def segmentsToJson : List (Segment Node) → List Value
  | [] => []
  | .plain n :: rest => .tagged "Value" n.toJson :: segmentsToJson rest
  | .interpolated n :: rest => .tagged "Interpolated" n.toJson :: segmentsToJson rest

def entriesToJson : List (Node × Node) → List Value
  | [] => []
  | (k, v) :: rest => .array [k.toJson, v.toJson] :: entriesToJson rest

def fieldsToJson : List (String × Node) → List Value
  | [] => []
  | (name, v) :: rest => .array [.text name, v.toJson] :: fieldsToJson rest

def clausesToJson : List (Clause Node) → List Value
  | [] => []
  | ⟨head, body⟩ :: rest =>
    .record [("head", .array (listToJson head)), ("body", .array (listToJson body))]
      :: clausesToJson rest

def qualifiersToJson : List (Qualifier Node) → List Value
  | [] => []
  | .generator pattern collection :: rest =>
    .tagged "Generator"
      (.record [("pattern", pattern.toJson), ("collection", collection.toJson)])
      :: qualifiersToJson rest
  | .filter condition :: rest =>
    .tagged "Filter" condition.toJson :: qualifiersToJson rest

end

end Node

end Source

end TreeLowering
