import TreeLowering.Proofs.JsonText
import TreeLowering.Proofs.SourceJson
import TreeLowering.Proofs.Spelling
import TreeLowering.Proofs.TargetJson

/-!
Decoding undoes encoding, for source trees and for target trees of every type: an encoding can be
written as a text, and the text and all forms of the encoding are decoded to the tree.
-/
namespace TreeLowering

open Json

namespace Json.Decoder

/-- A decoder gives `a` for an encoding, for the text of the encoding, and for every form in which
it can be written. -/
structure ReadsBack {α : Type} (d : Decoder α) (w : Value) (a : α) : Prop where
  encoding : d.decode? w = some a
  text : (Value.ofText? w.render).bind d.decode? = some a
  forms : ∀ v, w.WrittenAs v → d.decode? v = some a

theorem readsBack_of_reads {α : Type} {d : Decoder α} {w : Value} {a : α}
    (h : ∀ k, d.Reads k w a) (hwritable : w.Writable) (hdepth : w.depth ≤ 127) :
    d.ReadsBack w a := by
  have hforms : ∀ v, w.WrittenAs v → d.decode? v = some a := fun v hv =>
    (h (maxLevels + 1)).takes maxLevels (Nat.lt_succ_self _) v hv (hv.depth_le hdepth)
  refine ⟨hforms w .same, ?_, hforms⟩
  rw [Value.ofText?_render hwritable]
  exact hforms w .same

end Json.Decoder

namespace Json.Value

section Writable

@[simp]
theorem writable_null : Value.null.Writable := .null

@[simp]
theorem writable_bool (b : Bool) : (Value.bool b).Writable := .bool b

@[simp]
theorem writable_text (s : String) : (Value.text s).Writable := .text s

@[simp]
theorem writable_int (n : Int) : (Value.int n).Writable := .number (Numeral.writable_ofInt n)

theorem writable_array {items : List Value} :
    (Value.array items).Writable ↔ ∀ v ∈ items, v.Writable := by
  constructor
  · intro h
    cases h with
    | array each => exact each
  · exact .array

@[simp]
theorem writable_array_nil : (Value.array []).Writable := by
  simp [writable_array]

@[simp]
theorem writable_array_cons {v : Value} {items : List Value} :
    (Value.array (v :: items)).Writable ↔ v.Writable ∧ (Value.array items).Writable := by
  simp [writable_array]

@[simp]
theorem writable_array_map {α : Type} {f : α → Value} {as : List α} :
    (Value.array (as.map f)).Writable ↔ ∀ a ∈ as, (f a).Writable := by
  simp [writable_array]

@[simp]
theorem writable_record {fields : List (String × Value)} :
    (Value.record fields).Writable ↔ ∀ f ∈ fields, f.2.Writable := by
  rw [record_eq]
  constructor
  · intro h
    cases h with
    | object keys each => exact fun f hf => each _ (List.mem_map_of_mem hf)
  · exact fun h => .object (List.forall_mem_map.mpr fun _ _ => rfl) (List.forall_mem_map.mpr h)

@[simp]
theorem writable_tagged {tag : String} {payload : Value} :
    (Value.tagged tag payload).Writable ↔ payload.Writable := by
  simp [Value.tagged]

@[simp]
theorem writable_texts (ss : List String) : (Value.texts ss).Writable := by
  simp [Value.texts]

@[simp]
theorem writable_optional {α : Type} {f : α → Value} {o : Option α} :
    (Value.optional f o).Writable ↔ ∀ a ∈ o, (f a).Writable := by
  cases o <;> simp [Value.optional]

end Writable

end Json.Value

namespace Source

@[simp]
theorem CallMeta.writable_toJson (info : CallMeta) : info.toJson.Writable := by
  obtain ⟨resolution, line⟩ := info
  cases resolution <;> simp [CallMeta.toJson, Resolution.toJson]

@[simp]
theorem DotMeta.writable_toJson (info : DotMeta) : info.toJson.Writable := by
  have haccess : ∀ a : Access, a.toJson.Writable := fun a => by
    cases a <;> exact Value.writable_text _
  simp [DotMeta.toJson, haccess]

@[simp]
theorem Visibility.writable_toJson (visibility : Visibility) : visibility.toJson.Writable := by
  cases visibility <;> exact Value.writable_text _

@[simp]
theorem writable_binary64 (x : Binary64) : x.toJson.Writable := Value.writable_text _

namespace Node

theorem writable_encodings :
    (∀ n : Node, n.toJson.Writable) ∧
    (∀ fields : List (String × Node), (Value.array (fieldsToJson fields)).Writable) ∧
    (∀ qualifiers : List (Qualifier Node), (Value.array (qualifiersToJson qualifiers)).Writable) ∧
    (∀ clauses : List (Clause Node), (Value.array (clausesToJson clauses)).Writable) ∧
    (∀ ns : List Node, (Value.array (listToJson ns)).Writable) ∧
    (∀ o : Option (List Node), (optionListToJson o).Writable) ∧
    (∀ o : Option Node, (optionToJson o).Writable) ∧
    (∀ entries : List (Node × Node), (Value.array (entriesToJson entries)).Writable) ∧
    ∀ segments : List (Segment Node), (Value.array (segmentsToJson segments)).Writable := by
  apply Node.toJson.mutual_induct <;> intros <;>
    simp_all [toJson, fieldsToJson, qualifiersToJson, clausesToJson, listToJson,
      optionListToJson, optionToJson, entriesToJson, segmentsToJson]

end Node

end Source

namespace Target

@[simp]
theorem Literal.writable_toJson (l : Literal) : l.toJson.Writable := by
  cases l <;> simp [Literal.toJson]

@[simp]
theorem UnaryOp.writable_toJson (op : UnaryOp) : op.toJson.Writable := by
  cases op <;> exact Value.writable_text _

@[simp]
theorem BinaryOp.writable_toJson (op : BinaryOp) : op.toJson.Writable := Value.writable_text _

@[simp]
theorem Import.writable_toJson (i : Import) : i.toJson.Writable := by
  obtain ⟨binding, source⟩ := i
  cases binding <;> simp [Import.toJson, ImportBinding.toJson]

theorem writable_encodings :
    (∀ e : Expr, e.toJson.Writable) ∧
    (∀ f : FunctionDef, f.toJson.Writable) ∧
    (∀ ss : List Stmt, (Value.array (stmtsToJson ss)).Writable) ∧
    (∀ s : Stmt, s.toJson.Writable) ∧
    (∀ m : ModuleDef, m.toJson.Writable) ∧
    (∀ fs : List ModuleFunction, (Value.array (functionsToJson fs)).Writable) ∧
    (∀ f : ModuleFunction, f.toJson.Writable) ∧
    (∀ o : Option Stmt, (optionStmtToJson o).Writable) ∧
    (∀ o : Option Expr, (optionExprToJson o).Writable) ∧
    (∀ ps : List Property, (Value.array (propertiesToJson ps)).Writable) ∧
    (∀ p : Property, p.toJson.Writable) ∧
    (∀ key : PropertyKey, key.toJson.Writable) ∧
    ∀ es : List Expr, (Value.array (exprsToJson es)).Writable := by
  apply Expr.toJson.mutual_induct <;> intros <;>
    simp_all [Expr.toJson, FunctionDef.toJson, stmtsToJson, Stmt.toJson, ModuleDef.toJson,
      functionsToJson, ModuleFunction.toJson, optionStmtToJson, optionExprToJson, propertiesToJson,
      Property.toJson, PropertyKey.toJson, exprsToJson]

namespace Tree

def toJson : (k : Kind) → Tree k → Value
  | .program => Program.toJson
  | .stmt => Stmt.toJson
  | .expr => Expr.toJson
  | .property => Property.toJson
  | .function => FunctionDef.toJson
  | .imports => Import.toJson
  | .module => ModuleDef.toJson
  | .moduleFunction => ModuleFunction.toJson

def decoder : (k : Kind) → Decoder (Tree k)
  | .program => Program.decoder
  | .stmt => Stmt.decoder
  | .expr => Expr.decoder
  | .property => Property.decoder
  | .function => FunctionDef.decoder
  | .imports => Import.decoder
  | .module => ModuleDef.decoder
  | .moduleFunction => ModuleFunction.decoder

theorem writable_toJson (k : Kind) (t : Tree k) : (toJson k t).Writable := by
  obtain ⟨exprs, functions, bodies, stmts, modules, -, moduleFunctions, -, -, -, properties, -⟩ :=
    writable_encodings
  cases k with
  | program => simpa [toJson, Program.toJson] using bodies t.body
  | stmt => exact stmts t
  | expr => exact exprs t
  | property => exact properties t
  | function => exact functions t
  | imports => exact Import.writable_toJson t
  | module => exact modules t
  | moduleFunction => exact moduleFunctions t

theorem reads {k : Kind} {t : Tree k} (h : FloatFree (parts k t)) (levels : Nat) :
    (decoder k).Reads levels (toJson k t) t := by
  cases k with
  | program => exact Program.reads h
  | stmt => exact readsStmts_decoder levels t h
  | expr => exact readsExprs_decoder levels t h
  | property => exact Property.reads (readsExprs_decoder levels) h
  | function => exact FunctionDef.reads (readsStmts_decoder levels) h
  | imports => exact Import.reads t
  | module => exact ModuleDef.reads (readsStmts_decoder levels) h
  | moduleFunction => exact ModuleFunction.reads (readsStmts_decoder levels) h

end Tree

end Target

open Source Target

/-- Decoding undoes encoding. A source tree or a target tree without floats, whose encoding nests
at most 127 levels deep, is decoded from its encoding, from the text of it, and from every form in
which the encoding can be written. -/
theorem decoding_undoes_encoding :
    (∀ n : Node, n.FloatFree → n.toJson.depth ≤ 127 →
      Node.decoder.ReadsBack n.toJson n ∧ Node.ofText? n.toJson.render = some n) ∧
    ∀ (k : Kind) (t : Tree k), FloatFree (Tree.parts k t) → (Tree.toJson k t).depth ≤ 127 →
      (Tree.decoder k).ReadsBack (Tree.toJson k t) t := by
  refine ⟨fun n hfloat hdepth => ?_, fun k t hfloat hdepth => ?_⟩
  · have hwritable := Node.writable_encodings.1 n
    have hback := Decoder.readsBack_of_reads (Node.reads hfloat) hwritable hdepth
    exact ⟨hback, hback.text⟩
  · exact Decoder.readsBack_of_reads (Tree.reads hfloat) (Tree.writable_toJson k t) hdepth

/-- The call `f(1..x)`. -/
def rangeCall : Node := .call "f" [.range (.integer 1) (.var "x") none] {}

/-- The range of the call, its fields in another order and one more among them, without the step
that it does not have, and the variable by position. -/
def rangeForm : Value :=
  .tagged "Range" (.record
    [("note", .bool true), ("last", .tagged "Var" (.array [.text "x"])),
     ("first", .tagged "Integer" (.int 1))])

/-- The call without what holds its default. -/
def rangeCallForm : Value :=
  .tagged "Call" (.record [("args", .array [rangeForm]), ("name", .text "f")])

/-- The declaration of a variable without a value, by position. -/
def declarationForm : Value := .tagged "Let" (.array [.text "x", .null, .bool true])

theorem writtenAs_rangeForm :
    (Node.range (.integer 1) (.var "x") none).toJson.WrittenAs rangeForm := by
  have hvar : (Node.var "x").toJson.WrittenAs (.tagged "Var" (.array [.text "x"])) :=
    .union rfl (.positional (by decide) (List.append_nil _).symm (.cons .same .nil) (by simp))
  refine .union rfl (.named (by decide) ?known (by decide) ?unknown ?missing)
  case known =>
    intro key w v hw hv
    simp only [List.map_cons, List.map_nil, List.mem_cons, Prod.mk.injEq, List.not_mem_nil,
      or_false] at hw hv
    rcases hw with ⟨rfl, rfl⟩ | ⟨rfl, rfl⟩ | ⟨rfl, rfl⟩ <;> simp at hv
    · exact hv ▸ .same
    · exact hv ▸ hvar
  case unknown => simp [Value.isScalar]
  case missing => simp [Dispensable, Node.optionToJson]

theorem writtenAs_rangeCallForm : rangeCall.toJson.WrittenAs rangeCallForm := by
  refine .union rfl (.named (by decide) ?known (by decide) ?unknown ?missing)
  case known =>
    intro key w v hw hv
    simp only [List.map_cons, List.map_nil, List.mem_cons, Prod.mk.injEq, List.not_mem_nil,
      or_false] at hw hv
    rcases hw with ⟨rfl, rfl⟩ | ⟨rfl, rfl⟩ | ⟨rfl, rfl⟩ <;> simp at hv
    · exact hv ▸ .same
    · exact hv ▸ .array (.cons writtenAs_rangeForm .nil)
  case unknown => simp
  case missing =>
    simp [Dispensable, CallMeta.toJson, Resolution.toJson, Value.optional, fieldDefaults]

theorem writtenAs_declarationForm :
    (Stmt.declare "x" none true).toJson.WrittenAs declarationForm :=
  .union rfl (.positional (by decide) (List.append_nil _).symm
    (.cons .same (.cons .same (.cons .same .nil))) (by simp))

theorem floatFree_rangeCall : rangeCall.FloatFree := by
  have hint : (Node.integer 1).FloatFree := .ofParts (by simp) (by simp [Node.parts, Node.assembly])
  have hvar : (Node.var "x").FloatFree := .ofParts (by simp) (by simp [Node.parts, Node.assembly])
  have hrange : (Node.range (.integer 1) (.var "x") none).FloatFree :=
    .ofParts (by simp) (by simp [Node.parts, Node.assembly, hint, hvar])
  exact .ofParts (by simp [rangeCall]) (by simp [rangeCall, Node.parts, Node.assembly, hrange])

/-- The call is read from its other form, and the declaration from its fields by position. -/
theorem decoding_undoes_encoding_rangeCall :
    rangeCall.toJson.depth ≤ 127 ∧ Node.decoder.decode? rangeCallForm = some rangeCall ∧
    Node.ofText? rangeCall.toJson.render = some rangeCall ∧
    Stmt.decoder.decode? declarationForm = some (.declare "x" none true) := by
  have hnode := decoding_undoes_encoding.1 rangeCall floatFree_rangeCall (by decide)
  have hstmt := decoding_undoes_encoding.2 .stmt (.declare "x" none true)
    (by simp [Tree.parts, FloatFree, Part.FloatFree]) (by decide)
  exact ⟨by decide, hnode.1.forms _ writtenAs_rangeCallForm, hnode.2,
    hstmt.forms _ writtenAs_declarationForm⟩

end TreeLowering
