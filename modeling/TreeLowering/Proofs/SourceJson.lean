import TreeLowering.Proofs.Assembly
import TreeLowering.Proofs.JsonReading

/-!
Source trees are read back from every form of their encoding.

One unrolling of the decoder is the step: if the nodes that stand directly in a node are read, the
node is read, on one level more. A tree without floats is so read on all levels.
-/
namespace TreeLowering.Source

open Json Json.Decoder

namespace Node

/-- No float stands anywhere in the tree. -/
def FloatFree (n : Node) : Prop := ∀ x, ¬ Occurs (.float x) n

theorem FloatFree.parts {n : Node} (h : n.FloatFree) : ∀ m ∈ n.parts, m.FloatFree :=
  fun _ hm x hx => h x (.inside hm hx)

theorem FloatFree.ofParts {n : Node} (hfloat : ∀ x, n ≠ .float x)
    (h : ∀ m ∈ n.parts, m.FloatFree) : n.FloatFree := by
  intro x hx
  cases hx with
  | self => exact hfloat x rfl
  | inside hm hx => exact h _ hm x hx

section Pieces

def segmentToJson : Segment Node → Value
  | .plain n => .tagged "Value" n.toJson
  | .interpolated n => .tagged "Interpolated" n.toJson

def clauseToJson (clause : Clause Node) : Value :=
  .record [("head", .array (clause.head.map toJson)), ("body", .array (clause.body.map toJson))]

def qualifierToJson : Qualifier Node → Value
  | .generator pattern collection =>
    .tagged "Generator" (.record [("pattern", pattern.toJson), ("collection", collection.toJson)])
  | .filter condition => .tagged "Filter" condition.toJson

theorem listToJson_eq (ns : List Node) : listToJson ns = ns.map toJson := by
  induction ns with
  | nil => rfl
  | cons n ns ih => rw [listToJson, ih, List.map_cons]

theorem optionToJson_eq (o : Option Node) : optionToJson o = .optional toJson o := by
  cases o <;> rw [optionToJson, Value.optional]

theorem optionListToJson_eq (o : Option (List Node)) :
    optionListToJson o = .optional (fun ns => .array (ns.map toJson)) o := by
  cases o with
  | none => rw [optionListToJson, Value.optional]
  | some ns => rw [optionListToJson, Value.optional, listToJson_eq]

theorem segmentsToJson_eq (segments : List (Segment Node)) :
    segmentsToJson segments = segments.map segmentToJson := by
  induction segments with
  | nil => rfl
  | cons s rest ih => cases s <;> rw [segmentsToJson, ih, List.map_cons, segmentToJson]

theorem entriesToJson_eq (entries : List (Node × Node)) :
    entriesToJson entries = entries.map fun e => .array [e.1.toJson, e.2.toJson] := by
  induction entries with
  | nil => rfl
  | cons e rest ih => rw [entriesToJson, ih, List.map_cons]

theorem fieldsToJson_eq (fields : List (String × Node)) :
    fieldsToJson fields = fields.map fun f => .array [.text f.1, f.2.toJson] := by
  induction fields with
  | nil => rfl
  | cons f rest ih => rw [fieldsToJson, ih, List.map_cons]

theorem clausesToJson_eq (clauses : List (Clause Node)) :
    clausesToJson clauses = clauses.map clauseToJson := by
  induction clauses with
  | nil => rfl
  | cons c rest ih =>
    rw [clausesToJson, ih, List.map_cons, clauseToJson, listToJson_eq, listToJson_eq]

theorem qualifiersToJson_eq (qualifiers : List (Qualifier Node)) :
    qualifiersToJson qualifiers = qualifiers.map qualifierToJson := by
  induction qualifiers with
  | nil => rfl
  | cons q rest ih => cases q <;> rw [qualifiersToJson, ih, List.map_cons, qualifierToJson]

end Pieces

end Node

section Parts

variable {k : Nat}

theorem Visibility.reads (visibility : Visibility) :
    Visibility.decoder.Reads k visibility.toJson visibility := by
  cases visibility <;> exact reads_bare rfl

theorem Resolution.reads (resolution : Resolution) :
    Resolution.decoder.Reads k resolution.toJson resolution := by
  cases resolution with
  | unqualified | imported => exact reads_bare rfl
  | qualified module =>
    exact (reads_newtype rfl rfl rfl (reads_texts module).takes).lower

theorem Access.reads (access : Access) : Access.decoder.Reads k access.toJson access := by
  cases access <;> exact reads_bare rfl

theorem takes_line (line : Option UInt32) :
    (optionOf uint32).Takes k (.optional (.int ·.toNat) line) line :=
  takes_optionOf fun n _ => reads_uint32 n

theorem line_eq_none {line : Option UInt32}
    (h : Dispensable (some "line", .optional (.int ·.toNat) line)) : line = none := by
  cases line with
  | none => rfl
  | some n => simp [Dispensable, Value.optional, Value.int, fieldDefaults] at h

theorem Resolution.eq_unqualified {resolution : Resolution}
    (h : Dispensable (some "resolution", resolution.toJson)) : resolution = .unqualified := by
  cases resolution with
  | unqualified => rfl
  | imported | qualified =>
    simp [Dispensable, Resolution.toJson, fieldDefaults, Value.text, Value.tagged,
      Value.record] at h

theorem access_eq_none {access : Option Access}
    (h : Dispensable (some "access", .optional Access.toJson access)) : access = none := by
  cases access with
  | none => rfl
  | some a =>
    cases a <;> simp [Dispensable, Value.optional, Access.toJson, fieldDefaults, Value.text] at h

theorem CallMeta.reads (info : CallMeta) : CallMeta.decoder.Reads k info.toJson info :=
  reads_record (by decide) rfl <|
    .field (.defaulted info.resolution.reads.takes Resolution.eq_unqualified) <|
    .field (.defaulted (takes_line info.line) line_eq_none) .done

theorem DotMeta.reads (info : DotMeta) : DotMeta.decoder.Reads k info.toJson info :=
  reads_record (by decide) rfl <|
    .field (.defaulted (takes_optionOf fun a _ => a.reads) access_eq_none) <|
    .field (.defaulted (takes_line info.line) line_eq_none) .done

theorem CallMeta.eq_default {info : CallMeta} (h : Dispensable (some "meta", info.toJson)) :
    info = {} := by
  have hfields : info.resolution.toJson = .text "Local" ∧
      Value.optional (.int ·.toNat) info.line = .null := by
    simpa [Dispensable, CallMeta.toJson, fieldDefaults, Value.record] using h
  have hresolution : info.resolution = .unqualified :=
    Resolution.eq_unqualified (.inr (by simp [hfields.1, fieldDefaults]))
  have hline : info.line = none := line_eq_none (.inl hfields.2)
  cases info
  cases hresolution
  cases hline
  rfl

theorem DotMeta.eq_default {info : DotMeta} (h : Dispensable (some "meta", info.toJson)) :
    info = {} := by
  have hfields : Value.optional Access.toJson info.access = .null ∧
      Value.optional (.int ·.toNat) info.line = .null := by
    simpa [Dispensable, DotMeta.toJson, fieldDefaults, Value.record] using h
  have haccess : info.access = none := access_eq_none (.inl hfields.1)
  have hline : info.line = none := line_eq_none (.inl hfields.2)
  cases info
  cases haccess
  cases hline
  rfl

end Parts

namespace Node

open Assembly (node each option entry segment clause field qualifier all_node all_nodes all_each
  all_option all_map₂ all_map₃)

section Step

variable {k : Nat} {inner : Decoder Node}

/-- The decoder reads the node back from every form of its encoding. -/
def ReadBy (inner : Decoder Node) (k : Nat) (n : Node) : Prop := inner.Reads k n.toJson n

theorem reads_node {n : Node} (h : (node n).All (ReadBy inner k)) : inner.Reads k n.toJson n := by
  have hn : n.ReadBy inner k := all_node.mp h
  exact hn

theorem reads_nodes {ns : List Node} (h : (each node ns).All (ReadBy inner k)) :
    (listOf inner).Reads k (.array (listToJson ns)) ns := by
  rw [listToJson_eq]
  exact reads_listOf fun n hn => (all_nodes.mp h n hn).takes

theorem takes_optional {name : String} {o : Option Node} (hname : hasDefault name = false)
    (h : (option node o).All (ReadBy inner k)) :
    TakesField (·.optional name inner) k name (optionToJson o) o := by
  rw [optionToJson_eq]
  exact .optional hname fun n hn => reads_node (all_option.mp h n hn)

theorem takes_optionalNodes {name : String} {o : Option (List Node)}
    (hname : hasDefault name = false) (h : (option (each node) o).All (ReadBy inner k)) :
    TakesField (·.optional name (listOf inner)) k name (optionListToJson o) o := by
  rw [optionListToJson_eq]
  refine .optional hname fun ns hns => ?_
  rw [← listToJson_eq]
  exact reads_nodes (all_option.mp h ns hns)

theorem reads_segments {segments : List (Segment Node)}
    (h : (each segment segments).All (ReadBy inner k)) :
    (listOf (Segment.decoder inner)).Reads k (.array (segmentsToJson segments)) segments := by
  rw [segmentsToJson_eq]
  refine reads_listOf fun s hs => ?_
  have hs := all_each.mp h s hs
  cases s <;> exact (reads_newtype rfl rfl rfl (reads_node hs).takes).lower.takes

theorem reads_entries {entries : List (Node × Node)}
    (h : (each entry entries).All (ReadBy inner k)) :
    (listOf (pairOf inner inner)).Reads k (.array (entriesToJson entries)) entries := by
  rw [entriesToJson_eq]
  refine reads_listOf fun e he => ?_
  obtain ⟨hkey, hvalue⟩ := all_map₂.mp (all_each.mp h e he)
  exact (reads_pairOf (reads_node hkey).takes (reads_node hvalue).takes).takes

theorem reads_fields {fields : List (String × Node)}
    (h : (each field fields).All (ReadBy inner k)) :
    (listOf (pairOf text inner)).Reads k (.array (fieldsToJson fields)) fields := by
  rw [fieldsToJson_eq]
  refine reads_listOf fun f hf => ?_
  exact (reads_pairOf (reads_text f.1).takes (reads_node (all_each.mp h f hf)).takes).takes

theorem reads_clauses {clauses : List (Clause Node)}
    (h : (each clause clauses).All (ReadBy inner k)) :
    (listOf (Clause.decoder inner)).Reads k (.array (clausesToJson clauses)) clauses := by
  rw [clausesToJson_eq]
  refine reads_listOf fun c hc => ?_
  obtain ⟨hhead, hbody⟩ := all_map₂.mp (all_each.mp h c hc)
  rw [clauseToJson, ← listToJson_eq, ← listToJson_eq]
  refine Reads.takes (reads_record (by decide) rfl ?_)
  exact .field (.required rfl (reads_nodes hhead)) <|
    .field (.required rfl (reads_nodes hbody)) .done

theorem reads_qualifiers {qualifiers : List (Qualifier Node)}
    (h : (each qualifier qualifiers).All (ReadBy inner k)) :
    (listOf (Qualifier.decoder inner)).Reads k (.array (qualifiersToJson qualifiers))
      qualifiers := by
  rw [qualifiersToJson_eq]
  refine reads_listOf fun q hq => Reads.takes (Reads.lower ?_)
  have hq := all_each.mp h q hq
  cases q with
  | generator pattern collection =>
    obtain ⟨hpattern, hcollection⟩ := all_map₂.mp hq
    refine reads_struct rfl rfl rfl (by decide) rfl ?_
    exact .field (.required rfl (reads_node hpattern)) <|
      .field (.required rfl (reads_node hcollection)) .done
  | filter condition => exact reads_newtype rfl rfl rfl (reads_node hq).takes

theorem reads_arities (only : List (String × UInt64)) :
    (listOf (pairOf text uint64)).Reads k
      (.array (only.map fun (name, n) => .array [.text name, .int n.toNat])) only :=
  reads_listOf fun e _ => (reads_pairOf (reads_text e.1).takes (reads_uint64 e.2).takes).takes

/-- A node is read one level deeper than the nodes that stand directly in it. -/
theorem readBy_step {n : Node} (hfloat : ∀ x, n ≠ .float x)
    (h : ∀ m ∈ n.parts, m.ReadBy inner k) :
    n.ReadBy (unionOf [("Nil", .nil)] (variants inner)) (k + 1) := by
  -- the first three equations of each case look its tag up, among the bare tags and the others
  cases n with
  | nil => exact reads_bare rfl
  | integer n => exact reads_newtype rfl rfl rfl (reads_int64 n).takes
  | float x => exact absurd rfl (hfloat x)
  | string s => exact reads_newtype rfl rfl rfl (reads_text s).takes
  | boolean b => exact reads_newtype rfl rfl rfl (reads_flag b).takes
  | atom name => exact reads_newtype rfl rfl rfl (reads_text name).takes
  | var name =>
    refine reads_struct rfl rfl rfl (by decide) rfl ?_
    exact .field (.required rfl (reads_text name)) .done
  | moduleName segments =>
    refine reads_struct rfl rfl rfl (by decide) rfl ?_
    exact .field (.required rfl (reads_texts segments)) .done
  | list items => exact reads_newtype rfl rfl rfl (reads_nodes h).takes
  | cons head tail =>
    obtain ⟨hhead, htail⟩ := all_map₂.mp h
    refine reads_struct rfl rfl rfl (by decide) rfl ?_
    exact .field (.required rfl (reads_nodes hhead)) <|
      .field (.required rfl (reads_node htail)) .done
  | tuple items => exact reads_newtype rfl rfl rfl (reads_nodes h).takes
  | binary segments => exact reads_newtype rfl rfl rfl (reads_segments h).takes
  | map entries => exact reads_newtype rfl rfl rfl (reads_entries h).takes
  | mapUpdate base updates =>
    obtain ⟨hbase, hupdates⟩ := all_map₂.mp h
    refine reads_struct rfl rfl rfl (by decide) rfl ?_
    exact .field (.required rfl (reads_node hbase)) <|
      .field (.required rfl (reads_entries hupdates)) .done
  | struct tag fields update =>
    obtain ⟨htag, hfields, hupdate⟩ := all_map₃.mp h
    refine reads_struct rfl rfl rfl (by decide) rfl ?_
    exact .field (.required rfl (reads_node htag)) <|
      .field (.required rfl (reads_entries hfields)) <| .field (takes_optional rfl hupdate) .done
  | bind pattern value =>
    obtain ⟨hpattern, hvalue⟩ := all_map₂.mp h
    refine reads_struct rfl rfl rfl (by decide) rfl ?_
    exact .field (.required rfl (reads_node hpattern)) <|
      .field (.required rfl (reads_node hvalue)) .done
  | pin operand => exact reads_newtype rfl rfl rfl (reads_node h).takes
  | guarded exprs guard =>
    obtain ⟨hexprs, hguard⟩ := all_map₂.mp h
    refine reads_struct rfl rfl rfl (by decide) rfl ?_
    exact .field (.required rfl (reads_nodes hexprs)) <|
      .field (.required rfl (reads_node hguard)) .done
  | binaryOp op left right =>
    obtain ⟨hleft, hright⟩ := all_map₂.mp h
    refine reads_struct rfl rfl rfl (by decide) rfl ?_
    exact .field (.required rfl (reads_text op)) <|
      .field (.required rfl (reads_node hleft)) <| .field (.required rfl (reads_node hright)) .done
  | unaryOp op operand =>
    refine reads_struct rfl rfl rfl (by decide) rfl ?_
    exact .field (.required rfl (reads_text op)) <| .field (.required rfl (reads_node h)) .done
  | pipe left right =>
    obtain ⟨hleft, hright⟩ := all_map₂.mp h
    refine reads_struct rfl rfl rfl (by decide) rfl ?_
    exact .field (.required rfl (reads_node hleft)) <|
      .field (.required rfl (reads_node hright)) .done
  | range first last step =>
    obtain ⟨hfirst, hlast, hstep⟩ := all_map₃.mp h
    refine reads_struct rfl rfl rfl (by decide) rfl ?_
    exact .field (.required rfl (reads_node hfirst)) <|
      .field (.required rfl (reads_node hlast)) <| .field (takes_optional rfl hstep) .done
  | call name args info =>
    refine reads_struct rfl rfl rfl (by decide) rfl ?_
    exact .field (.required rfl (reads_text name)) <|
      .field (.required rfl (reads_nodes h)) <|
      .field (.defaulted info.reads.takes CallMeta.eq_default) .done
  | dot target name args info =>
    obtain ⟨htarget, hargs⟩ := all_map₂.mp h
    refine reads_struct rfl rfl rfl (by decide) rfl ?_
    exact .field (.required rfl (reads_node htarget)) <|
      .field (.required rfl (reads_text name)) <| .field (takes_optionalNodes rfl hargs) <|
      .field (.defaulted info.reads.takes DotMeta.eq_default) .done
  | apply callee args =>
    obtain ⟨hcallee, hargs⟩ := all_map₂.mp h
    refine reads_struct rfl rfl rfl (by decide) rfl ?_
    exact .field (.required rfl (reads_node hcallee)) <|
      .field (.required rfl (reads_nodes hargs)) .done
  | capture owner name arity =>
    refine reads_struct rfl rfl rfl (by decide) rfl ?_
    exact .field (takes_optional rfl h) <| .field (.required rfl (reads_text name)) <|
      .field (.required rfl (reads_uint64 arity)) .done
  | fn clauses => exact reads_newtype rfl rfl rfl (reads_clauses h).takes
  | caseOf subject clauses =>
    obtain ⟨hsubject, hclauses⟩ := all_map₂.mp h
    refine reads_struct rfl rfl rfl (by decide) rfl ?_
    exact .field (.required rfl (reads_node hsubject)) <|
      .field (.required rfl (reads_clauses hclauses)) .done
  | cond clauses => exact reads_newtype rfl rfl rfl (reads_clauses h).takes
  | ifElse condition body otherwise =>
    obtain ⟨hcondition, hbody, hotherwise⟩ := all_map₃.mp h
    refine reads_struct rfl rfl rfl (by decide) rfl ?_
    exact .field (.required rfl (reads_node hcondition)) <|
      .field (.required rfl (reads_nodes hbody)) <|
      .field (takes_optionalNodes rfl hotherwise) .done
  | unlessElse condition body otherwise =>
    obtain ⟨hcondition, hbody, hotherwise⟩ := all_map₃.mp h
    refine reads_struct rfl rfl rfl (by decide) rfl ?_
    exact .field (.required rfl (reads_node hcondition)) <|
      .field (.required rfl (reads_nodes hbody)) <|
      .field (takes_optionalNodes rfl hotherwise) .done
  | comprehension qualifiers body into =>
    obtain ⟨hqualifiers, hbody, hinto⟩ := all_map₃.mp h
    refine reads_struct rfl rfl rfl (by decide) rfl ?_
    exact .field (.required rfl (reads_qualifiers hqualifiers)) <|
      .field (.required rfl (reads_nodes hbody)) <| .field (takes_optional rfl hinto) .done
  | block items => exact reads_newtype rfl rfl rfl (reads_nodes h).takes
  | define visibility head body =>
    obtain ⟨hhead, hbody⟩ := all_map₂.mp h
    refine reads_struct rfl rfl rfl (by decide) rfl ?_
    exact .field (.required rfl visibility.reads) <|
      .field (.required rfl (reads_node hhead)) <| .field (.required rfl (reads_nodes hbody)) .done
  | module name body =>
    refine reads_struct rfl rfl rfl (by decide) rfl ?_
    exact .field (.required rfl (reads_texts name)) <| .field (.required rfl (reads_nodes h)) .done
  | attributeSet name value =>
    refine reads_struct rfl rfl rfl (by decide) rfl ?_
    exact .field (.required rfl (reads_text name)) <| .field (.required rfl (reads_node h)) .done
  | attributeRead name => exact reads_newtype rfl rfl rfl (reads_text name).takes
  | importAll path =>
    refine reads_struct rfl rfl rfl (by decide) rfl ?_
    exact .field (.required rfl (reads_texts path)) .done
  | importOnly path only =>
    refine reads_struct rfl rfl rfl (by decide) rfl ?_
    exact .field (.required rfl (reads_texts path)) <|
      .field (.required rfl (reads_arities only)) .done
  | aliasAs path rename =>
    refine reads_struct rfl rfl rfl (by decide) rfl ?_
    exact .field (.required rfl (reads_texts path)) <|
      .field (.optional rfl fun name _ => reads_text name) .done
  | require path rename =>
    refine reads_struct rfl rfl rfl (by decide) rfl ?_
    exact .field (.required rfl (reads_texts path)) <|
      .field (.optional rfl fun name _ => reads_text name) .done
  | defStruct fields => exact reads_newtype rfl rfl rfl (reads_fields h).takes
  | defException fields => exact reads_newtype rfl rfl rfl (reads_fields h).takes
  | raise exception attributes =>
    obtain ⟨hexception, hattributes⟩ := all_map₂.mp h
    refine reads_struct rfl rfl rfl (by decide) rfl ?_
    exact .field (.required rfl (reads_node hexception)) <|
      .field (takes_optional rfl hattributes) .done

end Step

theorem toJson_ne_null (n : Node) : n.toJson ≠ .null := by
  cases n <;> exact Value.noConfusion

/-- The induction is on how often the decoder is unrolled. -/
theorem readBy_decoderWithin {n : Node} (hn : n.FloatFree) (k : Nat) :
    n.ReadBy (decoderWithin k) k := by
  induction k generalizing n with
  | zero => exact ⟨fun levels hlevels => absurd hlevels (Nat.not_lt_zero levels), n.toJson_ne_null⟩
  | succ k ih =>
    have hfloat : ∀ x, n ≠ .float x := by
      rintro x rfl
      exact hn x .self
    exact readBy_step hfloat fun m hm => ih (hn.parts m hm)

theorem reads {n : Node} (hn : n.FloatFree) (k : Nat) : decoder.Reads k n.toJson n :=
  ⟨fun levels _ => (readBy_decoderWithin hn (levels + 1)).takes levels (Nat.lt_succ_self levels),
    n.toJson_ne_null⟩

end Node

end TreeLowering.Source
