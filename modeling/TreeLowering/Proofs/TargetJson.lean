import TreeLowering.Target.Json
import TreeLowering.Proofs.JsonReading
import TreeLowering.Proofs.TargetParts

/-!
Target trees are read back from every form of their encoding.

The decoders of expressions and statements are unrolled together. If the trees inside of an
expression or a statement are read, it is read, on one level more; a property or a function is read
on the levels on which its trees are.
-/
namespace TreeLowering.Target

open Json Json.Decoder

section FloatFree

/-- The part is not the literal of a float. -/
def Part.FloatFree : Part → Prop
  | .expr (.literal (.float _)) => False
  | _ => True

/-- No part is the literal of a float. -/
def FloatFree (parts : List Part) : Prop := ∀ p ∈ parts, p.FloatFree

variable {parts parts' : List Part} {p : Part}

@[simp]
theorem floatFree_cons : FloatFree (p :: parts) ↔ p.FloatFree ∧ FloatFree parts :=
  List.forall_mem_cons

@[simp]
theorem floatFree_append : FloatFree (parts ++ parts') ↔ FloatFree parts ∧ FloatFree parts' :=
  List.forall_mem_append

theorem floatFree_exprs {es : List Expr} :
    FloatFree (exprsParts es) ↔ ∀ e ∈ es, FloatFree (exprParts e) := by
  simp only [FloatFree, exprsParts_eq, List.forall_mem_flatMap]

theorem floatFree_properties {ps : List Property} :
    FloatFree (propertiesParts ps) ↔ ∀ p ∈ ps, FloatFree (propertyParts p) := by
  simp only [FloatFree, propertiesParts_eq, List.forall_mem_flatMap]

theorem floatFree_stmts {ss : List Stmt} :
    FloatFree (stmtsParts ss) ↔ ∀ s ∈ ss, FloatFree (stmtParts s) := by
  simp only [FloatFree, stmtsParts_eq, List.forall_mem_flatMap]

theorem floatFree_functions {fs : List ModuleFunction} :
    FloatFree (moduleFunctionsParts fs) ↔ ∀ f ∈ fs, FloatFree (moduleFunctionParts f) := by
  simp only [FloatFree, moduleFunctionsParts_eq, List.forall_mem_flatMap]

theorem floatFree_option {o : Option Expr} :
    FloatFree (optionParts o) ↔ ∀ e ∈ o, FloatFree (exprParts e) := by
  cases o <;> simp [FloatFree]

theorem floatFree_optionStmt {o : Option Stmt} :
    FloatFree (optionStmtParts o) ↔ ∀ s ∈ o, FloatFree (stmtParts s) := by
  cases o <;> simp [FloatFree]

end FloatFree

section Encodings

theorem exprsToJson_eq (es : List Expr) : exprsToJson es = es.map Expr.toJson := by
  induction es with
  | nil => rfl
  | cons e rest ih => rw [exprsToJson, ih, List.map_cons]

theorem propertiesToJson_eq (ps : List Property) :
    propertiesToJson ps = ps.map Property.toJson := by
  induction ps with
  | nil => rfl
  | cons p rest ih => rw [propertiesToJson, ih, List.map_cons]

theorem stmtsToJson_eq (ss : List Stmt) : stmtsToJson ss = ss.map Stmt.toJson := by
  induction ss with
  | nil => rfl
  | cons s rest ih => rw [stmtsToJson, ih, List.map_cons]

theorem functionsToJson_eq (fs : List ModuleFunction) :
    functionsToJson fs = fs.map ModuleFunction.toJson := by
  induction fs with
  | nil => rfl
  | cons f rest ih => rw [functionsToJson, ih, List.map_cons]

theorem optionExprToJson_eq (o : Option Expr) : optionExprToJson o = .optional Expr.toJson o := by
  cases o <;> rw [optionExprToJson, Value.optional]

theorem optionStmtToJson_eq (o : Option Stmt) : optionStmtToJson o = .optional Stmt.toJson o := by
  cases o <;> rw [optionStmtToJson, Value.optional]

end Encodings

section Leaves

variable {k : Nat}

theorem Literal.reads {l : Literal} (h : (Part.expr (.literal l)).FloatFree) :
    Literal.decoder.Reads k l.toJson l := by
  cases l with
  | null => exact reads_bare rfl
  | bool b => exact (reads_newtype rfl rfl rfl (reads_flag b).takes).lower
  | integer n => exact (reads_newtype rfl rfl rfl (reads_int64 n).takes).lower
  | float x => exact h.elim
  | string s => exact (reads_newtype rfl rfl rfl (reads_text s).takes).lower

theorem BinaryOp.reads (op : BinaryOp) : BinaryOp.decoder.Reads k op.toJson op := by
  cases op <;> exact reads_bare rfl

theorem UnaryOp.reads (op : UnaryOp) : UnaryOp.decoder.Reads k op.toJson op := by
  cases op <;> exact reads_bare rfl

theorem ImportBinding.reads (binding : ImportBinding) :
    ImportBinding.decoder.Reads k binding.toJson binding := by
  cases binding with
  | everything name => exact (reads_newtype rfl rfl rfl (reads_text name).takes).lower
  | named names => exact (reads_newtype rfl rfl rfl (reads_texts names).takes).lower
  | default name => exact (reads_newtype rfl rfl rfl (reads_text name).takes).lower

theorem Import.reads (i : Import) : Import.decoder.Reads k i.toJson i :=
  reads_record (by decide) rfl <|
    .field (.required rfl i.binding.reads) <| .field (.required rfl (reads_text i.source)) .done

end Leaves

section Step

variable {k : Nat} {expr : Decoder Expr} {stmt : Decoder Stmt}

/-- The decoder reads every expression without floats. -/
def ReadsExprs (expr : Decoder Expr) (k : Nat) : Prop :=
  ∀ e : Expr, FloatFree (exprParts e) → expr.Reads k e.toJson e

/-- The decoder reads every statement without floats. -/
def ReadsStmts (stmt : Decoder Stmt) (k : Nat) : Prop :=
  ∀ s : Stmt, FloatFree (stmtParts s) → stmt.Reads k s.toJson s

theorem ReadsExprs.list (hexpr : ReadsExprs expr k) {es : List Expr}
    (h : FloatFree (exprsParts es)) : (listOf expr).Reads k (.array (exprsToJson es)) es := by
  rw [exprsToJson_eq]
  exact reads_listOf fun e he => (hexpr e (floatFree_exprs.mp h e he)).takes

theorem ReadsStmts.list (hstmt : ReadsStmts stmt k) {ss : List Stmt}
    (h : FloatFree (stmtsParts ss)) : (listOf stmt).Reads k (.array (stmtsToJson ss)) ss := by
  rw [stmtsToJson_eq]
  exact reads_listOf fun s hs => (hstmt s (floatFree_stmts.mp h s hs)).takes

theorem ReadsExprs.optional (hexpr : ReadsExprs expr k) {name : String} {o : Option Expr}
    (hname : hasDefault name = false) (h : FloatFree (optionParts o)) :
    TakesField (·.optional name expr) k name (optionExprToJson o) o := by
  rw [optionExprToJson_eq]
  exact .optional hname fun e he => hexpr e (floatFree_option.mp h e he)

theorem ReadsStmts.optional (hstmt : ReadsStmts stmt k) {name : String} {o : Option Stmt}
    (hname : hasDefault name = false) (h : FloatFree (optionStmtParts o)) :
    TakesField (·.optional name stmt) k name (optionStmtToJson o) o := by
  rw [optionStmtToJson_eq]
  exact .optional hname fun s hs => hstmt s (floatFree_optionStmt.mp h s hs)

theorem PropertyKey.reads (hexpr : ReadsExprs expr k) {key : PropertyKey}
    (h : FloatFree (keyParts key)) : (PropertyKey.decoderWith expr).Reads k key.toJson key := by
  cases key with
  | name s => exact (reads_newtype rfl rfl rfl (reads_text s).takes).lower
  | computed e => exact (reads_newtype rfl rfl rfl (hexpr e h).takes).lower

theorem Property.reads (hexpr : ReadsExprs expr k) {p : Property}
    (h : FloatFree (propertyParts p)) : (Property.decoderWith expr).Reads k p.toJson p := by
  obtain ⟨key, value⟩ := p
  obtain ⟨hkey, hvalue⟩ := floatFree_append.mp h
  refine reads_record (by decide) rfl ?_
  exact .field (.required rfl (PropertyKey.reads hexpr hkey)) <|
    .field (.required rfl (hexpr value hvalue)) .done

theorem FunctionDef.reads (hstmt : ReadsStmts stmt k) {f : FunctionDef}
    (h : FloatFree (functionParts f)) : (FunctionDef.decoderWith stmt).Reads k f.toJson f := by
  obtain ⟨name, params, body⟩ := f
  obtain ⟨-, hbody⟩ := floatFree_cons.mp h
  refine reads_record (by decide) rfl ?_
  exact .field (.required rfl (reads_text name)) <| .field (.required rfl (reads_texts params)) <|
    .field (.required rfl (hstmt.list hbody)) .done

theorem ModuleFunction.reads (hstmt : ReadsStmts stmt k) {f : ModuleFunction}
    (h : FloatFree (moduleFunctionParts f)) :
    (ModuleFunction.decoderWith stmt).Reads k f.toJson f := by
  obtain ⟨function, exported⟩ := f
  refine reads_record (by decide) rfl ?_
  exact .field (.required rfl (FunctionDef.reads hstmt h)) <|
    .field (.required rfl (reads_flag exported)) .done

theorem reads_functions (hstmt : ReadsStmts stmt k) {fs : List ModuleFunction}
    (h : FloatFree (moduleFunctionsParts fs)) :
    (listOf (ModuleFunction.decoderWith stmt)).Reads k (.array (functionsToJson fs)) fs := by
  rw [functionsToJson_eq]
  exact reads_listOf fun f hf => (ModuleFunction.reads hstmt (floatFree_functions.mp h f hf)).takes

theorem ModuleDef.reads (hstmt : ReadsStmts stmt k) {m : ModuleDef}
    (h : FloatFree (moduleParts m)) : (ModuleDef.decoderWith stmt).Reads k m.toJson m := by
  obtain ⟨name, imports, body, functions⟩ := m
  obtain ⟨hbody, hfunctions⟩ := floatFree_append.mp h
  refine reads_record (by decide) rfl ?_
  exact .field (.required rfl (reads_text name)) <|
    .field (.required rfl (reads_listOf fun i _ => i.reads.takes)) <|
    .field (.required rfl (hstmt.list hbody)) <|
    .field (.required rfl (reads_functions hstmt hfunctions)) .done

theorem readsExprs_step (hexpr : ReadsExprs expr k) (hstmt : ReadsStmts stmt k) :
    ReadsExprs (unionOf [] (Expr.variants expr stmt)) (k + 1) := by
  intro e h
  cases e with
  | literal l => exact reads_newtype rfl rfl rfl (Literal.reads (floatFree_cons.mp h).1).takes
  | ident name => exact reads_newtype rfl rfl rfl (reads_text name).takes
  | binary left op right =>
    obtain ⟨hleft, hright⟩ := floatFree_append.mp (floatFree_cons.mp h).2
    refine reads_struct rfl rfl rfl (by decide) rfl ?_
    exact .field (.required rfl (hexpr left hleft)) <| .field (.required rfl op.reads) <|
      .field (.required rfl (hexpr right hright)) .done
  | unary op operand =>
    obtain ⟨-, hoperand⟩ := floatFree_cons.mp h
    refine reads_struct rfl rfl rfl (by decide) rfl ?_
    exact .field (.required rfl op.reads) <| .field (.required rfl (hexpr operand hoperand)) .done
  | call callee args =>
    obtain ⟨hcallee, hargs⟩ := floatFree_append.mp (floatFree_cons.mp h).2
    refine reads_struct rfl rfl rfl (by decide) rfl ?_
    exact .field (.required rfl (hexpr callee hcallee)) <|
      .field (.required rfl (hexpr.list hargs)) .done
  | construct callee args =>
    obtain ⟨hcallee, hargs⟩ := floatFree_append.mp (floatFree_cons.mp h).2
    refine reads_struct rfl rfl rfl (by decide) rfl ?_
    exact .field (.required rfl (hexpr callee hcallee)) <|
      .field (.required rfl (hexpr.list hargs)) .done
  | member object property computed =>
    obtain ⟨hobject, hproperty⟩ := floatFree_append.mp (floatFree_cons.mp h).2
    refine reads_struct rfl rfl rfl (by decide) rfl ?_
    exact .field (.required rfl (hexpr object hobject)) <|
      .field (.required rfl (hexpr property hproperty)) <|
      .field (.required rfl (reads_flag computed)) .done
  | array items => exact reads_newtype rfl rfl rfl (hexpr.list (floatFree_cons.mp h).2).takes
  | object properties =>
    have hproperties := floatFree_properties.mp (floatFree_cons.mp h).2
    rw [Expr.toJson, propertiesToJson_eq]
    exact reads_newtype rfl rfl rfl <| Reads.takes <|
      reads_listOf fun p hp => (Property.reads hexpr (hproperties p hp)).takes
  | function f =>
    exact reads_newtype rfl rfl rfl (FunctionDef.reads hstmt (floatFree_cons.mp h).2).takes
  | conditional test consequent alternate =>
    obtain ⟨hfront, halternate⟩ := floatFree_append.mp (floatFree_cons.mp h).2
    obtain ⟨htest, hconsequent⟩ := floatFree_append.mp hfront
    refine reads_struct rfl rfl rfl (by decide) rfl ?_
    exact .field (.required rfl (hexpr test htest)) <|
      .field (.required rfl (hexpr consequent hconsequent)) <|
      .field (.required rfl (hexpr alternate halternate)) .done

theorem readsStmts_step (hexpr : ReadsExprs expr k) (hstmt : ReadsStmts stmt k) :
    ReadsStmts (unionOf [] (Stmt.variants expr stmt)) (k + 1) := by
  intro s h
  cases s with
  | expr value => exact reads_newtype rfl rfl rfl (hexpr value (floatFree_cons.mp h).2).takes
  | declare name init isMutable =>
    obtain ⟨-, hinit⟩ := floatFree_cons.mp h
    refine reads_struct rfl rfl rfl (by decide) rfl ?_
    exact .field (.required rfl (reads_text name)) <| .field (hexpr.optional rfl hinit) <|
      .field (.required rfl (reads_flag isMutable)) .done
  | block body => exact reads_newtype rfl rfl rfl (hstmt.list (floatFree_cons.mp h).2).takes
  | ifElse test consequent alternate =>
    obtain ⟨hfront, halternate⟩ := floatFree_append.mp (floatFree_cons.mp h).2
    obtain ⟨htest, hconsequent⟩ := floatFree_append.mp hfront
    refine reads_struct rfl rfl rfl (by decide) rfl ?_
    exact .field (.required rfl (hexpr test htest)) <|
      .field (.required rfl (hstmt consequent hconsequent)) <|
      .field (hstmt.optional rfl halternate) .done
  | forOf name iterable body =>
    obtain ⟨hiterable, hbody⟩ := floatFree_append.mp (floatFree_cons.mp h).2
    refine reads_struct rfl rfl rfl (by decide) rfl ?_
    exact .field (.required rfl (reads_text name)) <|
      .field (.required rfl (hexpr iterable hiterable)) <|
      .field (.required rfl (hstmt body hbody)) .done
  | returns value =>
    have hvalue := floatFree_option.mp (floatFree_cons.mp h).2
    rw [Stmt.toJson, optionExprToJson_eq]
    exact reads_newtype rfl rfl rfl (takes_optionOf fun e he => hexpr e (hvalue e he))
  | throws value => exact reads_newtype rfl rfl rfl (hexpr value (floatFree_cons.mp h).2).takes
  | function f =>
    exact reads_newtype rfl rfl rfl (FunctionDef.reads hstmt (floatFree_cons.mp h).2).takes
  | imports i => exact reads_newtype rfl rfl rfl i.reads.takes
  | module m =>
    exact reads_newtype rfl rfl rfl (ModuleDef.reads hstmt (floatFree_cons.mp h).2).takes

end Step

section Run

theorem Expr.toJson_ne_null (e : Expr) : e.toJson ≠ .null := by
  cases e <;> exact Value.noConfusion

theorem Stmt.toJson_ne_null (s : Stmt) : s.toJson ≠ .null := by
  cases s <;> exact Value.noConfusion

/-- The induction is on how often the decoders are unrolled. -/
theorem reads_decoderWithin (k : Nat) :
    ReadsExprs (Expr.decoderWithin k) k ∧ ReadsStmts (Stmt.decoderWithin k) k := by
  induction k with
  | zero =>
    exact ⟨fun e _ => ⟨fun levels hlevels => absurd hlevels (Nat.not_lt_zero levels),
        e.toJson_ne_null⟩,
      fun s _ => ⟨fun levels hlevels => absurd hlevels (Nat.not_lt_zero levels), s.toJson_ne_null⟩⟩
  | succ k ih => exact ⟨readsExprs_step ih.1 ih.2, readsStmts_step ih.1 ih.2⟩

theorem readsExprs_decoder (k : Nat) : ReadsExprs Expr.decoder k := fun e he =>
  ⟨fun levels _ =>
    ((reads_decoderWithin (levels + 1)).1 e he).takes levels (Nat.lt_succ_self levels),
    e.toJson_ne_null⟩

theorem readsStmts_decoder (k : Nat) : ReadsStmts Stmt.decoder k := fun s hs =>
  ⟨fun levels _ =>
    ((reads_decoderWithin (levels + 1)).2 s hs).takes levels (Nat.lt_succ_self levels),
    s.toJson_ne_null⟩

theorem Program.reads {k : Nat} {p : Program} (h : FloatFree (stmtsParts p.body)) :
    Program.decoder.Reads k p.toJson p :=
  reads_record (by decide) rfl <| .field (.required rfl ((readsStmts_decoder k).list h)) .done

end Run

end TreeLowering.Target
