import TreeLowering.Lowering
import TreeLowering.Proofs.Emits
import TreeLowering.Proofs.SourceTree

/-!
Every form is lowered to the marks of its outline.

`Yields` says of a step that whatever it gives, when it succeeds, has the marks of an outline. The
module has one lemma for each way of building a form from its parts; that a node follows its outline
in all positions is then an induction on the tree.
-/
namespace TreeLowering.Scoping

open Source Target LowerM

variable {V A : String → Prop}

/-- What the step gives has the marks of the outline, whatever values are kept around it. -/
def Yields (V A : String → Prop) {α : Type} (x : LowerM α) (marks : α → List Mark)
    (es : List Event) : Prop :=
  ∀ (c : Config) (kept : List (List String)) (s : State) (a : α) (s' : State),
    x c s = (.ok a, s') → Emits c V A kept (namesOf s) es (marks a) (namesOf s')

abbrev YieldsExpr (V A : String → Prop) (x : LowerM Expr) (es : List Event) : Prop :=
  Yields V A x exprMarks es

abbrev YieldsStmts (V A : String → Prop) (x : LowerM (List Stmt)) (es : List Event) : Prop :=
  Yields V A x stmtsMarks es

/-- The node of these positions follows the outline in each of them. -/
structure Follows (V A : String → Prop) (p : Positions) (o : Outline) : Prop where
  value : YieldsExpr V A p.value o.value
  tail : YieldsStmts V A p.tail o.tail
  effect : YieldsStmts V A p.effect o.effect

section Emits

variable {c : Config} {kept : List (List String)} {n m k : Names} {es fs : List Event}
  {as bs : List Mark}

/-- Reads of fixed names come from no event. -/
theorem Emits.fixed (h : ReadsOnly (· ∈ globals c) as) :
    Emits c V A kept n [] as n := by
  induction as with
  | nil => exact .nil
  | cons mark as ih =>
    obtain ⟨t, ht, rfl⟩ := h mark (by simp)
    exact .append (.global ht) (ih fun mark hmark => h mark (by simp [hmark]))

theorem Emits.afterGlobal {t : String} (ht : t ∈ globals c) (h : Emits c V A kept n es as m) :
    Emits c V A kept n es (.read t :: as) m :=
  .append (.global ht) h

theorem Emits.beforeFixed (h : Emits c V A kept n es as m)
    (hfixed : ReadsOnly (· ∈ globals c) bs) :
    Emits c V A kept n es (as ++ bs) m := by
  simpa using h.append (.fixed hfixed)

end Emits

theorem runtimeName_mem_globals (c : Config) : c.runtimeName ∈ globals c := by
  simp [globals]

theorem symbol_mem_globals (c : Config) : "Symbol" ∈ globals c := by
  simp [globals]

section Steps

variable {α : Type} {marks : α → List Mark} {es fs : List Event}

theorem Yields.pure {a : α} (h : marks a = []) : Yields V A (pure a) marks [] := by
  intro c kept s b s' hrun
  obtain ⟨rfl, rfl⟩ := pure_run.mp hrun
  rw [h]
  exact .nil

/-- The steps give, one after the other, the marks of the outline. -/
abbrev YieldsEach (V A : String → Prop) {α : Type} (xs : List (LowerM α))
    (marks : α → List Mark) (es : List Event) : Prop :=
  Yields V A (LowerM.sequence xs) (·.flatMap marks) es

theorem YieldsEach.nil : YieldsEach V A [] marks [] := .pure rfl

theorem YieldsEach.cons {x : LowerM α} {xs : List (LowerM α)} (h : Yields V A x marks es)
    (hs : YieldsEach V A xs marks fs) : YieldsEach V A (x :: xs) marks (es ++ fs) := by
  intro c kept s b s' hrun
  simp only [LowerM.sequence, bind_run, pure_run] at hrun
  obtain ⟨a, s₁, ha, as, s₂, has, rfl, rfl⟩ := hrun
  exact .append (h c kept s a s₁ ha) (hs c kept s₁ as s' has)

theorem YieldsEach.map {ι : Type} {l : List ι} {x : ι → LowerM α} {f : ι → List Event}
    (h : ∀ i ∈ l, Yields V A (x i) marks (f i)) :
    YieldsEach V A (l.map x) marks (l.flatMap f) := by
  induction l with
  | nil => exact .nil
  | cons i l ih => exact .cons (h i (by simp)) (ih fun j hj => h j (by simp [hj]))

theorem Yields.inScope (kept : List (List String)) {x : LowerM (List Stmt)}
    (h : YieldsStmts V A x es) {c : Config} {s s' : State} {stmts : List Stmt}
    (hrun : LowerM.inScope x c s = (.ok stmts, s')) :
    Emits c V A kept (namesOf s) [.scope es] [.scope (stmtsMarks stmts)] (namesOf s') := by
  obtain ⟨s₁, hx, rfl⟩ := inScope_run.mp hrun
  exact .scope (h c kept s stmts s₁ hx)

end Steps

section Values

variable {x y : LowerM Expr} {es fs : List Event}

theorem YieldsEach.exprs {xs : List (LowerM Expr)} (h : YieldsEach V A xs exprMarks es) :
    Yields V A (LowerM.sequence xs) exprsMarks es := by
  intro c kept s as s' hrun
  rw [exprsMarks_eq]
  exact h c kept s as s' hrun

theorem yields_resolve (name : String) :
    YieldsExpr V A (do return .ident (← LowerM.resolve name)) [.read name] := by
  intro c kept s e s' hrun
  simp only [LowerM.resolve, bind_run, pure_run, state_run] at hrun
  obtain ⟨t, s₁, ⟨r, s₂, ⟨rfl, rfl⟩, rfl, rfl⟩, rfl, rfl⟩ := hrun
  rw [exprMarks]
  exact .read

theorem yields_moduleValue (segments : List String) :
    YieldsExpr V A (do return moduleValue (← LowerM.resolveModule segments)) [] := by
  intro c kept s e s' hrun
  simp only [LowerM.resolveModule, bind_run, pure_run, state_run] at hrun
  obtain ⟨t, s₁, ⟨r, s₂, ⟨rfl, rfl⟩, rfl, rfl⟩, rfl, rfl⟩ := hrun
  simpa [moduleValue] using Emits.global (symbol_mem_globals c)

theorem yields_atomValue (name : String) : YieldsExpr V A (pure (atomValue name)) [] := by
  intro c kept s e s' hrun
  obtain ⟨rfl, rfl⟩ := pure_run.mp hrun
  exact .fixed (readsOnly_atomValue (symbol_mem_globals c) name)

theorem yields_array {xs : List (LowerM Expr)} (h : YieldsEach V A xs exprMarks es) :
    YieldsExpr V A (do return .array (← LowerM.sequence xs)) es := by
  intro c kept s e s' hrun
  simp only [bind_run, pure_run] at hrun
  obtain ⟨items, s₁, hitems, rfl, rfl⟩ := hrun
  simpa using h.exprs c kept s items s' hitems

theorem yields_consList {xs : List (LowerM Expr)} (h : YieldsEach V A xs exprMarks es)
    (hy : YieldsExpr V A y fs) : YieldsExpr V A (LowerM.consList xs y) (es ++ fs) := by
  intro c kept s e s' hrun
  simp only [LowerM.consList, bind_run, pure_run] at hrun
  obtain ⟨items, s₁, hitems, tail, s₂, htail, rfl, rfl⟩ := hrun
  simpa using (h.exprs c kept s items s₁ hitems).append (hy c kept s₁ tail s' htail)

theorem yields_tuple {xs : List (LowerM Expr)} (h : YieldsEach V A xs exprMarks es) :
    YieldsExpr V A (LowerM.tuple xs) es := by
  intro c kept s e s' hrun
  simp only [LowerM.tuple, bind_run, pure_run, library_run] at hrun
  obtain ⟨items, s₁, hitems, lib, s₂, ⟨rfl, rfl⟩, rfl, rfl⟩ := hrun
  simpa [RuntimeLibrary.tuple] using
    (h.exprs c kept s items s' hitems).afterGlobal (runtimeName_mem_globals c)

theorem yields_textPart {segment : Segment Node}
    (h : YieldsExpr V A x (outline (Node.segmentChild segment)).value) :
    YieldsExpr V A (LowerM.textPart segment x) (outline (Node.segmentChild segment)).value := by
  unfold LowerM.textPart
  split
  · exact .pure (by simp)
  · intro c kept s e s' hrun
    exact (fail_run hrun).elim
  · intro c kept s e s' hrun
    simp only [bind_run, pure_run, library_run] at hrun
    obtain ⟨value, s₁, hvalue, lib, s₂, ⟨rfl, rfl⟩, rfl, rfl⟩ := hrun
    simpa [RuntimeLibrary.display] using
      (h c kept s value s' hvalue).afterGlobal (runtimeName_mem_globals c)

/-- Plain text reads nothing. -/
theorem outline_of_text {segments : List (Segment Node)} {text : String}
    (h : segmentsText? segments = some text) :
    segments.flatMap (fun g => (outline (Node.segmentChild g)).value) = [] := by
  induction segments generalizing text with
  | nil => rfl
  | cons g rest ih =>
    unfold segmentsText? at h
    split at h
    · contradiction
    next t more heq =>
      obtain ⟨rfl, rfl⟩ := List.cons.inj heq
      obtain ⟨rest', hrest, -⟩ := Option.map_eq_some_iff.mp h
      rw [List.flatMap_cons, ih hrest]
      simp [Node.segmentChild, outline, Outline.ofValue]
    · contradiction

theorem yields_binary {segments : List (Segment Node × LowerM Expr)}
    (h : ∀ p ∈ segments, YieldsExpr V A p.2 (outline (Node.segmentChild p.1)).value) :
    YieldsExpr V A (LowerM.binary segments)
      (segments.flatMap fun p => (outline (Node.segmentChild p.1)).value) := by
  unfold LowerM.binary
  cases htext : segmentsText? (segments.map (·.1)) with
  | some text =>
    have hempty := outline_of_text htext
    rw [List.flatMap_map] at hempty
    rw [hempty]
    exact .pure (by simp)
  | none =>
    simp only
    split
    · have hparts : YieldsEach V A (segments.map fun p => LowerM.textPart p.1 p.2) exprMarks
          (segments.flatMap fun p => (outline (Node.segmentChild p.1)).value) :=
        .map fun p hp => yields_textPart (h p hp)
      intro c kept s e s' hrun
      simp only [bind_run, pure_run] at hrun
      obtain ⟨parts, s₁, hrun, rfl, rfl⟩ := hrun
      rw [exprMarks_joined_getD _ _ (by simp)]
      exact hparts.exprs c kept s parts s' hrun
    · exact yields_array (.map h)

/-- The marks of an entry of an object. -/
def entryMarks (p : Property) : List Mark := keyMarks p.key ++ exprMarks p.value

theorem propertiesMarks_eq (ps : List Property) : propertiesMarks ps = ps.flatMap entryMarks := by
  induction ps with
  | nil => rfl
  | cons p ps ih =>
    obtain ⟨key, value⟩ := p
    simp [ih, entryMarks]

theorem yields_entry {key : Node} (hx : YieldsExpr V A x (outline key).value)
    (hy : YieldsExpr V A y fs) :
    Yields V A (LowerM.entry key x y) entryMarks ((outline key).value ++ fs) := by
  intro c kept s p s' hrun
  unfold LowerM.entry at hrun
  split at hrun
  · simp only [bind_run, pure_run] at hrun
    obtain ⟨value, s₁, hvalue, rfl, rfl⟩ := hrun
    simpa [outline, Outline.ofValue, entryMarks, Property.named] using hy c kept s value s' hvalue
  · simp only [bind_run, pure_run] at hrun
    obtain ⟨k, s₁, hk, value, s₂, hvalue, rfl, rfl⟩ := hrun
    simpa [entryMarks, Property.computed] using
      (hx c kept s k s₁ hk).append (hy c kept s₁ value s' hvalue)

theorem yields_object {entries : List (LowerM Property)}
    (h : YieldsEach V A entries entryMarks es) : YieldsExpr V A (LowerM.object entries) es := by
  intro c kept s e s' hrun
  simp only [LowerM.object, bind_run, pure_run] at hrun
  obtain ⟨properties, s₁, hrun, rfl, rfl⟩ := hrun
  rw [exprMarks, propertiesMarks_eq]
  exact h c kept s properties s' hrun

theorem yields_mapUpdate {updates : List (LowerM Property)} (hx : YieldsExpr V A x es)
    (h : YieldsEach V A updates entryMarks fs) :
    YieldsExpr V A (LowerM.mapUpdate x updates) (es ++ fs) := by
  intro c kept s e s' hrun
  simp only [LowerM.mapUpdate, bind_run, pure_run, library_run] at hrun
  obtain ⟨base, s₁, hbase, object, s₂, hobject, lib, s₃, ⟨rfl, rfl⟩, rfl, rfl⟩ := hrun
  simpa [RuntimeLibrary.specialForm] using
    ((hx c kept s base s₁ hbase).append (yields_object h c kept s₁ object s' hobject)).afterGlobal
      (runtimeName_mem_globals c)

theorem yields_moduleMember (segments : List String) (name : String) :
    YieldsExpr V A (LowerM.moduleMember segments name) [.remote segments name] := by
  intro c kept s e s' hrun
  simp only [LowerM.moduleMember, LowerM.resolveModule, bind_run, pure_run, state_run,
    config_run] at hrun
  obtain ⟨module, s₁, ⟨r, s₂, ⟨rfl, rfl⟩, rfl, rfl⟩, d, s₃, ⟨rfl, rfl⟩, hrun⟩ := hrun
  split at hrun
  · simp only [bind_run, pure_run, library_run] at hrun
    obtain ⟨lib, s₄, ⟨rfl, rfl⟩, rfl, rfl⟩ := hrun
    simpa [RuntimeLibrary.moduleFunction] using Emits.remote (.inl rfl)
  · simp only [bind_run, state_run] at hrun
    obtain ⟨r, s₄, ⟨rfl, rfl⟩, hrun⟩ := hrun
    split at hrun
    · obtain ⟨rfl, rfl⟩ := pure_run.mp hrun
      simpa using Emits.remote (.inr (.inl rfl))
    · obtain ⟨rfl, rfl⟩ := pure_run.mp hrun
      simpa using Emits.remote (.inr (.inr ⟨_, rfl⟩))

/-- Optional steps that follow optional outlines. -/
abbrev YieldsOption (V A : String → Prop) : Option (LowerM Expr) → Option Outline → Prop :=
  Option.Rel fun x o => YieldsExpr V A x o.value

theorem YieldsOption.optional {o : Option (LowerM Expr)} {b : Option Outline}
    (h : YieldsOption V A o b) :
    Yields V A (LowerM.optional o) optionMarks ((b.map (·.value)).getD []) := by
  cases h with
  | none => exact .pure (by simp)
  | some h =>
    intro c kept s e s' hrun
    simp only [LowerM.optional, bind_run, pure_run] at hrun
    obtain ⟨value, s₁, hvalue, rfl, rfl⟩ := hrun
    simpa using h c kept s value s' hvalue

theorem yields_struct {module : Node} {fields : List (LowerM Property)}
    {update : Option (LowerM Expr)} {base : Option Outline}
    (hfields : YieldsEach V A fields entryMarks fs) (hupdate : YieldsOption V A update base) :
    YieldsExpr V A (LowerM.struct module fields update) (structOutline module fs base) := by
  unfold LowerM.struct
  split
  next segments x =>
    cases hupdate with
    | some hx => exact yields_mapUpdate hx hfields
  next segments =>
    cases hupdate
    intro c kept s e s' hrun
    simp only [bind_run, pure_run] at hrun
    obtain ⟨constructor, s₁, hconstructor, object, s₂, hobject, rfl, rfl⟩ := hrun
    simpa [structOutline] using
      (yields_moduleMember segments "__struct__" c kept s constructor s₁ hconstructor).append
        (yields_object hfields c kept s₁ object s' hobject)
  next =>
    intro c kept s e s' hrun
    exact (fail_run hrun).elim

theorem yields_condition {node : Node} (h : YieldsExpr V A x es) :
    YieldsExpr V A (LowerM.condition node x) es := by
  intro c kept s e s' hrun
  simp only [LowerM.condition, bind_run] at hrun
  obtain ⟨value, s₁, hvalue, hrun⟩ := hrun
  have hemits := h c kept s value s₁ hvalue
  split at hrun
  · obtain ⟨rfl, rfl⟩ := pure_run.mp hrun
    exact hemits
  · simp only [bind_run, pure_run, library_run] at hrun
    obtain ⟨lib, s₂, ⟨rfl, rfl⟩, rfl, rfl⟩ := hrun
    simpa [RuntimeLibrary.truthy] using hemits.afterGlobal (runtimeName_mem_globals c)

theorem yields_unary {op : UnaryOp} (h : YieldsExpr V A x es) :
    YieldsExpr V A (do return .unary op (← x)) es := by
  intro c kept s e s' hrun
  simp only [bind_run, pure_run] at hrun
  obtain ⟨value, s₁, hvalue, rfl, rfl⟩ := hrun
  simpa using h c kept s value s' hvalue

theorem yields_negation {operand : Node} (h : YieldsExpr V A x (outline operand).value) :
    YieldsExpr V A (LowerM.negation operand x) (outline operand).value := by
  unfold LowerM.negation
  split
  · split <;> exact .pure (by simp)
  · exact .pure (by simp)
  · exact yields_unary h

theorem yields_unaryOperation {op : String} {operand : Node}
    (h : YieldsExpr V A x (outline operand).value) :
    YieldsExpr V A (LowerM.unaryOperation op operand x) (outline operand).value := by
  unfold LowerM.unaryOperation
  split
  · exact yields_negation h
  · exact h
  · exact yields_unary h
  · exact yields_unary (yields_condition h)
  · intro c kept s e s' hrun
    exact (fail_run hrun).elim

theorem yields_range {step : Option (LowerM Expr)} {o : Option Outline}
    (hx : YieldsExpr V A x es) (hy : YieldsExpr V A y fs) (hstep : YieldsOption V A step o) :
    YieldsExpr V A (LowerM.range x y step) (es ++ fs ++ (o.map (·.value)).getD []) := by
  intro c kept s e s' hrun
  simp only [LowerM.range, bind_run, pure_run, library_run] at hrun
  obtain ⟨first, s₁, hfirst, last, s₂, hlast, by_, s₃, hby, lib, s₄, ⟨rfl, rfl⟩, rfl, rfl⟩ := hrun
  have hemits := ((hx c kept s first s₁ hfirst).append (hy c kept s₁ last s₂ hlast)).append
    (hstep.optional c kept s₂ by_ s' hby)
  have hmarks : exprsMarks by_.toList = optionMarks by_ := by
    cases by_ <;> simp
  simpa [RuntimeLibrary.range, hmarks] using hemits.afterGlobal (runtimeName_mem_globals c)

/-- A callee and its arguments. -/
theorem yields_applied {args : List (LowerM Expr)} (hx : YieldsExpr V A x es)
    (hargs : YieldsEach V A args exprMarks fs) :
    YieldsExpr V A (LowerM.applied x args) (es ++ fs) := by
  intro c kept s e s' hrun
  simp only [LowerM.applied, bind_run, pure_run] at hrun
  obtain ⟨callee, s₁, hcallee, values, s₂, hvalues, rfl, rfl⟩ := hrun
  simpa using (hx c kept s callee s₁ hcallee).append (hargs.exprs c kept s₁ values s' hvalues)

theorem yields_function (name : String) :
    YieldsExpr V A (pure (.ident (Identifier.escape name))) [.function name] := by
  intro c kept s e s' hrun
  obtain ⟨rfl, rfl⟩ := pure_run.mp hrun
  simpa using Emits.function

theorem yields_namedCall {name : String} {info : CallMeta} {args : List (LowerM Expr)}
    (hargs : YieldsEach V A args exprMarks fs) :
    YieldsExpr V A (LowerM.namedCall name info args) (calleeOutline name info ++ fs) := by
  unfold LowerM.namedCall calleeOutline
  cases info.resolution with
  | qualified module => exact yields_applied (yields_moduleMember module name) hargs
  | unqualified | imported => exact yields_applied (yields_function name) hargs

theorem yields_atomModuleFunction (module name : String) :
    YieldsExpr V A (do return (← LowerM.library).atomModuleFunction module name) [] := by
  intro c kept s e s' hrun
  simp only [bind_run, pure_run, library_run] at hrun
  obtain ⟨lib, s₁, ⟨rfl, rfl⟩, rfl, rfl⟩ := hrun
  simpa [RuntimeLibrary.atomModuleFunction] using Emits.global (runtimeName_mem_globals c)

theorem yields_remoteFunction {target : Node} {name : String} (hx : YieldsExpr V A x es) :
    YieldsExpr V A (LowerM.remoteFunction target x name) (remoteOutline target es name) := by
  unfold LowerM.remoteFunction remoteOutline
  split
  · exact yields_moduleMember _ name
  · exact yields_atomModuleFunction _ name
  · intro c kept s e s' hrun
    simp only [bind_run, pure_run] at hrun
    obtain ⟨value, s₁, hvalue, rfl, rfl⟩ := hrun
    simpa using hx c kept s value s' hvalue

theorem yields_dotted {target : Node} {name : String} {args : Option (List (LowerM Expr))}
    {os : Option (List Outline)} {info : DotMeta} (hx : YieldsExpr V A x es)
    (hargs : Option.Rel (fun xs o => YieldsEach V A xs exprMarks (o.flatMap (·.value))) args os) :
    YieldsExpr V A (LowerM.dotted target x name args info)
      (dottedOutline target es name os info) := by
  cases hargs with
  | some hargs => exact yields_applied (yields_remoteFunction hx) hargs
  | none =>
    unfold LowerM.dotted dottedOutline
    simp only
    split
    · rw [← List.append_nil (remoteOutline target es name)]
      exact yields_applied (yields_remoteFunction hx) .nil
    · intro c kept s e s' hrun
      simp only [bind_run, pure_run] at hrun
      obtain ⟨value, s₁, hvalue, rfl, rfl⟩ := hrun
      simpa using (hx c kept s value s' hvalue).beforeFixed
        (readsOnly_atomValue (symbol_mem_globals c) name)

theorem yields_captured (owner : Option Node) (name : String) :
    YieldsExpr V A (LowerM.captured owner name) (captureOutline owner name) := by
  unfold LowerM.captured
  split
  · exact yields_function name
  · exact yields_moduleMember _ name
  · exact yields_atomModuleFunction _ name
  · intro c kept s e s' hrun
    exact (fail_run hrun).elim

theorem yields_raised {exception : Node} {attributes : Option (LowerM Expr)} {o : Option Outline}
    (hx : YieldsExpr V A x es) (hattributes : YieldsOption V A attributes o) :
    YieldsExpr V A (LowerM.raised exception x attributes) (raisedOutline exception es o) := by
  intro c kept s e s' hrun
  unfold LowerM.raised at hrun
  split at hrun
  · simp only [bind_run, pure_run] at hrun
    obtain ⟨constructor, s₁, hconstructor, given, s₂, hgiven, rfl, rfl⟩ := hrun
    have hmarks : exprMarks (given.getD (.array [])) = optionMarks given := by
      cases given <;> simp
    simpa [hmarks, raisedOutline] using
      (yields_moduleMember _ "exception" c kept s constructor s₁ hconstructor).append
        (hattributes.optional c kept s₁ given s' hgiven)
  next hname =>
    simp only [bind_run] at hrun
    obtain ⟨value, s₁, hvalue, hrun⟩ := hrun
    have hemits := (hx c kept s value s₁ hvalue).afterGlobal (runtimeName_mem_globals c)
    have houtline : raisedOutline exception es o = es := by
      unfold raisedOutline
      split
      · exact (hname _ rfl).elim
      · rfl
    rw [houtline]
    split at hrun
    · simp only [bind_run, pure_run, library_run] at hrun
      obtain ⟨lib, s₂, ⟨rfl, rfl⟩, rfl, rfl⟩ := hrun
      simpa [RuntimeLibrary.error] using hemits
    · simp only [bind_run, pure_run, library_run] at hrun
      obtain ⟨lib, s₂, ⟨rfl, rfl⟩, rfl, rfl⟩ := hrun
      simpa using hemits
  · exact (fail_run hrun).elim

theorem yields_attributeValue (name : String) :
    YieldsExpr V A (LowerM.attributeValue name) [.attribute name] := by
  intro c kept s e s' hrun
  simp only [LowerM.attributeValue, bind_run, state_run] at hrun
  obtain ⟨r, s₁, ⟨rfl, rfl⟩, hrun⟩ := hrun
  cases hcontext : s₁.context with
  | none =>
    rw [hcontext] at hrun
    exact (fail_run hrun).elim
  | some context =>
    simp only [hcontext] at hrun
    cases hversion : context.attributes.get? name with
    | some number =>
      simp only [hversion, pure_run] at hrun
      obtain ⟨rfl, rfl⟩ := hrun
      simpa using Emits.version number
    | none =>
      simp only [hversion, pure_run] at hrun
      obtain ⟨rfl, rfl⟩ := hrun
      simpa using Emits.unset

theorem yields_indirectOperator {c : Config} {kept : List (List String)} {n m k : Names}
    {op : String} {left right e : Expr} (hl : Emits c V A kept n es (exprMarks left) m)
    (hr : Emits c V A kept m fs (exprMarks right) k)
    (h : indirectOperator? ⟨c.runtimeName⟩ op left right = some e) :
    Emits c V A kept n (operandsOutline op es fs) (exprMarks e) k := by
  have hstring : ∀ {n m : Names} {es : List Event} {e : Expr},
      Emits c V A kept n es (exprMarks e) m → Emits c V A kept n es (exprMarks (asString e)) m := by
    intro n m es e h
    unfold asString
    split
    · exact h
    · simpa using h.afterGlobal (by simp [globals])
  have hdelayed : Emits c V A kept m [.scope fs] [.scope (exprMarks right)] k :=
    hr.leave_eq (flat_exprMarks right) ▸ hr.scope
  have hlibrary := runtimeName_mem_globals c
  unfold indirectOperator? at h
  split at h <;> cases h
  · simpa [operandsOutline, delayed, FunctionDef.anonymous] using
      (hl.append hdelayed).afterGlobal hlibrary
  · simpa [operandsOutline, delayed, FunctionDef.anonymous] using
      (hl.append hdelayed).afterGlobal hlibrary
  · simpa [operandsOutline] using (hstring hl).append (hstring hr)
  · simpa [operandsOutline] using hl.append hr
  · simpa [operandsOutline] using (hl.append hr).afterGlobal hlibrary
  · simpa [operandsOutline] using (hl.append hr).afterGlobal hlibrary

theorem yields_binaryOperation (op : String) (hx : YieldsExpr V A x es) (hy : YieldsExpr V A y fs) :
    YieldsExpr V A (LowerM.binaryOperation op x y) (operandsOutline op es fs) := by
  intro c kept s e s' hrun
  simp only [LowerM.binaryOperation, bind_run] at hrun
  obtain ⟨left, s₁, hleft, right, s₂, hright, hrun⟩ := hrun
  have hl := hx c kept s left s₁ hleft
  have hr := hy c kept s₁ right s₂ hright
  cases hdirect : directOperator? op with
  | some direct =>
    simp only [hdirect, pure_run] at hrun
    obtain ⟨rfl, rfl⟩ := hrun
    have hop : ¬ (op = "&&" ∨ op = "||") := by
      rintro (rfl | rfl) <;> simp [directOperator?] at hdirect
    simpa [operandsOutline, hop] using hl.append hr
  | none =>
    simp only [hdirect, bind_run, library_run] at hrun
    obtain ⟨lib, s₃, ⟨rfl, rfl⟩, hrun⟩ := hrun
    cases hindirect : indirectOperator? ⟨c.runtimeName⟩ op left right with
    | some value =>
      simp only [hindirect, pure_run] at hrun
      obtain ⟨rfl, rfl⟩ := hrun
      exact yields_indirectOperator hl hr hindirect
    | none =>
      rw [hindirect] at hrun
      exact (fail_run hrun).elim

end Values

end TreeLowering.Scoping
