import TreeLowering.Call
import TreeLowering.Collection
import TreeLowering.Comprehension
import TreeLowering.Position
import TreeLowering.Proofs.Ensures

/-!
What a step leaves behind, whether it succeeds or fails.

`Within` bounds what may be different in the state after a step: the numbers that are given out next,
also the bindings of the scope, or anything. It says as well when a step can fail over a pipe that
has not been written out. Every rule of the lowering keeps such a bound from its parts, and the rules
that open a child scope, a function or a module narrow it.
-/
namespace TreeLowering

open Source Target

/-- The second state comes later in the same module: no number has been taken back. -/
structure State.Advances (s s' : State) : Prop where
  versions : ∀ name, s.versions.next name ≤ s'.versions.next name
  invented : s.invented ≤ s'.invented
  context : s'.context = s.context

namespace State.Advances

variable {s s' s'' : State}

theorem refl (s : State) : s.Advances s :=
  ⟨fun _ => Nat.le_refl _, Nat.le_refl _, rfl⟩

theorem trans (h : s.Advances s') (h' : s'.Advances s'') : s.Advances s'' where
  versions name := Nat.le_trans (h.versions name) (h'.versions name)
  invented := Nat.le_trans h.invented h'.invented
  context := h'.context.trans h.context

end State.Advances

/-- What may be different after a step. -/
inductive Reach where
  /-- The numbers that are given out next. -/
  | numbers
  /-- Also the bindings of the scope. -/
  | bindings
  | everything

namespace Reach

variable {r : Reach} {s s' s'' : State}

def Allows : Reach → State → State → Prop
  | .numbers, s, s' => s.Advances s' ∧ s'.scope = s.scope
  | .bindings, s, s' => s.Advances s'
  | .everything, _, _ => True

theorem allows_refl (r : Reach) (s : State) : r.Allows s s := by
  cases r with
  | numbers => exact ⟨.refl s, rfl⟩
  | bindings => exact .refl s
  | everything => trivial

theorem allows_trans (h : r.Allows s s') (h' : r.Allows s' s'') : r.Allows s s'' := by
  cases r with
  | numbers => exact ⟨h.1.trans h'.1, h'.2.trans h.2⟩
  | bindings => exact State.Advances.trans h h'
  | everything => trivial

/-- What changes numbers only is within every reach. -/
theorem allows_of_numbers (h : Allows .numbers s s') : r.Allows s s' := by
  cases r with
  | numbers => exact h
  | bindings => exact h.1
  | everything => trivial

end Reach

/-- The result is not the error that a pipe has been left. -/
def NoPipeLeft {α : Type} (x : Except LowerError α) : Prop := x ≠ .error (.malformed .pipeLeft)

namespace NoPipeLeft

variable {α β : Type}

theorem ok (a : α) : NoPipeLeft (.ok a : Except LowerError α) := nofun

theorem error {e : LowerError} (h : e ≠ .malformed .pipeLeft) :
    NoPipeLeft (.error e : Except LowerError α) :=
  fun herror => h (Except.error.inj herror)

theorem bind {x : Except LowerError α} {f : α → Except LowerError β} (hx : NoPipeLeft x)
    (hf : ∀ a, NoPipeLeft (f a)) : NoPipeLeft (x >>= f) := by
  cases x with
  | error e => exact fun h => hx (by cases h; rfl)
  | ok a => exact hf a

end NoPipeLeft

namespace LowerM

variable {α β : Type} {r : Reach} {P : Prop}

/-- What the step leaves is within reach on both outcomes, and it fails over a pipe only if `P`. -/
structure Within (x : LowerM α) (r : Reach) (P : Prop) : Prop where
  leaves : ∀ c s, r.Allows s (x c s).2
  fails : ∀ c s, (x c s).1 = .error (.malformed .pipeLeft) → P

theorem inModule_state (name functions : List String) (x : LowerM α) (c : Config) (s : State) :
    (inModule name functions x c s).2 = s := rfl

namespace Within

theorem pure (a : α) : (Pure.pure a : LowerM α).Within r P :=
  ⟨fun _ s => r.allows_refl s, nofun⟩

/-- The second step is within reach for the results that the first one ensures. -/
theorem bindEnsured {Q : α → Prop} {x : LowerM α} {f : α → LowerM β} (hx : x.Within r P)
    (hresult : x.Ensures Q) (hf : ∀ a, Q a → (f a).Within r P) : (x >>= f).Within r P := by
  constructor
  · intro c s
    have hfirst := hx.leaves c s
    cases heq : x c s with
    | mk result s' =>
      rw [heq] at hfirst
      cases result with
      | ok a =>
        have ha := hresult c s a s' heq
        rw [bind_of_ok heq]
        exact Reach.allows_trans hfirst ((hf a ha).leaves c s')
      | error e =>
        rw [bind_of_error heq]
        exact hfirst
  · intro c s herror
    cases heq : x c s with
    | mk result s' =>
      cases result with
      | ok a =>
        have ha := hresult c s a s' heq
        rw [bind_of_ok heq] at herror
        exact (hf a ha).fails c s' herror
      | error e =>
        rw [bind_of_error heq] at herror
        apply hx.fails c s
        rw [heq]
        exact congrArg Except.error (Except.error.inj herror)

theorem bind {x : LowerM α} {f : α → LowerM β} (hx : x.Within r P)
    (hf : ∀ a, (f a).Within r P) : (x >>= f).Within r P :=
  bindEnsured (Q := fun _ => True) hx (fun _ _ _ _ _ => trivial) fun a _ => hf a

theorem fail {e : LowerError} (h : e = .malformed .pipeLeft → P) :
    (LowerM.fail e : LowerM α).Within r P :=
  ⟨fun _ s => r.allows_refl s, fun _ _ herror => h (Except.error.inj herror)⟩

theorem ofExcept {x : Except LowerError α} (h : NoPipeLeft x) : (LowerM.ofExcept x).Within r P := by
  cases x with
  | ok a => exact pure a
  | error e => exact fail fun he => (h (by rw [he])).elim

theorem library : LowerM.library.Within r P := ⟨fun _ s => r.allows_refl s, nofun⟩

theorem config : LowerM.config.Within r P := ⟨fun _ s => r.allows_refl s, nofun⟩

theorem state : LowerM.state.Within r P := ⟨fun _ s => r.allows_refl s, nofun⟩

/-- A step that changes numbers only is within every reach. -/
theorem widen {x : LowerM α} (h : x.Within .numbers P) : x.Within r P :=
  ⟨fun c s => Reach.allows_of_numbers (h.leaves c s), h.fails⟩

theorem toEverything {x : LowerM α} (h : x.Within r P) : x.Within .everything P :=
  ⟨fun _ _ => trivial, h.fails⟩

/-- The bindings of a child scope are dropped. -/
theorem inScope {x : LowerM α} (h : x.Within .bindings P) : (LowerM.inScope x).Within r P := by
  refine widen ⟨fun c s => ⟨?_, rfl⟩, h.fails⟩
  obtain ⟨hversions, hinvented, hcontext⟩ := h.leaves c s
  exact ⟨hversions, hinvented, hcontext⟩

/-- The body of a named function leaves neither numbers nor bindings behind. -/
theorem inFunction {x : LowerM α} (h : x.Within .bindings P) : (LowerM.inFunction x).Within r P := by
  refine widen ⟨fun c s => ⟨⟨fun _ => ?_, ?_, ?_⟩, rfl⟩, fun c _ herror => h.fails c _ herror⟩
  · exact Nat.le_refl _
  · exact Nat.le_refl _
  · exact (h.leaves c { s with scope := [], versions := [], invented := 0 }).context

/-- The body of a named function leaves the state as it was. -/
theorem inFunction_state {x : LowerM α} (h : x.Within .bindings P) (c : Config) (s : State) :
    (LowerM.inFunction x c s).2 = s := by
  have hcontext := (h.leaves c { s with scope := [], versions := [], invented := 0 }).context
  simp only [LowerM.inFunction, hcontext]

/-- The functions that can be called stay the same. -/
theorem functions_eq {x : LowerM α} (h : x.Within .bindings P) (c : Config) (s : State) :
    (x c s).2.functions = s.functions := by
  rw [State.functions, (h.leaves c s).context, State.functions]

theorem attributeVersions_eq {x : LowerM α} (h : x.Within .bindings P) (c : Config) (s : State) :
    (x c s).2.attributeVersions = s.attributeVersions := by
  rw [State.attributeVersions, (h.leaves c s).context, State.attributeVersions]

/-- A module leaves everything as it was. -/
theorem inModule {name functions : List String} {x : LowerM α} (h : x.Within .everything P) :
    (LowerM.inModule name functions x).Within r P := by
  refine ⟨fun c s => ?_, fun c _ herror => h.fails c _ herror⟩
  rw [inModule_state]
  exact r.allows_refl s

/-- The attributes of the module are put back. -/
theorem context_withAttributes {s s' : State} {versions : NameTable Nat}
    (h : s'.context = (s.withAttributes versions).context) :
    (s'.withAttributes s.attributes).context = s.context := by
  have hattributes : (s'.withAttributes s.attributes).context =
      s'.context.map fun m => { m with attributes := s.attributes } := rfl
  rw [hattributes, h]
  cases hcontext : s.context with
  | none => simp [State.withAttributes, hcontext]
  | some m => simp [State.withAttributes, State.attributes, hcontext]

theorem withAttributes {versions : Option (NameTable Nat)} {x : LowerM α} (h : x.Within r P) :
    (LowerM.withAttributes versions x).Within r P := by
  cases versions with
  | none => exact h
  | some versions =>
    refine ⟨fun c s => ?_, fun c s => h.fails c _⟩
    have hleaves := h.leaves c (s.withAttributes versions)
    cases r with
    | numbers =>
      obtain ⟨⟨hversions, hinvented, hcontext⟩, hscope⟩ := hleaves
      exact ⟨⟨hversions, hinvented, context_withAttributes hcontext⟩, hscope⟩
    | bindings =>
      obtain ⟨hversions, hinvented, hcontext⟩ := hleaves
      exact ⟨hversions, hinvented, context_withAttributes hcontext⟩
    | everything => trivial

theorem sequence {xs : List (LowerM α)} (h : ∀ x ∈ xs, x.Within r P) :
    (LowerM.sequence xs).Within r P := by
  induction xs with
  | nil => exact pure []
  | cons x xs ih =>
    refine bind (h x List.mem_cons_self) fun a => ?_
    exact bind (ih fun y hy => h y (List.mem_cons_of_mem x hy)) fun as => pure _

theorem concat {xs : List (LowerM (List α))} (h : ∀ x ∈ xs, x.Within r P) :
    (LowerM.concat xs).Within r P :=
  bind (sequence h) fun _ => pure _

theorem optional {o : Option (LowerM α)} (h : ∀ x ∈ o, x.Within r P) :
    (LowerM.optional o).Within r P := by
  cases o with
  | none => exact pure none
  | some x => exact bind (h x rfl) fun _ => pure _

end Within

section Names

theorem within_invent (stem : String) : (invent stem).Within r P := by
  refine .widen ⟨fun c s => ⟨⟨fun _ => ?_, ?_, rfl⟩, rfl⟩, nofun⟩
  · exact Nat.le_refl _
  · exact Nat.le_succ _

theorem within_bindVariable (name : String) : (bindVariable name).Within .bindings P :=
  ⟨fun _ s => ⟨s.versions.next_le_next_set name, Nat.le_refl _, rfl⟩, nofun⟩

theorem within_bindVariables (names : List String) : (bindVariables names).Within .bindings P :=
  .sequence (List.forall_mem_map.mpr fun name _ => within_bindVariable name)

theorem within_defineAttribute (name : String) : (defineAttribute name).Within .everything P :=
  ⟨fun _ _ => trivial, nofun⟩

theorem within_addAlias (short : String) (full : List String) :
    (addAlias short full).Within .everything P :=
  ⟨fun _ _ => trivial, nofun⟩

theorem within_attributes : attributes.Within r P := .bind .state fun _ => .pure _

theorem within_resolve (name : String) : (resolve name).Within r P := .bind .state fun _ => .pure _

theorem within_resolveModule (segments : List String) : (resolveModule segments).Within r P :=
  .bind .state fun _ => .pure _

theorem within_moduleMember (segments : List String) (function : String) :
    (moduleMember segments function).Within r P := by
  refine .bind (within_resolveModule segments) fun module => .bind .config fun c => ?_
  split
  · exact .bind .library fun lib => .pure _
  · refine .bind .state fun s => ?_
    split <;> exact .pure _

end Names

section Values

variable {x y : LowerM Expr} {xs : List (LowerM Expr)} {entries : List (LowerM Property)}
  {o : Option (LowerM Expr)}

theorem within_consList (hxs : ∀ x ∈ xs, x.Within r P) (hx : x.Within r P) :
    (consList xs x).Within r P :=
  .bind (.sequence hxs) fun _ => .bind hx fun _ => .pure _

theorem within_tuple (hxs : ∀ x ∈ xs, x.Within r P) : (tuple xs).Within r P :=
  .bind (.sequence hxs) fun _ => .bind .library fun _ => .pure _

theorem within_textPart {segment : Segment Node} (hx : x.Within r P) :
    (textPart segment x).Within r P := by
  unfold textPart
  split
  · exact .pure _
  · exact .fail nofun
  · exact .bind hx fun _ => .bind .library fun _ => .pure _

theorem within_binary {segments : List (Segment Node × LowerM Expr)}
    (h : ∀ p ∈ segments, p.2.Within r P) : (LowerM.binary segments).Within r P := by
  unfold LowerM.binary
  split
  · exact .pure _
  · split
    · refine .bind (.sequence (List.forall_mem_map.mpr fun p hp => ?_)) fun _ => .pure _
      exact within_textPart (h p hp)
    · exact .bind (.sequence (List.forall_mem_map.mpr h)) fun _ => .pure _

theorem within_entry {key : Node} (hx : x.Within r P) (hy : y.Within r P) :
    (entry key x y).Within r P := by
  unfold entry
  split
  · exact .bind hy fun _ => .pure _
  · exact .bind hx fun _ => .bind hy fun _ => .pure _

theorem within_object (h : ∀ e ∈ entries, e.Within r P) : (object entries).Within r P :=
  .bind (.sequence h) fun _ => .pure _

theorem within_mapUpdate (hx : x.Within r P) (h : ∀ e ∈ entries, e.Within r P) :
    (mapUpdate x entries).Within r P :=
  .bind hx fun _ => .bind (within_object h) fun _ => .bind .library fun _ => .pure _

theorem within_struct {module : Node} (h : ∀ e ∈ entries, e.Within r P)
    (ho : ∀ x ∈ o, x.Within r P) : (LowerM.struct module entries o).Within r P := by
  unfold LowerM.struct
  split
  · exact within_mapUpdate (ho _ rfl) h
  · exact .bind (within_moduleMember _ _) fun _ => .bind (within_object h) fun _ => .pure _
  · exact .fail nofun

theorem within_binaryOperation (op : String) (hx : x.Within r P) (hy : y.Within r P) :
    (binaryOperation op x y).Within r P := by
  refine .bind hx fun left => .bind hy fun right => ?_
  split
  · exact .pure _
  · refine .bind .library fun lib => ?_
    split
    · exact .pure _
    · exact .fail nofun

theorem within_condition {node : Node} (hx : x.Within r P) : (condition node x).Within r P := by
  refine .bind hx fun value => ?_
  split
  · exact .pure _
  · exact .bind .library fun _ => .pure _

theorem within_negation {operand : Node} (hx : x.Within r P) : (negation operand x).Within r P := by
  unfold negation
  split
  · split <;> exact .pure _
  · exact .pure _
  · exact .bind hx fun _ => .pure _

theorem within_unaryOperation {op : String} {operand : Node} (hx : x.Within r P) :
    (unaryOperation op operand x).Within r P := by
  unfold unaryOperation
  split
  · exact within_negation hx
  · exact hx
  · exact .bind hx fun _ => .pure _
  · exact .bind (within_condition hx) fun _ => .pure _
  · exact .fail nofun

theorem within_range (hx : x.Within r P) (hy : y.Within r P) (ho : ∀ x ∈ o, x.Within r P) :
    (range x y o).Within r P :=
  .bind hx fun _ => .bind hy fun _ => .bind (.optional ho) fun _ => .bind .library fun _ => .pure _

theorem within_namedCall {name : String} {info : CallMeta} (hxs : ∀ x ∈ xs, x.Within r P) :
    (namedCall name info xs).Within r P := by
  have hcall : ∀ callee : Expr,
      (LowerM.sequence xs >>= fun args => pure (Expr.call callee args)).Within r P :=
    fun _ => .bind (.sequence hxs) fun _ => .pure _
  unfold namedCall
  cases info.resolution with
  | qualified module => exact .bind (within_moduleMember _ _) hcall
  | unqualified | imported => exact hcall _

theorem within_remoteFunction {target : Node} {name : String} (hx : x.Within r P) :
    (remoteFunction target x name).Within r P := by
  unfold remoteFunction
  split
  · exact within_moduleMember _ _
  · exact .bind .library fun _ => .pure _
  · exact .bind hx fun _ => .pure _

theorem within_remoteCall {target : Node} {name : String} (hx : x.Within r P)
    (hxs : ∀ x ∈ xs, x.Within r P) : (remoteCall target x name xs).Within r P :=
  .bind (within_remoteFunction hx) fun _ => .bind (.sequence hxs) fun _ => .pure _

theorem within_dotted {target : Node} {name : String} {args : Option (List (LowerM Expr))}
    {info : DotMeta} (hx : x.Within r P) (hargs : ∀ xs ∈ args, ∀ x ∈ xs, x.Within r P) :
    (dotted target x name args info).Within r P := by
  unfold dotted
  split
  · exact within_remoteCall hx (hargs _ rfl)
  · split
    · exact within_remoteCall hx (by simp)
    · exact .bind hx fun _ => .pure _

theorem within_applied (hx : x.Within r P) (hxs : ∀ x ∈ xs, x.Within r P) :
    (applied x xs).Within r P :=
  .bind hx fun _ => .bind (.sequence hxs) fun _ => .pure _

theorem within_captured (owner : Option Node) (name : String) :
    (captured owner name).Within r P := by
  unfold captured
  split
  · exact .pure _
  · exact within_moduleMember _ _
  · exact .bind .library fun _ => .pure _
  · exact .fail nofun

theorem within_raised {exception : Node} (hx : x.Within r P) (ho : ∀ x ∈ o, x.Within r P) :
    (raised exception x o).Within r P := by
  unfold raised
  split
  · exact .bind (within_moduleMember _ _) fun _ => .bind (.optional ho) fun _ => .pure _
  · refine .bind hx fun value => ?_
    split <;> exact .bind .library fun _ => .pure _
  · exact .fail nofun

theorem within_attributeValue (name : String) : (attributeValue name).Within r P := by
  refine .bind .state fun s => ?_
  split
  · exact .fail nofun
  · split <;> exact .pure _

end Values

section Patterns

open Pattern

theorem noPipeLeft_key (env : Surroundings) (node : Node) : NoPipeLeft (key env node) := by
  unfold key
  split
  · exact .ok _
  · split
    · exact .ok _
    · exact .ok _
    · exact .error (by simp)
    · exact .error (by simp)

/-- A pattern that is refused is refused for what it is. -/
theorem noPipeLeft_compile (env : Surroundings) :
    (∀ pattern subject plan, NoPipeLeft (compile env pattern subject plan)) ∧
    (∀ subject entries plan, NoPipeLeft (compileEntries env subject entries plan)) ∧
    (∀ slot i items plan, NoPipeLeft (compileItems env slot i items plan)) := by
  refine compile.mutual_induct env
    (fun pattern subject plan => NoPipeLeft (compile env pattern subject plan))
    (fun subject entries plan => NoPipeLeft (compileEntries env subject entries plan))
    (fun slot i items plan => NoPipeLeft (compileItems env slot i items plan))
    ?float ?negatedFloat ?moduleName ?var ?pin ?pinOther ?tuple ?list ?cons ?map ?struct ?both
    ?start ?startOther ?constant ?noItems ?item ?noEntries ?entry
  case float | negatedFloat | moduleName | var | pin | noItems | noEntries =>
    intros
    simp only [compile, compileItems, compileEntries]
    exact .ok _
  case pinOther | startOther =>
    intros
    rw [compile]
    · exact .error (by simp)
    · assumption
  case tuple | list | map | start =>
    intros
    rw [compile]
    assumption
  case cons | struct | both =>
    intros
    rw [compile]
    exact .bind ‹_› ‹_›
  case constant =>
    intros
    rw [compile]
    · unfold compileConstant
      split
      · exact .ok _
      · exact .error (by simp)
    all_goals assumption
  case item =>
    intros
    rw [compileItems]
    exact .bind ‹_› ‹_›
  case entry =>
    intro subject name value rest plan ihHead ihTail
    rw [compileEntries]
    exact .bind (noPipeLeft_key env name) fun found => .bind (ihHead found) ihTail

theorem noPipeLeft_compileAll (env : Surroundings) (patterns : List Node) (subjects : List Expr)
    (plan : Plan) : NoPipeLeft (compileAll env patterns subjects plan) := by
  induction patterns generalizing subjects plan with
  | nil => exact .ok plan
  | cons pattern patterns ih =>
    cases subjects with
    | nil => exact .ok plan
    | cons subject subjects => exact .bind ((noPipeLeft_compile env).1 _ _ _) fun _ => ih _ _

theorem within_plan (patterns : List Node) (subjects : List Expr) :
    (plan patterns subjects).Within r P :=
  .bind .library fun _ => .bind .state fun _ => .ofExcept (noPipeLeft_compileAll _ _ _ _)

theorem within_declare (bindings : List (String × Expr)) : (declare bindings).Within .bindings P := by
  refine .sequence (List.forall_mem_map.mpr fun (name, accessor) _ => ?_)
  exact .bind (within_bindVariable name) fun _ => .pure _

theorem within_hold (stem : String) (value : Expr) : (hold stem value).Within r P := by
  unfold hold
  split
  · exact .pure _
  · exact .bind (within_invent stem) fun _ => .pure _

theorem within_bindPattern_general (pattern : Node) (value : Expr) :
    (bindPattern.general pattern value).Within .bindings P := by
  refine .bind (within_hold "m" value) fun (held, subject) => .bind (within_plan _ _) fun plan => ?_
  have hrest : ∀ failure : List Stmt, (declare plan.bindings >>= fun declared =>
      pure (held ++ failure ++ declared, subject)).Within .bindings P :=
    fun _ => .bind (within_declare _) fun _ => .pure _
  cases plan.test with
  | none => exact hrest []
  | some test => exact .bind .library fun _ => hrest _

theorem within_bindPattern {pattern : Node} {x : LowerM Expr} (hx : x.Within .bindings P) :
    (bindPattern pattern x).Within .bindings P := by
  refine .bind hx fun value => ?_
  split
  · split
    · exact within_bindPattern_general _ _
    · exact .bind (within_bindVariable _) fun _ => .pure _
  · exact within_bindPattern_general _ _

end Patterns

end LowerM

section Positions

open LowerM

variable {P : Prop}

/-- As a value the node changes numbers only; as a statement it may bind variables. -/
structure Positions.Within (p : Positions) (P : Prop) : Prop where
  value : p.value.Within .numbers P
  tail : p.tail.Within .bindings P
  effect : p.effect.Within .bindings P

namespace Positions.Within

theorem ofValue {x : LowerM Expr} (h : x.Within .numbers P) : (Positions.ofValue x).Within P where
  value := h
  tail := .bind h.widen fun _ => .pure _
  effect := .bind h.widen fun _ => .pure _

theorem ofStatements {tail effect : LowerM (List Stmt)} (htail : tail.Within .bindings P)
    (heffect : effect.Within .bindings P) : (Positions.ofStatements tail effect).Within P where
  value := .bind (.inScope htail) fun _ => .pure _
  tail := htail
  effect := heffect

theorem misplaced {what : Malformed} (h : what = .pipeLeft → P) :
    (Positions.misplaced what).Within P :=
  ofValue (.fail fun he => h (LowerError.malformed.inj he))

theorem body {ps : List Positions} (h : ∀ p ∈ ps, p.Within P) :
    (Positions.body ps).Within .bindings P := by
  fun_induction Positions.body ps with
  | case1 => exact .pure _
  | case2 last => exact (h last (by simp)).tail
  | case3 first second rest ih =>
    obtain ⟨hfirst, hrest⟩ := List.forall_mem_cons.mp h
    exact .bind hfirst.effect fun _ => .bind (ih hrest) fun _ => .pure _

theorem bodyValue {ps : List Positions} (h : ∀ p ∈ ps, p.Within P) {r : Reach} :
    (Positions.bodyValue ps).Within r P := by
  unfold Positions.bodyValue
  split
  · exact .pure _
  next only => exact .inScope (h only (by simp)).value.widen
  · exact .bind (.inScope (body h)) fun _ => .pure _

theorem binding {pattern : Node} {x : LowerM Expr} (h : x.Within .numbers P) :
    (Positions.binding pattern x).Within P :=
  ofStatements (.bind (within_bindPattern h.widen) fun _ => .pure _)
    (.bind (within_bindPattern h.widen) fun _ => .pure _)

theorem sequenced {ps : List Positions} (h : ∀ p ∈ ps, p.Within P) :
    (Positions.sequenced ps).Within P :=
  ofStatements (body h) (.concat (List.forall_mem_map.mpr fun p hp => (h p hp).effect))

theorem raising {x : LowerM Expr} (h : x.Within .numbers P) : (Positions.raising x).Within P :=
  ofStatements (.bind h.widen fun _ => .pure _) (.bind h.widen fun _ => .pure _)

theorem closed {x : LowerM (List Stmt)} (h : x.Within .bindings P) :
    (Positions.closed x).Within P :=
  ofStatements h (.bind (.bind (.inScope h) fun _ => .pure _) fun _ => .pure _)

theorem conditional {negated : Bool} {test : LowerM Expr} {thenItems elseItems : List Positions}
    (htest : test.Within .numbers P) (hthen : ∀ p ∈ thenItems, p.Within P)
    (helse : ∀ p ∈ elseItems, p.Within P) :
    (Positions.conditional negated test thenItems elseItems).Within P := by
  have hvalue : (Positions.conditional negated test thenItems elseItems).value.Within .numbers P :=
    .bind htest fun _ => .bind (bodyValue hthen) fun _ => .bind (bodyValue helse) fun _ => .pure _
  refine ⟨hvalue, ?_, .bind hvalue.widen fun _ => .pure _⟩
  refine .bind htest.widen fun _ => .bind (.inScope (body hthen)) fun _ => ?_
  exact .bind (.inScope (body helse)) fun _ => .pure _

end Positions.Within

end Positions

section Clauses

open LowerM

variable {r : Reach} {P : Prop} {clauses : List ClauseParts}

/-- The guards change numbers only; the body may bind variables. -/
structure ClauseParts.Within (clause : ClauseParts) (P : Prop) : Prop where
  guards : ∀ x ∈ clause.guards, x.Within .numbers P
  body : clause.body.Within .bindings P

/-- A clause whose head may not have been readable. -/
structure ReadWithin (read : Except LowerError ClauseParts) (P : Prop) : Prop where
  noPipeLeft : NoPipeLeft read
  clause : ∀ clause, read = .ok clause → clause.Within P

theorem within_clauseBlock {preconditions subjects : List Expr} {clause : ClauseParts}
    (h : clause.Within P) : (clauseBlock preconditions clause subjects).Within r P := by
  refine .inScope (.bind (within_plan _ _) fun plan => .bind (within_declare _) fun declared => ?_)
  split
  · exact .bind h.body fun _ => .pure _
  · refine .bind (.sequence fun x hx => (h.guards x hx).widen) fun guards => ?_
    exact .bind h.body fun _ => .pure _

theorem within_caseBlocks {subject : Expr} {reads : List (Except LowerError ClauseParts)}
    (h : ∀ read ∈ reads, ReadWithin read P) : (caseBlocks subject reads).Within r P := by
  induction reads with
  | nil => exact .pure _
  | cons read rest ih =>
    obtain ⟨hread, hrest⟩ := List.forall_mem_cons.mp h
    refine .bindEnsured (.ofExcept hread.noPipeLeft) (.ofExcept hread.clause) fun clause hclause => ?_
    split
    · exact .fail nofun
    refine .bind (within_clauseBlock hclause) fun block => ?_
    split
    · exact .pure _
    · exact .bind (ih hrest) fun _ => .pure _

theorem within_caseOf {subject : LowerM Expr} {reads : List (Except LowerError ClauseParts)}
    (hsubject : subject.Within r P) (h : ∀ read ∈ reads, ReadWithin read P) :
    (caseOf subject reads).Within r P := by
  unfold caseOf
  split
  · exact .fail nofun
  refine .bind hsubject fun value => .bind (within_hold "case" value) fun (held, subject) => ?_
  exact .bind (within_caseBlocks h) fun _ => .bind .library fun _ => .pure _

structure ConditionParts.Within (clause : ConditionParts) (P : Prop) : Prop where
  tests : ∀ x ∈ clause.tests, x.Within .numbers P
  body : clause.body.Within .bindings P

theorem within_condBranches {clauses : List ConditionParts}
    (h : ∀ clause ∈ clauses, clause.Within P) : (condBranches clauses).Within r P := by
  induction clauses with
  | nil => exact .bind .library fun _ => .pure _
  | cons clause rest ih =>
    obtain ⟨hclause, hrest⟩ := List.forall_mem_cons.mp h
    have hbody : (inScope clause.body).Within r P := .inScope hclause.body
    unfold condBranches
    split
    next condition test hhead htests =>
      split
      · exact .bind hbody fun _ => .pure _
      · have htest : test.Within .numbers P := hclause.tests test (by simp [htests])
        exact .bind htest.widen fun _ => .bind hbody fun _ => .bind (ih hrest) fun _ => .pure _
    · exact .fail nofun

theorem within_cond {clauses : List ConditionParts} (h : ∀ clause ∈ clauses, clause.Within P) :
    (LowerM.cond clauses).Within r P := by
  unfold LowerM.cond
  split
  · exact .fail nofun
  · exact within_condBranches h

theorem within_functionBlocks {overloaded : Bool} {most : Nat}
    (h : ∀ clause ∈ clauses, clause.Within P) :
    (functionBlocks overloaded most clauses).Within r P := by
  induction clauses with
  | nil => exact .pure _
  | cons clause rest ih =>
    obtain ⟨hclause, hrest⟩ := List.forall_mem_cons.mp h
    refine .bind (.withAttributes (within_clauseBlock hclause)) fun block => ?_
    split
    · exact .pure _
    · exact .bind (ih hrest) fun _ => .pure _

theorem within_dispatch {name label : String} (h : ∀ clause ∈ clauses, clause.Within P) :
    (dispatch name label clauses).Within r P :=
  .bind (within_functionBlocks h) fun _ => .bind .library fun _ => .pure _

/-- The parameters are bound where the function is lowered. -/
theorem within_clausesFunction {name label : String} (h : ∀ clause ∈ clauses, clause.Within P) :
    (clausesFunction name label clauses).Within .bindings P := by
  unfold clausesFunction
  split
  next only =>
    split
    · split
      · refine .withAttributes (.bind (within_bindVariables _) fun _ => ?_)
        exact .bind (h only (by simp)).body fun _ => .pure _
      · exact within_dispatch h
    · exact within_dispatch h
  · exact within_dispatch h

theorem within_anonymousFunction {reads : List (Except LowerError ClauseParts)}
    (h : ∀ read ∈ reads, ReadWithin read P) : (anonymousFunction reads).Within r P := by
  refine .bindEnsured (Q := fun clauses => ∀ clause ∈ clauses, clause.Within P)
    (.sequence (List.forall_mem_map.mpr fun read hread => .ofExcept (h read hread).noPipeLeft))
    (.sequence (List.forall_mem_map.mpr fun read hread => .ofExcept (h read hread).clause))
    fun clauses hclauses => ?_
  split
  · exact .fail nofun
  · split
    · exact .fail nofun
    · exact .bind (.inScope (within_clausesFunction hclauses)) fun _ => .pure _

end Clauses

section Comprehensions

open LowerM

variable {P : Prop} {qualifiers : List QualifierParts} {body : LowerM Expr}

def QualifierParts.Within (P : Prop) : QualifierParts → Prop
  | .generator _ collection => collection.Within .numbers P
  | .filter test => test.Within .numbers P

theorem within_loops {accumulator : String} (hbody : body.Within .numbers P)
    (h : ∀ q ∈ qualifiers, q.Within P) : (loops accumulator body qualifiers).Within .bindings P := by
  induction qualifiers with
  | nil => exact .bind hbody.widen fun _ => .pure _
  | cons q rest ih =>
    obtain ⟨hq, hrest⟩ := List.forall_mem_cons.mp h
    cases q with
    | generator pattern collection =>
      have hcollection : collection.Within .numbers P := hq
      refine .bind hcollection.widen fun _ => .bind .library fun _ => ?_
      refine .bind (within_invent "gen") fun item => .bind (within_plan _ _) fun plan => ?_
      exact .bind (within_declare _) fun _ => .bind (ih hrest) fun _ => .pure _
    | filter test =>
      have htest : test.Within .numbers P := hq
      exact .bind htest.widen fun _ => .bind (ih hrest) fun _ => .pure _

theorem within_comprehension {into : Option (LowerM Expr)} (h : ∀ q ∈ qualifiers, q.Within P)
    (hbody : body.Within .numbers P) (hinto : ∀ x ∈ into, x.Within .numbers P) :
    (comprehension qualifiers body into).Within .numbers P := by
  unfold comprehension
  split
  · exact .fail nofun
  refine .bind (.optional hinto) fun into => .inScope ?_
  refine .bind (within_invent "acc") fun accumulator => .bind (within_loops hbody h) fun loops => ?_
  cases into with
  | none => exact .pure _
  | some into => exact .bind .library fun _ => .pure _

end Comprehensions

end TreeLowering
