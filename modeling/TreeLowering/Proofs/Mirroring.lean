import Mathlib.Data.List.Forall2
import TreeLowering.Proofs.References
import TreeLowering.Proofs.Run

/-!
Steps inside of two modules.

A step reads of the module around it the functions, the short names and the attributes. When the
references of a tree are written out as they are to be read in one module, the written tree can be
lowered inside of another one that leaves them as they stand, and comes to the same. `Mirrors` is this
for one step of each kind, and there is a lemma for each rule of the lowering.
-/
namespace TreeLowering

open Source Target

theorem forall₂_maps {ι α β : Type} {R : α → β → Prop} {f : ι → α} {g : ι → β} {l : List ι}
    (h : ∀ i ∈ l, R (f i) (g i)) : List.Forall₂ R (l.map f) (l.map g) := by
  rw [List.forall₂_map_left_iff, List.forall₂_map_right_iff]
  exact List.forall₂_same.mpr h

/-- The state inside of that module. -/
def State.within (s : State) (m : ModuleContext) : State := { s with context := some m }

namespace ModuleContext

/-- The full name that a name stands for in the module. -/
def fullName (m : ModuleContext) (segments : List String) : List String :=
  State.resolveModule { context := some m } segments

/-- What a read of an attribute comes to in the module. -/
def attributeExpr (m : ModuleContext) (key : String) : Expr :=
  match m.attributes.get? key with
  | some version => .ident (Identifier.versioned (Identifier.ofAttribute key) version)
  | none => .null

/-- The module under other versions of its attributes, if such are given. -/
def under (m : ModuleContext) : Option (NameTable Nat) → ModuleContext
  | none => m
  | some versions => { m with attributes := versions }

end ModuleContext

/-- The form is what a read of the attribute comes to in the first module, or is left to be read in
the second. -/
def Source.AttributeForm.Suits (m m' : ModuleContext) (key : String) : AttributeForm → Prop
  | .kept => m'.attributes.get? key = m.attributes.get? key
  | .unset => m.attributes.get? key = none
  | .identifier name => ∃ version, m.attributes.get? key = some version ∧
      Identifier.escape name = Identifier.versioned (Identifier.ofAttribute key) version

/-- Inside of the second module, what the reading writes out means what the references themselves
mean inside of the first. -/
structure Source.Reading.Suits (r : Reading) (m m' : ModuleContext) : Prop where
  name_eq : m'.name = m.name
  functions_eq : m'.functions = m.functions
  module_eq : ∀ segments, m'.fullName (r.module segments) = m.fullName segments
  kernel : ∀ segments, r.module segments = ["Kernel"] ↔ segments = ["Kernel"]
  read : ∀ key, (r.read key).Suits m m' key

namespace LowerM

variable {α β : Type} {m m' : ModuleContext}

/-- Whatever the first step gives inside of the first module, the second step gives inside of the
second module. Neither changes its module. -/
def Mirrors (m m' : ModuleContext) (x y : LowerM α) : Prop :=
  ∀ ⦃c : Config⦄ ⦃s : State⦄ ⦃a : α⦄ ⦃t : State⦄, x c (s.within m) = (.ok a, t) →
    ∃ u : State, t = u.within m ∧ y c (s.within m') = (.ok a, u.within m')

theorem ofExcept_bind (a : α) (f : α → LowerM β) : (ofExcept (.ok a) >>= f) = f a := rfl

theorem withAttributes_run {versions : Option (NameTable Nat)} {x : LowerM α} {c : Config}
    {s t : State} {a : α} (h : withAttributes versions x c (s.within m) = (.ok a, t)) :
    ∃ t₁, x c (s.within (m.under versions)) = (.ok a, t₁) ∧
      ∀ u : State, t₁ = u.within (m.under versions) → t = u.within m := by
  cases versions with
  | none => exact ⟨t, h, fun _ => id⟩
  | some versions =>
    obtain ⟨hvalue, rfl⟩ := Prod.mk.inj h
    refine ⟨_, Prod.ext hvalue rfl, fun u hu => ?_⟩
    exact congrArg (State.withAttributes · m.attributes) hu

theorem withAttributes_of_run {versions : Option (NameTable Nat)} {x : LowerM α} {c : Config}
    {s u : State} {a : α}
    (h : x c (s.within (m.under versions)) = (.ok a, u.within (m.under versions))) :
    withAttributes versions x c (s.within m) = (.ok a, u.within m) := by
  cases versions with
  | none => exact h
  | some versions =>
    exact congrArg (fun out : Except LowerError α × State =>
      (out.1, out.2.withAttributes m.attributes)) h

namespace Mirrors

theorem pure (a : α) : Mirrors m m' (Pure.pure a) (Pure.pure a) := by
  intro c s b t hrun
  obtain ⟨rfl, rfl⟩ := pure_run.mp hrun
  exact ⟨s, rfl, rfl⟩

theorem bind {x y : LowerM α} {f g : α → LowerM β} (h : Mirrors m m' x y)
    (hf : ∀ a, Mirrors m m' (f a) (g a)) : Mirrors m m' (x >>= f) (y >>= g) := by
  intro c s b t hrun
  obtain ⟨a, s₁, hx, hrun⟩ := bind_run.mp hrun
  obtain ⟨u, rfl, hy⟩ := h hx
  rw [bind_of_ok hy]
  exact hf a hrun

/-- A step that never succeeds is mirrored by any. -/
theorem failed {x : LowerM α} (h : ∀ c s a t, x c s ≠ (.ok a, t)) (y : LowerM α) :
    Mirrors m m' x y :=
  fun _ _ _ _ hrun => (h _ _ _ _ hrun).elim

theorem fail (e : LowerError) (y : LowerM α) : Mirrors m m' (LowerM.fail e) y :=
  .failed (fun _ _ _ _ => fail_run) y

theorem ofExcept {x y : Except LowerError α} (h : ∀ a, x = .ok a → y = .ok a) :
    Mirrors m m' (LowerM.ofExcept x) (LowerM.ofExcept y) := by
  cases x with
  | error e => exact fail e _
  | ok a => rw [h a rfl]; exact pure a

/-- Each step sees its own module in the state. -/
theorem state {f g : State → LowerM α}
    (h : ∀ s : State, Mirrors m m' (f (s.within m)) (g (s.within m'))) :
    Mirrors m m' (LowerM.state >>= f) (LowerM.state >>= g) :=
  fun _ s _ _ hrun => h s hrun

theorem library {f g : RuntimeLibrary → LowerM α} (h : ∀ lib, Mirrors m m' (f lib) (g lib)) :
    Mirrors m m' (LowerM.library >>= f) (LowerM.library >>= g) :=
  fun _ _ _ _ hrun => h _ hrun

theorem config {f g : Config → LowerM α} (h : ∀ c, Mirrors m m' (f c) (g c)) :
    Mirrors m m' (LowerM.config >>= f) (LowerM.config >>= g) :=
  fun _ _ _ _ hrun => h _ hrun

theorem inScope {x y : LowerM α} (h : Mirrors m m' x y) :
    Mirrors m m' (LowerM.inScope x) (LowerM.inScope y) := by
  intro c s a t hrun
  obtain ⟨s₁, hx, rfl⟩ := inScope_run.mp hrun
  obtain ⟨u, rfl, hy⟩ := h hx
  exact ⟨{ u with scope := s.scope }, rfl, inScope_run.mpr ⟨_, hy, rfl⟩⟩

theorem inFunction {x y : LowerM α} (h : Mirrors m m' x y) :
    Mirrors m m' (LowerM.inFunction x) (LowerM.inFunction y) := by
  intro c s a t hrun
  obtain ⟨hvalue, rfl⟩ := Prod.mk.inj hrun
  obtain ⟨u, hu, hy⟩ := h (s := { s with scope := [], versions := [], invented := 0 })
    (Prod.ext hvalue rfl)
  refine ⟨{ u with scope := s.scope, versions := s.versions, invented := s.invented }, ?_, ?_⟩
  · exact congrArg (fun t : State =>
      { t with scope := s.scope, versions := s.versions, invented := s.invented }) hu
  · exact congrArg (fun out : Except LowerError α × State => (out.1,
      { out.2 with scope := s.scope, versions := s.versions, invented := s.invented })) hy

theorem withAttributes {versions versions' : Option (NameTable Nat)} {x y : LowerM α}
    (h : Mirrors (m.under versions) (m'.under versions') x y) :
    Mirrors m m' (LowerM.withAttributes versions x) (LowerM.withAttributes versions' y) := by
  intro c s a t hrun
  obtain ⟨t₁, hx, ht⟩ := withAttributes_run hrun
  obtain ⟨u, hu, hy⟩ := h hx
  exact ⟨u, ht u hu, withAttributes_of_run hy⟩

theorem sequence {xs ys : List (LowerM α)} (h : List.Forall₂ (Mirrors m m') xs ys) :
    Mirrors m m' (LowerM.sequence xs) (LowerM.sequence ys) := by
  induction h with
  | nil => exact pure _
  | cons hfirst _ ih => exact bind hfirst fun _ => bind ih fun _ => pure _

theorem concat {xs ys : List (LowerM (List α))} (h : List.Forall₂ (Mirrors m m') xs ys) :
    Mirrors m m' (LowerM.concat xs) (LowerM.concat ys) :=
  bind (sequence h) fun _ => pure _

theorem optional {o o' : Option (LowerM α)} (h : Option.Rel (Mirrors m m') o o') :
    Mirrors m m' (LowerM.optional o) (LowerM.optional o') := by
  cases h with
  | none => exact pure _
  | some h => exact bind h fun _ => pure _

end Mirrors

theorem attributeValue_within (m : ModuleContext) (key : String) (c : Config) (s : State) :
    attributeValue key c (s.within m) = (.ok (m.attributeExpr key), s.within m) := by
  rw [attributeValue, bind_of_ok (rfl : state c (s.within m) = (.ok (s.within m), s.within m)),
    ModuleContext.attributeExpr]
  simp only [State.within]
  cases m.attributes.get? key <;> rfl

section Names

variable {r : Reading} (hr : r.Suits m m')
include hr

theorem variableBase_within (s : State) (name : String) :
    (s.within m').variableBase name = (s.within m).variableBase name := by
  have hfunctions : (s.within m').functions = (s.within m).functions := hr.functions_eq
  rw [State.variableBase, State.variableBase, hfunctions]

theorem resolve_within (s : State) (name : String) :
    (s.within m').resolve name = (s.within m).resolve name :=
  congrArg (Identifier.versioned · ((s.scope.get? name).getD 0)) (variableBase_within hr s name)

theorem resolveModule_within (s : State) (segments : List String) :
    (s.within m').resolveModule (r.module segments) = (s.within m).resolveModule segments :=
  hr.module_eq segments

theorem mirrors_resolve (name : String) : Mirrors m m' (resolve name) (resolve name) :=
  .state fun s => by
    rw [resolve_within hr]
    exact .pure _

theorem mirrors_resolveModule (segments : List String) :
    Mirrors m m' (resolveModule segments) (resolveModule (r.module segments)) :=
  .state fun s => by
    rw [resolveModule_within hr]
    exact .pure _

theorem mirrors_bindVariable (name : String) :
    Mirrors m m' (bindVariable name) (bindVariable name) := by
  intro c s a t hrun
  cases hrun
  refine ⟨{ s with
    scope := s.scope.set name (s.versions.next name)
    versions := s.versions.set name (s.versions.next name + 1) }, rfl, ?_⟩
  rw [← variableBase_within hr]
  rfl

theorem mirrors_bindVariables (names : List String) :
    Mirrors m m' (bindVariables names) (bindVariables names) :=
  .sequence (forall₂_maps fun name _ => mirrors_bindVariable hr name)

theorem mirrors_declare (bindings : List (String × Expr)) :
    Mirrors m m' (declare bindings) (declare bindings) :=
  .sequence (forall₂_maps fun b _ => .bind (mirrors_bindVariable hr b.1) fun _ => .pure _)

theorem mirrors_moduleMember (segments : List String) (function : String) :
    Mirrors m m' (moduleMember segments function)
      (moduleMember (r.module segments) function) := by
  refine .bind (mirrors_resolveModule hr segments) fun module => .config fun c => ?_
  split
  · exact .library fun lib => .pure _
  · refine .state fun s => ?_
    have hown : (s.within m').context.any (·.name == module) =
        (s.within m).context.any (·.name == module) := by
      simp only [State.within, Option.any_some, hr.name_eq]
    rw [hown]
    split <;> exact .pure _

theorem mirrors_attributeValue (key : String) :
    Mirrors m m' (attributeValue key) (Lowering.positions ((r.read key).node key)).value := by
  intro c s a t hrun
  have hread := hr.read key
  have hvalue : (.ok a, t) =
      ((.ok (m.attributeExpr key), s.within m) : Except LowerError Expr × State) :=
    hrun.symm.trans (attributeValue_within m key c s)
  cases hvalue
  refine ⟨s, rfl, ?_⟩
  cases hform : r.read key with
  | kept =>
    rw [hform] at hread
    rw [AttributeForm.node, Lowering.positions]
    refine (attributeValue_within m' key c s).trans ?_
    rw [ModuleContext.attributeExpr, ModuleContext.attributeExpr, hread]
  | unset =>
    rw [hform] at hread
    rw [AttributeForm.node, Lowering.positions, ModuleContext.attributeExpr, hread]
    rfl
  | identifier name =>
    rw [hform] at hread
    obtain ⟨version, hversion, hname⟩ := hread
    rw [AttributeForm.node, Lowering.positions, ModuleContext.attributeExpr, hversion]
    exact congrArg (fun name => (Except.ok (Expr.ident name), s.within m')) hname

end Names

theorem mirrors_invent (stem : String) : Mirrors m m' (invent stem) (invent stem) := by
  intro c s a t hrun
  cases hrun
  exact ⟨{ s with invented := s.invented + 1 }, rfl, rfl⟩

theorem mirrors_hold (stem : String) (value : Expr) :
    Mirrors m m' (hold stem value) (hold stem value) := by
  unfold hold
  split
  · exact .pure _
  · exact .bind (mirrors_invent stem) fun _ => .pure _

section Values

variable {x x' y y' : LowerM Expr} {xs xs' : List (LowerM Expr)}
  {entries entries' : List (LowerM Property)} {o o' : Option (LowerM Expr)}

theorem mirrors_consList (hxs : List.Forall₂ (Mirrors m m') xs xs') (hx : Mirrors m m' x x') :
    Mirrors m m' (consList xs x) (consList xs' x') :=
  .bind (.sequence hxs) fun _ => .bind hx fun _ => .pure _

theorem mirrors_tuple (hxs : List.Forall₂ (Mirrors m m') xs xs') :
    Mirrors m m' (tuple xs) (tuple xs') :=
  .bind (.sequence hxs) fun _ => .library fun _ => .pure _

theorem mirrors_object (h : List.Forall₂ (Mirrors m m') entries entries') :
    Mirrors m m' (object entries) (object entries') :=
  .bind (.sequence h) fun _ => .pure _

theorem mirrors_mapUpdate (hx : Mirrors m m' x x')
    (h : List.Forall₂ (Mirrors m m') entries entries') :
    Mirrors m m' (mapUpdate x entries) (mapUpdate x' entries') :=
  .bind hx fun _ => .bind (mirrors_object h) fun _ => .library fun _ => .pure _

theorem mirrors_binaryOperation (op : String) (hx : Mirrors m m' x x') (hy : Mirrors m m' y y') :
    Mirrors m m' (binaryOperation op x y) (binaryOperation op x' y') := by
  refine .bind hx fun left => .bind hy fun right => ?_
  split
  · exact .pure _
  · refine .library fun lib => ?_
    split
    · exact .pure _
    · exact .fail _ _

theorem mirrors_range (hx : Mirrors m m' x x') (hy : Mirrors m m' y y')
    (ho : Option.Rel (Mirrors m m') o o') : Mirrors m m' (range x y o) (range x' y' o') :=
  .bind hx fun _ => .bind hy fun _ => .bind (.optional ho) fun _ => .library fun _ => .pure _

theorem mirrors_call (hx : Mirrors m m' x x') (hxs : List.Forall₂ (Mirrors m m') xs xs') :
    Mirrors m m'
      (do
        let callee ← x
        let args ← LowerM.sequence xs
        return Expr.call callee args)
      (do
        let callee ← x'
        let args ← LowerM.sequence xs'
        return Expr.call callee args) :=
  .bind hx fun _ => .bind (.sequence hxs) fun _ => .pure _

theorem mirrors_atomModuleFunction (module name : String) :
    Mirrors m m' (do return (← library).atomModuleFunction module name : LowerM Expr)
      (do return (← library).atomModuleFunction module name : LowerM Expr) :=
  .library fun _ => .pure _

theorem raised_value {exception : Node} (h : ∀ segments, exception ≠ .moduleName segments) :
    raised exception x none = (do
      let value ← x
      if isMessage exception then return (← library).error "RuntimeError" [value]
      else return (← library).call ["Kernel", "exception"] [value]) := by
  rw [raised]
  exact h

theorem raised_attributes {exception : Node} (h : ∀ segments, exception ≠ .moduleName segments) :
    raised exception x (some y) = malformed (.raiseAttributes exception.formName) := by
  rw [raised]
  exact h

/-! The rules that look at the form of a part. -/

variable {r : Reading} (hr : r.Suits m m')
include hr

theorem mirrors_condition (n : Node) (hx : Mirrors m m' x x') :
    Mirrors m m' (condition n x) (condition (n.written r) x') := by
  refine .bind hx fun value => ?_
  rw [isBoolean_written r hr.kernel]
  split
  · exact .pure _
  · exact .library fun _ => .pure _

omit hr in
theorem mirrors_textPart (g : Segment Node) (hx : Mirrors m m' x x') :
    Mirrors m m' (textPart g x) (textPart (g.written r) x') := by
  cases g with
  | interpolated n => exact .bind hx fun _ => .library fun _ => .pure _
  | plain n =>
    cases n with
    | string text => exact .pure _
    | _ => exact .fail _ _

omit hr in
theorem mirrors_binary {segments : List (Segment Node)} {value value' : Segment Node → LowerM Expr}
    (h : ∀ g ∈ segments, Mirrors m m' (value g) (value' g)) :
    Mirrors m m' (LowerM.binary (segments.map fun g => (g, value g)))
      (LowerM.binary (segments.map fun g => (g.written r, value' g))) := by
  have hforms : (segments.map fun g => (g.written r, value' g)).map (·.1) =
      segments.map (·.written r) := List.map_map
  have hown : (segments.map fun g => (g, value g)).map (·.1) = segments :=
    List.map_map.trans (List.map_id segments)
  have hspliced :
      ((segments.map fun g => (g.written r, value' g)).any fun g => g.1.isInterpolated) =
      (segments.map fun g => (g, value g)).any fun g => g.1.isInterpolated := by
    simp only [List.any_map, Function.comp_def, isInterpolated_written]
  have hparts : List.Forall₂ (Mirrors m m')
      ((segments.map fun g => (g, value g)).map fun g => textPart g.1 g.2)
      ((segments.map fun g => (g.written r, value' g)).map fun g => textPart g.1 g.2) := by
    rw [List.map_map, List.map_map]
    exact forall₂_maps fun g hg => mirrors_textPart g (h g hg)
  have hvalues : List.Forall₂ (Mirrors m m') ((segments.map fun g => (g, value g)).map (·.2))
      ((segments.map fun g => (g.written r, value' g)).map (·.2)) := by
    rw [List.map_map, List.map_map]
    exact forall₂_maps h
  unfold LowerM.binary
  rw [hforms, hown, segmentsText?_written, hspliced]
  split
  · exact .pure _
  · split
    · exact .bind (.sequence hparts) fun _ => .pure _
    · exact .bind (.sequence hvalues) fun _ => .pure _

omit hr in
theorem mirrors_entry (key : Node) (hx : Mirrors m m' x x') (hy : Mirrors m m' y y') :
    Mirrors m m' (entry key x y) (entry (key.written r) x' y') := by
  cases key with
  | string text => exact .bind hy fun _ => .pure _
  | attributeRead name =>
    rw [Node.written]
    cases r.read name <;> exact .bind hx fun _ => .bind hy fun _ => .pure _
  | _ => exact .bind hx fun _ => .bind hy fun _ => .pure _

theorem mirrors_struct (module : Node) (h : List.Forall₂ (Mirrors m m') entries entries')
    (ho : Option.Rel (Mirrors m m') o o') :
    Mirrors m m' (LowerM.struct module entries o)
      (LowerM.struct (module.written r) entries' o') := by
  cases module with
  | moduleName segments =>
    cases ho with
    | some hx => exact mirrors_mapUpdate hx h
    | none =>
      exact .bind (mirrors_moduleMember hr segments "__struct__") fun _ =>
        .bind (mirrors_object h) fun _ => .pure _
  | _ => exact .fail _ _

omit hr in
theorem mirrors_negation (operand : Node) (hx : Mirrors m m' x x') :
    Mirrors m m' (negation operand x) (negation (operand.written r) x') := by
  cases operand with
  | integer n =>
    unfold negation
    simp only [Node.written]
    split <;> exact .pure _
  | float x => exact .pure _
  | attributeRead name =>
    rw [Node.written]
    cases r.read name <;> exact .bind hx fun _ => .pure _
  | _ => exact .bind hx fun _ => .pure _

theorem mirrors_unaryOperation (op : String) (operand : Node) (hx : Mirrors m m' x x') :
    Mirrors m m' (unaryOperation op operand x) (unaryOperation op (operand.written r) x') := by
  unfold unaryOperation
  split
  · exact mirrors_negation operand hx
  · exact hx
  · exact .bind hx fun _ => .pure _
  · exact .bind (mirrors_condition hr operand hx) fun _ => .pure _
  · exact .fail _ _

theorem mirrors_namedCall (name : String) (info : CallMeta)
    (hxs : List.Forall₂ (Mirrors m m') xs xs') :
    Mirrors m m' (namedCall name info xs) (namedCall name (info.written r) xs') := by
  obtain ⟨_ | module | _, line⟩ := info
  · exact mirrors_call (.pure _) hxs
  · exact mirrors_call (mirrors_moduleMember hr module name) hxs
  · exact mirrors_call (.pure _) hxs

theorem mirrors_remoteFunction (target : Node) (name : String) (hx : Mirrors m m' x x') :
    Mirrors m m' (remoteFunction target x name) (remoteFunction (target.written r) x' name) := by
  cases target with
  | moduleName segments => exact mirrors_moduleMember hr segments name
  | atom module => exact mirrors_atomModuleFunction module name
  | attributeRead key =>
    rw [Node.written]
    cases r.read key <;> exact .bind hx fun _ => .pure _
  | _ => exact .bind hx fun _ => .pure _

theorem mirrors_dotted {args args' : Option (List (LowerM Expr))} (target : Node) (name : String)
    (info : DotMeta) (hx : Mirrors m m' x x')
    (hargs : Option.Rel (List.Forall₂ (Mirrors m m')) args args') :
    Mirrors m m' (dotted target x name args info)
      (dotted (target.written r) x' name args' info) := by
  have hcallee := mirrors_remoteFunction hr target name hx
  cases hargs with
  | some hxs => exact mirrors_call hcallee hxs
  | none =>
    simp only [dotted, isCallWithoutArguments_written]
    split
    · exact mirrors_call hcallee .nil
    · exact .bind hx fun _ => .pure _

theorem mirrors_captured (owner : Option Node) (name : String) :
    Mirrors m m' (captured owner name) (captured (writtenOption r owner) name) := by
  cases owner with
  | none => exact .pure _
  | some n =>
    cases n with
    | moduleName segments => exact mirrors_moduleMember hr segments name
    | atom module => exact mirrors_atomModuleFunction module name
    | _ => exact .fail _ _

theorem mirrors_raised (exception : Node) (hx : Mirrors m m' x x')
    (ho : Option.Rel (Mirrors m m') o o') :
    Mirrors m m' (raised exception x o) (raised (exception.written r) x' o') := by
  by_cases h : ∃ segments, exception = .moduleName segments
  · obtain ⟨segments, rfl⟩ := h
    exact .bind (mirrors_moduleMember hr segments "exception") fun _ =>
      .bind (.optional ho) fun _ => .pure _
  · have hown : ∀ segments, exception ≠ .moduleName segments :=
      fun segments heq => h ⟨segments, heq⟩
    cases ho with
    | some => rw [raised_attributes hown]; exact .fail _ _
    | none =>
      rw [raised_value hown, raised_value (written_ne_moduleName hown), isMessage_written]
      refine .bind hx fun value => ?_
      split <;> exact .library fun _ => .pure _

end Values

end LowerM

end TreeLowering
