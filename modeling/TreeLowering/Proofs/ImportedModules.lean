import TreeLowering.Proofs.StructTags

/-!
Imports, and the calls that they are made for.

An import declares an identifier for a module, and a call that is qualified with the module goes
through an identifier. Both are made from the name of the module, but a call writes out the short
name of a nested module first and an import does not. So the two can be about different modules:
where a short name is imported, the declared identifier is not the one that calls go through, and a
nested module of the name that a module of the runtime has is not declared at all.
-/
namespace TreeLowering

open Source Target LowerM
open Identifier (IsSegment ofModule)

/-- Where the function of a qualified call comes from. -/
inductive Origin where
  /-- A namespace of the runtime library. -/
  | runtime (part : String)
  /-- The module that an identifier stands for. -/
  | module (identifier : String)
  /-- The module that is being lowered. -/
  | here
deriving DecidableEq, Repr

/-- The origin of a function, by the shape of the callee. -/
def Target.Expr.origin? (lib : RuntimeLibrary) : Expr → Option Origin
  | .member (.member (.ident root) (.literal (.string part)) false) (.literal (.string _)) false =>
    if root = lib.name then some (.runtime part) else none
  | .member (.ident identifier) (.literal (.string _)) false => some (.module identifier)
  | .ident _ => some .here
  | _ => none

/-- Where a call of a function of the module goes to. -/
def calledOrigin (c : Config) (s : State) (name : List String) (function : String) :
    Option Origin :=
  match (moduleMember name function c s).1 with
  | .ok callee => callee.origin? ⟨c.runtimeName⟩
  | .error _ => none

/-- The import declares nothing just when calls that are qualified with the module go to the
runtime, and otherwise declares the one identifier that they go through. -/
structure ImportAgrees (c : Config) (s : State) (declaration : Node) (name : List String)
    (function : String) : Prop where
  absent_iff : (importDeclaration declaration c s).1 = .ok none ↔
    ∃ part, calledOrigin c s name function = some (.runtime part)
  declared : (∀ part, calledOrigin c s name function ≠ some (.runtime part)) →
    ∃ i identifier, (importDeclaration declaration c s).1 = .ok (some i) ∧
      calledOrigin c s name function = some (.module identifier) ∧
      i.binding.names = [identifier]

section Origins

variable {c : Config} {s : State} {name : List String}

theorem exists_of_isRuntimeModule (h : c.isRuntimeModule name = true) : ∃ part, name = [part] := by
  unfold Config.isRuntimeModule at h
  split at h
  next part => exact ⟨part, rfl⟩
  next => cases h

/-- Calls are routed by the full name. -/
theorem calledOrigin_of_served (function : String)
    (h : c.isRuntimeModule (s.resolveModule name) = true) :
    ∃ part, calledOrigin c s name function = some (.runtime part) := by
  obtain ⟨part, hpart⟩ := exists_of_isRuntimeModule h
  have hcallee : (moduleMember name function c s).1 =
      .ok (RuntimeLibrary.moduleFunction ⟨c.runtimeName⟩ (s.resolveModule name) function) := by
    show ((if c.isRuntimeModule (s.resolveModule name) = true then _ else _ :
      LowerM Expr) c s).1 = _
    rw [if_pos h]
    rfl
  refine ⟨part, ?_⟩
  rw [calledOrigin, hcallee, hpart]
  exact if_pos rfl

theorem calledOrigin_of_unserved (function : String)
    (h : c.isRuntimeModule (s.resolveModule name) = false)
    (elsewhere : s.context.any (·.name == s.resolveModule name) = false) :
    calledOrigin c s name function = some (.module (ofModule (s.resolveModule name))) := by
  have hcallee : (moduleMember name function c s).1 =
      .ok ((Expr.ident (ofModule (s.resolveModule name))).property
        (Identifier.escape function)) := by
    show ((if c.isRuntimeModule (s.resolveModule name) = true then _ else _ :
      LowerM Expr) c s).1 = _
    rw [if_neg (by simp [h])]
    show ((if s.context.any (·.name == s.resolveModule name) = true then _ else _ : LowerM Expr)
      c s).1 = _
    rw [if_neg (by simp [elsewhere])]
    rfl
  rw [calledOrigin, hcallee]
  rfl

theorem importBinding_names {declaration : Node}
    (form : declaration = .importAll name ∨ declaration = .require name none) :
    ∃ binding, importBinding declaration = .ok (name, binding) ∧
      binding.names = [ofModule name] := by
  rcases form with rfl | rfl
  · exact ⟨.everything (ofModule name), rfl, rfl⟩
  · exact ⟨.default (ofModule name), rfl, rfl⟩

/-- Imports go by the name as it is written. -/
theorem importDeclaration_eq {declaration : Node} (nonempty : name ≠ [])
    (form : declaration = .importAll name ∨ declaration = .require name none) :
    ∃ i : Import, i.binding.names = [ofModule name] ∧
      (importDeclaration declaration c s).1 =
        .ok (if c.isRuntimeModule name then none else some i) := by
  obtain ⟨binding, hbinding, hnames⟩ := importBinding_names form
  have hempty : name.isEmpty = false := by simpa using nonempty
  refine ⟨⟨binding, c.importSource (Identifier.dotted name)⟩, hnames, ?_⟩
  rw [importDeclaration, hbinding]
  show ((if name.isEmpty = true then _ else _ : LowerM (Option Import)) c s).1 = _
  rw [hempty, if_neg Bool.false_ne_true]
  show ((if c.isRuntimeModule name = true then _ else _ : LowerM (Option Import)) c s).1 = _
  split <;> rfl

/-- What an import and a call make of one name is the same when the full name is served as the
written one is, and has the same identifier if it is not. -/
theorem importAgrees_iff (function : String) {declaration : Node} (nonempty : name ≠ [])
    (elsewhere : s.context.any (·.name == s.resolveModule name) = false)
    (form : declaration = .importAll name ∨ declaration = .require name none) :
    ImportAgrees c s declaration name function ↔
      c.isRuntimeModule (s.resolveModule name) = c.isRuntimeModule name ∧
        (c.isRuntimeModule name = false → ofModule (s.resolveModule name) = ofModule name) := by
  obtain ⟨i, hnames, hdeclaration⟩ := importDeclaration_eq (c := c) (s := s) nonempty form
  cases hserved : c.isRuntimeModule (s.resolveModule name) with
  | true =>
    obtain ⟨part, hcalled⟩ := calledOrigin_of_served function hserved
    constructor
    · intro h
      have habsent := h.absent_iff.mpr ⟨part, hcalled⟩
      rw [hdeclaration] at habsent
      cases hwritten : c.isRuntimeModule name with
      | true => simp
      | false => simp [hwritten] at habsent
    · rintro ⟨hwritten, -⟩
      refine ⟨?_, fun hother => (hother part hcalled).elim⟩
      rw [hdeclaration, ← hwritten]
      simp [hcalled]
  | false =>
    have hcalled := calledOrigin_of_unserved function hserved elsewhere
    have hother : ∀ part, calledOrigin c s name function ≠ some (.runtime part) := by
      rw [hcalled]
      simp
    constructor
    · intro h
      obtain ⟨j, identifier, hj, hidentifier, hdeclared⟩ := h.declared hother
      rw [hdeclaration] at hj
      rw [hcalled] at hidentifier
      cases hwritten : c.isRuntimeModule name with
      | true => simp [hwritten] at hj
      | false =>
        simp only [hwritten, Bool.false_eq_true, if_false, Except.ok.injEq, Option.some.injEq] at hj
        simp only [Option.some.injEq, Origin.module.injEq] at hidentifier
        rw [← hj, hnames, ← hidentifier] at hdeclared
        simpa using hdeclared.symm
    · rintro ⟨hwritten, hsame⟩
      rw [← hwritten] at hdeclaration hsame
      refine ⟨?_, fun _ => ⟨i, ofModule name, by simpa using hdeclaration, ?_, hnames⟩⟩
      · rw [hdeclaration]
        simp [hother]
      · rw [hcalled, hsame rfl]

theorem mem_of_get?_eq_some {table : NameTable (List String)} {first : String} {full : List String}
    (h : table.get? first = some full) : (first, full) ∈ table := by
  obtain ⟨before, after, hsplit, -⟩ := List.lookup_eq_some_iff.mp h
  rw [hsplit]
  exact List.mem_append_right before List.mem_cons_self

theorem resolveModule_of_unknown (h : ∀ first ∈ name.head?, s.aliases.get? first = none) :
    s.resolveModule name = name := by
  cases name with
  | nil => rfl
  | cons first rest => simp only [State.resolveModule, h first rfl]

/-- Writing out the short name of a nested module makes a name longer. -/
theorem length_lt_length_resolveModule (aliases : ∀ p ∈ s.aliases, 2 ≤ p.2.length)
    (h : ¬ ∀ first ∈ name.head?, s.aliases.get? first = none) :
    name.length < (s.resolveModule name).length := by
  cases name with
  | nil => exact (h (by simp)).elim
  | cons first rest =>
    cases hknown : s.aliases.get? first with
    | none => exact (h (by simpa using hknown)).elim
    | some full =>
      have hlong : 2 ≤ full.length := aliases _ (mem_of_get?_eq_some hknown)
      simp only [State.resolveModule, hknown, List.length_append, List.length_cons]
      omega

theorem isSegment_resolveModule (aliases : ∀ p ∈ s.aliases, ∀ x ∈ p.2, IsSegment x)
    (hname : ∀ x ∈ name, IsSegment x) : ∀ x ∈ s.resolveModule name, IsSegment x := by
  cases name with
  | nil => exact hname
  | cons first rest =>
    cases hknown : s.aliases.get? first with
    | none => simpa only [State.resolveModule, hknown] using hname
    | some full =>
      have hfull := aliases _ (mem_of_get?_eq_some hknown)
      have hrest := (List.forall_mem_cons.mp hname).2
      simpa only [State.resolveModule, hknown] using List.forall_mem_append.mpr ⟨hfull, hrest⟩

end Origins

/-- An import of a module without a new name, against the calls qualified with that module, which is
not the one being lowered. They agree when the full name of the module is served by the runtime just
as the written one is, and has the same identifier if it is not served. Where short names stand for
modules inside of others, that is so only for names that start with no short name. -/
theorem imports_follow_calls_iff_no_short_name (c : Config) (s : State) {name : List String}
    (nonempty : name ≠ [])
    (elsewhere : s.context.any (·.name == s.resolveModule name) = false) (function : String)
    {declaration : Node}
    (form : declaration = .importAll name ∨ declaration = .require name none) :
    (ImportAgrees c s declaration name function ↔
      c.isRuntimeModule (s.resolveModule name) = c.isRuntimeModule name ∧
        (c.isRuntimeModule name = false → ofModule (s.resolveModule name) = ofModule name)) ∧
    ((∀ x ∈ name, IsSegment x) →
      (∀ p ∈ s.aliases, 2 ≤ p.2.length ∧ ∀ x ∈ p.2, IsSegment x) →
      (ImportAgrees c s declaration name function ↔
        ∀ first ∈ name.head?, s.aliases.get? first = none)) := by
  have hiff := importAgrees_iff (c := c) function nonempty elsewhere form
  refine ⟨hiff, fun hname haliases => hiff.trans ⟨fun ⟨hserved, hsame⟩ => ?_, fun hunknown => ?_⟩⟩
  · by_contra hknown
    have hlonger := length_lt_length_resolveModule (fun p hp => (haliases p hp).1) hknown
    have hunserved : c.isRuntimeModule (s.resolveModule name) = false := by
      apply Bool.eq_false_of_not_eq_true
      intro h
      obtain ⟨part, hpart⟩ := exists_of_isRuntimeModule h
      have hpositive := List.length_pos_of_ne_nil nonempty
      rw [hpart, List.length_singleton] at hlonger
      omega
    have hfull := isSegment_resolveModule (fun p hp => (haliases p hp).2) hname
    have heq := ofModule_inj hfull hname (hsame (hserved ▸ hunserved))
    rw [heq] at hlonger
    exact Nat.lt_irrefl _ hlonger
  · rw [resolveModule_of_unknown hunknown]
    exact ⟨rfl, fun _ => rfl⟩

section Sample

/-- Inside of `Outer`, behind its modules `Inner` and `Enum`. -/
def outerState : State :=
  { context := some
      { name := ["Outer"]
        aliases := [("Enum", ["Outer", "Enum"]), ("Inner", ["Outer", "Inner"])] } }

theorem imports_follow_calls_outerState :
    ImportAgrees {} outerState (.require ["Other", "Inner"] none) ["Other", "Inner"] "g" ∧
      ¬ ImportAgrees {} outerState (.importAll ["Inner", "Part"]) ["Inner", "Part"] "g" := by
  have haliases : ∀ p ∈ outerState.aliases, 2 ≤ p.2.length ∧ ∀ x ∈ p.2, IsSegment x := by
    simp [outerState, State.aliases, IsSegment]
  constructor
  · exact ((imports_follow_calls_iff_no_short_name {} outerState (by simp) rfl "g" (.inr rfl)).2
      (by simp [IsSegment]) haliases).mpr (by decide)
  · intro h
    exact absurd (((imports_follow_calls_iff_no_short_name {} outerState (by simp) rfl "g"
      (.inl rfl)).2 (by simp [IsSegment]) haliases).mp h) (by decide)

/-- A module that imports one of its own modules and calls a function of it. -/
def importingBody (inner : String) : List Node :=
  [.module [inner] [], .importAll [inner],
   .define .exported (.call "f" [] {}) [.call "g" [] ⟨.qualified [inner], none⟩]]

/-- The import of a nested module declares an identifier that no call goes through, or nothing at
all where the runtime has a module of that name. -/
theorem nested_module_imported_by_short_name :
    (∃ m, lowerProgram {} [.module ["Outer"] (importingBody "Inner")] = .ok ⟨[.module m]⟩ ∧
      m.imports = [⟨.everything "Inner", "./Inner.js"⟩] ∧
      m.functions.map (·.function.body) =
        [[.return_ (.call ((Expr.ident "Outer$Inner").property "g") [])]]) ∧
    (∃ m, lowerProgram {} [.module ["Outer"] (importingBody "Enum")] = .ok ⟨[.module m]⟩ ∧
      m.imports = [] ∧
      m.functions.map (·.function.body) =
        [[.return_ (.call ((Expr.ident "Outer$Enum").property "g") [])]]) ∧
    ¬ ImportAgrees {} outerState (.importAll ["Inner"]) ["Inner"] "g" := by
  refine ⟨⟨_, rfl, rfl, rfl⟩, ⟨_, rfl, rfl, rfl⟩, fun h => ?_⟩
  have hsame := ((importAgrees_iff "g" (List.cons_ne_nil _ _) rfl (.inl rfl)).mp h).2
  exact absurd (hsame rfl) (by decide)

end Sample

end TreeLowering
