import TreeLowering.Proofs.Marks
import TreeLowering.Proofs.Naming
import TreeLowering.Proofs.Outline

/-!
How the names of a lowering become the marks of its output.

`Emits` relates an outline to the marks of the target that it was lowered to, between the names in
force before and those after. It has a rule for each event, not for each form: a form is lowered
to the marks of its parts, in order. What the lowering does with names is said here once; facts
about the names of target trees follow by induction on the rules.
-/
namespace TreeLowering.Scoping

open Source

/-- The part of a state that names are taken from. -/
structure Names where
  scope : NameTable Nat
  versions : NameTable Nat
  invented : Nat
  functions : List String
  attributeVersions : NameTable Nat
  /-- Whether a module is being lowered, which attributes are set in. -/
  hasModule : Bool

def namesOf (s : State) : Names :=
  ⟨s.scope, s.versions, s.invented, s.functions, s.attributeVersions, s.context.isSome⟩

namespace Names

variable (n : Names)

/-- The target name that a read of a variable means. -/
def resolve (x : String) : String := Identifier.ofVariable n.functions x ((n.scope.get? x).getD 0)

/-- The target name of the next binding of a variable. -/
def next (x : String) : String := Identifier.ofVariable n.functions x (n.versions.next x)

def bind (x : String) : Names :=
  { n with
    scope := n.scope.set x (n.versions.next x)
    versions := n.versions.set x (n.versions.next x + 1) }

def invent : Names := { n with invented := n.invented + 1 }

def nextAttribute (a : String) : String :=
  Identifier.versioned (Identifier.ofAttribute a) (n.attributeVersions.next a)

def define (a : String) : Names :=
  { n with attributeVersions := n.attributeVersions.set a (n.attributeVersions.next a + 1) }

@[simp]
theorem resolve_bind_self (x : String) : (n.bind x).resolve x = n.next x := by
  simp [resolve, next, bind, NameTable.get?, NameTable.set]

/-- The names after a child scope, which were as `n` before it. -/
def leave (m : Names) : Names := { m with scope := n.scope }

theorem leave_congr {n m : Names} (h : n.scope = m.scope) (k : Names) : n.leave k = m.leave k := by
  rw [leave, leave, h]

@[simp]
theorem leave_leave (m k : Names) : n.leave (m.leave k) = n.leave k := rfl

end Names

@[simp]
theorem namesOf_restored (s s' : State) :
    namesOf { s' with scope := s.scope } = (namesOf s).leave (namesOf s') := rfl

/-- Names of the target that no declaration of the output makes. -/
def globals (c : Config) : List String :=
  ["Symbol", "Array", "String", "undefined", c.runtimeName]

/-- Reads of allowed names, and between them the declarations of variables in order. -/
inductive Binds (allowed : String → Prop) : Names → List String → List Mark → Names → Prop
  | done {n : Names} : Binds allowed n [] [] n
  | read {n m : Names} {t : String} {xs : List String} {ms : List Mark} (may : allowed t)
      (rest : Binds allowed n xs ms m) : Binds allowed n xs (.read t :: ms) m
  | bind {n m : Names} {x : String} {xs : List String} {ms : List Mark}
      (rest : Binds allowed (n.bind x) xs ms m) :
      Binds allowed n (x :: xs) (.declare (n.next x) :: ms) m

/-- What patterns may read: the identifiers of the value kept last, and pinned variables. -/
def MayRead (c : Config) (kept : List (List String)) (n : Names) (pins : List String)
    (t : String) : Prop :=
  t ∈ kept.headD [] ∨ (∃ x ∈ pins, t = n.resolve x) ∨ t ∈ globals c

/-- The marks of an outline. `kept` are the identifiers of the values that are kept, the last one
first; variables satisfy `V` and attributes `A`. -/
inductive Emits (c : Config) (V A : String → Prop) :
    List (List String) → Names → List Event → List Mark → Names → Prop
  | nil {kept : List (List String)} {n : Names} : Emits c V A kept n [] [] n
  | append {kept : List (List String)} {n m k : Names} {es fs : List Event} {as bs : List Mark}
      (first : Emits c V A kept n es as m) (second : Emits c V A kept m fs bs k) :
      Emits c V A kept n (es ++ fs) (as ++ bs) k
  /-- What is lowered first may come second. -/
  | swap {kept : List (List String)} {n m k : Names} {es fs : List Event} {as bs : List Mark}
      (first : Emits c V A kept n es as m) (second : Emits c V A kept m fs bs k)
      (flat : Flat as) (flat' : Flat bs) : Emits c V A kept n (fs ++ es) (bs ++ as) k
  | global {kept : List (List String)} {n : Names} {t : String} (fixed : t ∈ globals c) :
      Emits c V A kept n [] [.read t] n
  | read {kept : List (List String)} {n : Names} {x : String} :
      Emits c V A kept n [.read x] [.read (n.resolve x)] n
  | function {kept : List (List String)} {n : Names} {f : String} :
      Emits c V A kept n [.function f] [.read (Identifier.escape f)] n
  | remote {kept : List (List String)} {n : Names} {module : List String} {f t : String}
      (root : t = c.runtimeName ∨ t = Identifier.escape f ∨ ∃ full, t = Identifier.ofModule full) :
      Emits c V A kept n [.remote module f] [.read t] n
  | version {kept : List (List String)} {n : Names} {a : String} (number : Nat) :
      Emits c V A kept n [.attribute a]
        [.read (Identifier.versioned (Identifier.ofAttribute a) number)] n
  | unset {kept : List (List String)} {n : Names} {a : String} :
      Emits c V A kept n [.attribute a] [] n
  | define {kept : List (List String)} {n : Names} {a : String} (named : A a) :
      Emits c V A kept n [.define a] [.declare (n.nextAttribute a)] (n.define a)
  | bind {kept : List (List String)} {n : Names} {x : String} (named : V x) :
      Emits c V A kept n [.bind x] [.declare (n.next x)] (n.bind x)
  | param {kept : List (List String)} {n : Names} {x : String} (named : V x) :
      Emits c V A kept n [.bind x] [.param (n.next x)] (n.bind x)
  | matching {kept : List (List String)} {n m : Names} {pins xs : List String} {ms : List Mark}
      (named : ∀ x ∈ xs, V x) (binds : Binds (MayRead c kept n pins) n xs ms m) :
      Emits c V A kept n [.matching pins xs] ms m
  | hold {kept : List (List String)} {n m k : Names} {stem : String} {es uses : List Event}
      {as bs : List Mark} (value : Emits c V A kept n es as m) (flat : Flat as)
      (invented : stem ∈ ["m", "case"])
      (rest : Emits c V A ([Identifier.invented stem m.invented] :: kept) m.invent uses bs k) :
      Emits c V A kept n [.hold es uses]
        (as ++ .declare (Identifier.invented stem m.invented) :: bs) k
  /-- A value that is an identifier is kept as it is. -/
  | held {kept : List (List String)} {n m k : Names} {t : String} {es uses : List Event}
      {bs : List Mark} (value : Emits c V A kept n es [.read t] m)
      (rest : Emits c V A ([t] :: kept) m uses bs k) : Emits c V A kept n [.hold es uses] bs k
  | use {kept : List (List String)} {n : Names} {t : String} {depth : Nat}
      (found : kept[depth]? = some [t])
      (results : depth = 0 ∨ ∃ i, t = Identifier.invented "acc" i) :
      Emits c V A kept n [.use depth] [.read t] n
  | scope {kept : List (List String)} {n m : Names} {es : List Event} {as : List Mark}
      (inner : Emits c V A kept n es as m) :
      Emits c V A kept n [.scope es] [.scope as] (n.leave m)
  | params {kept : List (List String)} {n m : Names} {count : Nat} {es : List Event}
      {as : List Mark}
      (inner : Emits c V A ((List.range count).map paramName :: kept) n es as m) :
      Emits c V A kept n [.params ((List.range count).map paramName) es]
        [.scope (((List.range count).map paramName).map .param ++ as)] (n.leave m)
  | loop {kept : List (List String)} {n m k : Names} {es inner : List Event} {as bs : List Mark}
      (collection : Emits c V A kept n es as m) (flat : Flat as)
      (rest : Emits c V A ([Identifier.invented "gen" m.invented] :: kept) m.invent inner bs k) :
      Emits c V A kept n [.loop es inner]
        (as ++ [.scope (.declare (Identifier.invented "gen" m.invented) :: bs)]) (n.leave k)
  /-- The collection that the results are put into is lowered before the loops. -/
  | collect {kept : List (List String)} {n m k : Names} {es loops : List Event}
      {as bs fixed : List Mark} (into : Emits c V A kept n es as m) (flat : Flat as)
      (rest : Emits c V A ([Identifier.invented "acc" m.invented] :: kept) m.invent loops bs k)
      (flat' : Flat bs) (library : ∀ mark ∈ fixed, mark = .read c.runtimeName) :
      Emits c V A kept n [.collect loops es]
        [.scope (.declare (Identifier.invented "acc" m.invented) ::
          (bs ++ (fixed ++ .read (Identifier.invented "acc" m.invented) :: as)))] (n.leave k)
  | omitted {kept : List (List String)} {n : Names} {es : List Event} :
      Emits c V A kept n [.optional es] [] n
  | taken {kept : List (List String)} {n m : Names} {es : List Event} {as : List Mark}
      (inner : Emits c V A kept n es as m) : Emits c V A kept n [.optional es] as m

theorem Flat.declare_not_mem {as : List Mark} (h : Flat as) (t : String) : .declare t ∉ as := by
  intro ht
  simpa using h (.declare t) ht

theorem Flat.param_not_mem {as : List Mark} (h : Flat as) (t : String) : .param t ∉ as := by
  intro ht
  simpa using h (.param t) ht

theorem Flat.left {as bs : List Mark} (h : Flat (as ++ bs)) : Flat as :=
  fun m hm => h m (List.mem_append_left _ hm)

theorem Flat.right {as bs : List Mark} (h : Flat (as ++ bs)) : Flat bs :=
  fun m hm => h m (List.mem_append_right _ hm)

theorem Binds.scope_eq {allowed : String → Prop} {n m : Names} {xs : List String} {ms : List Mark}
    (h : Binds allowed n xs ms m) (flat : Flat ms) : m.scope = n.scope := by
  induction h with
  | done => rfl
  | read _ _ ih => exact ih fun mark hmark => flat mark (List.mem_cons_of_mem _ hmark)
  | bind => exact (flat.declare_not_mem _ List.mem_cons_self).elim

theorem Binds.around_eq {allowed : String → Prop} {n m : Names} {xs : List String} {ms : List Mark}
    (h : Binds allowed n xs ms m) : m.functions = n.functions ∧ m.hasModule = n.hasModule := by
  induction h with
  | done => exact ⟨rfl, rfl⟩
  | read _ _ ih | bind _ ih => exact ih

/-- Where nothing is declared outside of inner scopes, the scope is as before. -/
theorem Emits.scope_eq {c : Config} {V A : String → Prop} {kept : List (List String)} {n m : Names}
    {es : List Event} {as : List Mark} (h : Emits c V A kept n es as m) (flat : Flat as) :
    m.scope = n.scope := by
  induction h with
  | nil | global | read | function | remote | version | unset | use | omitted => rfl
  | append _ _ ih₁ ih₂ => exact (ih₂ flat.right).trans (ih₁ flat.left)
  | swap _ _ _ _ ih₁ ih₂ => exact (ih₂ flat.left).trans (ih₁ flat.right)
  | define => rfl
  | bind => exact (flat.declare_not_mem _ (List.mem_singleton_self _)).elim
  | param => exact (flat.param_not_mem _ (List.mem_singleton_self _)).elim
  | matching _ binds => exact binds.scope_eq flat
  | hold => exact (flat.right.declare_not_mem _ List.mem_cons_self).elim
  | held value _ ih₁ ih₂ => exact (ih₂ flat).trans (ih₁ (by simp [Flat]))
  | scope | params | loop | collect => rfl
  | taken _ ih => exact ih flat

/-- The module around, and its functions, stay the same. -/
theorem Emits.around_eq {c : Config} {V A : String → Prop} {kept : List (List String)}
    {n m : Names} {es : List Event} {as : List Mark} (h : Emits c V A kept n es as m) :
    m.functions = n.functions ∧ m.hasModule = n.hasModule := by
  induction h with
  | nil | global | read | function | remote | version | unset | use | omitted => exact ⟨rfl, rfl⟩
  | define | bind | param => exact ⟨rfl, rfl⟩
  | append _ _ ih₁ ih₂ | swap _ _ _ _ ih₁ ih₂ | held _ _ ih₁ ih₂ =>
    exact ⟨ih₂.1.trans ih₁.1, ih₂.2.trans ih₁.2⟩
  | hold _ _ _ _ ih₁ ih₂ | loop _ _ _ ih₁ ih₂ | collect _ _ _ _ _ ih₁ ih₂ =>
    exact ⟨ih₂.1.trans ih₁.1, ih₂.2.trans ih₁.2⟩
  | matching _ binds => exact binds.around_eq
  | scope _ ih | params _ ih | taken _ ih => exact ih

theorem Emits.leave_eq {c : Config} {V A : String → Prop} {kept : List (List String)} {n m : Names}
    {es : List Event} {as : List Mark} (h : Emits c V A kept n es as m) (flat : Flat as) :
    n.leave m = m := by
  rw [Names.leave, ← h.scope_eq flat]

end TreeLowering.Scoping
