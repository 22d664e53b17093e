import TreeLowering.Proofs.Allocation
import TreeLowering.Proofs.EmissionProgram

/-!
Every read of the target means the declaration that was made for what the source reads.

A form and its target are walked together. On the one side the latest binding of each variable is
known, as lexical scope has it; on the other the names that are declared around a place and before
it. `Resolves` says of each read that the last declaration of its name is the one made for the
binding, or for the kept value, that the source means there. A declaration hides none that is in
force, so no read that comes before it in its block is caught by it either; only the parameters
`$arg` of a function hide those of a function around it.

A variable that is not bound is read by its plain name, and nothing is said of what that means.
-/
namespace TreeLowering.Scoping

open Source Target Identifier

/-- A place in a form and in its target. -/
structure Place where
  /-- The declaration that the latest binding of a variable was given. -/
  bound : NameTable Nat
  /-- The names declared in the scopes around and before this place, the last one first. A
  declaration is known by how many are before it. -/
  declared : List String
  /-- The identifiers of the values that are kept, with the declarations they meant when the value
  was kept; the value kept last is the first. -/
  kept : List (List (String × Option Nat))

/-- The last declaration of a name. -/
def lastDeclaration : List String → String → Option Nat
  | [], _ => none
  | u :: us, t => if u = t then some us.length else lastDeclaration us t

namespace Place

variable (p : Place)

/-- The declaration that a name of the target means here. -/
def declaration (t : String) : Option Nat := lastDeclaration p.declared t

/-- The name is what a read of the variable has to be. -/
def Means (x t : String) : Prop :=
  match p.bound.get? x with
  | some d => p.declaration t = some d
  | none => t = escape x ∨ t = besideFunction (escape x)

/-- The identifier of a kept value means what it meant when the value was kept. Nothing is asked of
one that meant no declaration. -/
def Still (t : String) (d : Option Nat) : Prop := d = none ∨ p.declaration t = d

def declare (t : String) : Place := { p with declared := t :: p.declared }

def declareAll (ts : List String) : Place := { p with declared := ts.reverse ++ p.declared }

def bind (x t : String) : Place :=
  { p with bound := p.bound.set x p.declared.length, declared := t :: p.declared }

/-- A value is kept under these identifiers. -/
def keep (ts : List String) : Place :=
  { p with kept := ts.map (fun t => (t, p.declaration t)) :: p.kept }

/-- The place with the values that are kept at another. -/
def keptAs (q : Place) : Place := { p with kept := q.kept }

end Place

/-- What patterns may read here: the identifiers of the value kept last, and pinned variables as
they were before. -/
def Sees (c : Config) (before : NameTable Nat) (pins : List String) (p : Place) (t : String) :
    Prop :=
  (∃ d, (t, d) ∈ p.kept.headD [] ∧ p.Still t d) ∨
    (∃ x ∈ pins, { p with bound := before }.Means x t) ∨ t ∈ globals c

/-- Variables that patterns bind, one after the other, and reads between their declarations. -/
inductive Takes (c : Config) (before : NameTable Nat) (pins : List String) :
    Place → List String → List Mark → Place → Prop
  | done {p : Place} : Takes c before pins p [] [] p
  | read {p q : Place} {t : String} {xs : List String} {ms : List Mark}
      (sees : Sees c before pins p t) (rest : Takes c before pins p xs ms q) :
      Takes c before pins p xs (.read t :: ms) q
  | bind {p q : Place} {x t : String} {xs : List String} {ms : List Mark}
      (fresh : t ∉ p.declared) (rest : Takes c before pins (p.bind x t) xs ms q) :
      Takes c before pins p (x :: xs) (.declare t :: ms) q

/-- The marks follow the outline from one place to another, and every read of a variable or of a
kept value means the declaration made for it. -/
inductive Resolves (c : Config) : Place → List Event → List Mark → Place → Prop
  | nil {p : Place} : Resolves c p [] [] p
  | append {p q r : Place} {es fs : List Event} {as bs : List Mark}
      (first : Resolves c p es as q) (second : Resolves c q fs bs r) :
      Resolves c p (es ++ fs) (as ++ bs) r
  | global {p : Place} {t : String} (fixed : t ∈ globals c) : Resolves c p [] [.read t] p
  | read {p : Place} {x t : String} (means : p.Means x t) : Resolves c p [.read x] [.read t] p
  | function {p : Place} {f : String} : Resolves c p [.function f] [.read (escape f)] p
  | remote {p : Place} {module : List String} {f t : String}
      (root : t = c.runtimeName ∨ t = escape f ∨ ∃ full, t = ofModule full) :
      Resolves c p [.remote module f] [.read t] p
  | version {p : Place} {a : String} (number : Nat) :
      Resolves c p [.attribute a] [.read (versioned (ofAttribute a) number)] p
  | unset {p : Place} {a : String} : Resolves c p [.attribute a] [] p
  /-- The names of attributes are apart, and hide no other. -/
  | define {p : Place} {a : String} (number : Nat)
      (fresh : versioned (ofAttribute a) number ∉ p.declared) :
      Resolves c p [.define a] [.declare (versioned (ofAttribute a) number)] p
  | bind {p : Place} {x t : String} (fresh : t ∉ p.declared) :
      Resolves c p [.bind x] [.declare t] (p.bind x t)
  | param {p : Place} {x t : String} (fresh : t ∉ p.declared) :
      Resolves c p [.bind x] [.param t] (p.bind x t)
  | matching {p q : Place} {pins xs : List String} {ms : List Mark}
      (takes : Takes c p.bound pins p xs ms q) : Resolves c p [.matching pins xs] ms q
  | hold {p q : Place} {t : String} {es uses : List Event} {as bs : List Mark}
      (value : Resolves c p es as p) (fresh : t ∉ p.declared)
      (rest : Resolves c ((p.declare t).keep [t]) uses bs q) :
      Resolves c p [.hold es uses] (as ++ .declare t :: bs) (q.keptAs p)
  | held {p q : Place} {t : String} {es uses : List Event} {bs : List Mark}
      (value : Resolves c p es [.read t] p) (rest : Resolves c (p.keep [t]) uses bs q) :
      Resolves c p [.hold es uses] bs (q.keptAs p)
  | use {p : Place} {t : String} {d : Option Nat} {depth : Nat}
      (found : p.kept[depth]? = some [(t, d)]) (still : p.Still t d) :
      Resolves c p [.use depth] [.read t] p
  | scope {p q : Place} {es : List Event} {as : List Mark} (inner : Resolves c p es as q) :
      Resolves c p [.scope es] [.scope as] p
  /-- Parameters of a function that tries its clauses hide those of functions around it. -/
  | params {p q : Place} {ts : List String} {es : List Event} {as : List Mark} (distinct : ts.Nodup)
      (inner : Resolves c ((p.declareAll ts).keep ts) es as q) :
      Resolves c p [.params ts es] [.scope (ts.map .param ++ as)] p
  | loop {p q : Place} {t : String} {es inner : List Event} {as bs : List Mark}
      (collection : Resolves c p es as p) (fresh : t ∉ p.declared)
      (rest : Resolves c ((p.declare t).keep [t]) inner bs q) :
      Resolves c p [.loop es inner] (as ++ [.scope (.declare t :: bs)]) p
  | collect {p : Place} {t : String} {es loops : List Event} {as bs fixed : List Mark}
      (fresh : t ∉ p.declared)
      (rest : Resolves c ((p.declare t).keep [t]) loops bs ((p.declare t).keep [t]))
      (library : ∀ mark ∈ fixed, mark = .read c.runtimeName)
      (into : Resolves c (p.declare t) es as (p.declare t)) :
      Resolves c p [.collect loops es]
        [.scope (.declare t :: (bs ++ (fixed ++ .read t :: as)))] p
  | omitted {p : Place} {es : List Event} : Resolves c p [.optional es] [] p
  | taken {p q : Place} {es : List Event} {as : List Mark} (inner : Resolves c p es as q) :
      Resolves c p [.optional es] as q

section Places

variable {c : Config} {p q : Place} {t u : String}

@[simp]
theorem lastDeclaration_self (us : List String) : lastDeclaration (t :: us) t = some us.length := by
  simp [lastDeclaration]

theorem lastDeclaration_append {ts us : List String} (h : t ∉ ts) :
    lastDeclaration (ts ++ us) t = lastDeclaration us t := by
  induction ts with
  | nil => rfl
  | cons u ts ih =>
    rw [List.mem_cons, not_or] at h
    rw [List.cons_append, lastDeclaration, if_neg (Ne.symm h.1), ih h.2]

theorem mem_of_lastDeclaration {us : List String} {d : Nat} (h : lastDeclaration us t = some d) :
    t ∈ us := by
  induction us with
  | nil => cases h
  | cons u us ih =>
    by_cases heq : u = t
    · simp [heq]
    · rw [lastDeclaration, if_neg heq] at h
      exact List.mem_cons_of_mem _ (ih h)

theorem Takes.eq_of_flat {before : NameTable Nat} {pins xs : List String} {ms : List Mark}
    (h : Takes c before pins p xs ms q) (flat : Flat ms) : q = p := by
  induction h with
  | done => rfl
  | read _ _ ih => exact ih fun mark hmark => flat mark (List.mem_cons_of_mem _ hmark)
  | bind => exact (flat.declare_not_mem _ List.mem_cons_self).elim

/-- Where nothing is declared outside of inner scopes, the place is the same after it. -/
theorem Resolves.eq_of_flat {es : List Event} {as : List Mark} (h : Resolves c p es as q)
    (flat : Flat as) : q = p := by
  induction h with
  | nil | global | read | function | remote | version | unset | define => rfl
  | use | scope | params | loop | collect | omitted => rfl
  | append _ _ ih₁ ih₂ => rw [ih₂ flat.right, ih₁ flat.left]
  | bind => exact (flat.declare_not_mem _ (List.mem_singleton_self _)).elim
  | param => exact (flat.param_not_mem _ (List.mem_singleton_self _)).elim
  | matching takes => exact takes.eq_of_flat flat
  | hold => exact (flat.right.declare_not_mem _ List.mem_cons_self).elim
  | held _ _ _ ih => rw [ih flat]; rfl
  | taken _ ih => exact ih flat

end Places

section Agreement

variable {V A : String → Prop} {c : Config} {n m k : Names} {p q : Place} {t : String}
  {kept : List (List String)}

/-- The variables in scope are declared under the names that they are read by. -/
structure ScopeAgrees (V : String → Prop) (n : Names) (p : Place) : Prop where
  unbound : ∀ x, n.scope.get? x = none → p.bound.get? x = none
  bound : ∀ x version, n.scope.get? x = some version → V x ∧ ∃ d, p.bound.get? x = some d ∧
    p.declaration (ofVariable n.functions x version) = some d

/-- The names of the values that are kept mean what they meant then. An `$arg` parameter does so
only of the value kept last. -/
structure KeptAgrees (kept : List (List String)) (p : Place) : Prop where
  names : p.kept.map (·.map (·.1)) = kept
  last : ∀ e ∈ p.kept.headD [], p.Still e.1 e.2
  others : ∀ es ∈ p.kept, ∀ e ∈ es, ¬ IsArgument e.1 → p.Still e.1 e.2

/-- The place that the names `n` are in force at, where those up to `m` are still to come. -/
structure Agrees (V : String → Prop) (n m : Names) (kept : List (List String)) (p : Place) :
    Prop where
  scope : ScopeAgrees V n p
  kept : KeptAgrees kept p
  unused : ∀ t ∈ p.declared, ¬ Numbered V n m t
  apart : ∀ t ∈ p.declared, ∀ a version, t ≠ versioned (ofAttribute a) version

/-- What is declared from `p` to `q` has names from `n` to `m`. -/
structure Grown (V : String → Prop) (n m : Names) (p q : Place) : Prop where
  declared : ∃ ts, q.declared = ts ++ p.declared ∧ ∀ t ∈ ts, Numbered V n m t
  kept : q.kept = p.kept

theorem Grown.refl (V : String → Prop) (n m : Names) (p : Place) : Grown V n m p p :=
  ⟨⟨[], rfl, by simp⟩, rfl⟩

theorem Grown.trans {n' m' : Names} {r : Place} (h : Grown V n m p q) (h' : Grown V n' m' q r)
    (hn : n.Le n') (hm : m.Le m') : Grown V n m' p r := by
  obtain ⟨⟨ts, hts, hnumbered⟩, hkept⟩ := h
  obtain ⟨⟨us, hus, hnumbered'⟩, hkept'⟩ := h'
  refine ⟨⟨us ++ ts, by rw [hus, hts, List.append_assoc], ?_⟩, hkept'.trans hkept⟩
  exact List.forall_mem_append.mpr ⟨fun t ht => (hnumbered' t ht).mono hn (.refl _),
    fun t ht => (hnumbered t ht).mono (.refl _) hm⟩

theorem Grown.declare {stem : String} (known : stem ∈ ["m", "case", "acc", "gen"])
    (h : Grown V n.invent m (p.declare (invented stem n.invented)) q) (hm : n.invent.Le m) :
    Grown V n m p q := by
  have hdeclared : Grown V n n.invent p (p.declare (invented stem n.invented)) :=
    ⟨⟨[_], rfl, by simpa using numbered_invented known⟩, rfl⟩
  exact hdeclared.trans h (.invent n) hm

/-- After the value is kept no longer. -/
theorem Grown.keptAs {ts : List String} (h : Grown V n m (p.keep ts) q) :
    Grown V n m p (q.keptAs p) :=
  ⟨h.declared, rfl⟩

theorem Place.Still.grow {d : Option Nat} {ts : List String} (h : p.Still t d)
    (hq : q.declared = ts ++ p.declared) (hides : t ∈ ts → t ∉ p.declared) : q.Still t d := by
  rcases h with hnone | hd
  · exact .inl hnone
  cases d with
  | none => exact .inl rfl
  | some d =>
    have ht : t ∉ ts := fun ht => hides ht (mem_of_lastDeclaration hd)
    refine .inr ?_
    rw [Place.declaration, hq, lastDeclaration_append ht]
    exact hd

theorem ScopeAgrees.means (h : ScopeAgrees V n p) (x : String) : p.Means x (n.resolve x) := by
  unfold Place.Means Names.resolve
  cases hx : n.scope.get? x with
  | none =>
    rw [h.unbound x hx]
    simp only [Option.getD_none, ofVariable, versioned, if_pos]
    split
    · exact .inr rfl
    · exact .inl rfl
  | some version =>
    obtain ⟨-, d, hd, hdeclaration⟩ := h.bound x version hx
    rw [hd]
    exact hdeclaration

theorem ScopeAgrees.congr (h : ScopeAgrees V n p) (hscope : m.scope = n.scope)
    (hfunctions : m.functions = n.functions) : ScopeAgrees V m p := by
  refine ⟨fun x hx => h.unbound x (hscope ▸ hx), fun x version hx => ?_⟩
  rw [hfunctions]
  exact h.bound x version (hscope ▸ hx)

theorem KeptAgrees.keep {us : List String} (h : KeptAgrees kept p) (hk : q.kept = p.kept)
    (hq : q.declared = us ++ p.declared) (hides : ∀ t ∈ us, t ∈ p.declared → IsArgument t)
    (ts : List String) : KeptAgrees (ts :: kept) (q.keep ts) := by
  have hlast : ∀ e ∈ ts.map (fun t => (t, q.declaration t)), (q.keep ts).Still e.1 e.2 := by
    intro e he
    obtain ⟨t, -, rfl⟩ := List.mem_map.mp he
    exact .inr rfl
  refine ⟨?_, hlast, ?_⟩
  · simp [Place.keep, hk, h.names, Function.comp_def]
  · intro es hes e he harg
    rcases List.mem_cons.mp hes with rfl | hes
    · exact hlast e he
    · rw [hk] at hes
      exact (h.others es hes e he harg).grow hq fun hts hold => harg (hides e.1 hts hold)

theorem KeptAgrees.sees (h : KeptAgrees kept p) (ht : t ∈ kept.headD []) :
    ∃ d, (t, d) ∈ p.kept.headD [] ∧ p.Still t d := by
  have hlast := h.last
  rw [← h.names] at ht
  cases hk : p.kept with
  | nil => simp [hk] at ht
  | cons es rest =>
    rw [hk] at ht hlast
    obtain ⟨e, he, rfl⟩ := List.mem_map.mp ht
    exact ⟨e.2, he, hlast e he⟩

theorem KeptAgrees.used (h : KeptAgrees kept p) {depth : Nat} (found : kept[depth]? = some [t])
    (results : depth = 0 ∨ ∃ i, t = invented "acc" i) :
    ∃ d, p.kept[depth]? = some [(t, d)] ∧ p.Still t d := by
  rw [← h.names, List.getElem?_map, Option.map_eq_some_iff] at found
  obtain ⟨es, hes, hnames⟩ := found
  obtain ⟨e, rfl, rfl⟩ := List.map_eq_singleton_iff.mp hnames
  refine ⟨e.2, hes, ?_⟩
  rcases results with rfl | ⟨i, hi⟩
  · refine h.last e ?_
    cases hk : p.kept with
    | nil => simp [hk] at hes
    | cons first rest => simp_all
  · refine h.others [e] (List.mem_of_getElem? hes) e (List.mem_singleton_self e) ?_
    rintro ⟨j, hj⟩
    obtain ⟨hstem, -⟩ := invented_inj (by decide) (by decide) (hi.symm.trans hj)
    exact absurd hstem (by decide)

theorem Agrees.mono (h : Agrees V n k kept p) (hm : m.Le k) : Agrees V n m kept p :=
  ⟨h.scope, h.kept, fun t ht hnumbered => h.unused t ht (hnumbered.mono (.refl _) hm), h.apart⟩

theorem Agrees.keep (h : Agrees V n m kept p) (ts : List String) :
    Agrees V n m (ts :: kept) (p.keep ts) :=
  ⟨⟨h.scope.unbound, h.scope.bound⟩, h.kept.keep rfl (List.nil_append _).symm (by simp) ts,
    h.unused, h.apart⟩

theorem Agrees.fresh (h : Agrees V n m kept p) (hnumbered : Numbered V n m t) : t ∉ p.declared :=
  fun ht => h.unused t ht hnumbered

section

variable (hV : ∀ x, V x → IsSourceName x)
include hV

theorem ScopeAgrees.grow {ts : List String} (h : ScopeAgrees V n p) (hb : q.bound = p.bound)
    (hq : q.declared = ts ++ p.declared) (hides : ∀ t ∈ ts, t ∈ p.declared → IsArgument t) :
    ScopeAgrees V n q := by
  refine ⟨fun x hx => hb ▸ h.unbound x hx, fun x version hx => ?_⟩
  obtain ⟨named, d, hd, hdeclaration⟩ := h.bound x version hx
  refine ⟨named, d, hb ▸ hd, ?_⟩
  have hnew : ofVariable n.functions x version ∉ ts := by
    intro hts
    obtain ⟨i, hi⟩ := hides _ hts (mem_of_lastDeclaration hdeclaration)
    exact ofVariable_ne_invented (hV x named) hi
  rw [Place.declaration, hq, lastDeclaration_append hnew]
  exact hdeclaration

theorem ScopeAgrees.declare (h : ScopeAgrees V n p) (fresh : t ∉ p.declared) :
    ScopeAgrees V n (p.declare t) := by
  refine h.grow hV rfl (List.singleton_append ..).symm fun u hu hold => ?_
  exact (fresh (List.mem_singleton.mp hu ▸ hold)).elim

theorem ScopeAgrees.bind (h : ScopeAgrees V n p) {x : String} (named : V x)
    (fresh : n.next x ∉ p.declared) : ScopeAgrees V (n.bind x) (p.bind x (n.next x)) := by
  have hrest : ScopeAgrees V n (p.declare (n.next x)) := h.declare hV fresh
  constructor
  · intro y hy
    simp only [Names.bind, Place.bind, NameTable.get?_set] at hy ⊢
    split at hy
    · cases hy
    next hne => rw [if_neg hne, h.unbound y hy]
  · intro y version hy
    simp only [Names.bind, Place.bind, NameTable.get?_set] at hy ⊢
    split at hy
    next heq =>
      cases hy
      rw [heq]
      exact ⟨named, _, if_pos rfl, lastDeclaration_self _⟩
    next hne =>
      rw [if_neg hne]
      exact hrest.bound y version hy

/-- After what is lowered from `n` to `m`. -/
theorem Agrees.step (h : Agrees V n k kept p) (hn : n.Le m) (hm : m.Le k)
    (grown : Grown V n m p q) (scope : ScopeAgrees V m q) : Agrees V m k kept q := by
  obtain ⟨⟨ts, hts, hnumbered⟩, hkept⟩ := grown
  have fresh : ∀ t ∈ ts, t ∉ p.declared := fun t ht hold =>
    h.unused t hold ((hnumbered t ht).mono (.refl _) hm)
  refine ⟨scope, ⟨hkept ▸ h.kept.names, fun e he => ?_, fun es hes e he harg => ?_⟩, ?_, ?_⟩
  · rw [hkept] at he
    exact (h.kept.last e he).grow hts (fresh e.1)
  · rw [hkept] at hes
    exact (h.kept.others es hes e he harg).grow hts (fresh e.1)
  · rw [hts]
    exact List.forall_mem_append.mpr ⟨fun t ht => (hnumbered t ht).not_later hV hn,
      fun t ht hlater => h.unused t ht (hlater.mono hn (.refl _))⟩
  · rw [hts]
    exact List.forall_mem_append.mpr ⟨fun t ht => (hnumbered t ht).ne_ofAttribute hV, h.apart⟩

/-- A name that is given out later may be declared already where nothing up to `m` is it. -/
theorem Agrees.declare (h : Agrees V n m kept p) (fresh : t ∉ p.declared)
    (later : ¬ Numbered V n m t) (apart : ∀ a version, t ≠ versioned (ofAttribute a) version) :
    Agrees V n m kept (p.declare t) := by
  have hnew : ∀ u ∈ [t], u ∉ p.declared := by simpa using fresh
  refine ⟨h.scope.declare hV fresh,
    ⟨h.kept.names, fun e he => ?_, fun es hes e he harg => ?_⟩, ?_, ?_⟩
  · exact (h.kept.last e he).grow (List.singleton_append ..).symm (hnew e.1)
  · exact (h.kept.others es hes e he harg).grow (List.singleton_append ..).symm (hnew e.1)
  · exact List.forall_mem_cons.mpr ⟨later, h.unused⟩
  · exact List.forall_mem_cons.mpr ⟨apart, h.apart⟩

/-- A value is kept under an invented name. -/
theorem Agrees.hold (stem : String) (h : Agrees V n k kept p)
    (known : stem ∈ ["m", "case", "acc", "gen"]) (hk : n.invent.Le k) :
    Agrees V n.invent k ([invented stem n.invented] :: kept)
      ((p.declare (invented stem n.invented)).keep [invented stem n.invented]) := by
  have hnumbered : Numbered V n n.invent (invented stem n.invented) := numbered_invented known
  have fresh := h.fresh (hnumbered.mono (.refl _) hk)
  have hdeclared : Agrees V n.invent k kept (p.declare (invented stem n.invented)) := by
    refine h.step hV (.invent n) hk ⟨⟨[_], rfl, by simpa using hnumbered⟩, rfl⟩ ?_
    exact (h.scope.declare hV fresh).congr rfl rfl
  exact hdeclared.keep _

/-- In a function that tries its clauses. -/
theorem Agrees.arguments (h : Agrees V n m kept p) (count : Nat) :
    Agrees V n m ((List.range count).map paramName :: kept)
      ((p.declareAll ((List.range count).map paramName)).keep
        ((List.range count).map paramName)) := by
  have hargument : ∀ t ∈ ((List.range count).map paramName).reverse, IsArgument t :=
    fun t ht => isArgument_of_mem (List.mem_reverse.mp ht)
  have hscope : ScopeAgrees V n (p.declareAll ((List.range count).map paramName)) :=
    h.scope.grow hV rfl rfl fun t ht _ => hargument t ht
  have hkept := h.kept.keep (q := p.declareAll _) rfl rfl (fun t ht _ => hargument t ht)
    ((List.range count).map paramName)
  refine ⟨⟨hscope.unbound, hscope.bound⟩, hkept,
    List.forall_mem_append.mpr ⟨fun t ht hnumbered => ?_, h.unused⟩,
    List.forall_mem_append.mpr ⟨fun t ht a version heq => ?_, h.apart⟩⟩
  · exact hnumbered.not_isArgument hV (hargument t ht)
  · obtain ⟨i, rfl⟩ := hargument t ht
    exact invented_ne_ofAttribute (by decide) heq

/-- After a part that declares nothing at its place. -/
theorem Agrees.after {es : List Event} {as : List Mark} (h : Agrees V n k kept p) (flat : Flat as)
    (hn : n.Le m) (hm : m.Le k)
    (part : ∃ q, Resolves c p es as q ∧ Grown V n m p q ∧ ScopeAgrees V m q) :
    Resolves c p es as p ∧ Agrees V m k kept p := by
  obtain ⟨q, hq, hgrown, hscope⟩ := part
  obtain rfl := hq.eq_of_flat flat
  exact ⟨hq, h.step hV hn hm hgrown hscope⟩

theorem Binds.takes {n₀ : Names} {pins xs : List String} {ms : List Mark} {before : NameTable Nat}
    (h : Binds (MayRead c kept n₀ pins) n xs ms m) (named : ∀ x ∈ xs, V x)
    (agrees : Agrees V n m kept p) (start : ScopeAgrees V n₀ { p with bound := before }) :
    ∃ q, Takes c before pins p xs ms q ∧ Grown V n m p q ∧ ScopeAgrees V m q := by
  induction h generalizing p with
  | done => exact ⟨p, .done, .refl V _ _ p, agrees.scope⟩
  | @read n m t xs ms may _ ih =>
    obtain ⟨q, hq, hgrown, hscope⟩ := ih named agrees start
    refine ⟨q, .read ?_ hq, hgrown, hscope⟩
    rcases may with hkept | ⟨x, hx, rfl⟩ | hglobal
    · exact .inl (agrees.kept.sees hkept)
    · exact .inr (.inl ⟨x, hx, start.means x⟩)
    · exact .inr (.inr hglobal)
  | @bind n m x xs ms rest ih =>
    have hx := named x (by simp)
    have hnext : Numbered V n m (n.next x) := (numbered_next hx).mono (.refl _) rest.le
    have fresh := agrees.fresh hnext
    have hgrown : Grown V n (n.bind x) p (p.bind x (n.next x)) :=
      ⟨⟨[_], rfl, by simpa using numbered_next hx⟩, rfl⟩
    have hbound := agrees.scope.bind hV hx fresh
    obtain ⟨q, hq, hgrown', hscope⟩ := ih (fun y hy => named y (by simp [hy]))
      (agrees.step hV (.bind n x) rest.le hgrown hbound)
      (start.grow hV rfl (List.singleton_append ..).symm fun u hu hold =>
        (fresh (List.mem_singleton.mp hu ▸ hold)).elim)
    exact ⟨q, .bind fresh hq, hgrown.trans hgrown' (.bind n x) rest.le, hscope⟩

/-- Every run of the lowering resolves its reads. -/
theorem Emits.resolves {es : List Event} {as : List Mark} (h : Emits c V A kept n es as m)
    (agrees : Agrees V n m kept p) :
    ∃ q, Resolves c p es as q ∧ Grown V n m p q ∧ ScopeAgrees V m q := by
  induction h generalizing p with
  | nil => exact ⟨p, .nil, .refl .., agrees.scope⟩
  | append first second ih₁ ih₂ =>
    obtain ⟨q, hq, hgrown, hscope⟩ := ih₁ (agrees.mono second.le)
    obtain ⟨r, hr, hgrown', hscope'⟩ := ih₂ (agrees.step hV first.le second.le hgrown hscope)
    exact ⟨r, .append hq hr, hgrown.trans hgrown' first.le second.le, hscope'⟩
  | swap first second flat flat' ih₁ ih₂ =>
    obtain ⟨hfirst, hmiddle⟩ :=
      agrees.after hV flat first.le second.le (ih₁ (agrees.mono second.le))
    obtain ⟨hsecond, hlast⟩ := hmiddle.after hV flat' second.le (.refl _) (ih₂ hmiddle)
    exact ⟨p, .append hsecond hfirst, .refl .., hlast.scope⟩
  | global fixed => exact ⟨p, .global fixed, .refl .., agrees.scope⟩
  | read => exact ⟨p, .read (agrees.scope.means _), .refl .., agrees.scope⟩
  | function => exact ⟨p, .function, .refl .., agrees.scope⟩
  | remote root => exact ⟨p, .remote root, .refl .., agrees.scope⟩
  | version number => exact ⟨p, .version number, .refl .., agrees.scope⟩
  | unset => exact ⟨p, .unset, .refl .., agrees.scope⟩
  | define =>
    exact ⟨p, .define _ fun hold => agrees.apart _ hold _ _ rfl, .refl ..,
      agrees.scope.congr rfl rfl⟩
  | bind named =>
    have fresh := agrees.fresh (numbered_next named)
    exact ⟨_, .bind fresh, ⟨⟨[_], rfl, by simpa using numbered_next named⟩, rfl⟩,
      agrees.scope.bind hV named fresh⟩
  | param named =>
    have fresh := agrees.fresh (numbered_next named)
    exact ⟨_, .param fresh, ⟨⟨[_], rfl, by simpa using numbered_next named⟩, rfl⟩,
      agrees.scope.bind hV named fresh⟩
  | matching named binds =>
    obtain ⟨q, hq, hgrown, hscope⟩ := binds.takes hV named agrees agrees.scope
    exact ⟨q, .matching hq, hgrown, hscope⟩
  | hold value flat invented rest ih₁ ih₂ =>
    have hstem := List.mem_append_left ["acc", "gen"] invented
    have hle := Names.Le.trans (.invent _) rest.le
    obtain ⟨hvalue, hmiddle⟩ := agrees.after hV flat value.le hle (ih₁ (agrees.mono hle))
    have fresh := hmiddle.fresh ((numbered_invented hstem).mono (.refl _) rest.le)
    obtain ⟨q, hq, hgrown, hscope⟩ := ih₂ (hmiddle.hold hV _ hstem rest.le)
    refine ⟨q.keptAs p, .hold hvalue fresh hq, ?_, ⟨hscope.unbound, hscope.bound⟩⟩
    exact (Grown.refl V _ _ p).trans (hgrown.keptAs.declare hstem rest.le) value.le (.refl _)
  | held value rest ih₁ ih₂ =>
    obtain ⟨hvalue, hmiddle⟩ :=
      agrees.after hV (by simp [Flat]) value.le rest.le (ih₁ (agrees.mono rest.le))
    obtain ⟨q, hq, hgrown, hscope⟩ := ih₂ (hmiddle.keep _)
    refine ⟨q.keptAs p, .held hvalue hq, ?_, ⟨hscope.unbound, hscope.bound⟩⟩
    exact (Grown.refl V _ _ p).trans hgrown.keptAs value.le (.refl _)
  | use found results =>
    obtain ⟨d, hfound, hstill⟩ := agrees.kept.used found results
    exact ⟨p, .use hfound hstill, .refl .., agrees.scope⟩
  | scope inner ih =>
    obtain ⟨q, hq, -, -⟩ := ih (agrees.mono ((Names.Le.refl _).leave _))
    exact ⟨p, .scope hq, .refl .., agrees.scope.congr rfl inner.le.functions⟩
  | params inner ih =>
    obtain ⟨q, hq, -, -⟩ := ih ((agrees.mono ((Names.Le.refl _).leave _)).arguments hV _)
    exact ⟨p, .params (nodup_paramNames _) hq, .refl .., agrees.scope.congr rfl inner.le.functions⟩
  | @loop kept n m k es inner as bs collection flat rest ih₁ ih₂ =>
    have hle := Names.Le.trans (.invent _) rest.le
    have hgen : Numbered V m m.invent (invented "gen" m.invented) := numbered_invented (by simp)
    have hinner := agrees.mono ((Names.Le.refl _).leave _)
    obtain ⟨hcollection, hmiddle⟩ :=
      hinner.after hV flat collection.le hle (ih₁ (hinner.mono hle))
    have fresh := hmiddle.fresh (hgen.mono (.refl _) rest.le)
    obtain ⟨q, hq, -, -⟩ := ih₂ (hmiddle.hold hV "gen" (by simp) rest.le)
    exact ⟨p, .loop hcollection fresh hq, .refl ..,
      agrees.scope.congr rfl (collection.le.trans hle).functions⟩
  | @collect kept n m k es loops as bs fixed into flat rest flat' library ih₁ ih₂ =>
    have hle := Names.Le.trans (.invent _) rest.le
    have hinner := agrees.mono ((Names.Le.refl _).leave _)
    have hacc : Numbered V m m.invent (invented "acc" m.invented) := numbered_invented (by simp)
    obtain ⟨-, hmiddle⟩ := hinner.after hV flat into.le hle (ih₁ (hinner.mono hle))
    have fresh := hmiddle.fresh (hacc.mono (.refl _) rest.le)
    -- The collection was lowered before the list of results was named, and stands after it.
    have hbefore := (hinner.mono hle).declare hV fresh
      (fun h => h.not_later hV into.le hacc) (hacc.ne_ofAttribute hV)
    obtain ⟨hinto, -⟩ := hbefore.after hV flat into.le (.refl _) (ih₁ hbefore)
    have hkept := hmiddle.hold hV "acc" (by simp) rest.le
    obtain ⟨hloops, -⟩ := hkept.after hV flat' rest.le (.refl _) (ih₂ hkept)
    exact ⟨p, .collect fresh hloops library hinto, .refl ..,
      agrees.scope.congr rfl (into.le.trans hle).functions⟩
  | omitted => exact ⟨p, .omitted, .refl .., agrees.scope⟩
  | taken _ ih =>
    obtain ⟨q, hq, hgrown, hscope⟩ := ih agrees
    exact ⟨q, .taken hq, hgrown, hscope⟩

end

end Agreement

/-- The marks resolve as the outline says, where nothing is bound or declared yet. -/
def ResolvesAlone (c : Config) (es : List Event) (ms : List Mark) : Prop :=
  ∃ q, Resolves c ⟨[], [], []⟩ es ms q

/-- A module whose function binds `x` and `y` again in clauses, closures and a loop. -/
def nestedForms : List Node :=
  [.module ["Nested"]
    [.define .exported (.call "pick" [.var "x", .tuple [.var "y"]] {})
      [.bind (.var "x") (.fn [⟨[.tuple [.var "x"]],
          [.fn [⟨[.cons [.var "x"] (.var "y")], [.var "x"]⟩]]⟩]),
        .caseOf (.var "y") [⟨[.pin (.var "y")], [.var "x"]⟩, ⟨[.tuple [.var "x"]], [.var "x"]⟩],
        .comprehension [.generator (.var "y") (.list [.var "y"])] [.apply (.var "x") [.var "y"]]
          (some (.list [.var "x"]))]]]

theorem nestedForms_named : ∀ n ∈ nestedForms, n.Named IsSourceName fun _ => True := by
  simp only [nestedForms, List.forall_mem_cons, Node.Named, Node.names_eq, Node.children,
    Node.definitionChildren, Node.clauseChildren, Node.headChildren, Node.qualifierChildren,
    Node.ownNames, Node.Naming.Satisfies, List.flatMap_cons, List.flatMap_nil, List.cons_append,
    List.nil_append, List.append_nil, Option.toList_some, List.not_mem_nil, false_implies,
    implies_true, and_true]
  decide

end TreeLowering.Scoping
