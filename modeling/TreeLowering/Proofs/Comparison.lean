import Mathlib.Data.List.Forall2
import TreeLowering.Call
import TreeLowering.Collection
import TreeLowering.Comprehension
import TreeLowering.Position
import TreeLowering.Proofs.Naming
import TreeLowering.Proofs.Renaming
import TreeLowering.Proofs.Run
import TreeLowering.Proofs.SourceTexts

/-!
Two runs of one step, under two configurations.

The configurations decide names only, and so do the bindings and the numbers of a state. Whichever
they are, the runs end alike: both succeed, or both fail with the same error. If the configurations
differ in the name of the runtime alone, and that name has a character which is neither plain nor in
any text of the source, no identifier but those that lead into the runtime can be taken for it, and
the second result is the first one renamed.

Both facts are one comparison. It relates the runs at each step, and relates the trees only if the
configurations allow it.
-/
namespace TreeLowering

open Source Target

namespace Identifier

/-- Made of the characters that the names of the lowering itself are made of. -/
def isPlain (text : String) : Bool := text.toList.all (·.toNat < 128)

theorem toNat_lt_of_isPlain {text : String} (h : isPlain text = true) {c : Char}
    (hc : c ∈ text.toList) : c.toNat < 128 := by
  simpa using List.all_eq_true.mp h c hc

theorem isPlain_toString (n : Nat) : isPlain (toString n) = true := by
  refine List.all_eq_true.mpr fun c hc => ?_
  have hdigit := isDigit_of_mem_toString hc
  simp only [Char.isDigit, Bool.and_eq_true, decide_eq_true_eq] at hdigit
  have hle : c.toNat ≤ 57 := hdigit.2
  simpa using (by omega : c.toNat < 128)

theorem mem_escapeChar {c d : Char} (h : c ∈ escapeChar d) : c = d ∨ c.toNat < 128 := by
  unfold escapeChar at h
  split at h <;> simp only [List.mem_cons, List.not_mem_nil, or_false] at h
  · rcases h with rfl | rfl <;> decide
  · rcases h with rfl | rfl <;> decide
  · rcases h with rfl | rfl | rfl <;> decide
  · exact .inl h

/-- The characters of a spelling are those of the name, but for plain ones. -/
theorem mem_escape {name : String} {c : Char} (h : c ∈ (escape name).toList) :
    c ∈ name.toList ∨ c.toNat < 128 := by
  rw [toList_escape, List.mem_append, List.mem_flatMap] at h
  rcases h with ⟨d, hd, hc⟩ | hc
  · rcases mem_escapeChar hc with rfl | hplain
    · exact .inl hd
    · exact .inr hplain
  · unfold reservedMark at hc
    split at hc
    · obtain rfl := List.mem_singleton.mp hc
      exact .inr (by decide)
    · cases hc

end Identifier

/-- Two configurations under which runs are compared. Where trees are compared, the configurations
differ in the name of the runtime alone, and the first name has a mark: a character that is not one
of the plain ones, with which all other identifiers are made from the texts of the source. -/
structure Comparison where
  first : Config
  second : Config
  mark : Char
  ofTrees : Prop
  marked : ofTrees → mark ∈ first.runtimeName.toList
  foreign : ofTrees → 128 ≤ mark.toNat
  others_eq : ofTrees → second = { first with runtime := second.runtime }

namespace Comparison

variable (p : Comparison)

/-- A text that the name of the runtime cannot be made from. -/
def Unmarked (text : String) : Prop := p.ofTrees → p.mark ∉ text.toList

/-- A tree whose texts are unmarked. -/
def Clean (n : Node) : Prop := ∀ text ∈ n.texts, p.Unmarked text

/-- The new name of the runtime for the old one. -/
def newName : String → String := replacing p.first.runtimeName p.second.runtimeName

def oldLibrary : RuntimeLibrary := ⟨p.first.runtimeName⟩

def newLibrary : RuntimeLibrary := ⟨p.second.runtimeName⟩

/-- The second value is what `f` makes of the first, where trees are compared. -/
def Same {α : Type} (f : α → α) (a b : α) : Prop := p.ofTrees → b = f a

abbrev Exprs : Expr → Expr → Prop := p.Same (Expr.rename p.newName)

abbrev Stmts : List Stmt → List Stmt → Prop := p.Same (List.map (Stmt.rename p.newName))

abbrev Properties : Property → Property → Prop := p.Same (Property.rename p.newName)

abbrev Functions : FunctionDef → FunctionDef → Prop := p.Same (FunctionDef.rename p.newName)

abbrev Modules : ModuleDef → ModuleDef → Prop := p.Same (ModuleDef.rename p.newName)

/-- Statements that control never leaves at their end. -/
def Tails (stmts stmts' : List Stmt) : Prop :=
  p.Stmts stmts stmts' ∧ Stmt.lastIsTerminal stmts = true ∧ Stmt.lastIsTerminal stmts' = true

/-- A name that is not that of the runtime. -/
def Names (name name' : String) : Prop := p.Same id name name' ∧ p.Unmarked name

/-- States that differ in what is bound and in the numbers that come next at most, and not even
there where trees are compared. -/
inductive States : State → State → Prop
  | mk {s : State} {scope versions : NameTable Nat} {n : Nat}
      (same : p.ofTrees → scope = s.scope ∧ versions = s.versions ∧ n = s.invented)
      (aliases : ∀ short full, s.aliases.get? short = some full → ∀ segment ∈ full,
        p.Unmarked segment) :
      States s { s with scope, versions, invented := n }

variable {p}

section Names

variable {name : String}

theorem unmarked_of_isPlain (h : Identifier.isPlain name = true) : p.Unmarked name := by
  intro hp hmem
  have hplain := Identifier.toNat_lt_of_isPlain h hmem
  have hforeign := p.foreign hp
  omega

theorem Unmarked.append {other : String} (h : p.Unmarked name) (hother : p.Unmarked other) :
    p.Unmarked (name ++ other) := by
  intro hp
  rw [String.toList_append, List.mem_append, not_or]
  exact ⟨h hp, hother hp⟩

theorem Unmarked.escape (h : p.Unmarked name) : p.Unmarked (Identifier.escape name) := by
  intro hp hmem
  rcases Identifier.mem_escape hmem with hmark | hplain
  · exact h hp hmark
  · have hforeign := p.foreign hp
    omega

theorem Unmarked.numbered (h : p.Unmarked name) (n : Nat) : p.Unmarked (name ++ toString n) :=
  h.append (unmarked_of_isPlain (Identifier.isPlain_toString n))

theorem Unmarked.versioned (h : p.Unmarked name) (version : Nat) :
    p.Unmarked (Identifier.versioned name version) := by
  unfold Identifier.versioned
  split
  · exact h
  · exact (h.append (unmarked_of_isPlain (by decide))).numbered version

theorem Unmarked.variableBase (h : p.Unmarked name) (s : State) :
    p.Unmarked (s.variableBase name) := by
  unfold State.variableBase
  dsimp only
  split
  · exact h.escape.append (unmarked_of_isPlain (by decide))
  · exact h.escape

theorem Unmarked.resolve (h : p.Unmarked name) (s : State) : p.Unmarked (s.resolve name) :=
  (h.variableBase s).versioned _

theorem Unmarked.ofAttribute (h : p.Unmarked name) (version : Nat) :
    p.Unmarked (Identifier.versioned (Identifier.ofAttribute name) version) :=
  (Unmarked.append (unmarked_of_isPlain (by decide)) h.escape).versioned version

theorem Unmarked.invented (h : p.Unmarked name) (n : Nat) :
    p.Unmarked (Identifier.invented name n) :=
  (Unmarked.append (unmarked_of_isPlain (by decide)) h).numbered n

theorem unmarked_ofModule {segments : List String} (h : ∀ segment ∈ segments, p.Unmarked segment) :
    p.Unmarked (Identifier.ofModule segments) := by
  refine Unmarked.escape fun hp hmem => ?_
  have hjoined : ("$".intercalate segments).toList =
      ['$'].intercalate (segments.map String.toList) := String.toList_intercalate
  rw [hjoined] at hmem
  rcases Identifier.mem_intercalate hmem with hdollar | ⟨l, hl, hmark⟩
  · have hdollar' : p.Unmarked "$" := unmarked_of_isPlain (by decide)
    exact hdollar' hp (by simp [hdollar])
  · obtain ⟨segment, hsegment, rfl⟩ := List.mem_map.mp hl
    exact h segment hsegment hp hmark

/-- An unmarked name is not that of the runtime, so it stays. -/
theorem newName_eq (hp : p.ofTrees) (h : p.Unmarked name) : p.newName name = name := by
  have hne : name ≠ p.first.runtimeName := by
    rintro rfl
    exact h hp (p.marked hp)
  rw [newName, replacing, if_neg hne]

theorem Unmarked.exprs (h : p.Unmarked name) : p.Exprs (.ident name) (.ident name) := by
  intro hp
  rw [Expr.rename, newName_eq hp h]

theorem Names.exprs {name' : String} (h : p.Names name name') :
    p.Exprs (.ident name) (.ident name') := by
  intro hp
  have heq : name' = name := h.1 hp
  rw [heq, ← h.2.exprs hp]

end Names

theorem Clean.own {n : Node} (h : p.Clean n) : ∀ text ∈ n.ownTexts, p.Unmarked text :=
  fun text htext => h text (Node.mem_texts_of_mem_ownTexts htext)

theorem Clean.part {n m : Node} (h : p.Clean n) (hm : m ∈ n.parts) : p.Clean m :=
  fun text htext => h text (Node.mem_texts_of_part hm htext)

theorem Clean.parts {n : Node} (h : p.Clean n) : n.assembly.All p.Clean := fun _ => h.part

theorem isRuntimeModule_eq (p : Comparison) (hp : p.ofTrees) (module : List String) :
    p.second.isRuntimeModule module = p.first.isRuntimeModule module := by
  rw [p.others_eq hp]
  rfl

theorem importSource_eq (p : Comparison) (hp : p.ofTrees) (path : String) :
    p.second.importSource path = p.first.importSource path := by
  rw [p.others_eq hp]
  rfl

theorem same_map {α : Type} {f : α → α} {as bs : List α} (h : List.Forall₂ (p.Same f) as bs) :
    p.Same (List.map f) as bs := by
  intro hp
  induction h with
  | nil => rfl
  | cons hfirst _ ih => rw [hfirst hp, ih, List.map_cons]

namespace States

variable {s s' t t' : State}

theorem withScopeOf (h' : p.States s' t') (h : p.States s t) :
    p.States { s' with scope := s.scope } { t' with scope := t.scope } := by
  cases h with
  | mk hsame _ => cases h' with
    | mk hsame' haliases => exact .mk (fun hp => ⟨(hsame hp).1, (hsame' hp).2⟩) haliases

theorem fresh (h : p.States s t) :
    p.States { s with scope := [], versions := [], invented := 0 }
      { t with scope := [], versions := [], invented := 0 } := by
  cases h with
  | mk _ haliases => exact .mk (fun _ => ⟨rfl, rfl, rfl⟩) haliases

theorem withNumbersOf (h' : p.States s' t') (h : p.States s t) :
    p.States { s' with scope := s.scope, versions := s.versions, invented := s.invented }
      { t' with scope := t.scope, versions := t.versions, invented := t.invented } := by
  cases h with
  | mk hsame _ => cases h' with
    | mk _ haliases => exact .mk hsame haliases

theorem inside (h : p.States s t) (name functions : List String) :
    p.States { s with context := some { name, aliases := s.aliases, functions } }
      { t with context := some { name, aliases := t.aliases, functions } } := by
  cases h with
  | mk hsame haliases => exact .mk hsame haliases

theorem context_eq (h : p.States s t) : t.context = s.context := by
  cases h
  rfl

theorem attributes_eq (h : p.States s t) : t.attributes = s.attributes := by
  cases h
  rfl

theorem aliases_map {f : ModuleContext → ModuleContext} (hf : ∀ m, (f m).aliases = m.aliases) :
    State.aliases { s with context := s.context.map f } = s.aliases := by
  unfold State.aliases
  cases hcontext : s.context with
  | none => rfl
  | some m => exact hf m

theorem withAttributes (h : p.States s t) (versions : NameTable Nat) :
    p.States (s.withAttributes versions) (t.withAttributes versions) := by
  cases h with
  | mk hsame haliases =>
    have hkept : (s.withAttributes versions).aliases = s.aliases := aliases_map fun _ => rfl
    exact .mk hsame (hkept ▸ haliases)

theorem resolve_eq (hp : p.ofTrees) (h : p.States s t) (name : String) :
    t.resolve name = s.resolve name := by
  cases h with
  | mk hsame =>
    obtain ⟨rfl, -, -⟩ := hsame hp
    rfl

theorem resolveModule_eq (h : p.States s t) (segments : List String) :
    t.resolveModule segments = s.resolveModule segments := by
  cases h
  rfl

theorem unmarked_resolveModule (h : p.States s t) {segments : List String}
    (hsegments : ∀ segment ∈ segments, p.Unmarked segment) :
    ∀ segment ∈ s.resolveModule segments, p.Unmarked segment := by
  cases h with
  | mk _ haliases =>
    unfold State.resolveModule
    split
    · exact hsegments
    · split
      next full hfull =>
        exact List.forall_mem_append.mpr
          ⟨haliases _ full hfull, (List.forall_mem_cons.mp hsegments).2⟩
      · exact hsegments

end States

@[simp]
theorem rename_path (segments : List String) :
    (p.oldLibrary.path segments).rename p.newName = p.newLibrary.path segments := by
  have hname : p.newName p.oldLibrary.name = p.newLibrary.name := by
    simp [newName, replacing, oldLibrary, newLibrary]
  rw [RuntimeLibrary.rename_path, hname]

/-! Expressions that do not depend on the configuration. -/

section Fixed

variable (hp : p.ofTrees)

include hp

theorem rename_atomSymbol (name : String) :
    (atomSymbol name).rename p.newName = atomSymbol name := by
  have hsymbol : p.Unmarked "Symbol" := unmarked_of_isPlain (by decide)
  simp [atomSymbol, newName_eq hp hsymbol]

theorem rename_atomValue (name : String) :
    (atomValue name).rename p.newName = atomValue name := by
  unfold atomValue
  split
  · exact Expr.rename_bool true
  split
  · exact Expr.rename_bool false
  split
  · exact Expr.rename_null
  · exact rename_atomSymbol hp name

theorem rename_moduleValue (segments : List String) :
    (moduleValue segments).rename p.newName = moduleValue segments :=
  rename_atomSymbol hp _

theorem rename_constant {node : Node} {value : Expr} (h : Pattern.constant? node = some value) :
    value.rename p.newName = value := by
  unfold Pattern.constant? at h
  split at h
  case h_6 name =>
    obtain rfl := Option.some.inj h
    exact rename_atomValue hp name
  case h_7 n =>
    obtain ⟨m, -, rfl⟩ := Option.map_eq_some_iff.mp h
    exact Expr.rename_integer m
  case h_9 segments =>
    obtain ⟨text, -, rfl⟩ := Option.map_eq_some_iff.mp h
    exact Expr.rename_string text
  all_goals cases h
  all_goals simp

theorem rename_isArray (value : Expr) :
    (Pattern.isArray value).rename p.newName = Pattern.isArray (value.rename p.newName) := by
  have harray : p.Unmarked "Array" := unmarked_of_isPlain (by decide)
  simp [Pattern.isArray, newName_eq hp harray]

theorem rename_asString (value : Expr) :
    (asString value).rename p.newName = asString (value.rename p.newName) := by
  have hstring : p.Unmarked "String" := unmarked_of_isPlain (by decide)
  unfold asString
  rw [Expr.isStringLiteral_rename]
  split
  · rfl
  · simp [newName_eq hp hstring]

end Fixed

end Comparison

/-- Two results that are related: values that are, or the same error. -/
inductive Alike {α β : Type} (R : α → β → Prop) : Except LowerError α → Except LowerError β → Prop
  | ok {a : α} {b : β} (related : R a b) : Alike R (.ok a) (.ok b)
  | error (e : LowerError) : Alike R (.error e) (.error e)

namespace Alike

variable {α β γ δ : Type} {R : α → β → Prop} {Q : γ → δ → Prop}

theorem bind {x : Except LowerError α} {y : Except LowerError β} {f : α → Except LowerError γ}
    {g : β → Except LowerError δ} (h : Alike R x y) (hf : ∀ a b, R a b → Alike Q (f a) (g b)) :
    Alike Q (x >>= f) (y >>= g) := by
  cases h with
  | ok related => exact hf _ _ related
  | error e => exact .error e

theorem mono {R' : α → β → Prop} {x : Except LowerError α} {y : Except LowerError β}
    (h : Alike R x y) (himp : ∀ a b, R a b → R' a b) : Alike R' x y := by
  cases h with
  | ok related => exact .ok (himp _ _ related)
  | error e => exact .error e

/-- One result, of which something is known if it is a value. -/
theorem self {x : Except LowerError α} {P : α → Prop} (h : ∀ a, x = .ok a → P a) :
    Alike (fun a b => b = a ∧ P a) x x := by
  cases x with
  | ok a => exact .ok ⟨rfl, h a rfl⟩
  | error e => exact .error e

end Alike

namespace LowerM

variable {α β γ δ : Type} {p : Comparison} {R : α → β → Prop} {Q : γ → δ → Prop}

/-- From related states, the first step under the first configuration and the second step under the
second one end alike, in related states. -/
def Pairs (p : Comparison) (R : α → β → Prop) (x : LowerM α) (y : LowerM β) : Prop :=
  ∀ ⦃s t⦄, p.States s t →
    Alike R (x p.first s).1 (y p.second t).1 ∧ p.States (x p.first s).2 (y p.second t).2

/-- The two runs of one step. -/
abbrev Agrees (x : LowerM α) (p : Comparison) (R : α → α → Prop) : Prop := Pairs p R x x

namespace Pairs

theorem pure {a : α} {b : β} (h : R a b) : Pairs p R (Pure.pure a) (Pure.pure b) :=
  fun _ _ hstates => ⟨.ok h, hstates⟩

theorem bind {x : LowerM α} {y : LowerM β} {f : α → LowerM γ} {g : β → LowerM δ}
    (h : Pairs p R x y) (hf : ∀ a b, R a b → Pairs p Q (f a) (g b)) :
    Pairs p Q (x >>= f) (y >>= g) := by
  intro s t hst
  obtain ⟨hresults, hstates⟩ := h hst
  rcases hx : x p.first s with ⟨r, s'⟩
  rcases hy : y p.second t with ⟨r', t'⟩
  rw [hx, hy] at hresults hstates
  cases hresults with
  | ok related =>
    rw [bind_of_ok hx, bind_of_ok hy]
    exact hf _ _ related hstates
  | error e =>
    rw [bind_of_error hx, bind_of_error hy]
    exact ⟨.error e, hstates⟩

theorem mono {R' : α → β → Prop} {x : LowerM α} {y : LowerM β} (h : Pairs p R x y)
    (himp : ∀ a b, R a b → R' a b) : Pairs p R' x y :=
  fun _ _ hst => ⟨(h hst).1.mono himp, (h hst).2⟩

theorem fail (e : LowerError) : Pairs p R (LowerM.fail e) (LowerM.fail e) :=
  fun _ _ hstates => ⟨.error e, hstates⟩

theorem ofExcept {x : Except LowerError α} {y : Except LowerError β} (h : Alike R x y) :
    Pairs p R (LowerM.ofExcept x) (LowerM.ofExcept y) := by
  cases h with
  | ok related => exact pure related
  | error e => exact fail e

/-- The runs see related states. -/
theorem state {f : State → LowerM α} {g : State → LowerM β}
    (h : ∀ s t, p.States s t → Pairs p R (f s) (g t)) :
    Pairs p R (LowerM.state >>= f) (LowerM.state >>= g) :=
  bind (R := p.States) (fun _ _ hst => ⟨.ok hst, hst⟩) h

/-- Each run sees the library of its configuration. -/
theorem library {f : RuntimeLibrary → LowerM α} {g : RuntimeLibrary → LowerM β}
    (h : Pairs p R (f p.oldLibrary) (g p.newLibrary)) :
    Pairs p R (LowerM.library >>= f) (LowerM.library >>= g) :=
  bind (R := fun l l' => l = p.oldLibrary ∧ l' = p.newLibrary)
    (fun _ _ hst => ⟨.ok ⟨rfl, rfl⟩, hst⟩) (by rintro _ _ ⟨rfl, rfl⟩; exact h)

theorem config {f : Config → LowerM α} {g : Config → LowerM β}
    (h : Pairs p R (f p.first) (g p.second)) :
    Pairs p R (LowerM.config >>= f) (LowerM.config >>= g) :=
  bind (R := fun c c' => c = p.first ∧ c' = p.second)
    (fun _ _ hst => ⟨.ok ⟨rfl, rfl⟩, hst⟩) (by rintro _ _ ⟨rfl, rfl⟩; exact h)

theorem inScope {x : LowerM α} {y : LowerM β} (h : Pairs p R x y) :
    Pairs p R (LowerM.inScope x) (LowerM.inScope y) := by
  intro s t hst
  obtain ⟨hresults, hstates⟩ := h hst
  exact ⟨hresults, hstates.withScopeOf hst⟩

theorem inFunction {x : LowerM α} {y : LowerM β} (h : Pairs p R x y) :
    Pairs p R (LowerM.inFunction x) (LowerM.inFunction y) := by
  intro s t hst
  obtain ⟨hresults, hstates⟩ := h hst.fresh
  exact ⟨hresults, hstates.withNumbersOf hst⟩

/-- A module starts with the short names of the modules around it. -/
theorem inModule {name functions : List String} {x : LowerM α} {y : LowerM β} (h : Pairs p R x y) :
    Pairs p R (LowerM.inModule name functions x) (LowerM.inModule name functions y) := by
  intro s t hst
  obtain ⟨hresults, -⟩ := inFunction h (hst.inside name functions)
  exact ⟨hresults, hst⟩

theorem withAttributes {versions : Option (NameTable Nat)} {x : LowerM α} {y : LowerM β}
    (h : Pairs p R x y) :
    Pairs p R (LowerM.withAttributes versions x) (LowerM.withAttributes versions y) := by
  cases versions with
  | none => exact h
  | some versions =>
    intro s t hst
    obtain ⟨hresults, hstates⟩ := h (hst.withAttributes versions)
    have hrestored := hstates.withAttributes s.attributes
    exact ⟨hresults, by simpa only [LowerM.withAttributes, hst.attributes_eq] using hrestored⟩

theorem sequence {xs : List (LowerM α)} {ys : List (LowerM β)}
    (h : List.Forall₂ (Pairs p R) xs ys) :
    Pairs p (List.Forall₂ R) (LowerM.sequence xs) (LowerM.sequence ys) := by
  induction h with
  | nil => exact pure .nil
  | cons hfirst _ ih =>
    exact bind hfirst fun _ _ ha => bind ih fun _ _ has => pure (.cons ha has)

theorem optional {R : α → α → Prop} {o : Option (LowerM α)} (h : ∀ x ∈ o, x.Agrees p R) :
    (LowerM.optional o).Agrees p (Option.Rel R) := by
  cases o with
  | none => exact pure .none
  | some x => exact bind (h x rfl) fun _ _ ha => pure (.some ha)

/-- Steps in a row, the second result of each being the renamed first one. -/
theorem each {f : α → α} {xs : List (LowerM α)} (h : ∀ x ∈ xs, x.Agrees p (p.Same f)) :
    (LowerM.sequence xs).Agrees p (p.Same (List.map f)) :=
  (sequence (List.forall₂_same.mpr h)).mono fun _ _ => Comparison.same_map

theorem concat {f : α → α} {xs : List (LowerM (List α))}
    (h : ∀ x ∈ xs, x.Agrees p (p.Same (List.map f))) :
    (LowerM.concat xs).Agrees p (p.Same (List.map f)) :=
  bind (each h) fun _ _ has => pure fun hp => by rw [has hp, List.map_flatten]

/-- Where trees are not compared, two steps that give a value whatever happens agree. -/
theorem ofQuiet (hp : ¬p.ofTrees) {f : α → α} {x y : LowerM α} (hx : ∀ c s, ∃ a, x c s = (.ok a, s))
    (hy : ∀ c s, ∃ a, y c s = (.ok a, s)) : Pairs p (p.Same f) x y := by
  intro s t hst
  obtain ⟨a, ha⟩ := hx p.first s
  obtain ⟨b, hb⟩ := hy p.second t
  rw [ha, hb]
  exact ⟨.ok fun h => absurd h hp, hst⟩

end Pairs

section Names

theorem agrees_invent {stem : String} (h : p.Unmarked stem) : (invent stem).Agrees p p.Names := by
  rintro s _ ⟨hsame, haliases⟩
  refine ⟨.ok ⟨fun hp => ?_, h.invented _⟩, .mk (fun hp => ?_) haliases⟩
  · obtain ⟨-, -, rfl⟩ := hsame hp
    rfl
  · obtain ⟨rfl, rfl, rfl⟩ := hsame hp
    exact ⟨rfl, rfl, rfl⟩

theorem agrees_bindVariable (name : String) :
    (bindVariable name).Agrees p fun a b => p.Same id a b ∧ (p.Unmarked name → p.Unmarked a) := by
  rintro s _ ⟨hsame, haliases⟩
  refine ⟨.ok ⟨fun hp => ?_, fun h => (h.variableBase s).versioned _⟩, .mk (fun hp => ?_) haliases⟩
  · obtain ⟨rfl, rfl, rfl⟩ := hsame hp
    rfl
  · obtain ⟨rfl, rfl, rfl⟩ := hsame hp
    exact ⟨rfl, rfl, rfl⟩

theorem agrees_bindVariables (names : List String) :
    (bindVariables names).Agrees p (p.Same id) := by
  have hname : ∀ x ∈ names.map bindVariable, x.Agrees p (p.Same id) :=
    List.forall_mem_map.mpr fun name _ => (agrees_bindVariable name).mono fun _ _ h => h.1
  exact (Pairs.each hname).mono fun _ _ h hp => by simpa using h hp

theorem agrees_defineAttribute (name : String) : (defineAttribute name).Agrees p (p.Same id) := by
  rintro s _ ⟨hsame, haliases⟩
  have hkept : (defineAttribute name p.first s).2.aliases = s.aliases :=
    Comparison.States.aliases_map fun _ => rfl
  exact ⟨.ok fun _ => rfl, .mk hsame (hkept ▸ haliases)⟩

theorem agrees_addAlias {short : String} {full : List String}
    (h : ∀ segment ∈ full, p.Unmarked segment) :
    (addAlias short full).Agrees p fun _ _ => True := by
  rintro s _ ⟨hsame, haliases⟩
  refine ⟨.ok trivial, .mk hsame fun short' full' hfull => ?_⟩
  cases hcontext : s.context with
  | none => simp [addAlias, modifyContext, modify, State.aliases, hcontext, NameTable.get?] at hfull
  | some m =>
    have hset : (s.aliases.set short full).get? short' = some full' := by
      simpa [addAlias, modifyContext, modify, State.aliases, hcontext] using hfull
    rw [NameTable.get?_set] at hset
    split at hset
    · cases hset
      exact h
    · exact haliases short' full' hset

theorem agrees_attributes : attributes.Agrees p fun a b => b = a :=
  .state fun _ _ hst => .pure hst.attributes_eq

theorem agrees_resolve {name : String} (h : p.Unmarked name) : (resolve name).Agrees p p.Names :=
  .state fun s _ hst => .pure ⟨fun hp => hst.resolve_eq hp name, h.resolve s⟩

theorem agrees_resolveModule {segments : List String}
    (h : ∀ segment ∈ segments, p.Unmarked segment) :
    (resolveModule segments).Agrees p fun a b => b = a ∧ ∀ segment ∈ a, p.Unmarked segment :=
  .state fun _ _ hst => .pure ⟨hst.resolveModule_eq segments, hst.unmarked_resolveModule h⟩

theorem moduleMember_quiet (segments : List String) (function : String) (c : Config) (s : State) :
    ∃ e, moduleMember segments function c s = (.ok e, s) := by
  unfold moduleMember
  rw [bind_of_ok (rfl : resolveModule segments c s = (.ok (s.resolveModule segments), s)),
    bind_of_ok (rfl : config c s = (.ok c, s))]
  split
  · exact ⟨_, rfl⟩
  · rw [bind_of_ok (rfl : state c s = (.ok s, s))]
    split <;> exact ⟨_, rfl⟩

theorem agrees_moduleMember {segments : List String} {function : String}
    (h : ∀ segment ∈ segments, p.Unmarked segment) (hfunction : p.Unmarked function) :
    (moduleMember segments function).Agrees p p.Exprs := by
  -- a module may be served under one configuration alone; then the branches differ, but none fails
  by_cases hp : p.ofTrees
  · refine .bind (agrees_resolveModule h) fun module _ hmodule => ?_
    obtain ⟨rfl, hsegments⟩ := hmodule
    refine .config ?_
    rw [p.isRuntimeModule_eq hp]
    split
    · refine .library (.pure fun _ => ?_)
      simp [RuntimeLibrary.moduleFunction]
    · refine .state fun s t hst => ?_
      rw [hst.context_eq]
      split
      · exact .pure hfunction.escape.exprs
      · refine .pure fun _ => ?_
        rw [Expr.rename_property, ← (Comparison.unmarked_ofModule hsegments).exprs hp]
  · exact .ofQuiet hp (moduleMember_quiet _ _) (moduleMember_quiet _ _)

end Names

section Values

open Comparison

variable {x y : LowerM Expr} {xs : List (LowerM Expr)} {entries : List (LowerM Property)}
  {o : Option (LowerM Expr)}

theorem agrees_consList (hxs : ∀ x ∈ xs, x.Agrees p p.Exprs) (hx : x.Agrees p p.Exprs) :
    (consList xs x).Agrees p p.Exprs :=
  .bind (.each hxs) fun _ _ hhead => .bind hx fun _ _ htail => .pure fun hp => by
    simp [hhead hp, htail hp]

theorem agrees_tuple (hxs : ∀ x ∈ xs, x.Agrees p p.Exprs) : (tuple xs).Agrees p p.Exprs :=
  .bind (.each hxs) fun _ _ hitems => .library <| .pure fun hp => by
    simp [RuntimeLibrary.tuple, hitems hp]

theorem agrees_textPart {segment : Segment Node} (hx : x.Agrees p p.Exprs) :
    (textPart segment x).Agrees p p.Exprs := by
  unfold textPart
  split
  · exact .pure fun _ => by simp
  · exact .fail _
  · exact .bind hx fun _ _ hvalue => .library <| .pure fun hp => by
      simp [RuntimeLibrary.display, RuntimeLibrary.call, hvalue hp]

theorem agrees_binary {segments : List (Segment Node × LowerM Expr)}
    (h : ∀ g ∈ segments, g.2.Agrees p p.Exprs) : (LowerM.binary segments).Agrees p p.Exprs := by
  unfold LowerM.binary
  split
  · exact .pure fun _ => by simp
  · split
    · refine .bind (.each (List.forall_mem_map.mpr fun g hg => agrees_textPart (h g hg)))
        fun parts parts' hparts => .pure fun hp => ?_
      rw [hparts hp, ← Expr.rename_joined]
      cases Expr.joined .add parts <;> simp
    · exact .bind (.each (List.forall_mem_map.mpr h)) fun _ _ hvalues => .pure fun hp => by
        simp [hvalues hp]

theorem agrees_entry {key : Node} (hx : x.Agrees p p.Exprs) (hy : y.Agrees p p.Exprs) :
    (entry key x y).Agrees p p.Properties := by
  unfold entry
  split
  · exact .bind hy fun _ _ hvalue => .pure fun hp => by simp [hvalue hp]
  · exact .bind hx fun _ _ hkey => .bind hy fun _ _ hvalue => .pure fun hp => by
      simp [hkey hp, hvalue hp]

theorem agrees_object (h : ∀ e ∈ entries, e.Agrees p p.Properties) :
    (object entries).Agrees p p.Exprs :=
  .bind (.each h) fun _ _ hentries => .pure fun hp => by simp [hentries hp]

theorem agrees_mapUpdate (hx : x.Agrees p p.Exprs) (h : ∀ e ∈ entries, e.Agrees p p.Properties) :
    (mapUpdate x entries).Agrees p p.Exprs :=
  .bind hx fun _ _ hbase => .bind (agrees_object h) fun _ _ hupdates =>
    .library <| .pure fun hp => by
      simp [RuntimeLibrary.specialForm, RuntimeLibrary.call, hbase hp, hupdates hp]

theorem agrees_struct {module : Node} (hmodule : p.Clean module)
    (h : ∀ e ∈ entries, e.Agrees p p.Properties) (ho : ∀ x ∈ o, x.Agrees p p.Exprs) :
    (LowerM.struct module entries o).Agrees p p.Exprs := by
  have hname : p.Unmarked "__struct__" := unmarked_of_isPlain (by decide)
  unfold LowerM.struct
  split
  · exact agrees_mapUpdate (ho _ rfl) h
  · exact .bind (agrees_moduleMember hmodule.own hname) fun _ _ hconstructor =>
      .bind (agrees_object h) fun _ _ hfields => .pure fun hp => by
        simp [hconstructor hp, hfields hp]
  · exact .fail _

/-- Which operators there are does not depend on the library. -/
theorem indirectOperator_related (op : String) {left left' right right' : Expr}
    (hleft : p.Exprs left left') (hright : p.Exprs right right') :
    Option.Rel p.Exprs (indirectOperator? p.oldLibrary op left right)
      (indirectOperator? p.newLibrary op left' right') := by
  unfold indirectOperator?
  split
  case h_7 => exact .none
  all_goals refine .some fun hp => ?_
  all_goals simp [RuntimeLibrary.call, delayed, FunctionDef.anonymous, rename_asString hp, hleft hp,
    hright hp]

theorem agrees_binaryOperation (op : String) (hx : x.Agrees p p.Exprs) (hy : y.Agrees p p.Exprs) :
    (binaryOperation op x y).Agrees p p.Exprs := by
  refine .bind hx fun left left' hleft => .bind hy fun right right' hright => ?_
  split
  · exact .pure fun hp => by simp [hleft hp, hright hp]
  · have hoperator := indirectOperator_related op hleft hright
    refine .library ?_
    generalize indirectOperator? p.oldLibrary op left right = value at hoperator ⊢
    generalize indirectOperator? p.newLibrary op left' right' = value' at hoperator ⊢
    cases hoperator with
    | none => exact .fail _
    | some hvalue => exact .pure hvalue

theorem agrees_condition {node : Node} (hx : x.Agrees p p.Exprs) :
    (condition node x).Agrees p p.Exprs := by
  refine .bind hx fun value value' hvalue => ?_
  split
  · exact .pure hvalue
  · exact .library <| .pure fun hp => by
      simp [RuntimeLibrary.truthy, RuntimeLibrary.call, hvalue hp]

theorem agrees_negation {operand : Node} (hx : x.Agrees p p.Exprs) :
    (negation operand x).Agrees p p.Exprs := by
  unfold negation
  split
  · split <;> exact .pure fun _ => by simp
  · exact .pure fun _ => by simp
  · exact .bind hx fun _ _ hvalue => .pure fun hp => by simp [hvalue hp]

theorem agrees_unaryOperation {op : String} {operand : Node} (hx : x.Agrees p p.Exprs) :
    (unaryOperation op operand x).Agrees p p.Exprs := by
  unfold unaryOperation
  split
  · exact agrees_negation hx
  · exact hx
  · exact .bind hx fun _ _ hvalue => .pure fun hp => by simp [hvalue hp]
  · exact .bind (agrees_condition hx) fun _ _ hvalue => .pure fun hp => by simp [hvalue hp]
  · exact .fail _

theorem agrees_range (hx : x.Agrees p p.Exprs) (hy : y.Agrees p p.Exprs)
    (ho : ∀ x ∈ o, x.Agrees p p.Exprs) : (range x y o).Agrees p p.Exprs := by
  refine .bind hx fun _ _ hfirst => .bind hy fun _ _ hlast => ?_
  refine .bind (.optional ho) fun _ _ hstep => ?_
  refine .library (.pure fun hp => ?_)
  cases hstep with
  | none => simp [RuntimeLibrary.range, RuntimeLibrary.call, hfirst hp, hlast hp]
  | some hstep => simp [RuntimeLibrary.range, RuntimeLibrary.call, hfirst hp, hlast hp, hstep hp]

theorem agrees_call {f : LowerM Expr} (hf : f.Agrees p p.Exprs)
    (hxs : ∀ x ∈ xs, x.Agrees p p.Exprs) :
    (do
      let callee ← f
      let args ← LowerM.sequence xs
      return Expr.call callee args).Agrees p p.Exprs :=
  .bind hf fun _ _ hcallee => .bind (.each hxs) fun _ _ hargs => .pure fun hp => by
    simp [hcallee hp, hargs hp]

theorem agrees_namedCall {name : String} {info : CallMeta} (hname : p.Unmarked name)
    (hinfo : ∀ text ∈ info.texts, p.Unmarked text) (hxs : ∀ x ∈ xs, x.Agrees p p.Exprs) :
    (namedCall name info xs).Agrees p p.Exprs := by
  unfold namedCall CallMeta.texts at *
  cases hresolution : info.resolution with
  | qualified module =>
    rw [hresolution] at hinfo
    exact agrees_call (agrees_moduleMember hinfo hname) hxs
  | unqualified | imported => exact agrees_call (.pure hname.escape.exprs) hxs

theorem agrees_atomModuleFunction (module name : String) :
    (do return (← library).atomModuleFunction module name : LowerM Expr).Agrees p p.Exprs :=
  .library <| .pure fun _ => by simp [RuntimeLibrary.atomModuleFunction]

theorem agrees_remoteFunction {target : Node} {name : String} (htarget : p.Clean target)
    (hname : p.Unmarked name) (hx : x.Agrees p p.Exprs) :
    (remoteFunction target x name).Agrees p p.Exprs := by
  unfold remoteFunction
  split
  · exact agrees_moduleMember htarget.own hname
  · exact agrees_atomModuleFunction _ _
  · exact .bind hx fun _ _ hvalue => .pure fun hp => by simp [hvalue hp]

theorem agrees_dotted {target : Node} {name : String} {args : Option (List (LowerM Expr))}
    {info : DotMeta} (htarget : p.Clean target) (hname : p.Unmarked name) (hx : x.Agrees p p.Exprs)
    (hargs : ∀ xs ∈ args, ∀ x ∈ xs, x.Agrees p p.Exprs) :
    (dotted target x name args info).Agrees p p.Exprs := by
  have hcallee := agrees_remoteFunction htarget hname hx
  unfold dotted
  split
  · exact agrees_call hcallee (hargs _ rfl)
  · split
    · exact agrees_call hcallee (by simp)
    · exact .bind hx fun _ _ hvalue => .pure fun hp => by simp [hvalue hp, rename_atomValue hp]

theorem agrees_captured {owner : Option Node} {name : String} (howner : ∀ n ∈ owner, p.Clean n)
    (hname : p.Unmarked name) : (captured owner name).Agrees p p.Exprs := by
  unfold captured
  split
  · exact .pure hname.escape.exprs
  · exact agrees_moduleMember (howner _ rfl).own hname
  · exact agrees_atomModuleFunction _ _
  · exact .fail _

theorem agrees_raised {exception : Node} (hexception : p.Clean exception) (hx : x.Agrees p p.Exprs)
    (ho : ∀ x ∈ o, x.Agrees p p.Exprs) : (raised exception x o).Agrees p p.Exprs := by
  have hname : p.Unmarked "exception" := unmarked_of_isPlain (by decide)
  unfold raised
  split
  · refine .bind (agrees_moduleMember hexception.own hname) fun _ _ hconstructor => ?_
    refine .bind (.optional ho) fun _ _ hattributes => .pure fun hp => ?_
    cases hattributes with
    | none => simp [hconstructor hp]
    | some hattributes => simp [hconstructor hp, hattributes hp]
  · refine .bind hx fun value value' hvalue => ?_
    split <;> exact .library <| .pure fun hp => by
      simp [RuntimeLibrary.error, RuntimeLibrary.call, hvalue hp]
  · exact .fail _

theorem agrees_attributeValue {name : String} (hname : p.Unmarked name) :
    (attributeValue name).Agrees p p.Exprs := by
  refine .state fun s t hst => ?_
  rw [hst.context_eq]
  split
  · exact .fail _
  · split
    · exact .pure (hname.ofAttribute _).exprs
    · exact .pure fun _ => by simp

end Values

end LowerM

end TreeLowering
