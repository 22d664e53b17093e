import TreeLowering.Proofs.Allocation
import TreeLowering.Proofs.EmissionProgram

/-!
No name is declared twice.

Within the statements of a program, within those of a module and within each function that a module
defines, a target name is declared at most once, whatever the depth of blocks and closures. Only the
`$arg` parameters come again, in other functions. Defaults of a struct are apart: each of them is
lowered on its own, and all of them stand in the constructor.
-/
namespace TreeLowering.Scoping

open Source Target Identifier

mutual

/-- The reads and declarations at every depth. -/
@[simp]
def leaves : List Mark → List Mark
  | [] => []
  | m :: ms => markLeaves m ++ leaves ms

@[simp]
def markLeaves : Mark → List Mark
  | .scope inner => leaves inner
  | m => [m]

end

mutual

/-- The scopes at every depth. -/
@[simp]
def innerScopes : List Mark → List (List Mark)
  | [] => []
  | m :: ms => markScopes m ++ innerScopes ms

@[simp]
def markScopes : Mark → List (List Mark)
  | .scope inner => inner :: innerScopes inner
  | _ => []

end

@[simp]
def Mark.constants : Mark → List String
  | .declare t => [t]
  | .read _ => []
  | .param _ => []
  | .scope _ => []

@[simp]
def Mark.params : Mark → List String
  | .param t => [t]
  | .read _ => []
  | .declare _ => []
  | .scope _ => []

/-- Constants and loop variables at every depth. -/
def constantNames (ms : List Mark) : List String := (leaves ms).flatMap Mark.constants

/-- Constants, loop variables and parameters at every depth. -/
def declaredNames (ms : List Mark) : List String :=
  (leaves ms).flatMap fun m => m.constants ++ m.params

/-- The parameters of the function whose scope this is. -/
def ownParams (ms : List Mark) : List String := ms.flatMap Mark.params

/-- A name that is declared twice is a parameter of functions that try their clauses. -/
structure DeclaredOnce (ms : List Mark) : Prop where
  once : (declaredNames ms).Pairwise fun t u => t = u → IsArgument t
  constants : ∀ t ∈ constantNames ms, ¬ IsArgument t

/-- The parameters of each function are different. -/
def DistinctParams (ms : List Mark) : Prop := ∀ inner ∈ innerScopes ms, (ownParams inner).Nodup

section Lists

variable (ms ms' : List Mark)

@[simp]
theorem leaves_append : leaves (ms ++ ms') = leaves ms ++ leaves ms' := by
  induction ms with
  | nil => rfl
  | cons m ms ih => simp [ih]

@[simp]
theorem innerScopes_append : innerScopes (ms ++ ms') = innerScopes ms ++ innerScopes ms' := by
  induction ms with
  | nil => rfl
  | cons m ms ih => simp [ih]

theorem leaves_eq : leaves ms = ms.flatMap markLeaves := by
  induction ms with
  | nil => rfl
  | cons m ms ih => simp [ih]

theorem innerScopes_eq : innerScopes ms = ms.flatMap markScopes := by
  induction ms with
  | nil => rfl
  | cons m ms ih => simp [ih]

@[simp]
theorem declaredNames_append :
    declaredNames (ms ++ ms') = declaredNames ms ++ declaredNames ms' := by
  simp [declaredNames]

@[simp]
theorem constantNames_append :
    constantNames (ms ++ ms') = constantNames ms ++ constantNames ms' := by
  simp [constantNames]

@[simp]
theorem ownParams_append : ownParams (ms ++ ms') = ownParams ms ++ ownParams ms' := by
  simp [ownParams]

@[simp]
theorem declaredNames_scope : declaredNames [.scope ms] = declaredNames ms := by
  simp [declaredNames]

@[simp]
theorem constantNames_scope : constantNames [.scope ms] = constantNames ms := by
  simp [constantNames]

@[simp]
theorem innerScopes_scope : innerScopes [.scope ms] = ms :: innerScopes ms := by
  simp

/-- Parameters alone: they are declared, and nothing else is. -/
theorem params_only (ts : List String) :
    declaredNames (ts.map .param) = ts ∧ constantNames (ts.map .param) = [] ∧
      ownParams (ts.map .param) = ts ∧ innerScopes (ts.map .param) = [] := by
  induction ts with
  | nil => exact ⟨rfl, rfl, rfl, rfl⟩
  | cons t ts ih => simp_all [declaredNames, constantNames, ownParams]

theorem ownParams_sublist : (ownParams ms).Sublist (declaredNames ms) := by
  induction ms with
  | nil => exact .slnil
  | cons m ms ih =>
    cases m with
    | read => simpa [ownParams, declaredNames] using ih
    | declare => simpa [ownParams, declaredNames] using ih.cons _
    | param => simpa [ownParams, declaredNames] using ih
    | scope inner => simpa [ownParams, declaredNames] using ih.trans (List.sublist_append_right _ _)

end Lists

/-- The name is given out between `n` and `m`. -/
def Given (V A : String → Prop) (n m : Names) (t : String) : Prop :=
  Numbered V n m t ∨ Versioned A n m t

section Given

variable {V A : String → Prop} {n m k n' m' : Names} {t : String}

theorem Given.mono (h : Given V A n m t) (hn : n'.Le n) (hm : m.Le m') : Given V A n' m' t :=
  h.imp (·.mono hn hm) (·.mono hn hm)

theorem Given.not_isArgument (hV : ∀ x, V x → IsSourceName x) (h : Given V A n m t) :
    ¬ IsArgument t :=
  h.elim (·.not_isArgument hV) (·.not_isArgument)

theorem Given.not_later (hV : ∀ x, V x → IsSourceName x) (hA : ∀ a, A a → IsSourceName a)
    (h : Given V A n m t) (hn : n.Le m) : ¬ Given V A m k t := by
  rintro (h' | h')
  · rcases h with h | h
    · exact h.not_later hV hn h'
    · exact h'.not_versioned hV h
  · rcases h with h | h
    · exact h.not_versioned hV h'
    · exact h.not_later hA h'

end Given

/-- What is declared between `n` and `m` is given out there, and is declared once. -/
structure Allocates (V A : String → Prop) (n m : Names) (as : List Mark) : Prop where
  le : n.Le m
  declared : ∀ t ∈ declaredNames as, IsArgument t ∨ Given V A n m t
  constants : ∀ t ∈ constantNames as, Given V A n m t
  params : ∀ t ∈ ownParams as, Given V A n m t
  once : (declaredNames as).Pairwise fun t u => t = u → IsArgument t
  distinct : DistinctParams as

namespace Allocates

variable {V A : String → Prop} {n m k : Names} {as bs : List Mark}

theorem nil (le : n.Le m) : Allocates V A n m [] :=
  ⟨le, by simp [declaredNames], by simp [constantNames], by simp [ownParams],
    by simp [declaredNames], by simp [DistinctParams]⟩

theorem reads (h : ∀ mark ∈ as, ∃ t, mark = .read t) : Allocates V A n n as := by
  have hnone : declaredNames as = [] ∧ constantNames as = [] ∧ ownParams as = [] ∧
      innerScopes as = [] := by
    induction as with
    | nil => exact ⟨rfl, rfl, rfl, rfl⟩
    | cons mark as ih =>
      obtain ⟨t, rfl⟩ := h mark (by simp)
      simpa [declaredNames, constantNames, ownParams] using ih fun m hm => h m (by simp [hm])
  obtain ⟨hdeclared, hconstants, hparams, hscopes⟩ := hnone
  exact ⟨.refl n, by simp [hdeclared], by simp [hconstants], by simp [hparams], by simp [hdeclared],
    by simp [DistinctParams, hscopes]⟩

theorem read (n : Names) (t : String) : Allocates V A n n [.read t] := .reads (by simp)

theorem declare {t : String} (le : n.Le m) (h : Given V A n m t) :
    Allocates V A n m [.declare t] :=
  ⟨le, by simpa [declaredNames] using .inr h, by simpa [constantNames] using h, by simp [ownParams],
    by simp [declaredNames], by simp [DistinctParams]⟩

theorem param {t : String} (le : n.Le m) (h : Given V A n m t) : Allocates V A n m [.param t] :=
  ⟨le, by simpa [declaredNames] using .inr h, by simp [constantNames], by simpa [ownParams] using h,
    by simp [declaredNames], by simp [DistinctParams]⟩

theorem append (hV : ∀ x, V x → IsSourceName x) (hA : ∀ a, A a → IsSourceName a)
    (h : Allocates V A n m as) (h' : Allocates V A m k bs) : Allocates V A n k (as ++ bs) := by
  have early : ∀ {t}, Given V A n m t → Given V A n k t := (·.mono (.refl n) h'.le)
  have late : ∀ {t}, Given V A m k t → Given V A n k t := (·.mono h.le (.refl k))
  refine ⟨h.le.trans h'.le, ?_, ?_, ?_, ?_, ?_⟩
  · simp only [declaredNames_append, List.forall_mem_append]
    exact ⟨fun t ht => (h.declared t ht).imp_right early, fun t ht => (h'.declared t ht).imp_right late⟩
  · simp only [constantNames_append, List.forall_mem_append]
    exact ⟨fun t ht => early (h.constants t ht), fun t ht => late (h'.constants t ht)⟩
  · simp only [ownParams_append, List.forall_mem_append]
    exact ⟨fun t ht => early (h.params t ht), fun t ht => late (h'.params t ht)⟩
  · rw [declaredNames_append]
    refine List.pairwise_append.mpr ⟨h.once, h'.once, ?_⟩
    rintro t ht _ hu rfl
    rcases h.declared t ht with harg | hgiven
    · exact harg
    · exact (h'.declared t hu).resolve_right (hgiven.not_later hV hA h.le)
  · simp only [DistinctParams, innerScopes_append, List.forall_mem_append]
    exact ⟨h.distinct, h'.distinct⟩

/-- The order of the marks does not matter. -/
theorem perm (h : Allocates V A n m as) (hperm : as.Perm bs) : Allocates V A n m bs := by
  have hleaves : (leaves as).Perm (leaves bs) := by
    rw [leaves_eq, leaves_eq]
    exact hperm.flatMap_right _
  have hdeclared : (declaredNames as).Perm (declaredNames bs) := hleaves.flatMap_right _
  have hconstants : (constantNames as).Perm (constantNames bs) := hleaves.flatMap_right _
  have hparams : (ownParams as).Perm (ownParams bs) := hperm.flatMap_right _
  have hscopes : (innerScopes as).Perm (innerScopes bs) := by
    rw [innerScopes_eq, innerScopes_eq]
    exact hperm.flatMap_right _
  refine ⟨h.le, fun t ht => h.declared t (hdeclared.mem_iff.mpr ht),
    fun t ht => h.constants t (hconstants.mem_iff.mpr ht),
    fun t ht => h.params t (hparams.mem_iff.mpr ht), ?_,
    fun inner hinner => h.distinct inner (hscopes.mem_iff.mpr hinner)⟩
  exact (hdeclared.pairwise_iff fun {t u} h heq => heq ▸ h heq.symm).mp h.once

theorem leave (h : Allocates V A n m as) (k : Names) : Allocates V A n (k.leave m) as := by
  have hlast : ∀ {t}, Given V A n m t → Given V A n (k.leave m) t :=
    (·.mono (.refl n) ((Names.Le.refl m).leave k))
  exact ⟨h.le.leave k, fun t ht => (h.declared t ht).imp_right hlast,
    fun t ht => hlast (h.constants t ht), fun t ht => hlast (h.params t ht), h.once, h.distinct⟩

/-- The scope of a function; one that is no function has no parameters. -/
theorem function (hV : ∀ x, V x → IsSourceName x) (h : Allocates V A n m as) (count : Nat) :
    Allocates V A n m [.scope (((List.range count).map paramName).map .param ++ as)] := by
  have hown : (ownParams as).Nodup := by
    refine List.Pairwise.imp_of_mem (fun {t u} ht _ honce heq => ?_)
      (h.once.sublist (ownParams_sublist as))
    exact (h.params t ht).not_isArgument hV (honce heq)
  obtain ⟨hdeclared, hconstants, hparams, hscopes⟩ := params_only ((List.range count).map paramName)
  refine ⟨h.le, ?_, ?_, by simp [ownParams], ?_, ?_⟩
  · rw [declaredNames_scope, declaredNames_append, hdeclared]
    exact List.forall_mem_append.mpr ⟨fun t ht => .inl (isArgument_of_mem ht), h.declared⟩
  · rw [constantNames_scope, constantNames_append, hconstants]
    exact h.constants
  · rw [declaredNames_scope, declaredNames_append, hdeclared]
    refine List.pairwise_append.mpr ⟨?_, h.once, fun t ht _ _ _ => isArgument_of_mem ht⟩
    exact (nodup_paramNames count).imp fun hne heq => (hne heq).elim
  · rw [DistinctParams, innerScopes_scope]
    refine List.forall_mem_cons.mpr ⟨?_, ?_⟩
    · rw [ownParams_append, hparams]
      refine List.nodup_append.mpr ⟨nodup_paramNames count, hown, fun t ht u hu heq => ?_⟩
      exact (h.params u hu).not_isArgument hV (heq ▸ isArgument_of_mem ht)
    · rw [innerScopes_append, hscopes]
      exact h.distinct

theorem scope (hV : ∀ x, V x → IsSourceName x) (h : Allocates V A n m as) :
    Allocates V A n m [.scope as] :=
  h.function hV 0

end Allocates

section Emits

variable {V A : String → Prop} {n m : Names} {as : List Mark}

theorem given_nextAttribute {a : String} (ha : A a) :
    Given V A n (n.define a) (n.nextAttribute a) := by
  refine .inr (.intro ha (Nat.le_refl _) ?_)
  simp [Names.define, NameTable.next_set]

variable (hV : ∀ x, V x → IsSourceName x) (hA : ∀ a, A a → IsSourceName a)
include hV hA

theorem Binds.allocates {allowed : String → Prop} {xs : List String} (named : ∀ x ∈ xs, V x)
    (h : Binds allowed n xs as m) : Allocates V A n m as := by
  induction h with
  | done => exact .nil (.refl _)
  | read _ _ ih => exact .append hV hA (.read _ _) (ih named)
  | bind _ ih =>
    exact .append hV hA (.declare (.bind _ _) (.inl (numbered_next (named _ (by simp)))))
      (ih fun x hx => named x (by simp [hx]))

theorem Emits.allocates {c : Config} {kept : List (List String)} {es : List Event}
    (h : Emits c V A kept n es as m) : Allocates V A n m as := by
  induction h with
  | nil | unset | omitted => exact .nil (.refl _)
  | global | read | function | remote | version | use => exact .read _ _
  | append _ _ ih₁ ih₂ => exact ih₁.append hV hA ih₂
  | swap _ _ _ _ ih₁ ih₂ => exact (ih₁.append hV hA ih₂).perm List.perm_append_comm
  | define named => exact .declare (.define _ _) (given_nextAttribute named)
  | bind named => exact .declare (.bind _ _) (.inl (numbered_next named))
  | param named => exact .param (.bind _ _) (.inl (numbered_next named))
  | matching named binds => exact binds.allocates hV hA named
  | hold _ _ known _ ih₁ ih₂ =>
    exact ih₁.append hV hA (.append hV hA
      (.declare (.invent _) (.inl (numbered_invented (List.mem_append_left ["acc", "gen"] known)))) ih₂)
  | held _ _ ih₁ ih₂ => exact .append hV hA (.nil ih₁.le) ih₂
  | scope _ ih => exact (ih.scope hV).leave _
  | params _ ih => exact (ih.function hV _).leave _
  | loop _ _ _ ih₁ ih₂ =>
    exact (ih₁.append hV hA (.scope hV (.append hV hA
      (.declare (.invent _) (.inl (numbered_invented (by simp)))) ih₂))).leave _
  | @collect kept n m k es loops as bs fixed _ _ _ _ library ih₁ ih₂ =>
    have hfixed : Allocates V A k k (fixed ++ [.read (invented "acc" m.invented)]) :=
      .reads fun mark hmark => by
        rcases List.mem_append.mp hmark with hmark | hmark
        · exact ⟨_, library mark hmark⟩
        · exact ⟨_, List.mem_singleton.mp hmark⟩
    have hacc : Given V A m m.invent (invented "acc" m.invented) :=
      .inl (numbered_invented (by simp))
    have hloops := (Allocates.declare (.invent m) hacc).append hV hA (ih₂.append hV hA hfixed)
    refine (Allocates.scope hV ((ih₁.append hV hA hloops).perm
      (List.perm_append_comm.trans (.of_eq ?_)))).leave _
    simp
  | taken _ ih => exact ih

end Emits

/-- The constructor of a struct, which takes the values that are given. -/
def IsConstructor (f : FunctionDef) : Prop := f.name = "__struct__" ∧ f.params = ["$values"]

section Functions

theorem innerScopes_of_readsOnly {allowed : String → Prop} {as : List Mark}
    (h : ReadsOnly allowed as) : innerScopes as = [] := by
  induction as with
  | nil => rfl
  | cons mark as ih =>
    obtain ⟨t, -, rfl⟩ := h mark (by simp)
    simpa using ih fun m hm => h m (by simp [hm])

theorem ownParams_of_flat {as : List Mark} (h : Flat as) : ownParams as = [] := by
  induction as with
  | nil => rfl
  | cons mark as ih =>
    rw [ownParams, List.flatMap_cons]
    have hrest : as.flatMap Mark.params = [] := ih fun m hm => h m (by simp [hm])
    rcases h mark (by simp) with ⟨t, rfl⟩ | ⟨inner, rfl⟩ <;> simp [hrest]

/-- The constructor of a struct takes the values that are given, and reads the defaults. -/
theorem functionMarks_constructor (lib : RuntimeLibrary) (module : List String)
    (defaults : List Property) :
    functionMarks ⟨"__struct__", ["$values"], [.return_ (lib.specialForm "struct"
      [moduleValue module, .object defaults, .ident "$values"])]⟩ =
      [.scope ([.param "$values", .read lib.name, .read "Symbol"] ++
        (propertiesMarks defaults ++ [.read "$values"]))] := by
  simp [RuntimeLibrary.specialForm, moduleValue]

/-- The functions in the defaults of a struct are the functions in its constructor. -/
theorem distinctParams_constructor {lib : RuntimeLibrary} {module : List String}
    {defaults : List Property}
    (h : ∀ p ∈ defaults, ∃ key, p.key = .computed (atomValue key) ∧
      DistinctParams (exprMarks p.value)) :
    DistinctParams (functionMarks ⟨"__struct__", ["$values"], [.return_ (lib.specialForm "struct"
      [moduleValue module, .object defaults, .ident "$values"])]⟩) := by
  have hdefaults : DistinctParams (propertiesMarks defaults) := by
    induction defaults with
    | nil => simp [DistinctParams]
    | cons p defaults ih =>
      obtain ⟨⟨key, hkey, hvalue⟩, hrest⟩ := List.forall_mem_cons.mp h
      obtain ⟨_, value⟩ := p
      cases hkey
      have hreads : ReadsOnly (fun _ => True) (exprMarks (atomValue key)) :=
        readsOnly_atomValue trivial key
      simp only [propertiesMarks, keyMarks, DistinctParams, innerScopes_append,
        innerScopes_of_readsOnly hreads,
        List.nil_append, List.forall_mem_append]
      exact ⟨hvalue, ih hrest⟩
  have hown := ownParams_of_flat (flat_propertiesMarks defaults)
  rw [functionMarks_constructor, DistinctParams, innerScopes_scope]
  refine List.forall_mem_cons.mpr ⟨?_, ?_⟩
  · rw [ownParams_append, ownParams_append, hown]
    simp [ownParams]
  · simpa [DistinctParams] using hdefaults

/-- The functions of a module, given that what it defines has the two properties. -/
theorem FunctionFollows.declared {body : List Node} {f : FunctionDef}
    (h : FunctionFollows (fun _ ms => DeclaredOnce ms ∧ DistinctParams ms) body f) :
    (¬ IsConstructor f → DeclaredOnce (functionMarks f)) ∧ DistinctParams (functionMarks f) := by
  cases h with
  | defined _ _ own => exact ⟨fun _ => own.1, own.2⟩
  | constructor item given =>
    refine ⟨fun hconstructor => (hconstructor ⟨rfl, rfl⟩).elim, distinctParams_constructor ?_⟩
    intro p hp
    obtain ⟨key, hkey, hempty | ⟨value, -, -, hdistinct⟩⟩ := given p hp
    · exact ⟨key, hkey, by simp [hempty, DistinctParams]⟩
    · exact ⟨key, hkey, hdistinct⟩
  | exception =>
    refine ⟨fun _ => ⟨?_, ?_⟩, ?_⟩
    · simp [declaredNames]
    · simp [constantNames]
    · simp [DistinctParams, ownParams]

end Functions

/-- No name is declared twice in the statements of a program, in those of a module, or in a function
that a module defines; the parameters of every function are different. -/
theorem declared_once {config : Config} {nodes : List Node} {program : Program}
    (named : ∀ n ∈ nodes, n.Named IsSourceName IsSourceName)
    (h : lowerProgram config nodes = .ok program) :
    (DeclaredOnce (stmtsMarks program.body) ∧
      ∀ m ∈ stmtsModules program.body, DeclaredOnce (stmtsMarks m.body) ∧
        ∀ f ∈ m.functions, ¬ IsConstructor f.function →
          DeclaredOnce (functionMarks f.function)) ∧
    DistinctParams (stmtsMarks program.body) ∧
      ∀ m ∈ stmtsModules program.body, DistinctParams (stmtsMarks m.body) ∧
        ∀ f ∈ m.functions, DistinctParams (functionMarks f.function) := by
  have hcovers : Covers config IsSourceName IsSourceName
      (fun _ ms => DeclaredOnce ms ∧ DistinctParams ms) := by
    intro n m es ms _ hemits
    have hallocates := hemits.allocates (fun _ => id) (fun _ => id)
    exact ⟨⟨hallocates.once, fun t ht => (hallocates.constants t ht).not_isArgument fun _ => id⟩,
      hallocates.distinct⟩
  obtain ⟨plain, -, ⟨honce, hdistinct⟩, hmodules⟩ := lowerProgram_follows hcovers named h
  have hparts : ∀ m ∈ stmtsModules program.body,
      (DeclaredOnce (stmtsMarks m.body) ∧ DistinctParams (stmtsMarks m.body)) ∧
        ∀ f ∈ m.functions, (¬ IsConstructor f.function → DeclaredOnce (functionMarks f.function)) ∧
          DistinctParams (functionMarks f.function) := by
    intro m hm
    obtain ⟨body, ⟨own, -, functions⟩⟩ := hmodules.within m hm
    exact ⟨own, fun f hf => (functions f hf).declared⟩
  exact ⟨⟨honce, fun m hm => ⟨(hparts m hm).1.1, fun f hf => ((hparts m hm).2 f hf).1⟩⟩, hdistinct,
    fun m hm => ⟨(hparts m hm).1.2, fun f hf => ((hparts m hm).2 f hf).2⟩⟩

/-- Forms that bind the names `x` and `y` again and again. -/
def counterForms : List Node :=
  [.module ["Counter"]
    [.attributeSet "start" (.integer 1),
      .define .exported (.call "next" [.var "x", .cons [.var "y"] (.var "rest")] {})
        [.bind (.var "x") (.binaryOp "+" (.var "x") (.var "y")),
          .bind (.tuple [.var "x", .var "y"]) (.call "pair" [.var "x"] {}),
          .apply (.fn [⟨[.var "x"], [.bind (.var "y") (.var "x"), .var "y"]⟩]) [.var "x"]]],
    .bind (.var "x") (.integer 1),
    .bind (.var "x") (.fn [⟨[.tuple [.var "x"]], [.var "x"]⟩])]

theorem counterForms_named : ∀ n ∈ counterForms, n.Named IsSourceName IsSourceName := by
  simp only [counterForms, List.forall_mem_cons, Node.Named, Node.names_eq, Node.children,
    Node.definitionChildren, Node.clauseChildren, Node.headChildren, Node.ownNames,
    Node.Naming.Satisfies, List.flatMap_cons, List.flatMap_nil, List.cons_append, List.nil_append,
    List.append_nil, List.not_mem_nil, false_implies, implies_true, and_true]
  decide

theorem declared_once_counterForms :
    ∃ program, lowerProgram {} counterForms = .ok program ∧
      DeclaredOnce (stmtsMarks program.body) ∧
      ∀ m ∈ stmtsModules program.body, ∀ f ∈ m.functions,
        (¬ IsConstructor f.function → DeclaredOnce (functionMarks f.function)) ∧
          DistinctParams (functionMarks f.function) := by
  have haccepted : (lowerProgram {} counterForms).isOk = true := by decide +kernel
  obtain ⟨program, h⟩ := exists_ok_of_isOk haccepted
  obtain ⟨⟨htop, honce⟩, -, hdistinct⟩ := declared_once counterForms_named h
  exact ⟨program, h, htop, fun m hm f hf => ⟨(honce m hm).2 f hf, (hdistinct m hm).2 f hf⟩⟩

end TreeLowering.Scoping
