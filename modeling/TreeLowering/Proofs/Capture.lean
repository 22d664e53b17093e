import TreeLowering.Proofs.Declarations
import TreeLowering.Proofs.NamingScheme
import TreeLowering.Proofs.Separation

/-!
Variables never capture functions.

A call without a module name reads the target name of the function, and the functions of a module
stand outside of everything that its parts declare. What a part declares is the name of a variable,
an invented name or that of an attribute. The last two start with a `$`; a variable that has the
name of a function is marked for it, and the mark is what tells the two names apart. So no
declaration in a module, however deep, has the name of a function that can be called there.
-/
namespace TreeLowering.Scoping

open Source Target Lowering Identifier

/-- The functions that an item lets the module call without a module name. -/
def functionNames : Node → List String
  | .define _ head _ =>
    match definitionHead head with
    | .ok (name, _, _) => [name]
    | .error _ => []
  | .importOnly _ only => only.map (·.1)
  | .defStruct _ => ["__struct__"]
  | .defException _ => ["__struct__", "exception"]
  | _ => []

def callableNames (body : List Node) : List String := body.flatMap functionNames

/-- The target names of the functions that can be called without a module name. -/
def callableTargets (body : List Node) : List String := (callableNames body).map escape

theorem declaredFunctions_eq (n : Node) : declaredFunctions n = (functionNames n).map escape := by
  cases n with
  | define visibility head body =>
    simp only [declaredFunctions, functionNames]
    cases definitionHead head <;> rfl
  | importOnly module only => simp [declaredFunctions, functionNames]
  | defStruct fields => rfl
  | defException fields => rfl
  | _ => rfl

theorem callableTargets_eq (body : List Node) :
    callableTargets body = body.flatMap declaredFunctions := by
  have hitems : declaredFunctions = fun n => (functionNames n).map escape :=
    funext declaredFunctions_eq
  rw [callableTargets, callableNames, List.map_flatMap, hitems]

/-! The kinds of names that are declared. -/

/-- A version of a source variable. -/
def IsVariable (functions : List String) (t : String) : Prop :=
  ∃ x version, IsSourceName x ∧ t = ofVariable functions x version

def IsSynthetic (t : String) : Prop :=
  (∃ stem ∈ stems, ∃ i, t = invented stem i) ∨ t = "$values" ∨ t = "$attrs"

def IsAttribute (t : String) : Prop := ∃ a version, t = versioned (ofAttribute a) version

/-- A name that parts of a module with these functions may declare. -/
def IsLocal (functions : List String) (t : String) : Prop :=
  IsVariable functions t ∨ IsSynthetic t ∨ IsAttribute t

section Kinds

variable {functions : List String} {t : String}

theorem IsSynthetic.head? (h : IsSynthetic t) : t.toList.head? = some '$' := by
  rcases h with ⟨stem, -, i, rfl⟩ | rfl | rfl
  · rw [toList_invented]
    rfl
  · rfl
  · rfl

theorem IsAttribute.head? (h : IsAttribute t) : t.toList.head? = some '$' := by
  obtain ⟨a, version, rfl⟩ := h
  rw [toList_ofAttribute]
  rfl

theorem head?_escape {f : String} (hf : IsSourceName f) : (escape f).toList.head? ≠ some '$' := by
  have hplain : ofVariable [] f 0 = escape f := by simp [ofVariable, versioned]
  exact hplain ▸ head?_ofVariable [] hf 0

/-- The mark of a variable beside a function keeps the two names apart. -/
theorem ofVariable_ne_escape {x f : String} {version : Nat} (hx : IsSourceName x)
    (hf : IsSourceName f) (hmem : escape f ∈ functions) :
    ofVariable functions x version ≠ escape f := by
  intro h
  have hlist := congrArg String.toList h
  rw [toList_ofVariable, toList_escape] at hlist
  obtain ⟨hname, hmarks⟩ := eq_and_eq_of_spelled hx.2.1 hf.2.1 (endsName_marks functions x version)
    (endsName_reservedMark f) hlist
  obtain rfl := String.toList_inj.mp hname
  have hmark : functionMark functions x = ['$', 'v'] := if_pos (List.contains_iff_mem.mpr hmem)
  rw [hmark, List.append_assoc] at hmarks
  have hnone := List.append_right_eq_self.mp hmarks
  cases hnone

variable {names : List String} (hnames : ∀ f ∈ names, IsSourceName f)
include hnames

theorem IsVariable.not_callable (h : IsVariable (names.map escape) t) : t ∉ names.map escape := by
  obtain ⟨x, version, hx, rfl⟩ := h
  intro hmem
  obtain ⟨f, hf, heq⟩ := List.mem_map.mp hmem
  exact ofVariable_ne_escape hx (hnames f hf) (List.mem_map_of_mem hf) heq.symm

theorem not_callable_of_head? (h : t.toList.head? = some '$') : t ∉ names.map escape := by
  intro hmem
  obtain ⟨f, hf, rfl⟩ := List.mem_map.mp hmem
  exact head?_escape (hnames f hf) h

theorem IsLocal.not_callable (h : IsLocal (names.map escape) t) : t ∉ names.map escape := by
  rcases h with h | h | h
  · exact h.not_callable hnames
  · exact not_callable_of_head? hnames h.head?
  · exact not_callable_of_head? hnames h.head?

end Kinds

theorem IsVariable.apart {functions : List String} {t : String} (h : IsVariable functions t) :
    ¬ IsSynthetic t ∧ ¬ IsAttribute t := by
  obtain ⟨x, version, hx, rfl⟩ := h
  have hhead := head?_ofVariable functions hx version
  exact ⟨fun hsynthetic => hhead hsynthetic.head?, fun hattribute => hhead hattribute.head?⟩

section Emits

variable {A : String → Prop} {n m : Names} {as : List Mark}

theorem declaredNames_read (t : String) (ms : List Mark) :
    declaredNames (.read t :: ms) = declaredNames ms := by
  simp [declaredNames]

theorem declaredNames_declare (t : String) (ms : List Mark) :
    declaredNames (.declare t :: ms) = t :: declaredNames ms := by
  simp [declaredNames]

theorem declaredNames_of_reads {ms : List Mark} (h : ∀ mark ∈ ms, ∃ t, mark = .read t) :
    declaredNames ms = [] := by
  induction ms with
  | nil => rfl
  | cons mark ms ih =>
    obtain ⟨t, rfl⟩ := h mark List.mem_cons_self
    rw [declaredNames_read, ih fun m hm => h m (List.mem_cons_of_mem _ hm)]

theorem isSynthetic_invented {stem : String} (i : Nat) (h : stem ∈ ["m", "case", "acc", "gen"]) :
    IsSynthetic (invented stem i) :=
  .inl ⟨stem, mem_stems h, i, rfl⟩

theorem isLocal_next (n : Names) {x : String} (hx : IsSourceName x) :
    IsLocal n.functions (n.next x) :=
  .inl ⟨x, _, hx, rfl⟩

theorem Binds.declares {allowed : String → Prop} {xs : List String}
    (named : ∀ x ∈ xs, IsSourceName x) (h : Binds allowed n xs as m) :
    ∀ t ∈ declaredNames as, IsLocal n.functions t := by
  induction h with
  | done => simp [declaredNames]
  | read _ _ ih =>
    rw [declaredNames_read]
    exact ih named
  | @bind n m x xs ms _ ih =>
    have hrest := ih fun y hy => named y (by simp [hy])
    rw [declaredNames_declare]
    exact List.forall_mem_cons.mpr ⟨isLocal_next n (named x (by simp)), hrest⟩

/-- What is declared is a version of a variable, an invented name or an attribute's. -/
theorem Emits.declares {c : Config} {kept : List (List String)} {es : List Event}
    (h : Emits c IsSourceName A kept n es as m) :
    ∀ t ∈ declaredNames as, IsLocal n.functions t := by
  induction h with
  | nil | global | read | function | remote | version | unset | use | omitted =>
    simp [declaredNames]
  | append first second ih₁ ih₂ =>
    rw [declaredNames_append]
    exact List.forall_mem_append.mpr ⟨ih₁, first.around_eq.1 ▸ ih₂⟩
  | swap first second _ _ ih₁ ih₂ =>
    rw [declaredNames_append]
    exact List.forall_mem_append.mpr ⟨first.around_eq.1 ▸ ih₂, ih₁⟩
  | @define kept n a named =>
    have ha : IsLocal n.functions (n.nextAttribute a) := .inr (.inr ⟨a, _, rfl⟩)
    simpa [declaredNames] using ha
  | bind named => simpa [declaredNames] using isLocal_next _ named
  | param named => simpa [declaredNames] using isLocal_next _ named
  | matching named binds => exact binds.declares named
  | @hold kept n m k stem es uses as bs value _ known rest ih₁ ih₂ =>
    have hheld : IsLocal n.functions (invented stem m.invented) :=
      .inr (.inl (isSynthetic_invented _ (List.mem_append_left ["acc", "gen"] known)))
    have hrest : ∀ t ∈ declaredNames bs, IsLocal n.functions t := value.around_eq.1 ▸ ih₂
    rw [declaredNames_append, declaredNames_declare]
    exact List.forall_mem_append.mpr ⟨ih₁, List.forall_mem_cons.mpr ⟨hheld, hrest⟩⟩
  | held value _ _ ih => exact value.around_eq.1 ▸ ih
  | scope _ ih => simpa using ih
  | @params kept n m count es as _ ih =>
    have hparams := (params_only ((List.range count).map paramName)).1
    rw [declaredNames_scope, declaredNames_append, hparams]
    refine List.forall_mem_append.mpr ⟨fun t ht => ?_, ih⟩
    obtain ⟨i, rfl⟩ := isArgument_of_mem ht
    exact .inr (.inl (.inl ⟨"arg", by decide, i, rfl⟩))
  | @loop kept n m k es inner as bs collection _ rest ih₁ ih₂ =>
    have hitem : IsLocal n.functions (invented "gen" m.invented) :=
      .inr (.inl (isSynthetic_invented _ (by simp)))
    have hrest : ∀ t ∈ declaredNames bs, IsLocal n.functions t := collection.around_eq.1 ▸ ih₂
    rw [declaredNames_append, declaredNames_scope, declaredNames_declare]
    exact List.forall_mem_append.mpr ⟨ih₁, List.forall_mem_cons.mpr ⟨hitem, hrest⟩⟩
  | @collect kept n m k es loops as bs fixed into _ rest _ library ih₁ ih₂ =>
    have hresults : IsLocal n.functions (invented "acc" m.invented) :=
      .inr (.inl (isSynthetic_invented _ (by simp)))
    have hrest : ∀ t ∈ declaredNames bs, IsLocal n.functions t := into.around_eq.1 ▸ ih₂
    have hfixed : declaredNames fixed = [] :=
      declaredNames_of_reads fun mark hmark => ⟨_, library mark hmark⟩
    rw [declaredNames_scope, declaredNames_declare, declaredNames_append, declaredNames_append,
      hfixed, List.nil_append, declaredNames_read]
    exact List.forall_mem_cons.mpr ⟨hresults, List.forall_mem_append.mpr ⟨hrest, ih₁⟩⟩
  | taken _ ih => exact ih

end Emits

/-- A part of a module with these functions: it follows its outline, where bindings are declared
under the names of variables and calls of functions read the functions' names, and it declares no
name of a function. -/
structure KeepsApart (c : Config) (functions : List String) (es : List Event) (ms : List Mark) :
    Prop where
  follows : ∃ n m : Names, n.IsFresh ∧ n.functions = functions ∧
    Emits c IsSourceName (fun _ => True) [] n es ms m
  declared : ∀ t ∈ declaredNames ms, IsLocal functions t ∧ t ∉ functions

theorem forall_declaredNames_defaults {P : String → Prop} {defaults : List Property}
    (h : ∀ p ∈ defaults, ∃ key, p.key = .computed (atomValue key) ∧
      ∀ t ∈ declaredNames (exprMarks p.value), P t) :
    ∀ t ∈ declaredNames (propertiesMarks defaults), P t := by
  induction defaults with
  | nil => simp [declaredNames]
  | cons p defaults ih =>
    obtain ⟨⟨key, hkey, hvalue⟩, hrest⟩ := List.forall_mem_cons.mp h
    obtain ⟨_, value⟩ := p
    cases hkey
    have hreads : ReadsOnly (fun _ => True) (exprMarks (atomValue key)) :=
      readsOnly_atomValue trivial key
    have hnone : declaredNames (exprMarks (atomValue key)) = [] :=
      declaredNames_of_reads fun mark hmark => (hreads mark hmark).imp fun _ => And.right
    rw [propertiesMarks, keyMarks, declaredNames_append, declaredNames_append, hnone,
      List.nil_append]
    exact List.forall_mem_append.mpr ⟨hvalue, ih hrest⟩

/-- What a function of a module declares, given what the parts of it do. -/
theorem FunctionFollows.declares {R : List Event → List Mark → Prop} {P : String → Prop}
    {body : List Node} {f : FunctionDef} (h : FunctionFollows R body f)
    (hR : ∀ es ms, R es ms → ∀ t ∈ declaredNames ms, P t) (hvalues : P "$values")
    (hattrs : P "$attrs") : ∀ t ∈ declaredNames (functionMarks f), P t := by
  cases h with
  | defined _ _ own => exact hR _ _ own
  | @constructor lib module fields defaults item given =>
    have hfields : ∀ p ∈ defaults, ∃ key, p.key = .computed (atomValue key) ∧
        ∀ t ∈ declaredNames (exprMarks p.value), P t := by
      intro p hp
      obtain ⟨key, hkey, hempty | ⟨value, -, hvalue⟩⟩ := given p hp
      · exact ⟨key, hkey, by simp [hempty, declaredNames]⟩
      · exact ⟨key, hkey, hR _ _ hvalue⟩
    have hgiven := forall_declaredNames_defaults hfields
    have hmarks : declaredNames (functionMarks ⟨"__struct__", ["$values"], [.return_
        (lib.specialForm "struct" [moduleValue module, .object defaults, .ident "$values"])]⟩) =
        "$values" :: declaredNames (propertiesMarks defaults) := by
      rw [functionMarks_constructor, declaredNames_scope, declaredNames_append,
        declaredNames_append]
      exact congrArg ("$values" :: ·) (List.append_nil _)
    rw [hmarks]
    exact List.forall_mem_cons.mpr ⟨hvalues, hgiven⟩
  | exception =>
    have hmarks : declaredNames (functionMarks ⟨"exception", ["$attrs"],
        [.return_ (.call (.ident "__struct__") [.ident "$attrs"])]⟩) = ["$attrs"] := by
      simp [declaredNames]
    rw [hmarks]
    exact List.forall_mem_singleton.mpr hattrs

section Functions

variable {c : Config} {names : List String} (hnames : ∀ f ∈ names, IsSourceName f)
include hnames

theorem coversIn_keepsApart : CoversIn (names.map escape) c IsSourceName (fun _ => True)
    (KeepsApart c (names.map escape)) := by
  intro n m es ms hfresh hfunctions hemits
  refine ⟨⟨n, m, hfresh, hfunctions, hemits⟩, fun t ht => ?_⟩
  have hlocal : IsLocal (names.map escape) t := hfunctions ▸ hemits.declares t ht
  exact ⟨hlocal, hlocal.not_callable hnames⟩

theorem FunctionFollows.keepsApart {body : List Node} {f : FunctionDef}
    (h : FunctionFollows (KeepsApart c (names.map escape)) body f) :
    ∀ t ∈ declaredNames (functionMarks f),
      IsLocal (names.map escape) t ∧ t ∉ names.map escape := by
  have hsynthetic : ∀ {t}, IsSynthetic t → IsLocal (names.map escape) t ∧ t ∉ names.map escape :=
    fun h => ⟨.inr (.inl h), IsLocal.not_callable hnames (.inr (.inl h))⟩
  exact h.declares (fun _ _ own => own.declared) (hsynthetic (.inr (.inl rfl)))
    (hsynthetic (.inr (.inr rfl)))

end Functions

/-- In a module whose variables and functions have source names: a version of a variable is neither
a function that can be called there nor an invented name nor an attribute's; and whatever the
statements and the functions of the module declare, at any depth, is no such function. -/
theorem variables_never_capture_functions {config : Config} {s : State} {name : List String}
    {body plain : List Node} {m : ModuleDef}
    (named : ∀ n ∈ body, n.Named IsSourceName fun _ => True)
    (hplain : Node.removePipesList body = .ok plain)
    (callable : ∀ f ∈ callableNames plain, IsSourceName f)
    (h : (lowerModuleM name body config s).1 = .ok m) :
    (∀ t, IsVariable (callableTargets plain) t →
      t ∉ callableTargets plain ∧ ¬ IsSynthetic t ∧ ¬ IsAttribute t) ∧
    KeepsApart config (callableTargets plain) (plain.flatMap itemEvents) (stmtsMarks m.body) ∧
    ∀ f ∈ m.functions,
      FunctionFollows (KeepsApart config (callableTargets plain)) plain f.function ∧
      ∀ t ∈ declaredNames (functionMarks f.function),
        IsLocal (callableTargets plain) t ∧ t ∉ callableTargets plain := by
  have hnamed : ∀ n ∈ plain, n.Named IsSourceName fun _ => True :=
    Node.named_removePipesList (fun m hm => m.stays (named m hm)) hplain
  obtain ⟨_, hbody, hrun⟩ := lowerModuleM_value.mp h
  rw [hplain] at hbody
  cases hbody
  have hcovers : CoversIn (plain.flatMap declaredFunctions) config IsSourceName (fun _ => True)
      (KeepsApart config (callableTargets plain)) := by
    rw [← callableTargets_eq]
    exact coversIn_keepsApart callable
  have hinner : ∀ n ∈ plain, ∀ inner body', n = .module inner body' →
      ModuleRuns config (fun _ _ => True) body' :=
    fun n hn => moduleRuns (fun _ _ _ _ _ _ => trivial) n (hnamed n hn)
  obtain ⟨hown, -, hfunctions, -⟩ := moduleDef_follows hcovers hcovers.parts hnamed hinner (Prod.ext hrun rfl)
  refine ⟨fun t ht => ⟨ht.not_callable callable, ht.apart⟩, hown, fun f hf => ?_⟩
  exact ⟨hfunctions f hf, (hfunctions f hf).keepsApart callable⟩

/-- A module whose variables have the names of its functions: of `total`, which is guarded, of
`count`, which is imported, and of `new?`, which is defined without parentheses. -/
def shadowingBody : List Node :=
  [.importOnly ["Lists"] [("count", 1)],
    .defStruct [("size", .fn [⟨[.var "count"], [.var "count"]⟩])],
    .define .exported (.guarded [.call "total" [.var "count", .var "total"] {}] (.var "total"))
      [.bind (.var "new?") (.call "total" [.var "count"] {}),
        .bind (.var "total") (.fn [⟨[.tuple [.var "total"]], [.call "count" [.var "total"] {}]⟩]),
        .apply (.var "total") [.var "new?"]],
    .define .internal (.var "new?") [.capture none "total" 1]]

theorem shadowingBody_named : ∀ n ∈ shadowingBody, n.Named IsSourceName fun _ => True := by
  simp only [shadowingBody, List.forall_mem_cons, Node.Named, Node.names_eq, Node.children,
    Node.definitionChildren, Node.clauseChildren, Node.headChildren, Node.ownNames,
    Node.Naming.Satisfies, List.flatMap_cons, List.flatMap_nil, List.cons_append, List.nil_append,
    List.append_nil, List.map_cons, List.map_nil, Option.toList_none, List.not_mem_nil,
    false_implies, implies_true, and_true]
  decide

theorem variables_never_capture_functions_shadowingBody :
    callableTargets shadowingBody = ["count", "__struct__", "total", "new$q"] ∧
    ∃ m, (lowerModuleM ["Shadowing"] shadowingBody {} {}).1 = .ok m ∧
      ∀ f ∈ m.functions, ∀ t ∈ declaredNames (functionMarks f.function),
        t ∉ ["count", "__struct__", "total", "new$q"] := by
  have htargets : callableTargets shadowingBody = ["count", "__struct__", "total", "new$q"] := by
    decide
  have haccepted : (lowerModuleM ["Shadowing"] shadowingBody {} {}).1.isOk = true := by
    decide +kernel
  have hcallable : ∀ f ∈ callableNames shadowingBody, IsSourceName f := by decide
  obtain ⟨m, hm⟩ := exists_ok_of_isOk haccepted
  obtain ⟨-, -, hfunctions⟩ :=
    variables_never_capture_functions shadowingBody_named rfl hcallable hm
  refine ⟨htargets, m, hm, fun f hf t ht => ?_⟩
  exact htargets ▸ ((hfunctions f hf).2 t ht).2

end TreeLowering.Scoping
