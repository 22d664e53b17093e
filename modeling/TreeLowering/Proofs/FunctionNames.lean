import Mathlib.Data.List.Nodup
import TreeLowering.Proofs.Grouping
import TreeLowering.Proofs.NamingScheme

/-!
The names of a module's functions.

A module has a function for each name that its body defines, and those that a struct generates
before them. Definitions of different names have different target names, so only a generated function
can repeat a name. It does when the body defines `__struct__` beside a struct, or `exception` beside
an exception: a definition of `exception` with one argument takes the place of the generated one, but
one with another number of arguments does not, although it has the same target name.
-/
namespace TreeLowering

open Source Target LowerM Lowering

/-- The body has a definition of that name with that many arguments. -/
def Defines (body : List Node) (x : String) (arity : Nat) : Prop :=
  ∃ visibility head ns patterns alternatives, .define visibility head ns ∈ body ∧
    definitionHead head = .ok (x, patterns, alternatives) ∧ patterns.length = arity

def Source.Node.definesException : Node → Bool
  | .defException _ => true
  | _ => false

/-- A struct in the body lets its module have a function of that name. -/
def Generates (body : List Node) (x : String) : Prop :=
  x = "__struct__" ∧ (∃ n ∈ body, n.definesStruct = true) ∨
    x = "exception" ∧ (∃ n ∈ body, n.definesException = true) ∧ ¬ Defines body "exception" 1

section Definitions

variable {m : ModuleContext} {body : List Node} {ds : List Definition}

theorem defines_cons {n : Node} {x : String} {arity : Nat} :
    Defines (n :: body) x arity ↔ Defines [n] x arity ∨ Defines body x arity := by
  simp only [Defines, List.mem_cons, List.not_mem_nil, or_false, or_and_right, exists_or]

theorem defines_define {visibility : Visibility} {head : Node} {ns : List Node} {function : String}
    {patterns alternatives : List Node} {x : String} {arity : Nat}
    (h : definitionHead head = .ok (function, patterns, alternatives)) :
    Defines [.define visibility head ns] x arity ↔ function = x ∧ patterns.length = arity := by
  constructor
  · rintro ⟨_, _, _, _, _, hmem, hread, harity⟩
    cases List.mem_singleton.mp hmem
    cases h.symm.trans hread
    exact ⟨rfl, harity⟩
  · rintro ⟨rfl, harity⟩
    exact ⟨_, _, _, _, _, List.mem_singleton.mpr rfl, h, harity⟩

/-- The definitions that are read off a body are those that it has. -/
theorem exists_mem_definitionsFrom (h : definitionsFrom m body = .ok ds) (x : String) (arity : Nat) :
    Defines body x arity ↔ ∃ d ∈ ds, d.name = x ∧ d.arity = arity := by
  induction body generalizing m ds with
  | nil =>
    cases h
    simp [Defines]
  | cons n rest ih =>
    rw [defines_cons]
    cases hn : n.isDefinition with
    | false =>
      rw [definitionsFrom_other m hn] at h
      have hnone : ¬ Defines [n] x arity := by
        rintro ⟨_, _, _, _, _, hmem, -, -⟩
        cases List.mem_singleton.mp hmem
        cases hn
      rw [ih h, or_iff_right hnone]
    | true =>
      obtain ⟨visibility, head, ns, rfl⟩ := exists_of_isDefinition hn
      obtain ⟨function, patterns, alternatives, more, hread, hmore, rfl⟩ :=
        definitionsFrom_define.mp h
      rw [ih hmore, defines_define hread, List.exists_mem_cons_iff]
      rfl

theorem hasArity_clausesNamed (x : String) (arity : Nat) :
    (⟨x, clausesNamed ds x⟩ : FunctionGroup).hasArity arity = true ↔
      ∃ d ∈ ds, d.name = x ∧ d.arity = arity := by
  rw [FunctionGroup.hasArity, visibility?_clausesNamed, Option.isSome_map, List.find?_isSome]
  simp

/-- Whether a definition takes the place of the generated function is read off the groups. -/
theorem any_groupsOf (x : String) (arity : Nat) :
    ((groupsOf ds).any fun g => g.name == x && g.hasArity arity) = true ↔
      ∃ d ∈ ds, d.name = x ∧ d.arity = arity := by
  rw [groupsOf, List.any_map, List.any_eq_true]
  simp only [Function.comp_apply, Bool.and_eq_true, beq_iff_eq, hasArity_clausesNamed,
    List.mem_eraseDups, List.mem_map]
  constructor
  · rintro ⟨_, -, rfl, hd⟩
    exact hd
  · rintro ⟨d, hd, rfl, harity⟩
    exact ⟨d.name, ⟨d, hd, rfl⟩, rfl, d, hd, rfl, harity⟩

end Definitions

section Structs

variable {name : List String} {c : Config} {draft draft' : ModuleDraft} {s s' : State}

/-- The structs that an item adds to the draft. -/
def structsOf : Node → List (List (String × LowerM Expr) × Bool)
  | .defStruct fields => [(fieldValues fields, false)]
  | .defException fields => [(fieldValues fields, true)]
  | _ => []

theorem structsOf_eq_nil {n : Node} (h : n.definesStruct = false) : structsOf n = [] := by
  cases n with
  | defStruct | defException => cases h
  | _ => rfl

theorem Takes.structs_append {n : Node} (h : Takes name c draft s n draft' s') :
    draft'.structs = draft.structs ++ structsOf n := by
  cases hn : n.definesStruct with
  | false => rw [h.structs_eq hn, structsOf_eq_nil hn, List.append_nil]
  | true =>
    cases h with
    | struct form =>
      cases n with
      | defStruct | defException =>
        cases form
        rfl
      | _ => cases hn
    | importing form | statements form =>
      cases n with
      | defStruct | defException => cases form
      | _ => cases hn
    | _ => cases hn

/-- The structs of the draft are those of the items, in order. -/
theorem takeItems_structs {ns : List Node}
    (h : takeItems name draft (items ns) c s = (.ok draft', s')) :
    draft'.structs = draft.structs ++ ns.flatMap structsOf := by
  induction ns generalizing draft s with
  | nil =>
    obtain ⟨rfl, -⟩ := pure_run.mp h
    exact (List.append_nil _).symm
  | cons n ns ih =>
    obtain ⟨draft₁, s₁, hitem, hrest⟩ := takeItems_cons_iff.mp h
    rw [ih hrest, hitem.structs_append, List.flatMap_cons, List.append_assoc]

theorem exists_definesStruct_iff {ns : List Node} :
    (∃ n ∈ ns, n.definesStruct = true) ↔ ns.flatMap structsOf ≠ [] := by
  have hn (n : Node) : n.definesStruct = true ↔ structsOf n ≠ [] := by
    cases n <;> simp [Node.definesStruct, structsOf]
  simp [hn, List.flatMap_eq_nil_iff]

theorem exists_definesException_iff {ns : List Node} :
    (∃ n ∈ ns, n.definesException = true) ↔ ∃ struct ∈ ns.flatMap structsOf, struct.2 = true := by
  have hn (n : Node) : n.definesException = true ↔ ∃ struct ∈ structsOf n, struct.2 = true := by
    cases n <;> simp [Node.definesException, structsOf]
  simp only [hn, List.mem_flatMap]
  constructor
  · rintro ⟨n, hmem, struct, hstruct, hexception⟩
    exact ⟨struct, ⟨n, hmem, hstruct⟩, hexception⟩
  · rintro ⟨struct, ⟨n, hmem, hstruct⟩, hexception⟩
    exact ⟨n, hmem, struct, hstruct, hexception⟩

/-- The names of the functions that a struct generates. -/
def generatedNames (isException hasOwnException : Bool) : List String :=
  "__struct__" :: if isException && !hasOwnException then ["exception"] else []

theorem structFunctions_names {fields : List (String × LowerM Expr)}
    {isException hasOwnException : Bool} {functions : List ModuleFunction}
    (h : structFunctions name fields isException hasOwnException c s = (.ok functions, s')) :
    functions.map (·.function.name) = generatedNames isException hasOwnException := by
  simp only [structFunctions, bind_run, library_run] at h
  obtain ⟨defaults, s₁, hdefaults, lib, s₂, ⟨rfl, rfl⟩, h⟩ := h
  rw [generatedNames]
  split at h
  next hgenerated => rw [if_pos hgenerated, (pure_run.mp h).1]; rfl
  next hgenerated => rw [if_neg hgenerated, (pure_run.mp h).1]; rfl

end Structs

section Modules

variable {name : List String} {body : List Node} {c : Config} {s s' : State} {m : ModuleDef}

theorem groupFunctions_names {groups : List FunctionGroup} {functions : List ModuleFunction}
    (h : LowerM.sequence (groups.map groupFunction) c s = (.ok functions, s')) :
    functions.map (·.function.name) = groups.map (Identifier.escape ·.name) := by
  induction groups generalizing functions s s' with
  | nil => rw [(pure_run.mp h).1]; rfl
  | cons g groups ih =>
    simp only [List.map_cons, LowerM.sequence, groupFunction, bind_run, pure_run] at h
    obtain ⟨_, s₁, ⟨function, _, hfunction, rfl, rfl⟩, rest, _, hrest, rfl, -⟩ := h
    obtain ⟨_, _, -, -, hclauses, -⟩ := Scoping.inFunction_run hfunction
    rw [List.map_cons, List.map_cons, ih hrest, Scoping.clausesFunction_name hclauses]

/-- The functions that are generated for the structs of a body, when there is no more than one. -/
theorem structsFunctions_names {draft : ModuleDraft} {generated : List ModuleFunction}
    (hstructs : draft.structs = body.flatMap structsOf)
    (hown : (draft.groups.any fun g => g.name == "exception" && g.hasArity 1) = true ↔
      Defines body "exception" 1)
    (h : structsFunctions name draft c s = (.ok generated, s')) :
    (generated.map (·.function.name)).Nodup ∧
      ∀ x, x ∈ generated.map (·.function.name) ↔ Generates body x := by
  simp only [Generates, exists_definesStruct_iff, exists_definesException_iff, ← hstructs, ← hown]
  rcases hcount : draft.structs with _ | ⟨⟨fields, isException⟩, _ | ⟨_, _⟩⟩ <;>
    simp only [structsFunctions, hcount] at h
  · rw [(pure_run.mp h).1]
    simp
  · rw [structFunctions_names h, generatedNames]
    cases isException <;>
      cases draft.groups.any fun g => g.name == "exception" && g.hasArity 1 <;> simp
  · cases h

/-- The functions of a module are those that a struct generates and, behind them, one for each name
that the body defines. -/
theorem moduleDef_functionNames (h : (moduleDef name body (items body) c s).1 = .ok m) :
    ∃ generated defined : List String,
      m.functions.map (·.function.name) = generated ++ defined.map Identifier.escape ∧
      generated.Nodup ∧ (∀ x, x ∈ generated ↔ Generates body x) ∧
      defined.Nodup ∧ ∀ x, x ∈ defined ↔ ∃ arity, Defines body x arity := by
  obtain ⟨draft, s₁, generated, s₂, functions, s₃, hdraft, hgenerated, hfunctions, rfl⟩ :=
    moduleDef_value h
  obtain ⟨ds, hds, hgroups⟩ :=
    takeItems_groups (m := s.entering name body) rfl rfl compatible_nil rfl hdraft
  rw [List.nil_append] at hgroups
  have hown : (draft.groups.any fun g => g.name == "exception" && g.hasArity 1) = true ↔
      Defines body "exception" 1 := by
    rw [hgroups, any_groupsOf, exists_mem_definitionsFrom hds]
  obtain ⟨hnodup, hmem⟩ := structsFunctions_names (takeItems_structs hdraft) hown hgenerated
  refine ⟨_, (ds.map (·.name)).eraseDups, ?_, hnodup, hmem, nodup_eraseDups _, fun x => ?_⟩
  · rw [List.map_append, groupFunctions_names hfunctions, hgroups, groupsOf, List.map_map]
    rfl
  · simp [exists_mem_definitionsFrom hds]

theorem function?_of_nodup (h : (m.functions.map (·.function.name)).Nodup) {f : ModuleFunction}
    (hf : f ∈ m.functions) : m.function? f.function.name = some f := by
  have hsome : (m.function? f.function.name).isSome = true :=
    List.find?_isSome.mpr ⟨f, hf, beq_self_eq_true _⟩
  obtain ⟨g, hg⟩ := Option.isSome_iff_exists.mp hsome
  have hname : g.function.name = f.function.name := by simpa using List.find?_some hg
  rw [hg, List.inj_on_of_nodup_map h (List.mem_of_find?_eq_some hg) hf hname]

/-- The functions of a module have different names, so that each is the one found under its name,
just when the body does not define a name that a struct of it generates. A definition of `exception`
with one argument is no such case, but one with another number of arguments is. -/
theorem function_names_distinct_iff (hnames : ∀ x arity, Defines body x arity → '$' ∉ x.toList)
    (h : (moduleDef name body (items body) c s).1 = .ok m) :
    ((m.functions.map (·.function.name)).Nodup ↔
        ∀ x arity, Generates body x → ¬ Defines body x arity) ∧
      ((∀ x arity, Generates body x → ¬ Defines body x arity) →
        ∀ f ∈ m.functions, m.function? f.function.name = some f) := by
  obtain ⟨generated, defined, heq, hgenerated, hgenerates, hdefined, hdefines⟩ :=
    moduleDef_functionNames h
  have hfree : ∀ x ∈ defined, '$' ∉ x.toList := fun x hx => by
    obtain ⟨arity, harity⟩ := (hdefines x).mp hx
    exact hnames x arity harity
  have hescaped : (defined.map Identifier.escape).Nodup :=
    hdefined.map_on fun x hx y hy => Identifier.escape_injOn (hfree x hx) (hfree y hy)
  -- The generated names are as they are written in the source, so they meet only themselves.
  have hkept : ∀ x ∈ generated, '$' ∉ x.toList ∧ Identifier.escape x = x := by
    intro x hx
    obtain ⟨rfl, -⟩ | ⟨rfl, -⟩ := (hgenerates x).mp hx <;> decide
  have hiff : (m.functions.map (·.function.name)).Nodup ↔
      ∀ x arity, Generates body x → ¬ Defines body x arity := by
    rw [heq, List.nodup_append]
    constructor
    · rintro ⟨-, -, hapart⟩ x arity hx hdef
      have hmem := (hgenerates x).mpr hx
      exact hapart x hmem x (List.mem_map.mpr ⟨x, (hdefines x).mpr ⟨arity, hdef⟩, (hkept x hmem).2⟩)
        rfl
    · refine fun hapart => ⟨hgenerated, hescaped, ?_⟩
      rintro x hx _ hy rfl
      obtain ⟨y, hy, hyx⟩ := List.mem_map.mp hy
      obtain ⟨arity, hdef⟩ := (hdefines y).mp hy
      obtain rfl : y = x := Identifier.escape_injOn (hfree y hy) (hkept x hx).1
        (hyx.trans (hkept x hx).2.symm)
      exact hapart y arity ((hgenerates y).mp hx) hdef
  exact ⟨hiff, fun hapart f hf => function?_of_nodup (hiff.mpr hapart) hf⟩

end Modules

/-- An exception that a function of its own builds. Another of that name stands before it. -/
def failureBody : List Node :=
  [.define .exported (.call "exception" [.var "code", .var "text"] {}) [.var "text"],
   .defException [("code", .integer 0)],
   .define .exported (.call "exception" [.var "code"] {}) [.var "code"],
   .define .internal (.call "exception?" [.var "it"] {}) [.var "it"]]

theorem defines_failureBody {x : String} {arity : Nat} : Defines failureBody x arity ↔
    (x, arity) ∈ [("exception", 2), ("exception", 1), ("exception?", 1)] := by
  rw [exists_mem_definitionsFrom (m := ⟨[], [], [], [], []⟩) rfl]
  simp [Definition.arity, definedClause, sourceClause, eq_comm]

theorem function_names_distinct_iff_failureBody :
    ∃ m, (moduleDef ["Failure"] failureBody (items failureBody) {} {}).1 = .ok m ∧
      m.functions.map (·.function.name) = ["__struct__", "exception", "exception$q"] ∧
      ∀ f ∈ m.functions, m.function? f.function.name = some f := by
  obtain ⟨m, hm⟩ :=
    exists_ok_of_isOk (x := (moduleDef ["Failure"] failureBody (items failureBody) {} {}).1) rfl
  have hnames : ∀ x arity, Defines failureBody x arity → '$' ∉ x.toList := by
    intro x arity h
    have hmem := defines_failureBody.mp h
    simp only [List.mem_cons, Prod.mk.injEq, List.not_mem_nil, or_false] at hmem
    obtain ⟨rfl, -⟩ | ⟨rfl, -⟩ | ⟨rfl, -⟩ := hmem <;> decide
  have hapart : ∀ x arity, Generates failureBody x → ¬ Defines failureBody x arity := by
    rintro x arity (⟨rfl, -⟩ | ⟨rfl, -, hown⟩) h
    · simpa using defines_failureBody.mp h
    · exact hown (defines_failureBody.mpr (by decide))
  refine ⟨m, hm, ?_, (function_names_distinct_iff hnames hm).2 hapart⟩
  cases hm
  rfl

/-- An exception whose module defines `exception`, but without an argument. -/
def oopsBody : List Node :=
  [.defException [], .define .exported (.call "exception" [] {}) [.nil]]

/-- The function that is generated for an exception stands before one of the same name that the body
defines, which is then not the one that is found. -/
theorem generated_function_hides_defined :
    ∃ m, lowerProgram {} [.module ["Oops"] oopsBody] = .ok ⟨[.module m]⟩ ∧
      m.functions.map (·.function.name) = ["__struct__", "exception", "exception"] ∧
      ¬ (m.functions.map (·.function.name)).Nodup ∧
      m.functions.map (·.function.params) = [["$values"], ["$attrs"], []] ∧
      (m.function? "exception").map (·.function.params) = some ["$attrs"] := by
  have hrepeated : ¬ ["__struct__", "exception", "exception"].Nodup := by decide
  exact ⟨_, rfl, rfl, hrepeated, rfl, rfl⟩

end TreeLowering
