import TreeLowering.Proofs.MirroredModules
import TreeLowering.Proofs.StructTags

/-!
Where the short name of a nested module is known.

A name inside of nested modules is read by the innermost of them that has a module of that first
segment among its items up to the place (`expand`). A module can be taken out of the program that it
stands in: without the modules inside of it, and with all names written out so, its body comes to the
same module on its own, where no name is short for another. Statements are written out for their own
place, but clauses for the end of the body, so a short name is known to them also where the nested
module only follows.
-/
namespace TreeLowering

open Source Target LowerM Lowering
open Scoping (stmtsModules)

namespace Source

def Node.isModule : Node → Bool
  | .module .. => true
  | _ => false

/-- The item is a module whose name starts as the given one does. -/
def Node.introduces (segments : List String) : Node → Bool
  | .module name _ => !name.isEmpty && name.head? == segments.head?
  | _ => false

/-- A module around a place: its full name, and its items up to the place. -/
structure Frame where
  path : List String
  items : List Node

/-- The full name that a name stands for inside of modules, of which the innermost comes first. -/
def expand : List Frame → List String → List String
  | [], segments => segments
  | f :: outer, segments =>
    if f.items.any (·.introduces segments) then f.path ++ segments else expand outer segments

/-- Names are written out as they are read at the place, and attributes are left alone. -/
def nameReading (frames : List Frame) : Reading := ⟨expand frames, fun _ => .kept⟩

/-- The items without the modules among them, and with the names of each written out. What a name
means may depend on the items before. -/
def flattened (reading : List Node → Node → Reading) : List Node → List Node → List Node
  | _, [] => []
  | before, n :: ns =>
    if n.isModule then flattened reading (before ++ [n]) ns
    else n.written (reading before n) :: flattened reading (before ++ [n]) ns

/-- The reading of an item behind others: at the end of the body where items of its kind are late,
and else at its place. -/
def placeReading (path : List String) (frames : List Frame) (late : Node → Bool) (body : List Node)
    (before : List Node) (n : Node) : Reading :=
  nameReading (⟨path, if late n then body else before⟩ :: frames)

/-- The body of a module on its own. -/
def alone (path : List String) (frames : List Frame) (late : Node → Bool) (body : List Node) :
    List Node :=
  flattened (placeReading path frames late body) [] body

/-- Clauses and the defaults of structs are lowered behind all items. -/
def Node.isLate (n : Node) : Bool := n.isDefinition || n.definesStruct

/-- The module of that full name and body stands among the forms, inside of modules with these items
up to it. -/
inductive StandsAmid (forms : List Node) : List String → List Node → List Frame → Prop
  | top {before after body : List Node} {name : List String}
      (stands : forms = before ++ .module name body :: after) : StandsAmid forms name body []
  | inner {path name : List String} {before after body : List Node} {frames : List Frame}
      (outer : StandsAmid forms path (before ++ .module name body :: after) frames) :
      StandsAmid forms (path ++ name) body (⟨path, before ++ [.module name body]⟩ :: frames)

section Expansion

variable {path segments : List String} {before after : List Node} {frames : List Frame} {n : Node}

/-- One more item can only bring in a module that shadows. -/
theorem expand_concat : expand (⟨path, before ++ [n]⟩ :: frames) segments =
    if n.introduces segments then path ++ segments
    else expand (⟨path, before⟩ :: frames) segments := by
  simp only [expand, List.any_append, List.any_cons, List.any_nil, Bool.or_false]
  cases n.introduces segments <;> simp

theorem introduces_of_isModule_eq_false (h : n.isModule = false) :
    n.introduces segments = false := by
  cases n with
  | module => cases h
  | _ => rfl

theorem ne_nil_of_introduces (h : n.introduces segments = true) : segments ≠ [] := by
  rintro rfl
  cases n with
  | module name body => cases name <;> simp [Node.introduces] at h
  | _ => cases h

/-- The name is one of the runtime's own when no module around has one of that name inside. -/
theorem expand_eq_kernel
    (h : ∀ f ∈ frames, f.items.any (·.introduces ["Kernel"]) = false) (segments : List String) :
    expand frames segments = ["Kernel"] ↔ segments = ["Kernel"] := by
  induction frames with
  | nil => exact Iff.rfl
  | cons f outer ih =>
    obtain ⟨hfirst, hrest⟩ := List.forall_mem_cons.mp h
    rw [expand]
    split
    next hknown =>
      constructor
      · intro heq
        obtain ⟨n, -, hn⟩ := List.any_eq_true.mp hknown
        obtain ⟨-, hsegments⟩ | ⟨-, hsegments⟩ := List.append_eq_singleton_iff.mp heq
        · exact hsegments
        · exact (ne_nil_of_introduces hn hsegments).elim
      · rintro rfl
        rw [hfirst] at hknown
        cases hknown
    next => exact ih hrest

/-- A name means at the end of the body what it means at a place, if each module of that name that
follows has another one before the place. -/
theorem expand_end_eq (hn : n.isModule = false)
    (h : after.any (·.introduces segments) = true → before.any (·.introduces segments) = true) :
    expand (⟨path, before ++ n :: after⟩ :: frames) segments =
      expand (⟨path, before⟩ :: frames) segments := by
  have hany : (before ++ n :: after).any (·.introduces segments) =
      before.any (·.introduces segments) := by
    rw [List.any_append, List.any_cons, introduces_of_isModule_eq_false hn, Bool.false_or,
      Bool.or_eq_left_iff_imp]
    exact h
  rw [expand, expand, hany]

end Expansion

end Source

section Knowledge

variable {m : ModuleContext} {path : List String} {before : List Node} {frames : List Frame}

/-- The module knows the short names that the frames give. -/
def ModuleContext.Knows (m : ModuleContext) (frames : List Frame) : Prop :=
  ∀ segments, m.fullName segments = expand frames segments

theorem ModuleContext.fullName_cons (m : ModuleContext) (first : String) (rest : List String) :
    m.fullName (first :: rest) = match m.aliases.get? first with
      | some full => full ++ rest
      | none => first :: rest := rfl

theorem aliases_of_context {u : State} (h : u.context = some m) : u.aliases = m.aliases := by
  rw [State.aliases, h]
  rfl

theorem resolveModule_of_context {u : State} (h : u.context = some m) (segments : List String) :
    u.resolveModule segments = m.fullName segments := by
  cases segments with
  | nil => rfl
  | cons first rest => rw [ModuleContext.fullName_cons, ← aliases_of_context h]; rfl

theorem ModuleContext.fullName_congr {m' : ModuleContext} (h : m'.aliases = m.aliases) :
    m'.fullName = m.fullName := by
  funext segments
  cases segments with
  | nil => rfl
  | cons first rest => rw [fullName_cons, fullName_cons, h]

theorem ModuleContext.fullName_of_aliases_nil (h : m.aliases = []) : m.fullName = id := by
  funext segments
  cases segments with
  | nil => rfl
  | cons first rest => rw [fullName_cons, h]; rfl

/-- What an item makes known. -/
theorem ModuleContext.fullName_after (m : ModuleContext) (n : Node) (segments : List String) :
    (m.after n).fullName segments =
      if n.introduces segments then m.name ++ segments else m.fullName segments := by
  cases n with
  | module inner body =>
    cases inner with
    | nil => rfl
    | cons x inner =>
      cases segments with
      | nil => rfl
      | cons first rest =>
        have hintroduces : (Node.module (x :: inner) body).introduces (first :: rest) =
            (x == first) := by simp [Node.introduces]
        rw [fullName_cons, ModuleContext.after, ModuleContext.withInner, NameTable.get?_set,
          hintroduces]
        by_cases hfirst : first = x
        · simp [hfirst]
        · rw [if_neg hfirst, beq_eq_false_iff_ne.mpr (Ne.symm hfirst), fullName_cons]
          rfl
  | attributeSet key value =>
    have haliases : (m.after (.attributeSet key value)).aliases = m.aliases := by
      rw [ModuleContext.after]
      split <;> rfl
    exact congrFun (fullName_congr haliases) segments
  | _ => rfl

/-- A module without items knows what is known around it. -/
theorem ModuleContext.Knows.enter (h : m.Knows frames) (path : List String) :
    m.Knows (⟨path, []⟩ :: frames) := h

theorem ModuleContext.Knows.after (h : m.Knows (⟨m.name, before⟩ :: frames)) (n : Node) :
    (m.after n).Knows (⟨m.name, before ++ [n]⟩ :: frames) := by
  intro segments
  rw [m.fullName_after, expand_concat, h segments]

theorem ModuleContext.Knows.afterAll (h : m.Knows (⟨m.name, before⟩ :: frames)) (ns : List Node) :
    (m.afterAll ns).Knows (⟨m.name, before ++ ns⟩ :: frames) := by
  induction ns generalizing m before with
  | nil => rwa [List.append_nil]
  | cons n ns ih =>
    have hafter := h.after n
    rw [← m.after_name n] at hafter
    have hrest := ih hafter
    rwa [m.after_name, List.append_assoc, List.singleton_append] at hrest

end Knowledge

section Places

variable {c : Config} {forms body : List Node} {path : List String} {frames : List Frame}
  {stmts : List Stmt} {s' : State}

/-- A module of a program that lowers is lowered from a state with the short names of its place. -/
theorem Source.StandsAmid.loweredFrom
    (hrun : LowerM.concat (forms.map topLevel) c {} = (.ok stmts, s'))
    (h : StandsAmid forms path body frames) :
    ∃ s, LoweredFrom c forms path body s ∧ (s.entering path body).Knows frames := by
  induction h with
  | @top before after body name stands =>
    rw [stands, List.map_append] at hrun
    obtain ⟨front, s, rest, hfront, -, -⟩ := concat_append hrun
    have hcontext : s.context = none := by
      have hkept := topLevel_context before c {}
      rw [hfront] at hkept
      exact hkept
    have haliases : (s.entering name body).aliases = [] := by
      simp [State.entering, State.aliases, hcontext]
    exact ⟨s, .top stands hfront, congrFun (ModuleContext.fullName_of_aliases_nil haliases)⟩
  | @inner path name before after body frames outer ih =>
    obtain ⟨s, hs, hknows⟩ := ih
    obtain ⟨around, haround, -⟩ := hs.emitted hrun
    obtain ⟨taken, s₁, generated, s₂, functions, s₃, htaken, -, -, rfl⟩ := moduleDef_value haround
    obtain ⟨draft, t, draft₁, t₁, hbefore, hitem, -⟩ := takeItems_split htaken
    -- The module inside is lowered behind its own item, so it knows its own short name.
    have hinside :=
      hitem.context (takeItems_context hbefore rfl rfl) (ModuleContext.afterAll_name _ _)
    have hbehind := (hknows.enter path).afterAll (before ++ [.module name body])
    rw [ModuleContext.afterAll, List.foldl_concat] at hbehind
    cases hitem with
    | module lowers =>
      refine ⟨_, .inner hs hbefore, fun segments => Eq.trans ?_ (hbehind segments)⟩
      exact congrFun (ModuleContext.fullName_congr (aliases_of_context hinside)) segments
    | importing form | struct form | statements form => cases form

end Places

section Flattening

variable {m E : ModuleContext} {path : List String} {before ns : List Node} {frames : List Frame}
  {reading : List Node → Node → Reading}

/-- The module without short names. -/
def ModuleContext.bare (m : ModuleContext) : ModuleContext := { m with aliases := [] }

/-- Inside of a bare module a name that is written out stands for itself. -/
theorem suits_nameReading (hknows : m.Knows frames)
    (hkernel : ∀ f ∈ frames, f.items.any (·.introduces ["Kernel"]) = false) :
    (nameReading frames).Suits m m.bare where
  name_eq := rfl
  functions_eq := rfl
  module_eq segments := by
    rw [m.bare.fullName_of_aliases_nil rfl, id_eq]
    exact (hknows segments).symm
  kernel := expand_eq_kernel hkernel
  read _ := rfl

theorem ModuleContext.bare_after_module (m : ModuleContext) {n : Node} (hn : n.isModule = true) :
    (m.after n).bare = m.bare := by
  cases n with
  | module inner body => cases inner <;> rfl
  | _ => cases hn

theorem ModuleContext.bare_after (m : ModuleContext) {n : Node} (hn : n.isModule = false) :
    (m.after n).bare = m.bare.after n := by
  cases n with
  | module => cases hn
  | attributeSet key value => rw [ModuleContext.after, ModuleContext.after]; split <;> rfl
  | _ => rfl

theorem bare_afterAll (m : ModuleContext) (before ns : List Node) :
    (m.afterAll ns).bare = m.bare.afterAll (flattened reading before ns) := by
  induction ns generalizing m before with
  | nil => rfl
  | cons n ns ih =>
    rw [ModuleContext.afterAll_cons, ih _ (before ++ [n]), flattened]
    split
    next hn => rw [m.bare_after_module hn]
    next hn =>
      rw [m.bare_after (Bool.eq_false_of_not_eq_true hn), ModuleContext.afterAll_cons,
        ModuleContext.after_written]

theorem flatMap_declaredFunctions_flattened (before ns : List Node) :
    (flattened reading before ns).flatMap declaredFunctions = ns.flatMap declaredFunctions := by
  induction ns generalizing before with
  | nil => rfl
  | cons n ns ih =>
    rw [flattened, List.flatMap_cons]
    split
    next hn =>
      rw [ih]
      cases n with
      | module => rfl
      | _ => cases hn
    next => rw [List.flatMap_cons, declaredFunctions_written, ih]

theorem entering_flattened (s : State) (path : List String) (before body : List Node) :
    ({} : State).entering path (flattened reading before body) = (s.entering path body).bare := by
  rw [State.entering, flatMap_declaredFunctions_flattened]
  rfl

/-- Each item is written out as it is to be read where it is lowered. -/
theorem bodyMirrors_flattened {body : List Node} (hname : m.name = path)
    (hknows : m.Knows (⟨path, before⟩ :: frames)) (hend : E.Knows (⟨path, body⟩ :: frames))
    (hkernel : ∀ f ∈ ⟨path, body⟩ :: frames, f.items.any (·.introduces ["Kernel"]) = false)
    (hbody : before ++ ns = body) :
    BodyMirrors false E E.bare m m.bare ns
      (flattened (placeReading path frames Node.isLate body) before ns) := by
  induction ns generalizing m before with
  | nil => exact .nil
  | cons n ns ih =>
    obtain ⟨hfirst, houter⟩ := List.forall_mem_cons.mp hkernel
    have hplace : before.any (·.introduces ["Kernel"]) = false := by
      rw [← hbody, List.any_append, Bool.or_eq_false_iff] at hfirst
      exact hfirst.1
    have hhere := suits_nameReading hknows (List.forall_mem_cons.mpr ⟨hplace, houter⟩)
    have hafter : (m.after n).Knows (⟨path, before ++ [n]⟩ :: frames) := by
      subst hname
      exact hknows.after n
    have hrest := ih ((m.after_name n).trans hname) hafter (by rw [← hbody]; simp)
    rw [flattened]
    split
    next hn =>
      rw [m.bare_after_module hn] at hrest
      cases n with
      | module inner inside => exact .dropped rfl hrest
      | _ => cases hn
    next hn =>
      rw [m.bare_after (Bool.eq_false_of_not_eq_true hn),
        ← m.bare.after_written (placeReading path frames Node.isLate body before n)] at hrest
      refine .item ?_ hrest
      -- Clauses have the attributes of their place, but the short names of the end of the body.
      cases n with
      | module => exact (hn rfl).elim
      | define visibility head clause =>
        have hclause : (E.under (some m.attributes)).Knows (⟨path, body⟩ :: frames) := hend
        exact .definition (suits_nameReading hclause hkernel)
      | attributeSet => exact .attributeSet hhere rfl
      | defStruct | defException => exact .struct rfl (suits_nameReading hend hkernel)
      | importAll | importOnly | aliasAs | require => exact .importing rfl
      | _ => exact .statements rfl hhere

/-- Readings that agree on what each item mentions flatten a body alike. -/
theorem flattened_congr {reading' : List Node → Node → Reading} {ns : List Node}
    (h : ∀ front n back, ns = front ++ n :: back → n.isModule = false →
      n.written (reading (before ++ front) n) = n.written (reading' (before ++ front) n)) :
    flattened reading before ns = flattened reading' before ns := by
  induction ns generalizing before with
  | nil => rfl
  | cons n ns ih =>
    have hrest : flattened reading (before ++ [n]) ns = flattened reading' (before ++ [n]) ns := by
      refine ih fun front k back hns hk => ?_
      have hitem := h (n :: front) k back (by rw [hns, List.cons_append]) hk
      rwa [← List.singleton_append, ← List.append_assoc] at hitem
    rw [flattened, flattened, hrest]
    split
    · rfl
    next hn =>
      have hitem := h [] n ns rfl (Bool.eq_false_of_not_eq_true hn)
      rw [List.append_nil] at hitem
      rw [hitem]

variable {c : Config} {s : State} {body : List Node} {definition : ModuleDef}

/-- A module on its own, with each name written out where it is lowered. -/
theorem moduleDef_alone (hknows : (s.entering path body).Knows frames)
    (hkernel : ∀ f ∈ ⟨path, body⟩ :: frames, f.items.any (·.introduces ["Kernel"]) = false)
    (h : (moduleDef path body (items body) c s).1 = .ok definition) :
    (moduleDef path (alone path frames Node.isLate body)
      (items (alone path frames Node.isLate body)) c {}).1 =
        .ok { definition with body := keeping false definition.body } := by
  have hempty := hknows.enter path
  refine moduleDef_of_bodyMirrors ?_ h
  rw [alone, entering_flattened s path [] body, ← bare_afterAll]
  exact bodyMirrors_flattened rfl hempty (hempty.afterAll body) hkernel rfl

/-- Clauses that mention no module which only follows are the same for both places. -/
theorem alone_eq_of_placed
    (hplaced : ∀ before n after, body = before ++ n :: after → n.isDefinition = true →
      ∀ segments, n.Mentions segments → after.any (·.introduces segments) = true →
        before.any (·.introduces segments) = true) :
    alone path frames Node.definesStruct body = alone path frames Node.isLate body := by
  refine flattened_congr fun before n after hbody hn => ?_
  rw [placeReading, placeReading, Node.isLate]
  cases hdefinition : n.isDefinition with
  | false => rfl
  | true =>
    have hstruct : n.definesStruct = false := by
      obtain ⟨visibility, head, clause, rfl⟩ := exists_of_isDefinition hdefinition
      rfl
    refine written_congr (fun _ _ => rfl) fun segments hmentions => ?_
    rw [hstruct, Bool.or_false, if_neg Bool.false_ne_true, if_pos rfl, hbody]
    exact (expand_end_eq hn (hplaced before n after hbody hdefinition segments hmentions)).symm

end Flattening

/-- Short names of nested modules, in a program that lowers and for any module in it. Behind any of
its items a name stands for what `expand` reads off the items up to there. If no module around has
one inside that hides `Kernel`, whose tests are known by that name, the module on its own, with its
names written out so, comes to the same module; clauses are read at the end of the body. They too can
be written out for their place, if they mention no module that only follows. -/
theorem short_names_follow_their_modules {config : Config} {nodes forms : List Node}
    {program : Program} (lowers : lowerProgram config nodes = .ok program)
    (plain : Node.removePipesList nodes = .ok forms) {path : List String} {body : List Node}
    {frames : List Frame} (stands : StandsAmid forms path body frames) :
    ∃ s m, LoweredFrom config forms path body s ∧
      (moduleDef path body (items body) config s).1 = .ok m ∧ m ∈ stmtsModules program.body ∧
      (∀ before after draft t (u : State), body = before ++ after →
        takeItems path {} (items before) config { context := some (s.entering path body) } =
          (.ok draft, t) → u.context = t.context →
        ∀ segments, u.resolveModule segments = expand (⟨path, before⟩ :: frames) segments) ∧
      ((∀ f ∈ ⟨path, body⟩ :: frames, f.items.any (·.introduces ["Kernel"]) = false) →
        (moduleDef path (alone path frames Node.isLate body)
          (items (alone path frames Node.isLate body)) config {}).1 =
            .ok { m with body := keeping false m.body } ∧
        ((∀ before n after, body = before ++ n :: after → n.isDefinition = true →
            ∀ segments, n.Mentions segments → after.any (·.introduces segments) = true →
              before.any (·.introduces segments) = true) →
          (moduleDef path (alone path frames Node.definesStruct body)
            (items (alone path frames Node.definesStruct body)) config {}).1 =
              .ok { m with body := keeping false m.body })) := by
  obtain ⟨forms', s', hforms, hrun⟩ := lowerProgram_ok.mp lowers
  obtain rfl : forms = forms' := Except.ok.inj (plain.symm.trans hforms)
  obtain ⟨s, hs, hknows⟩ := stands.loweredFrom hrun
  obtain ⟨m, hm, hwithin⟩ := hs.emitted hrun
  refine ⟨s, m, hs, hm, hwithin m (by cases m; simp), ?_, fun hkernel => ?_⟩
  · rintro before after draft t u rfl hbefore hu segments
    have hcontext := hu.trans (takeItems_context hbefore rfl rfl)
    rw [resolveModule_of_context hcontext]
    exact (hknows.enter path).afterAll before segments
  · have halone := moduleDef_alone hknows hkernel hm
    refine ⟨halone, fun hplaced => ?_⟩
    rw [alone_eq_of_placed hplaced]
    exact halone

section Sample

/-- A module that uses the short names of itself and of the modules inside of it, in a pattern, in
calls and as values. -/
def carBody : List Node :=
  [.module ["Wheel"] [.defStruct []],
   .bind (.var "spare") (.moduleName ["Wheel", "Rim"]),
   .define .exported (.call "turn" [.struct (.moduleName ["Wheel"]) [] none] {})
    [.call "roll" [.moduleName ["Car"]] ⟨.qualified ["Wheel", "Rim"], none⟩, .moduleName ["Road"]],
   .module ["Wheel", "Rim"] []]

def garageForms : List Node := [.module ["Garage"] [.module ["Car"] carBody]]

/-- The module inside of the garage, on its own. -/
def ownCarBody : List Node :=
  [.bind (.var "spare") (.moduleName ["Garage", "Car", "Wheel", "Rim"]),
   .define .exported
    (.call "turn" [.struct (.moduleName ["Garage", "Car", "Wheel"]) [] none] {})
    [.call "roll" [.moduleName ["Garage", "Car"]]
      ⟨.qualified ["Garage", "Car", "Wheel", "Rim"], none⟩, .moduleName ["Road"]]]

theorem standsAmid_garageForms : StandsAmid garageForms ["Garage", "Car"] carBody
    [⟨["Garage"], [.module ["Car"] carBody]⟩] :=
  .inner (show StandsAmid garageForms ["Garage"] ([] ++ .module ["Car"] carBody :: []) [] from
    .top (show garageForms = [] ++ _ :: [] from rfl))

/-- The rim follows the clause, but its name starts as that of the wheel, which stands before. -/
theorem introduces_carBody {before after : List Node} {n : Node}
    (hbody : carBody = before ++ n :: after) (hn : n.isDefinition = true) (segments : List String)
    (h : after.any (·.introduces segments) = true) : before.any (·.introduces segments) = true := by
  rcases before with _ | ⟨_, _ | ⟨_, _ | ⟨_, _ | ⟨_, _⟩⟩⟩⟩
  · cases hbody; cases hn
  · cases hbody; cases hn
  · cases hbody; simpa [Node.introduces] using h
  · cases hbody; cases hn
  · simp [carBody] at hbody

theorem short_names_follow_their_modules_garageForms :
    ∃ program s m, lowerProgram {} garageForms = .ok program ∧
      LoweredFrom {} garageForms ["Garage", "Car"] carBody s ∧
      (moduleDef ["Garage", "Car"] carBody (items carBody) {} s).1 = .ok m ∧
      m ∈ stmtsModules program.body ∧
      (moduleDef ["Garage", "Car"] ownCarBody (items ownCarBody) {} {}).1 =
        .ok { m with body := keeping false m.body } := by
  obtain ⟨program, hprogram⟩ := exists_ok_of_isOk (x := lowerProgram {} garageForms) rfl
  obtain ⟨s, m, hs, hm, hmem, -, halone⟩ :=
    short_names_follow_their_modules hprogram rfl standsAmid_garageForms
  refine ⟨program, s, m, hprogram, hs, hm, hmem, (halone (by decide)).2 ?_⟩
  exact fun before n after hbody hn segments _ => introduces_carBody hbody hn segments

/-- A clause that stands before the module whose short name it has. -/
def earlyBody : List Node :=
  [.define .exported (.call "f" [] {}) [.moduleName ["Inner"]], .module ["Inner"] []]

/-- The clause knows the short name of the module that only follows. -/
theorem short_name_known_before_its_module :
    expand [⟨["Outer"], []⟩] ["Inner"] = ["Inner"] ∧
      ∃ m, lowerProgram {} [.module ["Outer"] earlyBody] = .ok ⟨[.module m]⟩ ∧
        m.functions.map (·.function.body) = [[.return_ (moduleValue ["Outer", "Inner"])]] :=
  ⟨rfl, _, rfl, rfl⟩

end Sample

end TreeLowering
