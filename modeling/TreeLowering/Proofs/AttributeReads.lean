import TreeLowering.Proofs.Capture
import TreeLowering.Proofs.MirroredModules
import TreeLowering.Proofs.StructTags

/-!
Which version of an attribute a read means.

`formBehind` reads it off the source: the name that the last value before the place has, if there is
one. In `spelled` the statements, the attributes' values and the clauses of a body have their reads
written out so, each by its own place, and the body comes to the module that it came to before. The
defaults of a struct are the exception: they are lowered behind all items, and see what the last
values of the body leave.
-/
namespace TreeLowering

open Source Target LowerM Lowering
open Identifier (IsSourceName escape versioned ofAttribute)

namespace Source

/-- The item gives the attribute a value that is kept. -/
def Node.setsAttribute (key : String) : Node → Bool
  | .attributeSet name _ => name == key && !documentationAttributes.contains name
  | _ => false

/-- The target name of a value of the attribute that stands behind these items. -/
def attributeName (before : List Node) (key : String) : String :=
  versioned (ofAttribute key) (before.countP (·.setsAttribute key))

/-- What a read of the attribute stands for behind items, of which the last one comes first. -/
def formBehind : List Node → String → AttributeForm
  | [], _ => .unset
  | n :: before, key =>
    if n.setsAttribute key then .identifier (attributeName before key) else formBehind before key

/-- The target of a read behind these items. -/
def readBehind (before : List Node) (key : String) : Expr :=
  match formBehind before key with
  | .identifier name => .ident name
  | _ => .null

/-- The reading of a place behind these items. -/
def readingBehind (before : List Node) : Reading := ⟨id, formBehind before⟩

/-- An item with the reads that are lowered at its place written out. Modules inside have places of
their own. -/
def spelledItem (before : List Node) : Node → Node
  | .module name body => .module name body
  | .defStruct fields => .defStruct fields
  | .defException fields => .defException fields
  | n => n.written (readingBehind before)

/-- The items that stand behind others, each spelled for its place. -/
def spelled (before : List Node) : List Node → List Node
  | [] => []
  | n :: ns => spelledItem before n :: spelled (n :: before) ns

end Source

section Names

open Identifier (escapeChar reservedMark versionMark toList_escape toList_ofAttribute
  flatMap_escapeChar isReserved reserved)

theorem plain_of_all {cs : List Char} (h : cs.all (· ∉ ['?', '!', '@']) = true) {d : Char}
    (hd : d ∈ cs) : d ∉ ['?', '!', '@'] :=
  of_decide_eq_true (List.all_eq_true.mp h d hd)

theorem plain_of_mem_escapeChar {c d : Char} (h : d ∈ escapeChar c) : d ∉ ['?', '!', '@'] := by
  unfold escapeChar at h
  split at h
  next => exact plain_of_all (by decide) h
  next => exact plain_of_all (by decide) h
  next => exact plain_of_all (by decide) h
  next => simp_all

theorem plain_of_mem_ofAttribute {key : String} {version : Nat} {d : Char}
    (h : d ∈ (versioned (ofAttribute key) version).toList) : d ∉ ['?', '!', '@'] := by
  have hversion : ∀ d ∈ versionMark version, d ∉ ['?', '!', '@'] := by
    intro d hd
    unfold versionMark at hd
    split at hd
    · cases hd
    · rcases List.mem_cons.mp hd with rfl | hd
      · decide
      · have hdigit := Identifier.isDigit_of_mem_toString hd
        intro hmem
        simp only [List.mem_cons, List.not_mem_nil, or_false] at hmem
        rcases hmem with rfl | rfl | rfl <;> simp at hdigit
  have hreserved : ∀ d ∈ reservedMark key, d ∉ ['?', '!', '@'] := by
    unfold reservedMark
    split <;> simp
  rw [toList_ofAttribute] at h
  simp only [List.mem_append] at h
  rcases h with h | h | h | h
  · exact plain_of_all (by decide) h
  · obtain ⟨c, -, hd⟩ := List.mem_flatMap.mp h
    exact plain_of_mem_escapeChar hd
  · exact hreserved d h
  · exact hversion d h

theorem not_isReserved_of_head? {name : String} (h : name.toList.head? = some '$') :
    isReserved name = false := by
  have hwords : ∀ word ∈ reserved, word.toList.head? ≠ some '$' := by decide
  rw [isReserved, List.contains_eq_mem, decide_eq_false_iff_not]
  exact fun hmem => hwords name hmem h

/-- The name of an attribute's version needs no escape. -/
theorem escape_ofAttribute (key : String) (version : Nat) :
    escape (versioned (ofAttribute key) version) = versioned (ofAttribute key) version := by
  have hplain : (versioned (ofAttribute key) version).toList.flatMap escapeChar =
      (versioned (ofAttribute key) version).toList :=
    flatMap_escapeChar fun _ => plain_of_mem_ofAttribute
  have hhead : (versioned (ofAttribute key) version).toList.head? = some '$' := by
    rw [toList_ofAttribute]
    rfl
  have hmark : reservedMark (versioned (ofAttribute key) version) = [] := by
    rw [reservedMark, hplain, String.ofList_toList, not_isReserved_of_head? hhead]
    rfl
  rw [← String.toList_inj, toList_escape, hplain, hmark, List.append_nil]

end Names

section Places

variable {m : ModuleContext} {before : List Node}

/-- The module stands behind these items, as far as attributes go. -/
structure PlacedBehind (before : List Node) (m : ModuleContext) : Prop where
  versions : ∀ key, m.attributeVersions.next key = before.countP (·.setsAttribute key)
  forms : ∀ key, (formBehind before key).Suits m m key

/-- Whether a form suits depends on the version in force. -/
theorem suits_of_get?_eq {m' : ModuleContext} {key : String} {form : AttributeForm}
    (heq : m'.attributes.get? key = m.attributes.get? key) (h : form.Suits m m key) :
    form.Suits m' m' key := by
  cases form with
  | kept => rfl
  | unset => exact heq.trans h
  | identifier name =>
    obtain ⟨version, hversion, hname⟩ := h
    exact ⟨version, heq.trans hversion, hname⟩

/-- An item that sets no attribute leaves the place as it is. -/
theorem PlacedBehind.pass (h : PlacedBehind before m) {n : Node}
    (hn : ∀ key, n.setsAttribute key = false) : PlacedBehind (n :: before) m := by
  refine ⟨fun key => ?_, fun key => ?_⟩
  · rw [List.countP_cons_of_neg (by rw [hn key]; decide), h.versions key]
  · rw [formBehind, hn key]
    exact h.forms key

theorem PlacedBehind.after (h : PlacedBehind before m) (n : Node) :
    PlacedBehind (n :: before) (m.after n) := by
  cases n with
  | attributeSet name value =>
    rw [ModuleContext.after]
    split
    next hlisted =>
      refine h.pass fun key => ?_
      rw [Node.setsAttribute, hlisted, Bool.not_true, Bool.and_false]
    next hlisted =>
      have hsets : ∀ key, (Node.attributeSet name value).setsAttribute key = (name == key) := by
        intro key
        rw [Node.setsAttribute, Bool.eq_false_of_not_eq_true hlisted, Bool.not_false, Bool.and_true]
      refine ⟨fun key => ?_, fun key => ?_⟩
      · rw [List.countP_cons, hsets, ← h.versions key, ModuleContext.withAttribute,
          NameTable.next_set]
        by_cases hkey : key = name
        · simp [hkey]
        · simp [hkey, Ne.symm hkey]
      · rw [formBehind, hsets]
        by_cases hkey : name = key
        · subst hkey
          rw [beq_self_eq_true, if_pos rfl]
          refine ⟨m.attributeVersions.next name, ?_, ?_⟩
          · rw [ModuleContext.withAttribute, NameTable.get?_set, if_pos rfl]
          · rw [attributeName, escape_ofAttribute, h.versions name]
        · rw [beq_eq_false_iff_ne.mpr hkey]
          refine suits_of_get?_eq ?_ (h.forms key)
          rw [ModuleContext.withAttribute, NameTable.get?_set, if_neg (Ne.symm hkey)]
  | module inner body =>
    have hpassed := h.pass (n := .module inner body) fun _ => rfl
    cases inner with
    | nil => exact hpassed
    | cons first rest =>
      exact ⟨hpassed.versions, fun key => suits_of_get?_eq rfl (hpassed.forms key)⟩
  | _ => exact h.pass fun _ => rfl

/-- Where a module starts, no attribute is set. -/
theorem placedBehind_nil (s : State) (name : List String) (body : List Node) :
    PlacedBehind [] (s.entering name body) :=
  ⟨fun _ => rfl, fun _ => rfl⟩

theorem PlacedBehind.afterAll (h : PlacedBehind before m) (ns : List Node) :
    PlacedBehind (ns.reverse ++ before) (m.afterAll ns) := by
  induction ns generalizing m before with
  | nil => exact h
  | cons n ns ih =>
    rw [List.reverse_cons, List.append_assoc]
    exact ih (h.after n)

/-- What stands for a read is lowered to the target of the read, whatever the state. -/
theorem value_formBehind (before : List Node) (key : String) (c : Config) (s : State) :
    (positions ((formBehind before key).node key)).value c s =
      (.ok (readBehind before key), s) := by
  induction before with
  | nil => rfl
  | cons n before ih =>
    rw [readBehind, formBehind]
    split
    · rw [AttributeForm.node, positions]
      exact congrArg (fun name => (Except.ok (Expr.ident name), s)) (escape_ofAttribute key _)
    · exact ih

end Places

section Bodies

variable {m E : ModuleContext} {before : List Node}

theorem suits_readingBehind (h : PlacedBehind before m) (hE : E.attributes = m.attributes) :
    (readingBehind before).Suits E E where
  name_eq := rfl
  functions_eq := rfl
  module_eq _ := rfl
  kernel _ := Iff.rfl
  read key := suits_of_get?_eq (congrArg (·.get? key) hE) (h.forms key)

theorem suits_plain (m : ModuleContext) : Reading.plain.Suits m m where
  name_eq := rfl
  functions_eq := rfl
  module_eq _ := rfl
  kernel _ := Iff.rfl
  read _ := rfl

/-- An item that is left as it is. -/
theorem itemMirrors_self {n : Node} (h : ∀ inner body, n ≠ .module inner body) :
    ItemMirrors E E m m n n := by
  have hwritten : ItemMirrors E E m m n (n.written .plain) := by
    cases n with
    | module inner body => exact (h inner body rfl).elim
    | define => exact .definition (suits_plain _)
    | attributeSet => exact .attributeSet (suits_plain m) rfl
    | defStruct | defException => exact .struct rfl (suits_plain E)
    | importAll | importOnly | aliasAs | require => exact .importing rfl
    | _ => exact .statements rfl (suits_plain m)
  rwa [written_plain] at hwritten

theorem sameOutline_spelledItem (before : List Node) (n : Node) :
    SameOutline n (spelledItem before n) := by
  cases n with
  | module | defStruct | defException => exact SameOutline.refl _
  | _ => exact sameOutline_written (readingBehind before) _

theorem sameOutline_spelled (before ns : List Node) :
    List.Forall₂ SameOutline ns (spelled before ns) := by
  induction ns generalizing before with
  | nil => exact .nil
  | cons n ns ih => exact .cons (sameOutline_spelledItem before n) (ih _)

/-- Each item is spelled as it is to be read where it is lowered. -/
theorem bodyMirrors_spelled (h : PlacedBehind before m) (ns : List Node) :
    BodyMirrors true E E m m ns (spelled before ns) := by
  induction ns generalizing m before with
  | nil => exact .nil
  | cons n ns ih =>
    have hrest : BodyMirrors true E E (m.after n) (m.after (spelledItem before n)) ns
        (spelled (n :: before) ns) := by
      rw [(sameOutline_spelledItem before n).after]
      exact ih (h.after n)
    have hhere := suits_readingBehind h (E := m) rfl
    cases n with
    | define visibility head body => exact .item (.definition (suits_readingBehind h rfl)) hrest
    | attributeSet key value => exact .item (.attributeSet hhere rfl) hrest
    | module inner body => exact .kept rfl hrest
    | defStruct fields | defException fields =>
      exact .item (itemMirrors_self (by simp)) hrest
    | importAll | importOnly | aliasAs | require => exact .item (.importing rfl) hrest
    | _ => exact .item (.statements rfl hhere) hrest

end Bodies

section Once

open Scoping

/-- A name that is not repeated stands in the list once. -/
theorem count_eq_one_of_pairwise {P : String → Prop} {l : List String}
    (h : l.Pairwise fun t u => t = u → P t) {t : String} (ht : t ∈ l) (hP : ¬ P t) :
    l.count t = 1 := by
  induction h with
  | nil => cases ht
  | @cons first rest hfirst _ ih =>
    rw [List.count_cons]
    rcases List.mem_cons.mp ht with rfl | hmem
    · have hnone : t ∉ rest := fun hmem => hP (hfirst t hmem rfl)
      rw [List.count_eq_zero_of_not_mem hnone, beq_self_eq_true, if_pos rfl]
    · have hne : first ≠ t := fun heq => hP (heq ▸ hfirst t hmem heq)
      rw [ih hmem, beq_eq_false_iff_ne.mpr hne, if_neg Bool.false_ne_true]

theorem mem_declaredNames_of_const {name : String} {value : Expr} {stmts : List Stmt}
    (h : .const name value ∈ stmts) : name ∈ declaredNames (stmtsMarks stmts) := by
  induction stmts with
  | nil => cases h
  | cons stmt stmts ih =>
    rw [stmtsMarks, declaredNames_append]
    rcases List.mem_cons.mp h with rfl | h
    · refine List.mem_append_left _ ?_
      simp [Stmt.const, declaredNames]
    · exact List.mem_append_right _ (ih h)

/-- The value of an attribute is declared under the name of its place. -/
theorem const_mem_body {c : Config} {s : State} {name : List String} {before after : List Node}
    {key : String} {value : Node} {m : ModuleDef}
    (hkey : documentationAttributes.contains key = false)
    (h : (moduleDef name (before ++ .attributeSet key value :: after)
      (items (before ++ .attributeSet key value :: after)) c s).1 = .ok m) :
    ∃ lowered, .const (attributeName before key) lowered ∈ m.body := by
  obtain ⟨draft, s₁, generated, s₂, functions, s₃, hdraft, -, -, rfl⟩ := moduleDef_value h
  obtain ⟨draft₁, t₁, draft₂, t₂, hfront, hitem, hback⟩ := takeItems_split hdraft
  have hplace :=
    (placedBehind_nil s name (before ++ .attributeSet key value :: after)).afterAll before
  have hcontext := takeItems_context hfront rfl rfl
  cases hitem with
  | documentation listed => rw [hkey] at listed; cases listed
  | @attributeSet _ _ lowered t₃ unlisted lowers =>
    have hversion : t₃.attributeVersions.next key = before.countP (·.setsAttribute key) := by
      have hcount := hplace.versions key
      rw [List.append_nil, List.countP_reverse] at hcount
      rw [← hcount, State.attributeVersions, (value_leaves lowers).1.context, hcontext]
      rfl
    refine ⟨lowered, takeItems_keeps (P := fun draft => _ ∈ draft.body)
      (fun _ _ _ _ _ _ htakes => htakes.mem_body) hback ?_⟩
    rw [hversion]
    exact List.mem_append_right _ (List.mem_singleton_self _)
  | importing form | struct form | statements form => cases form

theorem Scoping.IsAttribute.take {t : String} (h : IsAttribute t) :
    t.toList.take 6 = "$attr_".toList := by
  obtain ⟨a, version, rfl⟩ := h
  rw [Identifier.toList_ofAttribute]
  rfl

/-- What sets no attribute declares no name of one. -/
theorem coversParts_notAttribute (functions : List String) (c : Config) :
    CoversParts functions c IsSourceName IsSourceName
      (fun _ ms => ∀ t ∈ declaredNames ms, ¬ IsAttribute t) := by
  rintro n m es ms - - hkept hemits _ ht ⟨a, version, rfl⟩
  -- A name of an attribute would be the next version of it, but no attribute has a new one here.
  obtain ⟨i, hi⟩ | hnumbered | hversioned :=
    (hemits.allocates (fun _ => id) (fun _ => id)).declared _ ht
  · exact Identifier.invented_ne_ofAttribute (by decide) hi.symm
  · exact hnumbered.ne_ofAttribute (fun _ => id) _ _ rfl
  · generalize hname : versioned (ofAttribute a) version = t at hversioned
    obtain ⟨-, first, last⟩ := hversioned
    rw [hkept] at last
    omega

/-- A module declares each name once among its statements, and no name of an attribute inside of its
functions. -/
theorem attributes_declared_once {c : Config} {s : State} {name : List String} {body : List Node}
    {m : ModuleDef} (named : ∀ n ∈ body, n.Named IsSourceName IsSourceName)
    (h : (moduleDef name body (items body) c s).1 = .ok m) :
    (declaredNames (stmtsMarks m.body)).Pairwise (fun t u => t = u → IsArgument t) ∧
      ∀ f ∈ m.functions, ∀ t ∈ declaredNames (functionMarks f.function), ¬ IsAttribute t := by
  have hcovers : CoversIn (body.flatMap declaredFunctions) c IsSourceName IsSourceName
      (fun _ ms => (declaredNames ms).Pairwise fun t u => t = u → IsArgument t) :=
    fun _ _ _ _ _ _ hemits => (hemits.allocates (fun _ => id) (fun _ => id)).once
  have hinner : ∀ n ∈ body, ∀ inner body', n = .module inner body' →
      ModuleRuns c (fun _ _ => True) body' :=
    fun n hn => moduleRuns (fun _ _ _ _ _ _ => trivial) n (named n hn)
  obtain ⟨honce, -, hfunctions, -⟩ :=
    moduleDef_follows hcovers (coversParts_notAttribute _ c) named hinner (Prod.ext h rfl)
  refine ⟨honce, fun f hf => (hfunctions f hf).declares (fun _ _ own => own) ?_ ?_⟩
  · exact fun hattribute => absurd hattribute.take (by decide)
  · exact fun hattribute => absurd hattribute.take (by decide)

theorem not_isArgument_ofAttribute (key : String) (version : Nat) :
    ¬ IsArgument (versioned (ofAttribute key) version) :=
  fun ⟨_, hi⟩ => Identifier.invented_ne_ofAttribute (by decide) hi.symm

end Once

/-- Reads of attributes mean the last value before them. A body that lowers comes to the same module
when the reads in its statements, in the attributes' values and in its clauses are written out: as
the name that the last value before that statement or clause has, or as `nil` when there is none. If
variables and attributes have source names, that name is declared once in the module, by a constant
among its statements. -/
theorem attribute_reads_see_their_place {c : Config} {s : State} {name : List String}
    {body : List Node} {m : ModuleDef} (h : (moduleDef name body (items body) c s).1 = .ok m) :
    (moduleDef name (spelled [] body) (items (spelled [] body)) c s).1 = .ok m ∧
    (∀ before key c' s', (positions ((formBehind before key).node key)).value c' s' =
      (.ok (readBehind before key), s')) ∧
    ((∀ n ∈ body, n.Named IsSourceName IsSourceName) →
      ∀ before key value after, body = before ++ .attributeSet key value :: after →
        documentationAttributes.contains key = false →
        (∃ lowered, .const (attributeName before key) lowered ∈ m.body) ∧
        (Scoping.declaredNames (Scoping.stmtsMarks m.body)).count (attributeName before key) = 1 ∧
        ∀ f ∈ m.functions, attributeName before key ∉
          Scoping.declaredNames (Scoping.functionMarks f.function)) := by
  refine ⟨?_, value_formBehind, ?_⟩
  · exact moduleDef_of_sameOutline (sameOutline_spelled [] body)
      (bodyMirrors_spelled (placedBehind_nil s name body) body) h
  · rintro named before key value after rfl hkey
    obtain ⟨lowered, hconst⟩ := const_mem_body hkey h
    obtain ⟨honce, hfunctions⟩ := attributes_declared_once named h
    refine ⟨⟨lowered, hconst⟩, ?_, fun f hf ht => hfunctions f hf _ ht ⟨key, _, rfl⟩⟩
    exact count_eq_one_of_pairwise honce (mem_declaredNames_of_const hconst)
      (not_isArgument_ofAttribute key _)

/-- A limit that is set twice, the second time from the first. -/
def limitsBody : List Node :=
  [.attributeSet "limit" (.integer 1),
   .define .exported
    (.guarded [.call "fits?" [.var "n"] {}] (.binaryOp "<" (.var "n") (.attributeRead "limit")))
    [.fn [⟨[], [.attributeRead "limit"]⟩]],
   .attributeSet "limit" (.list [.attributeRead "limit", .attributeRead "other"]),
   .module ["Inner"] [.attributeSet "limit" (.integer 7)],
   .bind (.var "x") (.attributeRead "limit"),
   .define .exported (.call "fits?" [.nil] {}) [.attributeRead "limit"]]

theorem limitsBody_named : ∀ n ∈ limitsBody, n.Named IsSourceName IsSourceName := by
  simp only [limitsBody, List.forall_mem_cons, Node.Named, Node.names_eq, Node.children,
    Node.definitionChildren, Node.clauseChildren, Node.headChildren, Node.ownNames,
    Node.Naming.Satisfies, List.flatMap_cons, List.flatMap_nil, List.cons_append, List.nil_append,
    List.append_nil, List.not_mem_nil, false_implies, implies_true, and_true]
  decide

theorem attribute_reads_see_their_place_limitsBody :
    ∃ m, (moduleDef ["Limits"] limitsBody (items limitsBody) {} {}).1 = .ok m ∧
      (moduleDef ["Limits"] (spelled [] limitsBody) (items (spelled [] limitsBody)) {} {}).1 =
        .ok m ∧
      (∃ lowered, .const "$attr_limit$1" lowered ∈ m.body) ∧
      (Scoping.declaredNames (Scoping.stmtsMarks m.body)).count "$attr_limit$1" = 1 := by
  obtain ⟨m, hm⟩ :=
    exists_ok_of_isOk (x := (moduleDef ["Limits"] limitsBody (items limitsBody) {} {}).1) rfl
  obtain ⟨hspelled, -, hdeclared⟩ := attribute_reads_see_their_place hm
  obtain ⟨hconst, honce, -⟩ :=
    hdeclared limitsBody_named (limitsBody.take 2) "limit" _ (limitsBody.drop 3) rfl (by decide)
  exact ⟨m, hm, hspelled, hconst, honce⟩

/-- An attribute that is called as a version of another one, and a variable whose name is spelled as
that of an attribute. -/
def meetingBody : List Node :=
  [.attributeSet "x" (.integer 1), .attributeSet "x" (.integer 2),
   .attributeSet "x$1" (.integer 3), .bind (.var "@tr_x") (.integer 4),
   .define .exported (.call "f" [] {}) [.attributeRead "x"]]

/-- Names that no source name is can meet: what a read of `x` means is declared twice. -/
theorem attribute_name_declared_twice :
    ∃ m, lowerProgram {} [.module ["Host"] meetingBody] = .ok ⟨[.module m]⟩ ∧
      m.functions.map (·.function.body) = [[.return_ (.ident "$attr_x$1")]] ∧
      Scoping.declaredNames (Scoping.stmtsMarks m.body) =
        ["$attr_x", "$attr_x$1", "$attr_x$1", "$attr_x"] :=
  ⟨_, rfl, rfl, rfl⟩

namespace Source

/-- A struct definition with the reads in its defaults written out, and any other item as it is. -/
def withDefaults (r : Reading) (n : Node) : Node :=
  if n.definesStruct then n.written r else n

end Source

section Defaults

variable {m E : ModuleContext} {r : Reading}

/-- The form of a read is given by the number of values before it. -/
theorem formBehind_eq (before : List Node) (key : String) :
    formBehind before key = match before.countP (·.setsAttribute key) with
      | 0 => .unset
      | version + 1 => .identifier (versioned (ofAttribute key) version) := by
  induction before with
  | nil => rfl
  | cons n before ih =>
    rw [formBehind]
    split
    next hsets => rw [List.countP_cons_of_pos hsets, attributeName]
    next hsets => rw [List.countP_cons_of_neg hsets, ih]

theorem formBehind_inj {before before' : List Node} {key : String} :
    formBehind before key = formBehind before' key ↔
      before.countP (·.setsAttribute key) = before'.countP (·.setsAttribute key) := by
  rw [formBehind_eq, formBehind_eq]
  generalize before.countP (·.setsAttribute key) = i
  generalize before'.countP (·.setsAttribute key) = j
  refine ⟨fun h => ?_, fun h => by rw [h]⟩
  cases i with
  | zero => cases j with
    | zero => rfl
    | succ j => cases h
  | succ i => cases j with
    | zero => cases h
    | succ j =>
      have hlist := congrArg String.toList (AttributeForm.identifier.inj h)
      rw [Identifier.toList_versioned, Identifier.toList_versioned] at hlist
      exact congrArg (· + 1) (Identifier.versionMark_inj (List.append_cancel_left hlist))

/-- A read at the end of a body means what it means at a place, just when the attribute is not set
behind the place. -/
theorem formBehind_end_iff {before after : List Node} {n : Node} (hn : n.definesStruct = true)
    (key : String) :
    formBehind (before ++ n :: after).reverse key = formBehind before.reverse key ↔
      ∀ later ∈ after, later.setsAttribute key = false := by
  have hplain : n.setsAttribute key = false := by
    cases n with
    | attributeSet => cases hn
    | _ => rfl
  rw [formBehind_inj, List.countP_reverse, List.countP_reverse, List.countP_append,
    List.countP_cons_of_neg (by rw [hplain]; decide), Nat.add_eq_left, List.countP_eq_zero]
  simp only [Bool.not_eq_true]

/-- Bodies that differ in the defaults of struct definitions, which are written out for the end of
the body. -/
theorem moduleDef_of_defaults {c : Config} {s : State} {name : List String} {body body' : List Node}
    {definition : ModuleDef}
    (hbody : List.Forall₂ (fun n n' => n' = n ∨ n.definesStruct = true ∧
      n' = n.written (readingBehind body.reverse)) body body')
    (h : (moduleDef name body (items body) c s).1 = .ok definition) :
    (moduleDef name body' (items body') c s).1 = .ok definition := by
  have hend := (placedBehind_nil s name body).afterAll body
  rw [List.append_nil] at hend
  have hsuits := suits_readingBehind hend rfl
  refine moduleDef_of_sameOutline ?_ ?_ h
  · refine hbody.imp ?_
    rintro n _ (rfl | ⟨-, rfl⟩)
    · exact .refl _
    · exact sameOutline_written _ n
  -- The induction is on the items, while the end of the body that the defaults see stays fixed.
  · generalize (s.entering name body).afterAll body = E at hsuits
    generalize s.entering name body = m
    generalize readingBehind body.reverse = r at hbody hsuits
    clear h hend
    induction hbody generalizing m with
    | nil => exact .nil
    | @cons n n' ns ns' hfirst _ ih =>
      rcases hfirst with rfl | ⟨hstruct, rfl⟩
      · cases n' with
        | module inner body => exact .kept rfl (ih _)
        | _ => exact .item (itemMirrors_self (by simp)) (ih _)
      · refine .item (.struct hstruct hsuits) ?_
        rw [ModuleContext.after_written]
        exact ih _

end Defaults

/-- Reads of attributes in the defaults of a struct mean the last value in the whole body. A body
that lowers comes to the same module when they are written out so. This is the last value before the
struct definition just when none follows; where none follows that is read, the defaults can be
written out for their own place. -/
theorem struct_defaults_see_last_values {c : Config} {s : State} {name : List String}
    {body : List Node} {m : ModuleDef} (h : (moduleDef name body (items body) c s).1 = .ok m) :
    (moduleDef name (body.map (withDefaults (readingBehind body.reverse)))
      (items (body.map (withDefaults (readingBehind body.reverse)))) c s).1 = .ok m ∧
    ∀ before n after, body = before ++ n :: after → n.definesStruct = true →
      (∀ key, formBehind body.reverse key = formBehind before.reverse key ↔
        ∀ later ∈ after, later.setsAttribute key = false) ∧
      ((∀ key, n.Reads key → ∀ later ∈ after, later.setsAttribute key = false) →
        (moduleDef name (before ++ n.written (readingBehind before.reverse) :: after)
          (items (before ++ n.written (readingBehind before.reverse) :: after)) c s).1 = .ok m) := by
  refine ⟨moduleDef_of_defaults ?_ h, ?_⟩
  · rw [List.forall₂_map_right_iff]
    refine List.forall₂_same.mpr fun n _ => ?_
    unfold withDefaults
    split
    next hstruct => exact .inr ⟨hstruct, rfl⟩
    next => exact .inl rfl
  · rintro before n after rfl hstruct
    refine ⟨formBehind_end_iff hstruct, fun hlater => moduleDef_of_defaults ?_ h⟩
    have hwritten : n.written (readingBehind before.reverse) =
        n.written (readingBehind (before ++ n :: after).reverse) :=
      written_congr (fun key hkey => ((formBehind_end_iff hstruct key).mpr (hlater key hkey)).symm)
        fun _ _ => rfl
    rw [hwritten]
    have hkept : ∀ (r : Reading) (ns : List Node), List.Forall₂ (fun n n' => n' = n ∨
        n.definesStruct = true ∧ n' = n.written r) ns ns :=
      fun _ _ => List.forall₂_same.mpr fun _ _ => .inl rfl
    exact List.rel_append (hkept _ before) (.cons (.inr ⟨hstruct, rfl⟩) (hkept _ after))

/-- A struct whose default is read from an attribute; only another one is set behind it. -/
def windowBody : List Node :=
  [.attributeSet "width" (.integer 80), .attributeSet "width" (.integer 100),
   .defStruct [("width", .attributeRead "width"), ("title", .string "none")],
   .attributeSet "height" (.integer 25)]

theorem reads_windowBody {key : String}
    (h : (Node.defStruct [("width", .attributeRead "width"), ("title", .string "none")]).Reads key) :
    key = "width" := by
  cases h with
  | inside part occurs =>
    simp only [Node.parts, Node.assembly, Assembly.parts_map, Assembly.parts_each, Assembly.field,
      Assembly.parts_node, List.flatMap_cons, List.flatMap_nil, List.append_nil, List.cons_append,
      List.nil_append, List.mem_cons, List.not_mem_nil, or_false] at part
    rcases part with rfl | rfl
    · cases occurs with
      | self => rfl
      | inside part _ => cases part
    · cases occurs with
      | inside part _ => cases part

theorem struct_defaults_see_last_values_windowBody :
    ∃ m, (moduleDef ["Window"] windowBody (items windowBody) {} {}).1 = .ok m ∧
      (moduleDef ["Window"]
        [.attributeSet "width" (.integer 80), .attributeSet "width" (.integer 100),
          .defStruct [("width", .capture none "$attr_width$1" 0), ("title", .string "none")],
          .attributeSet "height" (.integer 25)]
        (items [.attributeSet "width" (.integer 80), .attributeSet "width" (.integer 100),
          .defStruct [("width", .capture none "$attr_width$1" 0), ("title", .string "none")],
          .attributeSet "height" (.integer 25)]) {} {}).1 = .ok m := by
  obtain ⟨m, hm⟩ :=
    exists_ok_of_isOk (x := (moduleDef ["Window"] windowBody (items windowBody) {} {}).1) rfl
  obtain ⟨-, hplaces⟩ := struct_defaults_see_last_values hm
  refine ⟨m, hm, (hplaces (windowBody.take 2) _ (windowBody.drop 3) rfl rfl).2 ?_⟩
  intro key hreads
  rw [reads_windowBody hreads]
  decide

/-- A struct whose default is read from an attribute that is set again behind it. -/
def resizedBody : List Node :=
  [.attributeSet "x" (.integer 1), .defStruct [("size", .attributeRead "x")],
   .attributeSet "x" (.integer 2)]

/-- The default means the value that follows the struct, not the one before it. -/
theorem struct_default_reads_later_value :
    formBehind [.attributeSet "x" (.integer 1)] "x" = .identifier "$attr_x" ∧
      ∃ m, lowerProgram {} [.module ["Limits"] resizedBody] = .ok ⟨[.module m]⟩ ∧
        m.body = [.const "$attr_x" (.integer 1), .const "$attr_x$1" (.integer 2)] ∧
        m.functions.map (·.function.body) =
          [[.return_ (RuntimeLibrary.specialForm ⟨"Runtime"⟩ "struct"
            [moduleValue ["Limits"], .object [.computed (atomValue "size") (.ident "$attr_x$1")],
              .ident "$values"])]] :=
  ⟨rfl, _, rfl, rfl, rfl⟩

end TreeLowering
