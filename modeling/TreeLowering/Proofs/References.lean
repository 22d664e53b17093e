import TreeLowering.Proofs.Assembly
import TreeLowering.Proofs.LoweredParts
import TreeLowering.Proofs.PatternRules

/-!
Trees with their references written out.

What a read of an attribute and the name of a module stand for depends on the module around and on
the place. A `Reading` says it once for all reads and names of a tree, and `Node.written` is the tree
that says it itself: the attribute's identifier in the place of the read, and the full name in the
place of the name. It has the shape of the tree that it is made from, in all that a rule asks about
the shapes of its parts.
-/
namespace TreeLowering.Source

open Target

/-- What stands in the place of the read of an attribute. -/
inductive AttributeForm where
  /-- The read itself. -/
  | kept
  | unset
  | identifier (name : String)
  deriving DecidableEq, Repr

/-- An identifier is written as the reference to a function is, which is the bare name. -/
def AttributeForm.node (key : String) : AttributeForm → Node
  | .kept => .attributeRead key
  | .unset => .nil
  | .identifier name => .capture none name 0

/-- What the names of modules and the reads of attributes stand for. -/
structure Reading where
  module : List String → List String
  read : String → AttributeForm

def CallMeta.written (r : Reading) (info : CallMeta) : CallMeta :=
  match info.resolution with
  | .qualified module => { info with resolution := .qualified (r.module module) }
  | .unqualified | .imported => info

mutual

/-- The tree with its references written out. -/
@[simp]
def Node.written (r : Reading) : Node → Node
  | .attributeRead name => (r.read name).node name
  | .moduleName segments => .moduleName (r.module segments)
  | .list items => .list (writtenAll r items)
  | .cons head tail => .cons (writtenAll r head) (tail.written r)
  | .tuple items => .tuple (writtenAll r items)
  | .binary segments => .binary (writtenSegments r segments)
  | .map entries => .map (writtenEntries r entries)
  | .mapUpdate base updates => .mapUpdate (base.written r) (writtenEntries r updates)
  | .struct tag fields update =>
    .struct (tag.written r) (writtenEntries r fields) (writtenOption r update)
  | .bind pattern value => .bind (pattern.written r) (value.written r)
  | .pin operand => .pin (operand.written r)
  | .guarded exprs guard => .guarded (writtenAll r exprs) (guard.written r)
  | .binaryOp op left right => .binaryOp op (left.written r) (right.written r)
  | .unaryOp op operand => .unaryOp op (operand.written r)
  | .pipe left right => .pipe (left.written r) (right.written r)
  | .range first last step => .range (first.written r) (last.written r) (writtenOption r step)
  | .call name args info => .call name (writtenAll r args) (info.written r)
  | .dot target name args info => .dot (target.written r) name (writtenOptionAll r args) info
  | .apply callee args => .apply (callee.written r) (writtenAll r args)
  | .capture owner name arity => .capture (writtenOption r owner) name arity
  | .fn clauses => .fn (writtenClauses r clauses)
  | .caseOf subject clauses => .caseOf (subject.written r) (writtenClauses r clauses)
  | .cond clauses => .cond (writtenClauses r clauses)
  | .ifElse condition body otherwise =>
    .ifElse (condition.written r) (writtenAll r body) (writtenOptionAll r otherwise)
  | .unlessElse condition body otherwise =>
    .unlessElse (condition.written r) (writtenAll r body) (writtenOptionAll r otherwise)
  | .comprehension qualifiers body into =>
    .comprehension (writtenQualifiers r qualifiers) (writtenAll r body) (writtenOption r into)
  | .block items => .block (writtenAll r items)
  | .raise exception attributes => .raise (exception.written r) (writtenOption r attributes)
  | .integer value => .integer value
  | .float value => .float value
  | .string text => .string text
  | .boolean value => .boolean value
  | .nil => .nil
  | .atom name => .atom name
  | .var name => .var name
  | .define visibility head body => .define visibility (head.written r) (writtenAll r body)
  | .module name body => .module name (writtenAll r body)
  | .attributeSet name value => .attributeSet name (value.written r)
  | .defStruct fields => .defStruct (writtenFields r fields)
  | .defException fields => .defException (writtenFields r fields)
  | .importAll module => .importAll module
  | .importOnly module only => .importOnly module only
  | .aliasAs module rename => .aliasAs module rename
  | .require module rename => .require module rename

@[simp]
def writtenAll (r : Reading) : List Node → List Node
  | [] => []
  | n :: ns => n.written r :: writtenAll r ns

@[simp]
def writtenOption (r : Reading) : Option Node → Option Node
  | none => none
  | some n => some (n.written r)

@[simp]
def writtenOptionAll (r : Reading) : Option (List Node) → Option (List Node)
  | none => none
  | some ns => some (writtenAll r ns)

@[simp]
def writtenSegments (r : Reading) : List (Segment Node) → List (Segment Node)
  | [] => []
  | .plain n :: rest => .plain (n.written r) :: writtenSegments r rest
  | .interpolated n :: rest => .interpolated (n.written r) :: writtenSegments r rest

@[simp]
def writtenEntries (r : Reading) : List (Node × Node) → List (Node × Node)
  | [] => []
  | (key, value) :: rest => (key.written r, value.written r) :: writtenEntries r rest

@[simp]
def writtenFields (r : Reading) : List (String × Node) → List (String × Node)
  | [] => []
  | (name, value) :: rest => (name, value.written r) :: writtenFields r rest

@[simp]
def writtenClauses (r : Reading) : List (Clause Node) → List (Clause Node)
  | [] => []
  | ⟨head, body⟩ :: rest => ⟨writtenAll r head, writtenAll r body⟩ :: writtenClauses r rest

@[simp]
def writtenQualifiers (r : Reading) : List (Qualifier Node) → List (Qualifier Node)
  | [] => []
  | .generator pattern collection :: rest =>
    .generator (pattern.written r) (collection.written r) :: writtenQualifiers r rest
  | .filter condition :: rest => .filter (condition.written r) :: writtenQualifiers r rest

end

section Lists

variable (r : Reading)

theorem writtenAll_eq_map (ns : List Node) : writtenAll r ns = ns.map (·.written r) := by
  induction ns with
  | nil => rfl
  | cons n ns ih => rw [writtenAll, ih, List.map_cons]

theorem length_writtenAll (ns : List Node) : (writtenAll r ns).length = ns.length := by
  rw [writtenAll_eq_map, List.length_map]

def Segment.written (r : Reading) : Segment Node → Segment Node
  | .plain n => .plain (n.written r)
  | .interpolated n => .interpolated (n.written r)

theorem writtenSegments_eq_map (segments : List (Segment Node)) :
    writtenSegments r segments = segments.map (·.written r) := by
  induction segments with
  | nil => rfl
  | cons g segments ih => cases g <;> rw [writtenSegments, ih, List.map_cons, Segment.written]

theorem writtenEntries_eq_map (entries : List (Node × Node)) :
    writtenEntries r entries = entries.map fun e => (e.1.written r, e.2.written r) := by
  induction entries with
  | nil => rfl
  | cons e entries ih => rw [writtenEntries, ih, List.map_cons]

theorem writtenFields_eq_map (fields : List (String × Node)) :
    writtenFields r fields = fields.map fun f => (f.1, f.2.written r) := by
  induction fields with
  | nil => rfl
  | cons f fields ih => rw [writtenFields, ih, List.map_cons]

theorem writtenClauses_eq_map (clauses : List (Clause Node)) :
    writtenClauses r clauses =
      clauses.map fun clause => ⟨writtenAll r clause.head, writtenAll r clause.body⟩ := by
  induction clauses with
  | nil => rfl
  | cons clause clauses ih => rw [writtenClauses, ih, List.map_cons]

def Qualifier.written (r : Reading) : Qualifier Node → Qualifier Node
  | .generator pattern collection => .generator (pattern.written r) (collection.written r)
  | .filter condition => .filter (condition.written r)

theorem writtenQualifiers_eq_map (qualifiers : List (Qualifier Node)) :
    writtenQualifiers r qualifiers = qualifiers.map (·.written r) := by
  induction qualifiers with
  | nil => rfl
  | cons q qualifiers ih => cases q <;> rw [writtenQualifiers, ih, List.map_cons, Qualifier.written]

theorem writtenOption_eq_map (o : Option Node) : writtenOption r o = o.map (·.written r) := by
  cases o <;> rfl

theorem writtenOptionAll_eq_map (o : Option (List Node)) :
    writtenOptionAll r o = o.map fun ns => ns.map (·.written r) := by
  cases o with
  | none => rfl
  | some ns => rw [writtenOptionAll, writtenAll_eq_map, Option.map_some]

end Lists

/-! A node is written out by writing out its parts and then its own reference, if it is one. -/

namespace Assembly

variable {α β γ δ : Type} (w : Node → Node)

/-- The value with each of its nodes changed. -/
def mapParts (p : Assembly α) : α := p.build (p.parts.map w)

@[simp] theorem mapParts_fixed (a : α) : (fixed a).mapParts w = a := rfl

@[simp] theorem mapParts_node (n : Node) : (node n).mapParts w = w n := rfl

@[simp] theorem mapParts_map (f : α → β) (p : Assembly α) :
    (p.map f).mapParts w = f (p.mapParts w) := rfl

@[simp] theorem mapParts_map₂ (f : α → β → γ) (p : Assembly α) (q : Assembly β) :
    (map₂ f p q).mapParts w = f (p.mapParts w) (q.mapParts w) := by
  have hlength : p.parts.length = (p.parts.map w).length := (List.length_map w).symm
  simp only [mapParts, map₂, List.map_append, List.take_left' hlength.symm,
    List.drop_left' hlength.symm]

@[simp] theorem mapParts_map₃ (f : α → β → γ → δ) (p : Assembly α) (q : Assembly β)
    (s : Assembly γ) :
    (map₃ f p q s).mapParts w = f (p.mapParts w) (q.mapParts w) (s.mapParts w) := by
  rw [map₃, mapParts_map₂, mapParts_map₂]

@[simp] theorem mapParts_each (f : α → Assembly α) (l : List α) :
    (each f l).mapParts w = l.map fun a => (f a).mapParts w := by
  induction l with
  | nil => rfl
  | cons a l ih => rw [each, mapParts_map₂, ih, List.map_cons]

@[simp] theorem mapParts_option (f : α → Assembly α) (o : Option α) :
    (option f o).mapParts w = o.map fun a => (f a).mapParts w := by
  cases o <;> rfl

@[simp] theorem mapParts_entry (e : Node × Node) : (entry e).mapParts w = (w e.1, w e.2) :=
  mapParts_map₂ w _ _ _

@[simp] theorem mapParts_field (f : String × Node) : (field f).mapParts w = (f.1, w f.2) := rfl

@[simp] theorem mapParts_clause (b : Clause Node) :
    (clause b).mapParts w = ⟨b.head.map w, b.body.map w⟩ := by
  simp [clause]

variable (r : Reading)

@[simp] theorem mapParts_segment (g : Segment Node) :
    (segment g).mapParts (·.written r) = g.written r := by
  cases g <;> rfl

@[simp] theorem mapParts_qualifier (q : Qualifier Node) :
    (qualifier q).mapParts (·.written r) = q.written r := by
  cases q <;> rfl

end Assembly

namespace Node

/-- What the node itself refers to is written out, and nothing in its parts. -/
def ownWritten (r : Reading) : Node → Node
  | .attributeRead name => (r.read name).node name
  | .moduleName segments => .moduleName (r.module segments)
  | .call name args info => .call name args (info.written r)
  | n => n

theorem written_eq (r : Reading) (n : Node) :
    n.written r = (n.withParts (n.parts.map (·.written r))).ownWritten r := by
  show n.written r = (n.assembly.mapParts (·.written r)).ownWritten r
  cases n <;> simp [assembly, ownWritten, writtenAll_eq_map, writtenOption_eq_map,
    writtenOptionAll_eq_map, writtenSegments_eq_map, writtenEntries_eq_map, writtenFields_eq_map,
    writtenClauses_eq_map, writtenQualifiers_eq_map]

end Node

/-- The reading that leaves all references as they are. -/
def Reading.plain : Reading := ⟨id, fun _ => .kept⟩

theorem written_plain (n : Node) : n.written .plain = n := by
  induction n using Node.inductParts with
  | step n ih =>
    have hparts : n.parts.map (·.written .plain) = n.parts := by
      rw [List.map_congr_left ih, List.map_id']
    rw [Node.written_eq, hparts, Node.withParts_parts]
    cases n with
    | call name args info => obtain ⟨_ | _ | _, line⟩ := info <;> rfl
    | _ => rfl

/-- The module that a node itself names. -/
def Node.ownModule? : Node → Option (List String)
  | .moduleName segments => some segments
  | .call _ _ ⟨.qualified segments, _⟩ => some segments
  | _ => none

/-- The name of a module stands somewhere in the tree, as a value or before a call. -/
def Node.Mentions (n : Node) (segments : List String) : Prop :=
  ∃ k : Node, k.ownModule? = some segments ∧ Node.Occurs k n

/-- The attribute is read somewhere in the tree. -/
def Node.Reads (n : Node) (key : String) : Prop := Node.Occurs (.attributeRead key) n

/-- Readings that agree on what the tree refers to write out the same tree. -/
theorem written_congr {r r' : Reading} {n : Node}
    (hread : ∀ key, n.Reads key → r.read key = r'.read key)
    (hmodule : ∀ segments, n.Mentions segments → r.module segments = r'.module segments) :
    n.written r = n.written r' := by
  induction n using Node.inductParts with
  | step n ih =>
    have hparts : n.parts.map (·.written r) = n.parts.map (·.written r') :=
      List.map_congr_left fun p hp => ih p hp (fun key h => hread key (.inside hp h))
        fun segments ⟨k, hk, h⟩ => hmodule segments ⟨k, hk, .inside hp h⟩
    rw [Node.written_eq, Node.written_eq, hparts]
    cases n with
    | attributeRead key => exact congrArg (·.node key) (hread key .self)
    | moduleName segments => exact congrArg Node.moduleName (hmodule segments ⟨_, rfl, .self⟩)
    | call name args info =>
      obtain ⟨_ | segments | _, line⟩ := info
      · rfl
      · have hsame := hmodule segments ⟨_, rfl, .self⟩
        simp only [Node.withParts, Node.assembly, Assembly.map, Node.ownWritten, CallMeta.written,
          hsame]
      · rfl
    | _ => rfl

/-! What the rules ask about the shape of a part has the same answer for the written part. -/

section Shapes

variable (r : Reading)

theorem isGuarded_written (n : Node) : (n.written r).isGuarded = n.isGuarded := by
  cases n with
  | attributeRead name => rw [Node.written]; cases r.read name <;> rfl
  | _ => rfl

theorem written_ne_moduleName {r : Reading} {n : Node} (h : ∀ segments, n ≠ .moduleName segments)
    (segments : List String) : n.written r ≠ .moduleName segments := by
  cases n with
  | moduleName segments => exact (h segments rfl).elim
  | attributeRead name =>
    rw [Node.written]
    cases r.read name <;> exact Node.noConfusion
  | _ => exact Node.noConfusion

theorem segmentsText?_written (segments : List (Segment Node)) :
    segmentsText? (segments.map (·.written r)) = segmentsText? segments := by
  induction segments with
  | nil => rfl
  | cons g segments ih =>
    rw [List.map_cons]
    cases g with
    | interpolated n => rfl
    | plain n =>
      cases n with
      | string text => exact congrArg (Option.map (text ++ ·)) ih
      | attributeRead name => rw [Segment.written, Node.written]; cases r.read name <;> rfl
      | _ => rfl

theorem isInterpolated_written (g : Segment Node) :
    (g.written r).isInterpolated = g.isInterpolated := by
  cases g <;> rfl

theorem any_isInterpolated_written (segments : List (Segment Node)) :
    (segments.map (·.written r)).any (·.isInterpolated) = segments.any (·.isInterpolated) := by
  simp only [List.any_map, Function.comp_def, isInterpolated_written]

theorem isMessage_written (n : Node) : LowerM.isMessage (n.written r) = LowerM.isMessage n := by
  cases n with
  | attributeRead name => rw [Node.written]; cases r.read name <;> rfl
  | binary segments =>
    rw [Node.written, LowerM.isMessage, writtenSegments_eq_map, any_isInterpolated_written,
      LowerM.isMessage]
  | _ => rfl

theorem isAlwaysTrue_written (n : Node) :
    LowerM.isAlwaysTrue (n.written r) = LowerM.isAlwaysTrue n := by
  cases n with
  | attributeRead name => rw [Node.written]; cases r.read name <;> rfl
  | _ => rfl

theorem isCallWithoutArguments_written (target : Node) (info : DotMeta) :
    LowerM.isCallWithoutArguments (target.written r) info =
      LowerM.isCallWithoutArguments target info := by
  obtain ⟨access, line⟩ := info
  rcases access with _ | access
  · cases target with
    | attributeRead name => rw [Node.written]; cases r.read name <;> rfl
    | _ => rfl
  · cases access <;> rfl

/-- A call is recognised as a type test by the module that is written. -/
theorem isBoolean_written (h : ∀ segments, r.module segments = ["Kernel"] ↔ segments = ["Kernel"])
    (n : Node) : isBoolean (n.written r) = isBoolean n := by
  induction n using Node.inductParts with
  | step n ih =>
    cases n with
    | attributeRead name => rw [Node.written]; cases r.read name <;> rfl
    | binaryOp op left right =>
      have hright := ih right (by simp [Node.parts, Node.assembly])
      rw [Node.written, isBoolean, isBoolean, hright]
    | call name args info =>
      have hresolution : ((info.written r).resolution == .qualified ["Kernel"]) =
          (info.resolution == .qualified ["Kernel"]) := by
        obtain ⟨_ | module | _, line⟩ := info
        · rfl
        · rw [CallMeta.written, Bool.eq_iff_iff]
          simpa using h module
        · rfl
      rw [Node.written, isBoolean, isBoolean, hresolution]
    | _ => rfl

theorem plainParams?_written (patterns : List Node) :
    plainParams? (writtenAll r patterns) = plainParams? patterns := by
  induction patterns with
  | nil => rfl
  | cons n patterns ih =>
    cases n with
    | var name => rw [writtenAll, Node.written, plainParams?, plainParams?, ih]
    | attributeRead name => rw [writtenAll, Node.written]; cases r.read name <;> rfl
    | _ => rfl

theorem guardAlternatives_written (guard : Node) :
    guardAlternatives (guard.written r) = (guardAlternatives guard).map (writtenAll r) := by
  induction guard using Node.inductParts with
  | step guard ih =>
    cases guard with
    | attributeRead name =>
      have hplain : guardAlternatives ((r.read name).node name) =
          .ok [(r.read name).node name] := by
        cases r.read name <;> rfl
      rw [Node.written, hplain]
      rfl
    | guarded exprs rest =>
      have hrest := ih rest (by simp [Node.parts, Node.assembly])
      rcases exprs with _ | ⟨first, _ | ⟨second, more⟩⟩
      · rfl
      · rw [Node.written, writtenAll, writtenAll, guardAlternatives, guardAlternatives, hrest]
        cases guardAlternatives rest <;> rfl
      · rfl
    | _ => rfl

theorem splitHead_unguarded {head : List Node}
    (h : ∀ patterns guard, head ≠ [.guarded patterns guard]) :
    splitHead head = if head.any (·.isGuarded) then .error (.malformed .guardInsideHead)
      else .ok (head, []) := by
  rw [splitHead]
  exact h

theorem splitHead_written (head : List Node) :
    splitHead (writtenAll r head) =
      (splitHead head).map fun read => (writtenAll r read.1, writtenAll r read.2) := by
  by_cases h : ∃ patterns guard, head = [.guarded patterns guard]
  · obtain ⟨patterns, guard, rfl⟩ := h
    rw [writtenAll, writtenAll, Node.written, splitHead, splitHead, guardAlternatives_written]
    cases guardAlternatives guard <;> rfl
  · have hhead : ∀ patterns guard, head ≠ [.guarded patterns guard] :=
      fun patterns guard heq => h ⟨patterns, guard, heq⟩
    have hwritten : ∀ patterns guard, writtenAll r head ≠ [.guarded patterns guard] := by
      intro patterns guard heq
      rcases head with _ | ⟨n, _ | ⟨m, rest⟩⟩
      · cases heq
      · have hguarded : n.isGuarded = true := by
          rw [← isGuarded_written r n, (List.cons.inj heq).1, Node.isGuarded]
        cases n with
        | guarded patterns guard => exact hhead patterns guard rfl
        | _ => cases hguarded
      · exact absurd (congrArg List.length heq) (by simp)
    have hany : (writtenAll r head).any (·.isGuarded) = head.any (·.isGuarded) := by
      simp only [writtenAll_eq_map, List.any_map, Function.comp_def, isGuarded_written]
    rw [splitHead_unguarded hhead, splitHead_unguarded hwritten, hany]
    split <;> rfl

theorem definitionHead_written {head : Node} {function : String} {patterns alternatives : List Node}
    (h : definitionHead head = .ok (function, patterns, alternatives)) :
    definitionHead (head.written r) =
      .ok (function, writtenAll r patterns, writtenAll r alternatives) := by
  have hguard : ∀ guard others, guardAlternatives guard = .ok others →
      guardAlternatives (guard.written r) = .ok (writtenAll r others) := by
    intro guard others hothers
    rw [guardAlternatives_written, hothers]
    rfl
  unfold definitionHead at h
  split at h
  case h_3 _ _ _ guard =>
    obtain ⟨others, hothers, hread⟩ := exists_ok_of_bind h
    cases hread
    show definitionHead (.guarded [.call function (writtenAll r patterns) _] (guard.written r)) = _
    rw [definitionHead, hguard guard _ hothers]
    rfl
  case h_4 _ guard =>
    obtain ⟨others, hothers, hread⟩ := exists_ok_of_bind h
    cases hread
    show definitionHead (.guarded [.var function] (guard.written r)) = _
    rw [definitionHead, hguard guard _ hothers]
    rfl
  all_goals cases h
  all_goals rfl

theorem definitionHead_written_error {head : Node} {e : LowerError}
    (h : definitionHead head = .error e) : ∃ e', definitionHead (head.written r) = .error e' := by
  cases head with
  | call | var => cases h
  | attributeRead name => rw [Node.written]; cases r.read name <;> exact ⟨_, rfl⟩
  | guarded exprs guard =>
    rcases exprs with _ | ⟨first, _ | ⟨second, more⟩⟩
    · exact ⟨_, rfl⟩
    · cases first with
      | call name args info | var name =>
        simp only [definitionHead] at h
        cases hguard : guardAlternatives guard with
        | ok others => rw [hguard] at h; cases h
        | error e' =>
          refine ⟨e', ?_⟩
          simp only [Node.written, writtenAll, definitionHead, guardAlternatives_written, hguard]
          rfl
      | attributeRead name =>
        rw [Node.written, writtenAll, writtenAll, Node.written]
        cases r.read name <;> exact ⟨_, rfl⟩
      | _ => exact ⟨_, rfl⟩
    · exact ⟨.malformed .definitionGuard, by simp [definitionHead]⟩
  | _ => exact ⟨_, rfl⟩

/-- A written item lets the module call the same functions. -/
theorem declaredFunctions_written (n : Node) :
    declaredFunctions (n.written r) = declaredFunctions n := by
  cases n with
  | define visibility head body =>
    rw [Node.written, declaredFunctions, declaredFunctions]
    cases hhead : definitionHead head with
    | ok read => rw [definitionHead_written r hhead]
    | error e =>
      obtain ⟨e', he'⟩ := definitionHead_written_error r hhead
      rw [he']
  | attributeRead name => rw [Node.written]; cases r.read name <;> rfl
  | _ => rfl

open Pattern in
theorem constant?_written {n : Node} {value : Expr} (h : constant? n = some value) :
    constant? (n.written r) = some value ∧ isExact (n.written r) = isExact n := by
  cases n with
  | attributeRead => cases h
  | binary segments =>
    refine ⟨?_, rfl⟩
    rwa [Node.written, writtenSegments_eq_map, constant?, segmentsText?_written]
  | unaryOp op operand =>
    cases operand with
    | integer | float => exact ⟨h, rfl⟩
    | _ => simp [constant?] at h
  | integer | float | string | boolean | nil | atom => exact ⟨h, rfl⟩
  | _ => cases h

end Shapes

end TreeLowering.Source
