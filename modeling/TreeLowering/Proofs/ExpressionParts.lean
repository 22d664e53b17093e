import Mathlib.Data.List.Forall2
import TreeLowering.Proofs.PipeRemoval
import TreeLowering.Proofs.Refusal

/-!
The expressions of a tree: all that stands in it to be evaluated, its patterns apart.

Clauses are tried in order, and what follows one that nothing falls through is not lowered. Which
clauses are passed over so is a parameter (`Exits`): with none of them passed over, the expressions
are all that are written. Writing out the pipes of a tree keeps its expressions, one by one.
-/
namespace TreeLowering

open Source Target LowerM Lowering Pattern

/-- Where the trying of clauses ends. -/
structure Exits where
  /-- Nothing falls through a clause of a `case` or of an anonymous function. -/
  clause : Clause Node → Bool
  /-- Nothing falls through a clause of a `cond`. -/
  condition : Clause Node → Bool
  /-- A definition in a module body is passed over, by the body, the items before it and itself. -/
  definition : List Node → List Node → Node → Bool

namespace Exits

/-- Nothing is passed over. -/
def none : Exits := ⟨fun _ => false, fun _ => false, fun _ _ _ => false⟩

/-- The condition of the clause is the constant `true`. -/
def alwaysRuns (clause : Clause Node) : Bool :=
  match clause.head with
  | [condition] => isAlwaysTrue condition
  | _ => false

/-- Clauses are passed over as they are when they are lowered. -/
def lowered (read : HeadReader) : Exits :=
  ⟨fun clause => matchAll clause.head, alwaysRuns, isLeftOut read⟩

end Exits

/-- The items up to the first one at which to stop, that one included. -/
def upTo {α : Type} (stop : α → Bool) : List α → List α
  | [] => []
  | a :: rest => if stop a then [a] else a :: upTo stop rest

/-- The items that are kept, of which each is judged by those before it. -/
def keptFrom (skip : List Node → Node → Bool) : List Node → List Node → List Node
  | _, [] => []
  | before, n :: rest =>
    if skip before n then keptFrom skip (before ++ [n]) rest
    else n :: keptFrom skip (before ++ [n]) rest

namespace Source.Node

/-- The guard of a head that has one. -/
def headGuard : Node → List Node
  | .guarded _ guard => [guard]
  | _ => []

def clauseGuard : List Node → List Node
  | [head] => headGuard head
  | _ => []

def clauseExpressions (clause : Clause Node) : List Node := clauseGuard clause.head ++ clause.body

def qualifierExpression : Qualifier Node → Node
  | .generator _ collection => collection
  | .filter condition => condition

/-- The expressions of an item of a module body. Attributes that only document have none. -/
def itemExpressions : Node → List Node
  | .define _ head body => headGuard head ++ body
  | .attributeSet key value => if documentationAttributes.contains key then [] else [value]
  | .defStruct fields => fields.map (·.2)
  | .defException fields => fields.map (·.2)
  | n => [n]

/-- The expressions that stand directly in the node. -/
def expressions (exits : Exits) : Node → List Node
  | .list items => items
  | .cons head tail => head ++ [tail]
  | .tuple items => items
  | .binary segments => segments.map segmentChild
  | .map entries => entryChildren entries
  | .mapUpdate base updates => base :: entryChildren updates
  | .struct tag fields update => tag :: entryChildren fields ++ update.toList
  | .bind _ value => [value]
  | .pin operand => [operand]
  | .guarded exprs guard => exprs ++ [guard]
  | .binaryOp _ left right => [left, right]
  | .unaryOp _ operand => [operand]
  | .pipe left right => [left, right]
  | .range first last step => first :: last :: step.toList
  | .call _ args _ => args
  | .dot target _ args _ => target :: args.getD []
  | .apply callee args => callee :: args
  | .capture owner _ _ => owner.toList
  | .fn clauses => (upTo exits.clause clauses).flatMap clauseExpressions
  | .caseOf subject clauses => subject :: (upTo exits.clause clauses).flatMap clauseExpressions
  | .cond clauses => (upTo exits.condition clauses).flatMap fun clause => clause.head ++ clause.body
  | .ifElse condition body otherwise => condition :: body ++ otherwise.getD []
  | .unlessElse condition body otherwise => condition :: body ++ otherwise.getD []
  | .comprehension qualifiers body into =>
    qualifiers.map qualifierExpression ++ body ++ into.toList
  | .block items => items
  | .define _ head body => headGuard head ++ body
  | .module _ body => (keptFrom (exits.definition body) [] body).flatMap itemExpressions
  | .attributeSet _ value => [value]
  | .defStruct fields => fields.map (·.2)
  | .defException fields => fields.map (·.2)
  | .raise exception attributes => exception :: attributes.toList
  | _ => []

/-- The operator is used in the tree, in an expression at any depth. -/
inductive UsesOperator (exits : Exits) (op : String) : Node → Prop
  | here {left right : Node} : UsesOperator exits op (.binaryOp op left right)
  | within {n part : Node} (stands : part ∈ n.expressions exits)
      (uses : UsesOperator exits op part) : UsesOperator exits op n

end Source.Node

theorem exists_of_mem_upTo {α : Type} {stop : α → Bool} {l : List α} {a : α}
    (h : a ∈ upTo stop l) :
    ∃ before after, l = before ++ a :: after ∧ ∀ b ∈ before, stop b = false := by
  induction l with
  | nil => cases h
  | cons first rest ih =>
    rw [upTo] at h
    split at h
    next =>
      obtain rfl := List.mem_singleton.mp h
      exact ⟨[], rest, rfl, by simp⟩
    next hstop =>
      rcases List.mem_cons.mp h with rfl | h
      · exact ⟨[], rest, rfl, by simp⟩
      · obtain ⟨before, after, rfl, hbefore⟩ := ih h
        exact ⟨first :: before, after, rfl,
          List.forall_mem_cons.mpr ⟨by simpa using hstop, hbefore⟩⟩

theorem exists_of_mem_keptFrom {skip : List Node → Node → Bool} {before ns : List Node} {n : Node}
    (h : n ∈ keptFrom skip before ns) :
    ∃ front back, ns = front ++ n :: back ∧ skip (before ++ front) n = false := by
  induction ns generalizing before with
  | nil => cases h
  | cons first rest ih =>
    have hlater : n ∈ keptFrom skip (before ++ [first]) rest →
        ∃ front back, first :: rest = front ++ n :: back ∧ skip (before ++ front) n = false := by
      intro hmem
      obtain ⟨front, back, rfl, hskip⟩ := ih hmem
      exact ⟨first :: front, back, rfl, by simpa using hskip⟩
    rw [keptFrom] at h
    split at h
    next => exact hlater h
    next hskip =>
      rcases List.mem_cons.mp h with rfl | h
      · exact ⟨[], rest, rfl, by simpa using hskip⟩
      · exact hlater h

section Pipes

open Node (removePipesList removePipesOption removePipesListOption removePipesSegments
  removePipesEntries removePipesFields removePipesClauses removePipesQualifiers)
open List (Forall₂)

/-- The second node is the first with its pipes written out. -/
def WrittenOut (n n' : Node) : Prop := n.removePipes = .ok n'

/-- The clause with its pipes written out. -/
structure ClauseWrittenOut (clause clause' : Clause Node) : Prop where
  head : Forall₂ WrittenOut clause.head clause'.head
  body : Forall₂ WrittenOut clause.body clause'.body

/-- The head of a definition, read when its pipes have been written out. -/
def readHead : HeadReader := fun head => head.removePipes >>= definitionHead

theorem forall₂_of_each {α : Type} {f : α → Assembly α} {l l' : List α}
    (h : (Assembly.each f l).removePipes = .ok l') :
    Forall₂ (fun a a' => (f a).removePipes = .ok a') l l' := by
  induction l generalizing l' with
  | nil =>
    cases h
    exact .nil
  | cons a rest ih =>
    rw [Assembly.each, Assembly.removePipes_map₂] at h
    obtain ⟨a', ha, h⟩ := exists_ok_of_bind h
    obtain ⟨rest', hrest, h⟩ := exists_ok_of_bind h
    cases h
    exact .cons ha (ih hrest)

theorem writtenOut_list {ns ns' : List Node} (h : removePipesList ns = .ok ns') :
    Forall₂ WrittenOut ns ns' := by
  rw [← Assembly.removePipes_nodes] at h
  refine (forall₂_of_each h).imp fun n n' hn => ?_
  rwa [Assembly.removePipes_node] at hn

theorem writtenOut_option {o o' : Option Node} (h : removePipesOption o = .ok o') :
    Forall₂ WrittenOut o.toList o'.toList := by
  cases o with
  | none =>
    cases h
    exact .nil
  | some n =>
    obtain ⟨n', hn, h⟩ := exists_ok_of_bind h
    cases h
    exact .cons hn .nil

theorem writtenOut_listOption {o o' : Option (List Node)} (h : removePipesListOption o = .ok o') :
    Forall₂ WrittenOut (o.getD []) (o'.getD []) := by
  cases o with
  | none =>
    cases h
    exact .nil
  | some ns =>
    obtain ⟨ns', hns, h⟩ := exists_ok_of_bind h
    cases h
    exact writtenOut_list hns

theorem writtenOut_segments {segments segments' : List (Segment Node)}
    (h : removePipesSegments segments = .ok segments') :
    Forall₂ WrittenOut (segments.map Node.segmentChild) (segments'.map Node.segmentChild) := by
  rw [← Assembly.removePipes_segments] at h
  refine List.rel_map (fun segment segment' hsegment => ?_) (forall₂_of_each h)
  cases segment
  all_goals
    rw [Assembly.segment, Assembly.removePipes_map, Assembly.removePipes_node] at hsegment
    obtain ⟨n', hn, hsegment⟩ := exists_ok_of_bind hsegment
    cases hsegment
    exact hn

theorem writtenOut_entries {entries entries' : List (Node × Node)}
    (h : removePipesEntries entries = .ok entries') :
    Forall₂ WrittenOut (Node.entryChildren entries) (Node.entryChildren entries') := by
  rw [← Assembly.removePipes_entries] at h
  refine List.rel_flatMap (forall₂_of_each h) fun entry entry' hentry => ?_
  obtain ⟨key, value⟩ := entry
  rw [Assembly.entry, Assembly.removePipes_map₂, Assembly.removePipes_node,
    Assembly.removePipes_node] at hentry
  obtain ⟨key', hkey, hentry⟩ := exists_ok_of_bind hentry
  obtain ⟨value', hvalue, hentry⟩ := exists_ok_of_bind hentry
  cases hentry
  exact .cons hkey (.cons hvalue .nil)

theorem writtenOut_fields {fields fields' : List (String × Node)}
    (h : removePipesFields fields = .ok fields') :
    Forall₂ WrittenOut (fields.map (·.2)) (fields'.map (·.2)) := by
  rw [← Assembly.removePipes_fields] at h
  refine List.rel_map (fun field field' hfield => ?_) (forall₂_of_each h)
  obtain ⟨name, value⟩ := field
  rw [Assembly.field, Assembly.removePipes_map, Assembly.removePipes_node] at hfield
  obtain ⟨value', hvalue, hfield⟩ := exists_ok_of_bind hfield
  cases hfield
  exact hvalue

theorem writtenOut_qualifiers {qualifiers qualifiers' : List (Qualifier Node)}
    (h : removePipesQualifiers qualifiers = .ok qualifiers') :
    Forall₂ WrittenOut (qualifiers.map Node.qualifierExpression)
      (qualifiers'.map Node.qualifierExpression) := by
  rw [← Assembly.removePipes_qualifiers] at h
  refine List.rel_map (fun qualifier qualifier' hqualifier => ?_) (forall₂_of_each h)
  cases qualifier with
  | generator pattern collection =>
    rw [Assembly.qualifier, Assembly.removePipes_map₂, Assembly.removePipes_node,
      Assembly.removePipes_node] at hqualifier
    obtain ⟨pattern', -, hqualifier⟩ := exists_ok_of_bind hqualifier
    obtain ⟨collection', hcollection, hqualifier⟩ := exists_ok_of_bind hqualifier
    cases hqualifier
    exact hcollection
  | filter condition =>
    rw [Assembly.qualifier, Assembly.removePipes_map, Assembly.removePipes_node] at hqualifier
    obtain ⟨condition', hcondition, hqualifier⟩ := exists_ok_of_bind hqualifier
    cases hqualifier
    exact hcondition

theorem writtenOut_clauses {clauses clauses' : List (Clause Node)}
    (h : removePipesClauses clauses = .ok clauses') :
    Forall₂ ClauseWrittenOut clauses clauses' := by
  rw [← Assembly.removePipes_clauses] at h
  refine (forall₂_of_each h).imp fun clause clause' hclause => ?_
  obtain ⟨head, body⟩ := clause
  rw [Assembly.clause, Assembly.removePipes_map₂, Assembly.removePipes_nodes,
    Assembly.removePipes_nodes] at hclause
  obtain ⟨head', hhead, hclause⟩ := exists_ok_of_bind hclause
  obtain ⟨body', hbody, hclause⟩ := exists_ok_of_bind hclause
  cases hclause
  exact ⟨writtenOut_list hhead, writtenOut_list hbody⟩

variable {n n' : Node}

/-- A node that is not made of variables is not when it is written out. -/
theorem openNames_of_writtenOut (h : WrittenOut n n') : openNames n' = openNames n := by
  fun_induction openNames n generalizing n' with
  | case1 name =>
    cases h
    rfl
  | case2 pattern other ihp iho =>
    rw [WrittenOut, Node.removePipes] at h
    obtain ⟨pattern', hpattern, h⟩ := exists_ok_of_bind h
    obtain ⟨other', hother, h⟩ := exists_ok_of_bind h
    cases h
    rw [openNames, ihp hpattern, iho hother]
  | case3 n hvar hbind =>
    rcases Node.removePipes_ok h with ⟨_, _, left', right', rfl, -, -, happly⟩ | ⟨-, ps, -, rfl⟩
    · unfold Node.withFirstArgument at happly
      split at happly <;> cases happly <;> rfl
    · cases n with
      | var name => exact (hvar name rfl).elim
      | bind pattern value => exact (hbind pattern value rfl).elim
      | _ => rfl

theorem matchAll_of_writtenOut {ns ns' : List Node} (h : Forall₂ WrittenOut ns ns') :
    matchAll ns' = matchAll ns := by
  have hnames : ns'.mapM openNames = ns.mapM openNames := by
    induction h with
    | nil => rfl
    | cons hn _ ih => rw [List.mapM_cons, List.mapM_cons, openNames_of_writtenOut hn, ih]
  rw [matchAll, matchAll, hnames]

theorem isAlwaysTrue_of_writtenOut (h : WrittenOut n n') : isAlwaysTrue n' = isAlwaysTrue n := by
  rcases Node.removePipes_ok h with ⟨_, _, left', right', rfl, -, -, happly⟩ | ⟨-, ps, -, rfl⟩
  · unfold Node.withFirstArgument at happly
    split at happly <;> cases happly <;> rfl
  · cases n <;> rfl

theorem alwaysRuns_of_writtenOut {clause clause' : Clause Node}
    (h : ClauseWrittenOut clause clause') : Exits.alwaysRuns clause' = Exits.alwaysRuns clause := by
  obtain ⟨head, body⟩ := clause
  obtain ⟨head', body'⟩ := clause'
  cases h.head with
  | nil => rfl
  | cons hfirst hrest =>
    cases hrest with
    | nil => exact isAlwaysTrue_of_writtenOut hfirst
    | cons => rfl

theorem clauseHead_of_writtenOut (h : WrittenOut n n') :
    ClauseHead.of? definitionHead n' = ClauseHead.of? readHead n := by
  rcases Node.removePipes_ok h with ⟨_, _, left', right', rfl, -, -, happly⟩ | ⟨-, ps, -, rfl⟩
  · unfold Node.withFirstArgument at happly
    split at happly <;> cases happly <;> rfl
  · cases n with
    | define visibility head body =>
      rw [WrittenOut, Node.removePipes] at h
      obtain ⟨head', hhead, h⟩ := exists_ok_of_bind h
      obtain ⟨body', -, h⟩ := exists_ok_of_bind h
      rw [← Except.ok.inj h, ClauseHead.of?, ClauseHead.of?, readHead, hhead]
      rfl
    | _ => rfl

theorem clauseHeads_of_writtenOut {ns ns' : List Node} (h : Forall₂ WrittenOut ns ns') :
    ns'.filterMap (ClauseHead.of? definitionHead) = ns.filterMap (ClauseHead.of? readHead) := by
  induction h with
  | nil => rfl
  | cons hn _ ih => rw [List.filterMap_cons, List.filterMap_cons, clauseHead_of_writtenOut hn, ih]

theorem isLeftOut_of_writtenOut {body body' before before' : List Node}
    (hbody : Forall₂ WrittenOut body body') (hbefore : Forall₂ WrittenOut before before')
    (h : WrittenOut n n') :
    isLeftOut definitionHead body' before' n' = isLeftOut readHead body before n := by
  rw [isLeftOut, isLeftOut, clauseHead_of_writtenOut h, clauseHeads_of_writtenOut hbody,
    clauseHeads_of_writtenOut hbefore]

theorem upTo_of_writtenOut {stop : Clause Node → Bool} {clauses clauses' : List (Clause Node)}
    (hstop : ∀ clause clause', ClauseWrittenOut clause clause' → stop clause' = stop clause)
    (h : Forall₂ ClauseWrittenOut clauses clauses') :
    Forall₂ ClauseWrittenOut (upTo stop clauses) (upTo stop clauses') := by
  induction h with
  | nil => exact .nil
  | @cons clause clause' _ _ hclause _ ih =>
    rw [upTo, upTo, hstop clause clause' hclause]
    split
    · exact .cons hclause .nil
    · exact .cons hclause ih

theorem keptFrom_of_writtenOut {skip skip' : List Node → Node → Bool}
    (hskip : ∀ before before' n n', Forall₂ WrittenOut before before' → WrittenOut n n' →
      skip' before' n' = skip before n)
    {before before' ns ns' : List Node} (hbefore : Forall₂ WrittenOut before before')
    (h : Forall₂ WrittenOut ns ns') :
    Forall₂ WrittenOut (keptFrom skip before ns) (keptFrom skip' before' ns') := by
  induction h generalizing before before' with
  | nil => exact .nil
  | @cons n n' _ _ hn _ ih =>
    have hrest := ih (List.rel_append hbefore (.cons hn .nil))
    rw [keptFrom, keptFrom, hskip before before' n n' hbefore hn]
    split
    · exact hrest
    · exact .cons hn hrest

theorem headGuard_of_writtenOut (h : WrittenOut n n') :
    Forall₂ WrittenOut n.headGuard n'.headGuard := by
  rcases Node.removePipes_ok h with ⟨_, _, left', right', rfl, -, -, happly⟩ | ⟨-, ps, -, rfl⟩
  · unfold Node.withFirstArgument at happly
    split at happly <;> cases happly <;> exact .nil
  · cases n with
    | guarded exprs guard =>
      rw [WrittenOut, Node.removePipes] at h
      obtain ⟨exprs', -, h⟩ := exists_ok_of_bind h
      obtain ⟨guard', hguard, h⟩ := exists_ok_of_bind h
      rw [← Except.ok.inj h]
      exact .cons hguard .nil
    | _ => exact .nil

theorem clauseExpressions_of_writtenOut {clause clause' : Clause Node}
    (h : ClauseWrittenOut clause clause') :
    Forall₂ WrittenOut (Node.clauseExpressions clause) (Node.clauseExpressions clause') := by
  obtain ⟨head, body⟩ := clause
  obtain ⟨head', body'⟩ := clause'
  refine List.rel_append ?_ h.body
  cases h.head with
  | nil => exact .nil
  | cons hfirst hrest =>
    cases hrest with
    | nil => exact headGuard_of_writtenOut hfirst
    | cons => exact .nil

/-- Expressions of an item, written out: only a pipe becomes an item of another form, and that is an
expression itself. -/
theorem itemExpressions_of_writtenOut (h : WrittenOut n n') :
    Forall₂ WrittenOut n.itemExpressions n'.itemExpressions := by
  rcases Node.removePipes_ok h with ⟨_, _, left', right', rfl, -, -, happly⟩ | ⟨-, ps, -, rfl⟩
  · have hitem : n'.itemExpressions = [n'] := by
      unfold Node.withFirstArgument at happly
      split at happly <;> cases happly <;> rfl
    rw [hitem]
    exact .cons h .nil
  · cases n with
    | define visibility head body =>
      rw [WrittenOut, Node.removePipes] at h
      obtain ⟨head', hhead, h⟩ := exists_ok_of_bind h
      obtain ⟨body', hbody, h⟩ := exists_ok_of_bind h
      rw [← Except.ok.inj h]
      exact List.rel_append (headGuard_of_writtenOut hhead) (writtenOut_list hbody)
    | attributeSet key value =>
      rw [WrittenOut, Node.removePipes] at h
      obtain ⟨value', hvalue, h⟩ := exists_ok_of_bind h
      rw [← Except.ok.inj h, Node.itemExpressions, Node.itemExpressions]
      split
      · exact .nil
      · exact .cons hvalue .nil
    | defStruct fields | defException fields =>
      rw [WrittenOut, Node.removePipes] at h
      obtain ⟨fields', hfields, h⟩ := exists_ok_of_bind h
      rw [← Except.ok.inj h]
      exact writtenOut_fields hfields
    | _ => exact .cons h .nil

/-- The expressions of a node are those of the node written out, but for pipes. -/
theorem expressions_of_writtenOut (hpipe : n.isPipe = false) (h : WrittenOut n n') :
    Forall₂ WrittenOut (n.expressions (.lowered readHead))
      (n'.expressions (.lowered definitionHead)) := by
  rw [WrittenOut] at h
  cases n
  case pipe => cases hpipe
  all_goals simp only [Node.removePipes, bind_eq_ok_iff, pure, Except.pure, Except.ok.injEq] at h
  case list | tuple | block | call =>
    obtain ⟨ns', hns, rfl⟩ := h
    exact writtenOut_list hns
  case binary =>
    obtain ⟨segments', hsegments, rfl⟩ := h
    exact writtenOut_segments hsegments
  case map =>
    obtain ⟨entries', hentries, rfl⟩ := h
    exact writtenOut_entries hentries
  case fn =>
    obtain ⟨clauses', hclauses, rfl⟩ := h
    have htried := upTo_of_writtenOut (fun _ _ hclause => matchAll_of_writtenOut hclause.head)
      (writtenOut_clauses hclauses)
    exact List.rel_flatMap htried fun _ _ => clauseExpressions_of_writtenOut
  case cond =>
    obtain ⟨clauses', hclauses, rfl⟩ := h
    have htried := upTo_of_writtenOut (fun _ _ => alwaysRuns_of_writtenOut)
      (writtenOut_clauses hclauses)
    exact List.rel_flatMap htried fun _ _ hclause => List.rel_append hclause.head hclause.body
  case caseOf =>
    obtain ⟨subject', hsubject, clauses', hclauses, rfl⟩ := h
    have htried := upTo_of_writtenOut (fun _ _ hclause => matchAll_of_writtenOut hclause.head)
      (writtenOut_clauses hclauses)
    exact .cons hsubject (List.rel_flatMap htried fun _ _ => clauseExpressions_of_writtenOut)
  case module =>
    obtain ⟨body', hbody, rfl⟩ := h
    have hbody := writtenOut_list hbody
    have hkept := keptFrom_of_writtenOut
      (fun _ _ _ _ hbefore hn => isLeftOut_of_writtenOut hbody hbefore hn) .nil hbody
    exact List.rel_flatMap hkept fun _ _ => itemExpressions_of_writtenOut
  case defStruct | defException =>
    obtain ⟨fields', hfields, rfl⟩ := h
    exact writtenOut_fields hfields
  case capture =>
    obtain ⟨owner', howner, rfl⟩ := h
    exact writtenOut_option howner
  case pin | unaryOp | attributeSet =>
    obtain ⟨m', hm, rfl⟩ := h
    exact .cons hm .nil
  case bind =>
    obtain ⟨pattern', -, value', hvalue, rfl⟩ := h
    exact .cons hvalue .nil
  case binaryOp =>
    obtain ⟨left', hleft, right', hright, rfl⟩ := h
    exact .cons hleft (.cons hright .nil)
  case cons | guarded =>
    obtain ⟨ns', hns, m', hm, rfl⟩ := h
    exact List.rel_append (writtenOut_list hns) (.cons hm .nil)
  case mapUpdate =>
    obtain ⟨base', hbase, updates', hupdates, rfl⟩ := h
    exact .cons hbase (writtenOut_entries hupdates)
  case struct =>
    obtain ⟨tag', htag, fields', hfields, update', hupdate, rfl⟩ := h
    have hfirst : WrittenOut _ tag' := htag
    exact List.rel_append (.cons hfirst (writtenOut_entries hfields)) (writtenOut_option hupdate)
  case range =>
    obtain ⟨first', hfirst, last', hlast, step', hstep, rfl⟩ := h
    exact .cons hfirst (.cons hlast (writtenOut_option hstep))
  case dot =>
    obtain ⟨target', htarget, args', hargs, rfl⟩ := h
    exact .cons htarget (writtenOut_listOption hargs)
  case apply =>
    obtain ⟨callee', hcallee, args', hargs, rfl⟩ := h
    exact .cons hcallee (writtenOut_list hargs)
  case ifElse | unlessElse =>
    obtain ⟨condition', hcondition, body', hbody, otherwise', hotherwise, rfl⟩ := h
    have hfirst : WrittenOut _ condition' := hcondition
    exact List.rel_append (.cons hfirst (writtenOut_list hbody)) (writtenOut_listOption hotherwise)
  case comprehension =>
    obtain ⟨qualifiers', hqualifiers, body', hbody, into', hinto, rfl⟩ := h
    exact List.rel_append
      (List.rel_append (writtenOut_qualifiers hqualifiers) (writtenOut_list hbody))
      (writtenOut_option hinto)
  case define =>
    obtain ⟨head', hhead, body', hbody, rfl⟩ := h
    exact List.rel_append (headGuard_of_writtenOut hhead) (writtenOut_list hbody)
  case raise =>
    obtain ⟨exception', hexception, attributes', hattributes, rfl⟩ := h
    exact .cons hexception (writtenOut_option hattributes)
  all_goals
    subst h
    exact .nil

theorem exists_of_forall₂_mem {ns ns' : List Node} (h : Forall₂ WrittenOut ns ns') (hn : n ∈ ns) :
    ∃ n' ∈ ns', WrittenOut n n' := by
  induction h with
  | nil => cases hn
  | cons hfirst _ ih =>
    rcases List.mem_cons.mp hn with rfl | hn
    · exact ⟨_, List.mem_cons_self, hfirst⟩
    · obtain ⟨n', hmem, hn'⟩ := ih hn
      exact ⟨n', List.mem_cons_of_mem _ hmem, hn'⟩

/-- What is piped and what it is piped into are expressions of the call. -/
theorem mem_expressions_withFirstArgument {arg call : Node} {exits : Exits}
    (h : n.withFirstArgument arg = .ok call) :
    arg ∈ call.expressions exits ∧
      (∀ part ∈ n.expressions exits, part ∈ call.expressions exits) ∧
      ∀ op left right, n ≠ .binaryOp op left right := by
  unfold Node.withFirstArgument at h
  split at h
  all_goals cases h
  all_goals simp +contextual [Node.expressions]

/-- Writing out pipes keeps the operators that are used. -/
theorem UsesOperator.writtenOut {op : String} (h : n.UsesOperator (.lowered readHead) op)
    (hn : WrittenOut n n') : n'.UsesOperator (.lowered definitionHead) op := by
  induction h generalizing n' with
  | here =>
    rw [WrittenOut, Node.removePipes] at hn
    obtain ⟨left', -, hn⟩ := exists_ok_of_bind hn
    obtain ⟨right', -, hn⟩ := exists_ok_of_bind hn
    cases hn
    exact .here
  | @within n part stands _ ih =>
    cases hpipe : n.isPipe with
    | false =>
      obtain ⟨part', hmem, hpart⟩ :=
        exists_of_forall₂_mem (expressions_of_writtenOut hpipe hn) stands
      exact .within hmem (ih hpart)
    | true =>
      obtain ⟨left, right, rfl⟩ := Node.exists_of_isPipe hpipe
      rw [WrittenOut, Node.removePipes] at hn
      obtain ⟨left', hleft, hn⟩ := exists_ok_of_bind hn
      obtain ⟨right', hright, hcall⟩ := exists_ok_of_bind hn
      obtain ⟨harg, hparts, hother⟩ := mem_expressions_withFirstArgument hcall
      simp only [Node.expressions, List.mem_cons, List.not_mem_nil, or_false] at stands
      rcases stands with rfl | rfl
      · exact .within harg (ih hleft)
      · cases ih hright with
        | here => exact (hother _ _ _ rfl).elim
        | within stands uses => exact .within (hparts _ stands) uses

end Pipes

end TreeLowering
