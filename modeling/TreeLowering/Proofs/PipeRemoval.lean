import TreeLowering.Lowering
import TreeLowering.Proofs.Assembly
import TreeLowering.Proofs.Run

/-!
Writing out pipes, without regard to the forms they stand in.

The parts of a node are written out from the first to the last, and then the node itself, which
changes only if it is a pipe (`removePipes_eq`). From this alone follow what a result looks like, when
there is one, which error there is otherwise, and that a node in a tree may be replaced by one that
is written out alike.
-/
namespace TreeLowering.Source

open Node (removePipesList removePipesOption removePipesListOption removePipesSegments
  removePipesEntries removePipesFields removePipesClauses removePipesQualifiers)

section Lists

variable {ns ms : List Node}

theorem removePipesList_append (ns ms : List Node) :
    removePipesList (ns ++ ms) = (do
      let before ← removePipesList ns
      let after ← removePipesList ms
      return before ++ after) := by
  induction ns with
  | nil =>
    cases h : removePipesList ms <;> simp [removePipesList, bind, Except.bind, pure, Except.pure, h]
  | cons n ns ih =>
    simp only [List.cons_append, removePipesList, ih, bind_assoc, pure_bind]

theorem length_of_removePipesList (h : removePipesList ns = .ok ms) : ms.length = ns.length := by
  induction ns generalizing ms with
  | nil =>
    cases h
    rfl
  | cons n ns ih =>
    obtain ⟨m, -, h⟩ := exists_ok_of_bind h
    obtain ⟨rest, hrest, h⟩ := exists_ok_of_bind h
    cases h
    rw [List.length_cons, List.length_cons, ih hrest]

/-- What a list is written out to was written out from a node of the list. -/
theorem exists_of_mem_removePipesList (h : removePipesList ns = .ok ms) {m : Node} (hm : m ∈ ms) :
    ∃ n ∈ ns, n.removePipes = .ok m := by
  induction ns generalizing ms with
  | nil =>
    cases h
    cases hm
  | cons n ns ih =>
    obtain ⟨n', hn, h⟩ := exists_ok_of_bind h
    obtain ⟨rest, hrest, h⟩ := exists_ok_of_bind h
    cases h
    rcases List.mem_cons.mp hm with rfl | hm
    · exact ⟨n, by simp, hn⟩
    · obtain ⟨p, hp, hpm⟩ := ih hrest hm
      exact ⟨p, by simp [hp], hpm⟩

theorem exists_ok_of_removePipesList (h : removePipesList ns = .ok ms) {n : Node} (hn : n ∈ ns) :
    ∃ m, n.removePipes = .ok m := by
  induction ns generalizing ms with
  | nil => cases hn
  | cons p ns ih =>
    obtain ⟨p', hp, h⟩ := exists_ok_of_bind h
    obtain ⟨rest, hrest, -⟩ := exists_ok_of_bind h
    rcases List.mem_cons.mp hn with rfl | hn
    · exact ⟨p', hp⟩
    · exact ih hrest hn

theorem exists_error_of_removePipesList {e : LowerError} (h : removePipesList ns = .error e) :
    ∃ n ∈ ns, n.removePipes = .error e := by
  induction ns with
  | nil => cases h
  | cons n ns ih =>
    rw [removePipesList] at h
    cases hn : n.removePipes with
    | error e' =>
      rw [hn] at h
      cases h
      exact ⟨n, by simp, hn⟩
    | ok n' =>
      cases hns : removePipesList ns with
      | error e' =>
        rw [hn, hns] at h
        cases h
        obtain ⟨p, hp, hpe⟩ := ih hns
        exact ⟨p, by simp [hp], hpe⟩
      | ok ns' =>
        rw [hn, hns] at h
        cases h

theorem removePipesList_of_unchanged (h : ∀ n ∈ ns, n.removePipes = .ok n) :
    removePipesList ns = .ok ns := by
  induction ns with
  | nil => rfl
  | cons n ns ih =>
    rw [removePipesList, h n (by simp), ih fun m hm => h m (by simp [hm])]
    rfl

/-- Lists are written out alike if their nodes are, one by one. -/
theorem removePipesList_modify (ns : List Node) (i : Nat) {f : Node → Node}
    (h : ∀ n, ns[i]? = some n → (f n).removePipes = n.removePipes) :
    removePipesList (ns.modify i f) = removePipesList ns := by
  induction ns generalizing i with
  | nil => simp
  | cons n ns ih =>
    cases i with
    | zero => rw [List.modify_zero_cons, removePipesList, removePipesList, h n rfl]
    | succ i => rw [List.modify_succ_cons, removePipesList, removePipesList, ih i h]

end Lists

namespace Assembly

variable {α β γ δ : Type}

/-- The value with the pipes in its nodes written out. -/
def removePipes (p : Assembly α) : Except LowerError α := do
  return p.build (← removePipesList p.parts)

section Combinators

variable (p : Assembly α) (q : Assembly β) (r : Assembly γ)

theorem removePipes_map (f : α → β) :
    (p.map f).removePipes = (do return f (← p.removePipes)) := by
  simp only [removePipes, map, bind_assoc, pure_bind]

theorem removePipes_map₂ (f : α → β → γ) :
    (map₂ f p q).removePipes = (do return f (← p.removePipes) (← q.removePipes)) := by
  simp only [removePipes, map₂, removePipesList_append, bind_assoc, pure_bind]
  cases hp : removePipesList p.parts with
  | error e => rfl
  | ok ps =>
    have hlength := length_of_removePipesList hp
    cases hq : removePipesList q.parts with
    | error e => rfl
    | ok qs =>
      show Except.ok (f (p.build ((ps ++ qs).take _)) (q.build ((ps ++ qs).drop _))) = _
      rw [← hlength, List.take_left, List.drop_left]
      rfl

theorem removePipes_map₃ (f : α → β → γ → δ) :
    (map₃ f p q r).removePipes = (do
      return f (← p.removePipes) (← q.removePipes) (← r.removePipes)) := by
  simp only [map₃, removePipes_map₂, bind_assoc, pure_bind]

end Combinators

theorem removePipes_node (n : Node) : (node n).removePipes = n.removePipes := by
  cases h : n.removePipes <;>
    simp [removePipes, removePipesList, node, bind, Except.bind, pure, Except.pure, h]

/-- A list is written out item by item. -/
theorem removePipes_each {f : α → Assembly α} (lists : List α → Except LowerError (List α))
    (hnil : lists [] = .ok [])
    (hcons : ∀ a rest, lists (a :: rest) = (do return (← (f a).removePipes) :: (← lists rest)))
    (l : List α) : (each f l).removePipes = lists l := by
  induction l with
  | nil => exact hnil.symm
  | cons a rest ih => rw [each, removePipes_map₂, ih, hcons]

theorem removePipes_nodes (ns : List Node) : (each node ns).removePipes = removePipesList ns := by
  refine removePipes_each removePipesList rfl (fun n rest => ?_) ns
  rw [removePipes_node, removePipesList]

theorem removePipes_segments (segments : List (Segment Node)) :
    (each segment segments).removePipes = removePipesSegments segments := by
  refine removePipes_each removePipesSegments rfl (fun s rest => ?_) segments
  cases s <;>
    simp only [segment, removePipes_map, removePipes_node, removePipesSegments, bind_assoc, pure_bind]

theorem removePipes_entries (entries : List (Node × Node)) :
    (each entry entries).removePipes = removePipesEntries entries := by
  refine removePipes_each removePipesEntries rfl (fun (key, value) rest => ?_) entries
  simp only [entry, removePipes_map₂, removePipes_node, removePipesEntries, bind_assoc, pure_bind]

theorem removePipes_fields (fields : List (String × Node)) :
    (each field fields).removePipes = removePipesFields fields := by
  refine removePipes_each removePipesFields rfl (fun (name, value) rest => ?_) fields
  simp only [field, removePipes_map, removePipes_node, removePipesFields, bind_assoc, pure_bind]

theorem removePipes_clauses (clauses : List (Clause Node)) :
    (each clause clauses).removePipes = removePipesClauses clauses := by
  refine removePipes_each removePipesClauses rfl (fun ⟨head, body⟩ rest => ?_) clauses
  simp only [clause, removePipes_map₂, removePipes_nodes, removePipesClauses, bind_assoc, pure_bind]

theorem removePipes_qualifiers (qualifiers : List (Qualifier Node)) :
    (each qualifier qualifiers).removePipes = removePipesQualifiers qualifiers := by
  refine removePipes_each removePipesQualifiers rfl (fun q rest => ?_) qualifiers
  cases q <;>
    simp only [qualifier, removePipes_map, removePipes_map₂, removePipes_node,
      removePipesQualifiers, bind_assoc, pure_bind]

theorem removePipes_option (o : Option Node) :
    (option node o).removePipes = removePipesOption o := by
  cases o with
  | none => rfl
  | some n => rw [option, removePipes_map, removePipes_node, removePipesOption]

theorem removePipes_listOption (o : Option (List Node)) :
    (option (each node) o).removePipes = removePipesListOption o := by
  cases o with
  | none => rfl
  | some ns => rw [option, removePipes_map, removePipes_nodes, removePipesListOption]

end Assembly

namespace Node

/-- A node whose parts hold no pipes, written out: a pipe is a call. -/
def settled : Node → Except LowerError Node
  | .pipe left right => right.withFirstArgument left
  | n => .ok n

def isPipe : Node → Bool
  | .pipe .. => true
  | _ => false

theorem isPipe_withParts (n : Node) (ps : List Node) : (n.withParts ps).isPipe = n.isPipe := by
  cases n <;> rfl

theorem exists_of_isPipe {n : Node} (h : n.isPipe = true) : ∃ left right, n = .pipe left right := by
  cases n with
  | pipe left right => exact ⟨left, right, rfl⟩
  | _ => cases h

theorem settled_of_not_isPipe {n : Node} (h : n.isPipe = false) : n.settled = .ok n := by
  cases n with
  | pipe => cases h
  | _ => rfl

theorem removePipes_assembly {n : Node} (h : n.isPipe = false) :
    n.removePipes = n.assembly.removePipes := by
  cases n
  case pipe => cases h
  all_goals
    simp only [removePipes, assembly, Assembly.removePipes_map, Assembly.removePipes_map₂,
      Assembly.removePipes_map₃, Assembly.removePipes_node, Assembly.removePipes_nodes,
      Assembly.removePipes_segments, Assembly.removePipes_entries, Assembly.removePipes_fields,
      Assembly.removePipes_clauses, Assembly.removePipes_qualifiers, Assembly.removePipes_option,
      Assembly.removePipes_listOption]
  all_goals rfl

/-- First the parts of a node are written out, then the node itself. -/
theorem removePipes_eq (n : Node) :
    n.removePipes = (do
      let ps ← removePipesList n.parts
      (n.withParts ps).settled) := by
  by_cases hpipe : n.isPipe = true
  · obtain ⟨left, right, rfl⟩ := exists_of_isPipe hpipe
    simp only [parts, assembly, Assembly.parts_map₂, Assembly.parts_node, List.singleton_append,
      removePipes, removePipesList, bind_assoc, pure_bind]
    rfl
  · have hpipe : n.isPipe = false := by simpa using hpipe
    have hsettled : ∀ ps, (n.withParts ps).settled = .ok (n.withParts ps) := fun ps =>
      settled_of_not_isPipe ((isPipe_withParts n ps).trans hpipe)
    simp only [removePipes_assembly hpipe, hsettled]
    rfl

/-- A part may be replaced by one that is written out alike. -/
theorem removePipes_withParts {n : Node} {ps : List Node} (hlength : ps.length = n.parts.length)
    (h : removePipesList ps = removePipesList n.parts) :
    (n.withParts ps).removePipes = n.removePipes := by
  simp only [removePipes_eq (n.withParts ps), parts_withParts hlength, withParts_withParts hlength, h]
  rw [← removePipes_eq]

/-- A node at any place of a tree may be replaced by one that is written out alike. -/
theorem removePipes_replaceAt {n x y : Node} {place : List Nat} (hx : n.at? place = some x)
    (h : y.removePipes = x.removePipes) : (n.replaceAt y place).removePipes = n.removePipes := by
  induction place generalizing n with
  | nil =>
    cases hx
    exact h
  | cons i place ih =>
    obtain ⟨p, hp, hx⟩ := Option.bind_eq_some_iff.mp hx
    refine removePipes_withParts (List.length_modify _ _ _) (removePipesList_modify _ i ?_)
    intro q hq
    obtain rfl := Option.some.inj (hp.symm.trans hq)
    exact ih hx

/-- How a node has been written out: a pipe as a call, any other node with new parts. -/
theorem removePipes_ok {n m : Node} (h : n.removePipes = .ok m) :
    (∃ left right left' right', n = .pipe left right ∧ left.removePipes = .ok left' ∧
      right.removePipes = .ok right' ∧ right'.withFirstArgument left' = .ok m) ∨
    (n.isPipe = false ∧ ∃ ps, removePipesList n.parts = .ok ps ∧ m = n.withParts ps) := by
  by_cases hpipe : n.isPipe = true
  · obtain ⟨left, right, rfl⟩ := exists_of_isPipe hpipe
    rw [removePipes] at h
    obtain ⟨left', hleft, h⟩ := exists_ok_of_bind h
    obtain ⟨right', hright, h⟩ := exists_ok_of_bind h
    exact .inl ⟨left, right, left', right', rfl, hleft, hright, h⟩
  · have hpipe : n.isPipe = false := by simpa using hpipe
    rw [removePipes_eq] at h
    obtain ⟨ps, hps, h⟩ := exists_ok_of_bind h
    rw [settled_of_not_isPipe ((isPipe_withParts n ps).trans hpipe)] at h
    exact .inr ⟨hpipe, ps, hps, (Except.ok.inj h).symm⟩

/-- Why a node has not been written out: because of a part, or because a pipe leads to a node that
takes no argument. -/
theorem removePipes_error {n : Node} {e : LowerError} (h : n.removePipes = .error e) :
    (∃ p ∈ n.parts, p.removePipes = .error e) ∨
    ∃ left right left' right', n = .pipe left right ∧ left.removePipes = .ok left' ∧
      right.removePipes = .ok right' ∧ right'.withFirstArgument left' = .error e := by
  cases hparts : removePipesList n.parts with
  | error e' =>
    rw [removePipes_eq, hparts] at h
    cases h
    exact .inl (exists_error_of_removePipesList hparts)
  | ok ps =>
    have hsettled : (n.withParts ps).settled = .error e := by
      rw [removePipes_eq, hparts] at h
      exact h
    by_cases hpipe : n.isPipe = true
    · obtain ⟨left, right, rfl⟩ := exists_of_isPipe hpipe
      have hboth : removePipesList [left, right] = .ok ps := hparts
      simp only [removePipesList, bind_eq_ok_iff, pure, Except.pure, Except.ok.injEq] at hboth
      obtain ⟨left', hleft, _, ⟨right', hright, _, rfl, rfl⟩, rfl⟩ := hboth
      exact .inr ⟨left, right, left', right', rfl, hleft, hright, hsettled⟩
    · have hpipe : n.isPipe = false := by simpa using hpipe
      rw [settled_of_not_isPipe ((isPipe_withParts n ps).trans hpipe)] at hsettled
      cases hsettled

/-- Whether a pipe can lead to the node. -/
def takesArgument : Node → Bool
  | .call .. | .dot .. | .apply .. | .var _ | .pipe .. => true
  | _ => false

theorem takesArgument_withParts (n : Node) (ps : List Node) :
    (n.withParts ps).takesArgument = n.takesArgument := by
  cases n <;> rfl

/-- A first argument is put before the parts that a call has, and makes no pipe. -/
theorem withFirstArgument_ok {n arg m : Node} (h : n.withFirstArgument arg = .ok m) :
    n.takesArgument = true ∧ m.takesArgument = true ∧ m.isPipe = false ∧
      ∀ p ∈ m.parts, p = arg ∨ p ∈ n.parts := by
  cases n <;> cases h
  case call | var => exact ⟨rfl, rfl, rfl, by simp [parts, assembly]⟩
  case apply callee args =>
    refine ⟨rfl, rfl, rfl, fun p hp => ?_⟩
    have hnew : p = callee ∨ p = arg ∨ p ∈ args := by simpa [parts, assembly] using hp
    have hold : p = callee ∨ p ∈ args → p ∈ (apply callee args).parts := by simp [parts, assembly]
    grind
  case dot target name args info =>
    refine ⟨rfl, rfl, rfl, fun p hp => ?_⟩
    have hnew : p = target ∨ p = arg ∨ p ∈ args.getD [] := by simpa [parts, assembly] using hp
    have hold : p = target ∨ p ∈ args.getD [] → p ∈ (dot target name args info).parts := by
      cases args <;> simp [parts, assembly]
    grind

theorem withFirstArgument_error {n arg : Node} {e : LowerError} (hpipe : n.isPipe = false)
    (h : n.withFirstArgument arg = .error e) :
    n.takesArgument = false ∧ e = .malformed (.pipeTarget n.formName) := by
  cases n with
  | pipe => cases hpipe
  | call | dot | apply | var => cases h
  | _ =>
    cases h
    exact ⟨rfl, rfl⟩

/-- Writing out pipes keeps whether an argument can be put before those of the node, and the name of
every form but the pipe. -/
theorem takesArgument_of_removePipes {n m : Node} (h : n.removePipes = .ok m) :
    m.takesArgument = n.takesArgument ∧ (n.isPipe = false → m.formName = n.formName) := by
  rcases removePipes_ok h with ⟨left, right, left', right', rfl, -, -, hm⟩ | ⟨-, ps, -, rfl⟩
  · exact ⟨(withFirstArgument_ok hm).2.1, nofun⟩
  · exact ⟨takesArgument_withParts n ps, fun _ => formName_withParts n ps⟩

/-- No pipe stands anywhere in the tree. -/
def PipeFree (n : Node) : Prop := ∀ left right, ¬ Occurs (.pipe left right) n

/-- Every pipe in the tree leads to a node that takes an argument. -/
def WellPiped (n : Node) : Prop :=
  ∀ left right, Occurs (.pipe left right) n → right.takesArgument = true

theorem pipeFree_iff {n : Node} : n.PipeFree ↔ n.isPipe = false ∧ ∀ p ∈ n.parts, p.PipeFree := by
  constructor
  · intro h
    refine ⟨?_, fun p hp left right hpipe => h left right (.inside hp hpipe)⟩
    cases n with
    | pipe left right => exact (h left right .self).elim
    | _ => rfl
  · rintro ⟨hn, hparts⟩ left right hpipe
    cases hpipe with
    | self => cases hn
    | inside hp hpipe => exact hparts _ hp left right hpipe

/-- What is written out holds no pipes. -/
theorem pipeFree_of_removePipes {n m : Node} (h : n.removePipes = .ok m) : m.PipeFree := by
  induction n using inductParts generalizing m with
  | step n ih =>
    rcases removePipes_ok h with
      ⟨left, right, left', right', rfl, hleft, hright, hm⟩ | ⟨hn, ps, hps, rfl⟩
    · have hleft' : left'.PipeFree := ih left (by simp [parts, assembly]) hleft
      have hright' : right'.PipeFree := ih right (by simp [parts, assembly]) hright
      obtain ⟨-, -, hpipe, hparts⟩ := withFirstArgument_ok hm
      refine pipeFree_iff.mpr ⟨hpipe, fun p hp => ?_⟩
      rcases hparts p hp with rfl | hp
      · exact hleft'
      · exact (pipeFree_iff.mp hright').2 p hp
    · refine pipeFree_iff.mpr ⟨(isPipe_withParts n ps).trans hn, fun p hp => ?_⟩
      rw [parts_withParts (length_of_removePipesList hps)] at hp
      obtain ⟨q, hq, hqp⟩ := exists_of_mem_removePipesList hps hp
      exact ih q hq hqp

/-- A tree without pipes is left as it is. -/
theorem removePipes_of_pipeFree {n : Node} (h : n.PipeFree) : n.removePipes = .ok n := by
  induction n using inductParts with
  | step n ih =>
    obtain ⟨hn, hparts⟩ := pipeFree_iff.mp h
    have hunchanged : removePipesList n.parts = .ok n.parts :=
      removePipesList_of_unchanged fun p hp => ih p hp (hparts p hp)
    calc n.removePipes = (n.withParts n.parts).settled := by rw [removePipes_eq, hunchanged]; rfl
      _ = .ok n := by rw [withParts_parts, settled_of_not_isPipe hn]

/-- A tree that can be written out has only pipes that lead to nodes with arguments. -/
theorem wellPiped_of_removePipes {n m : Node} (h : n.removePipes = .ok m) : n.WellPiped := by
  induction n using inductParts generalizing m with
  | step n ih =>
    intro left right hpipe
    cases hpipe with
    | self =>
      rcases removePipes_ok h with ⟨_, _, left', right', heq, -, hright, hm⟩ | ⟨hn, -⟩
      · cases heq
        rw [← (takesArgument_of_removePipes hright).1]
        exact (withFirstArgument_ok hm).1
      · cases hn
    | inside hp hpipe =>
      rename_i p
      have hparts : ∃ p', p.removePipes = .ok p' := by
        rw [removePipes_eq] at h
        obtain ⟨ps, hps, -⟩ := exists_ok_of_bind h
        exact exists_ok_of_removePipesList hps hp
      obtain ⟨p', hp'⟩ := hparts
      exact ih p hp hp' left right hpipe

/-- A tree that cannot be written out has a pipe that leads to a node without arguments, and the
error names the form of that node. -/
theorem exists_pipe_of_error {n : Node} {e : LowerError} (h : n.removePipes = .error e) :
    ∃ left right, Occurs (.pipe left right) n ∧ right.takesArgument = false ∧
      e = .malformed (.pipeTarget right.formName) := by
  induction n using inductParts with
  | step n ih =>
    rcases removePipes_error h with ⟨p, hp, hpe⟩ | ⟨left, right, left', right', rfl, -, hright, he⟩
    · obtain ⟨left, right, hpipe, hrest⟩ := ih p hp hpe
      exact ⟨left, right, .inside hp hpipe, hrest⟩
    · have hfree : right'.isPipe = false := (pipeFree_iff.mp (pipeFree_of_removePipes hright)).1
      obtain ⟨htakes, rfl⟩ := withFirstArgument_error hfree he
      obtain ⟨hkept, hname⟩ := takesArgument_of_removePipes hright
      rw [hkept] at htakes
      -- a pipe takes an argument, so the right side is none and keeps its form
      have hpipe : right.isPipe = false := by
        cases right with
        | pipe => cases htakes
        | _ => rfl
      exact ⟨left, right, .self, htakes, by rw [hname hpipe]⟩

theorem removePipes_isOk_iff {n : Node} : (∃ m, n.removePipes = .ok m) ↔ n.WellPiped := by
  constructor
  · rintro ⟨m, h⟩
    exact wellPiped_of_removePipes h
  · intro h
    cases hn : n.removePipes with
    | ok m => exact ⟨m, rfl⟩
    | error e =>
      obtain ⟨left, right, hpipe, htakes, -⟩ := exists_pipe_of_error hn
      rw [h left right hpipe] at htakes
      cases htakes

end Node

end TreeLowering.Source

namespace TreeLowering

/-- Trees that are written out alike are lowered alike. -/
theorem lowerExpr_congr {n m : Source.Node} (h : n.removePipes = m.removePipes) (config : Config) :
    lowerExpr config n = lowerExpr config m := by
  simp only [lowerExpr, Session.lowerExpr, lowerExprM, h]

end TreeLowering
