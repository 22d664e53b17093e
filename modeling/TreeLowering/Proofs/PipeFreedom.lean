import TreeLowering.Proofs.FootprintLowering
import TreeLowering.Proofs.PipeRemoval

/-!
Pipes are written out, all of them and nothing else, so none is left when a tree is lowered.
-/
namespace TreeLowering

open Source Target LowerM Lowering Node

section Reports

theorem noPipeLeft_removePipes (n : Node) : NoPipeLeft n.removePipes := by
  intro h
  obtain ⟨left, right, -, -, he⟩ := exists_pipe_of_error h
  cases he

theorem noPipeLeft_removePipesList (ns : List Node) : NoPipeLeft (removePipesList ns) := by
  intro h
  obtain ⟨n, -, hn⟩ := exists_error_of_removePipesList h
  exact noPipeLeft_removePipes n hn

theorem within_lowerExprM (n : Node) : (lowerExprM n).Within .numbers False := by
  have hfree : ∀ m, n.removePipes = .ok m → m.PipeFree := fun _ => pipeFree_of_removePipes
  refine .bindEnsured (.ofExcept (noPipeLeft_removePipes n)) (.ofExcept hfree) fun m hm => ?_
  exact (lowersWithin hm).positions.value

theorem within_lowerProgramM (ns : List Node) : (lowerProgramM ns).Within .bindings False := by
  have hfree : ∀ ms, removePipesList ns = .ok ms → ∀ m ∈ ms, m.PipeFree := by
    intro ms hms m hm
    obtain ⟨n, -, hn⟩ := exists_of_mem_removePipesList hms hm
    exact pipeFree_of_removePipes hn
  refine .bindEnsured (.ofExcept (noPipeLeft_removePipesList ns)) (.ofExcept hfree) fun ms hms => ?_
  refine .bind (.concat (List.forall_mem_map.mpr fun m hm => ?_)) fun _ => .pure _
  exact within_topLevel (lowersWithin (hms m hm))

theorem lowerExpr_ne_pipeLeft (config : Config) (n : Node) :
    lowerExpr config n ≠ .error (.malformed .pipeLeft) :=
  fun h => (within_lowerExprM n).fails config {} h

theorem lowerProgram_ne_pipeLeft (config : Config) (ns : List Node) :
    lowerProgram config ns ≠ .error (.malformed .pipeLeft) :=
  fun h => (within_lowerProgramM ns).fails config {} h

/-- The report of a pipe that was left is known by its form and its text. -/
theorem Malformed.eq_pipeLeft {what : Malformed} (hform : what.form = "pipe")
    (hreason : what.reason = "pipes must be rewritten before dispatch") : what = .pipeLeft := by
  -- the other reports that can be about a pipe start with another letter
  have hfirst : what.reason.toList.head? = some 'p' :=
    congrArg (fun text : String => text.toList.head?) hreason
  cases what with
  | pipeLeft => rfl
  | pipeTarget got =>
    have htext : ("right-hand side must be a call, got " ++ got).toList.head? = some 'p' := hfirst
    rw [String.toList_append] at htext
    cases htext
  | emptyModuleName =>
    have htext : "empty module name".toList.head? = some 'p' := hfirst
    cases htext
  | misplaced =>
    have htext : "not valid in expression position".toList.head? = some 'p' := hfirst
    cases htext
  | _ => simp only [Malformed.form, String.reduceEq] at hform

end Reports

/-- Writing out the pipes of a tree succeeds if and only if all of them lead to something that takes
an argument; otherwise the error is about a pipe, and names what one of them leads to. What is
written out has no pipes, which stays so and means the same; what has no pipes is left as it is. So
no lowering reports a pipe that was left. -/
theorem removePipes_removes_exactly_pipes (n : Node) :
    ((∃ m, n.removePipes = .ok m) ↔ n.WellPiped) ∧
    (¬ n.WellPiped → ∃ what, n.removePipes = .error (.malformed what) ∧ what.form = "pipe" ∧
      ∃ left right, Occurs (.pipe left right) n ∧ right.takesArgument = false ∧
        what = .pipeTarget right.formName) ∧
    (∀ m, n.removePipes = .ok m → m.PipeFree ∧ m.removePipes = .ok m ∧
      ∀ config, lowerExpr config n = lowerExpr config m) ∧
    (n.PipeFree → n.removePipes = .ok n) ∧
    (∀ config what, lowerExpr config n = .error (.malformed what) →
      ¬ (what.form = "pipe" ∧ what.reason = "pipes must be rewritten before dispatch")) ∧
    ∀ config nodes what, lowerProgram config nodes = .error (.malformed what) →
      ¬ (what.form = "pipe" ∧ what.reason = "pipes must be rewritten before dispatch") := by
  refine ⟨removePipes_isOk_iff, ?refused, ?written, removePipes_of_pipeFree, ?expr, ?program⟩
  case refused =>
    intro hn
    cases h : n.removePipes with
    | ok m => exact (hn (wellPiped_of_removePipes h)).elim
    | error e =>
      obtain ⟨left, right, hpipe, htakes, rfl⟩ := exists_pipe_of_error h
      exact ⟨_, rfl, rfl, left, right, hpipe, htakes, rfl⟩
  case written =>
    intro m hm
    have hfree := pipeFree_of_removePipes hm
    have hkept := removePipes_of_pipeFree hfree
    exact ⟨hfree, hkept, lowerExpr_congr (hm.trans hkept.symm)⟩
  case expr =>
    rintro config what h ⟨hform, hreason⟩
    rw [Malformed.eq_pipeLeft hform hreason] at h
    exact lowerExpr_ne_pipeLeft config n h
  case program =>
    rintro config nodes what h ⟨hform, hreason⟩
    rw [Malformed.eq_pipeLeft hform hreason] at h
    exact lowerProgram_ne_pipeLeft config nodes h

/-- A module whose one function has pipes in its guard, in the key of a map and in the pattern of a
generator; the pipe in the guard leads to a node of choice. -/
def pipedModule (stage : Node) : Node :=
  .module ["Report"] [.define .exported
    (.guarded [.call "rows" [.var "n"] {}] (.pipe (.var "n") stage))
    [.comprehension [.generator (.pipe (.var "row") (.var "tag")) (.var "n")]
      [.map [(.pipe (.var "row") (.call "key" [.integer 1] {}), .nil)]] none]]

theorem removePipes_removes_exactly_pipes_pipedModule :
    (pipedModule (.var "even")).WellPiped ∧
    (∃ m, (pipedModule (.var "even")).removePipes = .ok m ∧ m.PipeFree ∧ m.removePipes = .ok m) ∧
    ¬ (pipedModule (.integer 2)).WellPiped ∧
    ∃ what, lowerProgram {} [pipedModule (.integer 2)] = .error (.malformed what) ∧
      what.form = "pipe" ∧ what.reason ≠ "pipes must be rewritten before dispatch" := by
  obtain ⟨hpiped, -, hwritten, -⟩ := removePipes_removes_exactly_pipes (pipedModule (.var "even"))
  obtain ⟨hpiped', -, -, -, -, hprogram⟩ :=
    removePipes_removes_exactly_pipes (pipedModule (.integer 2))
  have hrefused : (pipedModule (.integer 2)).removePipes =
    .error (.malformed (.pipeTarget "integer")) := rfl
  refine ⟨hpiped.mp ⟨_, rfl⟩, ⟨_, rfl, ?_⟩, fun h => ?_, _, rfl, rfl, fun hreason => ?_⟩
  · obtain ⟨hfree, -⟩ := hwritten _ rfl
    exact ⟨hfree, (removePipes_removes_exactly_pipes _).2.2.2.1 hfree⟩
  · obtain ⟨m, hm⟩ := hpiped'.mpr h
    rw [hrefused] at hm
    cases hm
  · exact hprogram {} [pipedModule (.integer 2)] _ rfl ⟨rfl, hreason⟩

end TreeLowering
