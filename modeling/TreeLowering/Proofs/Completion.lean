import TreeLowering.Proofs.Machine
import TreeLowering.Proofs.WellFormedLowering

/-!
Every lowered function ends in a return or a throw.
-/
namespace TreeLowering

open Source Target

/-- The parts of an expression or a program that was lowered under the configuration. -/
inductive Emitted (config : Config) : List Part → Prop
  | expr {node : Node} {e : Expr} (lowered : lowerExpr config node = .ok e) :
      Emitted config (exprParts e)
  | program {nodes : List Node} {program : Program}
      (lowered : lowerProgram config nodes = .ok program) :
      Emitted config (topParts program.body)

theorem Emitted.wellFormed {config : Config} {parts : List Part} (h : Emitted config parts) :
    ∀ p ∈ parts, p.WellFormed := by
  cases h with
  | expr lowered =>
    exact fun p hp => (wellFormed_lowerExprM _ _ _ _ _ (Prod.ext lowered rfl) p hp).1
  | program lowered => exact (wellFormed_lowerProgramM _ _ _ _ _ (Prod.ext lowered rfl)).inside

/-- A call of a function whose last statement is terminal does not fall off the end. -/
theorem Target.Machine.call_leaves (M : Machine) {f : FunctionDef}
    (h : (Part.function f).WellFormed) (args : List M.Value) (env : M.Env) :
    (M.call f args env).Leaves := by
  obtain ⟨last, hlast, hterminal⟩ := h
  refine M.execAll_leaves _ _ ?_
  rw [Stmt.lastIsTerminal_eq, hlast]
  exact hterminal

/-- Whatever is lowered, each of its functions has a last statement and that one is terminal, its
declarations are constants with a value, properties that are not computed are named by strings, and
imports and modules stand at the top of the program or of a module only. No terminal statement
completes normally, so a call of such a function that ends has returned or thrown. -/
theorem emitted_functions_end (config : Config) (parts : List Part) (h : Emitted config parts) :
    (∀ p ∈ parts, p.WellFormed) ∧
    (∀ (M : Machine) (s : Stmt) (env env' : M.Env) (σ σ' : M.Store), s.isTerminal = true →
      (M.exec s env).run.run σ ≠ some (.ok (.normal env'), σ')) ∧
    (∀ (M : Machine) (f : FunctionDef) (args : List M.Value) (env : M.Env) (σ σ' : M.Store)
      (outcome : Except M.Value (Completion M.Value)), .function f ∈ parts →
      (M.call f args env).run.run σ = some (outcome, σ') →
      (∃ v, outcome = .ok (.returned v)) ∨ ∃ v, outcome = .error v) := by
  refine ⟨h.wellFormed, fun M s env env' σ σ' hs hrun => ?_,
    fun M f args env σ σ' outcome hf hrun => ?_⟩
  · obtain ⟨v, hv⟩ := M.exec_leaves s env hs _ ⟨σ, σ', hrun⟩
    cases hv
  · cases outcome with
    | error v => exact .inr ⟨v, rfl⟩
    | ok completion =>
      obtain ⟨v, rfl⟩ := M.call_leaves (h.wellFormed _ hf) args env _ ⟨σ, σ', hrun⟩
      exact .inl ⟨v, rfl⟩

/-- The constructors of this exception are generated, beside a function of two clauses. -/
def exceptionModule : Node :=
  .module ["Failure"]
    [.defException [("message", .string "failed")],
      .define .exported (.call "f" [.integer 1] {}) [.bind (.var "x") (.integer 2), .var "x"],
      .define .exported (.call "f" [.var "y"] {}) [.ifElse (.var "y") [.fn [⟨[], []⟩]] none]]

/-- The functions among the parts, by name. -/
def Target.functionNames (parts : List Part) : List String :=
  parts.filterMap fun
    | .function f => some f.name
    | _ => none

theorem emitted_functions_end_exceptionModule :
    (lowerProgram {} [exceptionModule]).map (fun program => functionNames (topParts program.body)) =
      .ok ["__struct__", "exception", "f", ""] ∧
    ∃ program, lowerProgram {} [exceptionModule] = .ok program ∧
      (∀ p ∈ topParts program.body, p.WellFormed) ∧
      ∀ (M : Machine) (f : FunctionDef) (args : List M.Value) (env : M.Env) (σ σ' : M.Store)
        (outcome : Except M.Value (Completion M.Value)), .function f ∈ topParts program.body →
        (M.call f args env).run.run σ = some (outcome, σ') →
        (∃ v, outcome = .ok (.returned v)) ∨ ∃ v, outcome = .error v := by
  obtain ⟨program, h⟩ := exists_ok_of_isOk (x := lowerProgram {} [exceptionModule]) rfl
  have hend := emitted_functions_end {} _ (.program h)
  exact ⟨rfl, program, h, hend.1, hend.2.2⟩

end TreeLowering
