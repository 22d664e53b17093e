import TreeLowering.Proofs.PipeRemoval

/-!
A chain of pipes is a nested call.

`(start |> s₁) |> s₂` is `s₂` called with `s₁` called with `start`, each with its own arguments
behind. The chain may be replaced by that call wherever it stands: the tree around it is written out
and lowered to the same.
-/
namespace TreeLowering.Source

open Node (removePipesList removePipesListOption)

/-- A stage of a chain: a call that waits for its first argument. -/
inductive Stage where
  | call (name : String) (args : List Node) (info : CallMeta)
  | dot (target : Node) (name : String) (args : Option (List Node)) (info : DotMeta)
  | apply (callee : Node) (args : List Node)
  | bare (name : String)

namespace Stage

/-- The stage as it stands to the right of a pipe. -/
def written : Stage → Node
  | .call name args info => .call name args info
  | .dot target name args info => .dot target name args info
  | .apply callee args => .apply callee args
  | .bare name => .var name

/-- The call that the stage is with its first argument. -/
def called : Stage → Node → Node
  | .call name args info, first => .call name (first :: args) info
  | .dot target name args info, first => .dot target name (some (first :: args.getD [])) info
  | .apply callee args, first => .apply callee (first :: args)
  | .bare name, first => .call name [first] {}

/-- The target or the function of the stage, if it is a node. -/
def head? : Stage → Option Node
  | .dot target .. => some target
  | .apply callee _ => some callee
  | .call .. | .bare _ => none

/-- The stage with the pipes of its head and of its arguments written out. -/
def removePipes : Stage → Except LowerError Stage
  | .call name args info => do return .call name (← removePipesList args) info
  | .dot target name args info => do
    return .dot (← target.removePipes) name (← removePipesListOption args) info
  | .apply callee args => do return .apply (← callee.removePipes) (← removePipesList args)
  | .bare name => .ok (.bare name)

/-- The head of the stage can be written out. -/
def HasPlainHead (stage : Stage) : Prop := ∀ head ∈ stage.head?, ∃ plain, head.removePipes = .ok plain

end Stage

/-- `(start |> s₁) |> … |> sₙ`. -/
def chain (start : Node) (stages : List Stage) : Node :=
  stages.foldl (fun left stage => .pipe left stage.written) start

/-- Each stage called with what comes before it. -/
def nestedCall (start : Node) (stages : List Stage) : Node :=
  stages.foldl (fun first stage => stage.called first) start

section Stages

theorem removePipes_written (stage : Stage) :
    stage.written.removePipes = (do return (← stage.removePipes).written) := by
  cases stage <;>
    simp only [Stage.written, Stage.removePipes, Node.removePipes, bind_assoc, pure_bind]
  rfl

theorem withFirstArgument_written (stage : Stage) (first : Node) :
    stage.written.withFirstArgument first = .ok (stage.called first) := by
  cases stage <;> rfl

/-- One pipe into a stage. -/
theorem removePipes_pipe (left : Node) (stage : Stage) :
    (Node.pipe left stage.written).removePipes = (do
      let first ← left.removePipes
      return (← stage.removePipes).called first) := by
  simp only [Node.removePipes, removePipes_written, bind_assoc, pure_bind,
    withFirstArgument_written]
  rfl

/-- A head without pipes is left as it is. -/
theorem head?_of_removePipes {stage plain : Stage} (h : stage.removePipes = .ok plain)
    (hhead : ∀ head ∈ stage.head?, head.PipeFree) : plain.head? = stage.head? := by
  cases stage with
  | call name args info =>
    obtain ⟨args', -, h⟩ := exists_ok_of_bind h
    cases h
    rfl
  | dot target name args info =>
    have hkept := Node.removePipes_of_pipeFree (hhead target rfl)
    obtain ⟨target', htarget, h⟩ := exists_ok_of_bind h
    obtain ⟨args', -, h⟩ := exists_ok_of_bind h
    cases h
    exact congrArg some (Except.ok.inj (htarget.symm.trans hkept))
  | apply callee args =>
    have hkept := Node.removePipes_of_pipeFree (hhead callee rfl)
    obtain ⟨callee', hcallee, h⟩ := exists_ok_of_bind h
    obtain ⟨args', -, h⟩ := exists_ok_of_bind h
    cases h
    exact congrArg some (Except.ok.inj (hcallee.symm.trans hkept))
  | bare name =>
    cases h
    rfl

/-- The call is written out as the pipe is. Its head comes before its first argument there, and
after it in the pipe, so the head must not be what fails. -/
theorem removePipes_called (left : Node) {stage : Stage} (hhead : stage.HasPlainHead) :
    (stage.called left).removePipes = (Node.pipe left stage.written).removePipes := by
  rw [removePipes_pipe]
  cases stage with
  | call name args info =>
    simp only [Stage.called, Stage.removePipes, Node.removePipes, removePipesList, bind_assoc,
      pure_bind]
  | dot target name args info =>
    obtain ⟨target', htarget⟩ := hhead target rfl
    cases args with
    | none =>
      simp only [Stage.called, Stage.removePipes, Node.removePipes, htarget, removePipesListOption,
        Option.getD_none, removePipesList, bind_assoc, pure_bind]
      rfl
    | some args =>
      simp only [Stage.called, Stage.removePipes, Node.removePipes, htarget, removePipesListOption,
        Option.getD_some, removePipesList, bind_assoc, pure_bind]
      rfl
  | apply callee args =>
    obtain ⟨callee', hcallee⟩ := hhead callee rfl
    simp only [Stage.called, Stage.removePipes, Node.removePipes, hcallee, removePipesList,
      bind_assoc, pure_bind]
    rfl
  | bare name =>
    simp only [Stage.called, Stage.removePipes, Node.removePipes, removePipesList, bind_assoc,
      pure_bind]
    rfl

end Stages

section Chains

/-- A chain is written out to the nested call of what its start and its stages are written out to. -/
theorem removePipes_chain (start : Node) (stages : List Stage) :
    (chain start stages).removePipes = (do
      let first ← start.removePipes
      let plain ← stages.mapM Stage.removePipes
      return nestedCall first plain) := by
  induction stages generalizing start with
  | nil => exact (bind_pure _).symm
  | cons stage stages ih =>
    have hstep : chain start (stage :: stages) = chain (.pipe start stage.written) stages := rfl
    rw [hstep, ih, removePipes_pipe]
    simp only [List.mapM_cons, bind_assoc, pure_bind]
    rfl

/-- The nested call of a chain is written out as the chain is, from starts that are written out
alike. -/
theorem removePipes_nestedCall {start start' : Node} {stages : List Stage}
    (hstart : start.removePipes = start'.removePipes)
    (hheads : ∀ stage ∈ stages, stage.HasPlainHead) :
    (nestedCall start stages).removePipes = (chain start' stages).removePipes := by
  induction stages generalizing start start' with
  | nil => exact hstart
  | cons stage stages ih =>
    refine ih ?_ fun s hs => hheads s (by simp [hs])
    rw [removePipes_called start (hheads stage (by simp)), removePipes_pipe, removePipes_pipe, hstart]

end Chains

/-- A chain of pipes is written out to the nested call of its parts: names and metadata are those of
the stages, arguments follow the call before in their order, and a head without pipes is kept. In any
place of any tree the chain may be replaced by the nested call, either by the one of the parts written
out or, when no head is what fails, by the one of the parts as they are, and the tree is written out
and lowered as before, errors included. -/
theorem chain_is_nested_call (start : Node) (stages : List Stage) :
    ((chain start stages).removePipes = (do
      let first ← start.removePipes
      let plain ← stages.mapM Stage.removePipes
      return nestedCall first plain)) ∧
    (∀ stage ∈ stages, ∀ plain, stage.removePipes = .ok plain →
      (∀ head ∈ stage.head?, head.PipeFree) → plain.head? = stage.head?) ∧
    (∀ first plain, start.removePipes = .ok first → stages.mapM Stage.removePipes = .ok plain →
      ∀ n place, n.at? place = some (chain start stages) →
        (n.replaceAt (nestedCall first plain) place).removePipes = n.removePipes ∧
        ∀ config, lowerExpr config (n.replaceAt (nestedCall first plain) place) =
          lowerExpr config n) ∧
    ((∀ stage ∈ stages, stage.HasPlainHead) →
      ∀ n place, n.at? place = some (chain start stages) →
        (n.replaceAt (nestedCall start stages) place).removePipes = n.removePipes ∧
        ∀ config, lowerExpr config (n.replaceAt (nestedCall start stages) place) =
          lowerExpr config n) := by
  have hreplaced : ∀ nested, nested.removePipes = (chain start stages).removePipes →
      ∀ n place, n.at? place = some (chain start stages) →
        (n.replaceAt nested place).removePipes = n.removePipes ∧
        ∀ config, lowerExpr config (n.replaceAt nested place) = lowerExpr config n := by
    intro nested hnested n place hplace
    have hsame := Node.removePipes_replaceAt hplace hnested
    exact ⟨hsame, lowerExpr_congr hsame⟩
  refine ⟨removePipes_chain start stages, fun stage _ plain h hhead => head?_of_removePipes h hhead,
    fun first plain hfirst hplain => hreplaced _ ?_,
    fun hheads => hreplaced _ (removePipes_nestedCall rfl hheads)⟩
  -- what has been written out holds no pipes, and so is left as it is
  have hchain : (chain start stages).removePipes = .ok (nestedCall first plain) := by
    rw [removePipes_chain, hfirst, hplain]
    rfl
  rw [hchain]
  exact Node.removePipes_of_pipeFree (Node.pipeFree_of_removePipes hchain)

/-- Stages of every kind, one of them with a pipe in its argument. -/
def reportStages : List Stage :=
  [.call "filter" [.pipe (.var "limit") (.var "double")] {},
    .dot (.moduleName ["Enum"]) "reverse" none {}, .apply (.var "format") [.string "csv"],
    .bare "inspect"]

/-- A function with the chain of these stages as an item of a tuple. -/
def reportFunction : Node :=
  .fn [⟨[.var "rows"], [.tuple [.atom "ok", chain (.var "rows") reportStages]]⟩]

theorem chain_is_nested_call_reportFunction :
    reportFunction.at? [1, 1] = some (chain (.var "rows") reportStages) ∧
    (reportFunction.replaceAt (nestedCall (.var "rows") reportStages) [1, 1]).removePipes =
      .ok (.fn [⟨[.var "rows"], [.tuple [.atom "ok", .call "inspect" [.apply (.var "format")
        [.dot (.moduleName ["Enum"]) "reverse" (some [.call "filter"
          [.var "rows", .call "double" [.var "limit"] {}] {}]) {}, .string "csv"]] {}]]⟩]) ∧
    (lowerExpr {} reportFunction).isOk = true ∧
    ∀ config, lowerExpr config (reportFunction.replaceAt (nestedCall (.var "rows") reportStages) [1, 1])
      = lowerExpr config reportFunction := by
  have hheads : ∀ stage ∈ reportStages, stage.HasPlainHead := by
    simp only [reportStages, List.forall_mem_cons, List.not_mem_nil, false_implies, implies_true,
      and_true, Stage.HasPlainHead]
    exact ⟨nofun, fun _ h => ⟨_, by cases h; rfl⟩, fun _ h => ⟨_, by cases h; rfl⟩, nofun⟩
  have hreplaced := (chain_is_nested_call (.var "rows") reportStages).2.2.2 hheads reportFunction
    [1, 1] rfl
  exact ⟨rfl, hreplaced.1.trans rfl, rfl, hreplaced.2⟩

end TreeLowering.Source
