import TreeLowering.Proofs.PipeFreedom

/-!
Steps and requests of a session.

A step runs where the session stands, and a request from the empty state. What the step of an
expression or of a module leaves of the session, and that no request sees what others left, holds
whether they succeed or fail.
-/
namespace TreeLowering

open Source Target LowerM Lowering

namespace Session

/-- Runs a step where the session stands. -/
def step {α : Type} (session : Session) (x : LowerM α) : Except LowerError α × Session :=
  let out := x session.config session.state
  (out.1, { session with state := out.2 })

/-- What the step of an expression, or of anything that changes numbers only, leaves. -/
theorem step_numbers {α : Type} {P : Prop} {x : LowerM α} (h : x.Within .numbers P)
    (session : Session) :
    session.state.Advances (session.step x).2.state ∧
      (session.step x).2.state.scope = session.state.scope :=
  h.leaves session.config session.state

end Session

/-- From every state and on both outcomes: an expression leaves the configuration, the library, the
scope and the module as they were and takes back no number, and a module leaves everything as it
was. -/
theorem lowering_leaves_surroundings (session : Session) (node : Node) (name : List String)
    (body : List Node) :
    let after := (session.step (positions node).value).2
    (after.config = session.config ∧
      (after.step library).1 = (session.step library).1 ∧
      after.state.scope = session.state.scope ∧
      after.state.context = session.state.context ∧
      (∀ x, session.state.versions.next x ≤ after.state.versions.next x) ∧
      session.state.invented ≤ after.state.invented) ∧
    (session.step (moduleDef name body (items body))).2 = session := by
  have hnode : LowersWithin True node := lowersWithin fun _ _ _ => trivial
  obtain ⟨hadvances, hscope⟩ := session.step_numbers hnode.positions.value
  refine ⟨⟨rfl, rfl, hscope, hadvances.context, hadvances.versions, hadvances.invented⟩, ?_⟩
  exact congrArg (Session.mk session.config) (inModule_state name _ _ session.config session.state)

/-- The number of a binding that is dropped, here by a failure, is not given out again. -/
example :
    let failing : Node := .block [.bind (.var "x") (.integer 1), .pin (.var "x")]
    ((Session.mk {} {}).step (positions failing).value).2.state.versions.next "x" = 1 := rfl

/-- What a session can be asked for. -/
inductive Request where
  | expr (node : Node)
  | program (nodes : List Node)

/-- A result of either kind, or the error. -/
inductive Answer where
  | expr (result : Except LowerError Expr)
  | program (result : Except LowerError Program)

/-- The answer of a session that is asked for nothing else. -/
def Request.answerAlone (config : Config) : Request → Answer
  | .expr node => .expr (lowerExpr config node)
  | .program nodes => .program (lowerProgram config nodes)

namespace Session

def answer (session : Session) : Request → Answer × Session
  | .expr node => let out := session.lowerExpr node; (.expr out.1, out.2)
  | .program nodes => let out := session.lowerProgram nodes; (.program out.1, out.2)

/-- The answers to requests, from the first to the last. -/
def answers : Session → List Request → List Answer × Session
  | session, [] => ([], session)
  | session, request :: rest =>
    let first := session.answer request
    let others := first.2.answers rest
    (first.1 :: others.1, others.2)

theorem answer_eq (session : Session) (request : Request) :
    (session.answer request).1 = request.answerAlone session.config ∧
      (session.answer request).2.config = session.config := by
  cases request <;> exact ⟨rfl, rfl⟩

/-- A request ends outside of all modules, also when it fails inside of one. -/
theorem answer_context (session : Session) (request : Request) :
    (session.answer request).2.state.context = none := by
  cases request with
  | expr node => exact (step_numbers (within_lowerExprM node) ⟨session.config, {}⟩).1.context
  | program nodes => exact ((within_lowerProgramM nodes).leaves session.config {}).context

theorem answers_eq (session : Session) (requests : List Request) :
    (session.answers requests).1 = requests.map (Request.answerAlone session.config) ∧
      (session.answers requests).2.config = session.config := by
  induction requests generalizing session with
  | nil => exact ⟨rfl, rfl⟩
  | cons request rest ih =>
    obtain ⟨hanswer, hconfig⟩ := session.answer_eq request
    obtain ⟨hanswers, hconfigs⟩ := ih (session.answer request).2
    rw [hconfig] at hanswers hconfigs
    refine ⟨?_, hconfigs⟩
    rw [List.map_cons, ← hanswer, ← hanswers]
    rfl

end Session

/-- Whatever was asked before and however it ended, a request is answered as if it were the only
one, the configuration stays, and no request leaves a module open. -/
theorem requests_are_independent (session : Session) (requests : List Request) :
    (session.answers requests).1 = requests.map (Request.answerAlone session.config) ∧
    (∀ k, (session.answers (requests.take k)).2.config = session.config) ∧
    ∀ request, (session.answer request).2.state.context = none :=
  ⟨(session.answers_eq requests).1, fun k => (session.answers_eq (requests.take k)).2,
    session.answer_context⟩

end TreeLowering
