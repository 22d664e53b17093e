import TreeLowering.Proofs.ComparisonLowering
import TreeLowering.Proofs.Evaluator
import TreeLowering.Proofs.FootprintLowering
import TreeLowering.Proofs.GroundTerms
import TreeLowering.Proofs.UnsupportedOperators

/-!
Texts with expressions spliced into them.

A binary of text is lowered in one of two ways: to a single string if nothing is spliced into it,
and otherwise to a chain of additions, one operand for each segment. A `Scribe` is a machine on
which addition concatenates strings and the runtime shows values as strings. On every scribe both
ways come to the same: the spliced expressions are evaluated and shown from the left, once each, and
what they give is put between the literal texts. Whether a spliced node lowers is decided by the
module around it alone, so the nodes lower in turn if each of them lowers at all.
-/
namespace TreeLowering

open Source Target LowerM Lowering

namespace Source

/-- The nodes that are spliced into a binary, in order. -/
def splicedNodes : List (Segment Node) → List Node
  | [] => []
  | .plain _ :: rest => splicedNodes rest
  | .interpolated n :: rest => n :: splicedNodes rest

/-- The literal texts of segments, and in the place of each spliced node the next of the values. -/
def weave {α β : Type} (literal : String → α) (spliced : β → α) :
    List (Segment Node) → List β → List α
  | .plain (.string text) :: rest, bs => literal text :: weave literal spliced rest bs
  | .interpolated _ :: rest, b :: bs => spliced b :: weave literal spliced rest bs
  | _, _ => []

/-- The segments are literal texts, and places for just as many values. -/
inductive Fits {β : Type} : List (Segment Node) → List β → Prop
  | nil : Fits [] []
  | text (text : String) {segments : List (Segment Node)} {bs : List β} (rest : Fits segments bs) :
      Fits (.plain (.string text) :: segments) bs
  | splice (n : Node) (b : β) {segments : List (Segment Node)} {bs : List β}
      (rest : Fits segments bs) : Fits (.interpolated n :: segments) (b :: bs)

theorem mem_splicedNodes {segments : List (Segment Node)} {n : Node} :
    n ∈ splicedNodes segments ↔ .interpolated n ∈ segments := by
  induction segments with
  | nil => simp [splicedNodes]
  | cons g rest ih => cases g <;> simp [splicedNodes, ih]

variable {α β : Type} {segments : List (Segment Node)} {bs : List β}

theorem Fits.length_weave (h : Fits segments bs) (literal : String → α) (spliced : β → α) :
    (weave literal spliced segments bs).length = segments.length := by
  induction h with
  | nil => rfl
  | text _ _ ih => rw [weave, List.length_cons, ih, List.length_cons]
  | splice _ _ _ ih => rw [weave, List.length_cons, ih, List.length_cons]

/-- Without a place for a value, the segments are the text that they make up. -/
theorem Fits.segmentsText? (h : Fits segments ([] : List β)) :
    segmentsText? segments = some (String.join (weave id id segments [])) := by
  generalize hbs : ([] : List β) = bs at h
  induction h with
  | nil => rfl
  | text text _ ih => rw [Source.segmentsText?, ih hbs, weave, String.join_cons]; rfl
  | splice => cases hbs

end Source

/-- The chain of the operands of a text. -/
def RuntimeLibrary.chain (lib : RuntimeLibrary) (segments : List (Segment Node))
    (es : List Expr) : Expr :=
  (Expr.joined .add (weave Expr.string lib.display segments es)).getD (.string "")

namespace Target

/-- The operands of a chain of additions, down its left side. -/
def Expr.summands : Expr → List Expr
  | .binary l .add r => l.summands ++ [r]
  | e => [e]

theorem Expr.summands_foldl (e : Expr) (es : List Expr) :
    (es.foldl (fun acc t => .binary acc .add t) e).summands = e.summands ++ es := by
  induction es generalizing e with
  | nil => rw [List.foldl_nil, List.append_nil]
  | cons first rest ih =>
    rw [List.foldl_cons, ih, summands, List.append_assoc, List.singleton_append]

/-- An operand is a string or a call, so the left side of the chain ends where the text begins. -/
theorem Expr.summands_chain {segments : List (Segment Node)} {es : List Expr}
    (h : Fits segments es) (hne : segments ≠ []) (lib : RuntimeLibrary) :
    (lib.chain segments es).summands = weave Expr.string lib.display segments es := by
  cases h with
  | nil => exact (hne rfl).elim
  | text text rest => exact summands_foldl (.string text) _
  | splice n e rest => exact summands_foldl (lib.display e) _

/-- A machine on which strings are added by concatenation, and which shows values as strings. -/
structure Scribe (lib : RuntimeLibrary) extends Machine where
  text : String → Value
  add : Value → Value → Run Store Value Value
  /-- What the runtime makes of a value inside of a text. -/
  display : Value → Run Store Value String
  eval_string : ∀ s env, eval (.string s) env = pure (text s)
  eval_add : ∀ l r env, eval (.binary l .add r) env =
    (do let v ← eval l env; let w ← eval r env; add v w)
  add_text : ∀ s t, add (text s) (text t) = pure (text (s ++ t))
  eval_display : ∀ e env, eval (lib.display e) env =
    (do return text (← display (← eval e env)))

namespace Scribe

variable {lib : RuntimeLibrary} (M : Scribe lib) {env : M.Env}

/-- Evaluates the expression and shows its value. -/
def shown (env : M.Env) (e : Expr) : Run M.Store M.Value String := do
  M.display (← M.eval e env)

/-- Evaluating the expression is running the computation, whose text is then the value. -/
def Writes (env : M.Env) (e : Expr) (x : Run M.Store M.Value String) : Prop :=
  M.eval e env = (do return M.text (← x))

variable {M}

theorem writes_string (text : String) : M.Writes env (.string text) (pure text) := by
  rw [Writes, M.eval_string, pure_bind]

theorem writes_display (e : Expr) : M.Writes env (lib.display e) (M.shown env e) := by
  rw [Writes, M.eval_display, shown, bind_assoc]

theorem Writes.add {l r : Expr} {x y : Run M.Store M.Value String} (hl : M.Writes env l x)
    (hr : M.Writes env r y) :
    M.Writes env (.binary l .add r) (do return (← x) ++ (← y)) := by
  rw [Writes] at hl hr ⊢
  rw [M.eval_add, hl, hr]
  simp only [bind_assoc, pure_bind, M.add_text]

variable {segments : List (Segment Node)} {es : List Expr}

/-- Operands that are added one by one go behind the text that is there. -/
theorem Writes.foldl {e : Expr} {x : Run M.Store M.Value String} (he : M.Writes env e x)
    (h : Fits segments es) :
    M.Writes env ((weave Expr.string lib.display segments es).foldl
        (fun acc t => .binary acc .add t) e) (do
      let front ← x
      let texts ← es.mapM (M.shown env)
      return front ++ String.join (weave id id segments texts)) := by
  -- each operand makes the text in front longer, so the induction is for every text in front
  induction h generalizing e x with
  | nil =>
    simp only [weave, List.foldl_nil, List.mapM_nil, pure_bind, String.join_nil,
      String.append_empty, bind_pure]
    exact he
  | text text _ ih =>
    have hchain := ih (he.add (writes_string text))
    simp only [bind_assoc, pure_bind, String.append_assoc] at hchain
    simpa only [weave, List.foldl_cons, String.join_cons, id_eq] using hchain
  | splice n e' _ ih =>
    have hchain := ih (he.add (writes_display e'))
    simp only [bind_assoc, pure_bind, String.append_assoc] at hchain
    simpa only [weave, List.foldl_cons, List.mapM_cons, String.join_cons, bind_assoc, pure_bind,
      id_eq] using hchain

/-- The chain writes the literal texts and what the spliced expressions show. -/
theorem writes_chain (h : Fits segments es) :
    M.Writes env (lib.chain segments es) (do
      let texts ← es.mapM (M.shown env)
      return String.join (weave id id segments texts)) := by
  cases h with
  | nil =>
    simp only [List.mapM_nil, pure_bind, weave, String.join_nil]
    exact writes_string ""
  | text text rest =>
    have hwrites : M.Writes env _ _ := (writes_string text).foldl rest
    rw [pure_bind] at hwrites
    simp only [weave, String.join_cons, id_eq]
    exact hwrites
  | splice n e rest =>
    simp only [weave, List.mapM_cons, String.join_cons, bind_assoc, pure_bind, id_eq]
    exact (writes_display e).foldl rest

end Scribe

end Target

section Lowering

variable {c : Config} {s s' : State} {segments : List (Segment Node)} {es : List Expr}

/-- Nodes lower one after the other if each of them lowers somewhere in the module. -/
theorem exists_sequence_values {ns : List Node}
    (h : ∀ n ∈ ns, ∃ t e t', t.context = s.context ∧ (positions n).value c t = (.ok e, t')) :
    ∃ es s', LowerM.sequence (values ns) c s = (.ok es, s') := by
  induction ns generalizing s with
  | nil => exact ⟨[], s, rfl⟩
  | cons n ns ih =>
    obtain ⟨⟨t, e, t', hcontext, hlowers⟩, hrest⟩ := List.forall_mem_cons.mp h
    have houtcome := value_sameOutcome n c c hcontext
    obtain ⟨first, hfirst⟩ := houtcome.1.mpr ⟨e, congrArg Prod.fst hlowers⟩
    have hrun : (positions n).value c s = (.ok first, ((positions n).value c s).2) :=
      Prod.ext hfirst rfl
    -- the next node is lowered in the state that this one leaves, still in the same module
    have hkept := (value_leaves hrun).1.context
    obtain ⟨es, s', hes⟩ := ih fun m hm => by
      rw [hkept]
      exact hrest m hm
    refine ⟨first :: es, s', ?_⟩
    simp only [values, LowerM.sequence, bind_run, pure_run]
    exact ⟨first, _, hrun, es, s', hes, rfl, rfl⟩

/-- The parts of a text are lowered from the first to the last, and only the spliced ones take a
step. -/
theorem sequence_textPart (hplain : ∀ n, .plain n ∈ segments → ∃ text, n = .string text)
    (h : LowerM.sequence (values (splicedNodes segments)) c s = (.ok es, s')) :
    Fits segments es ∧
      LowerM.sequence
          (segments.map fun g => textPart g (positions (Node.segmentChild g)).value) c s =
        (.ok (weave Expr.string (RuntimeLibrary.display ⟨c.runtimeName⟩) segments es), s') := by
  induction segments generalizing s es with
  | nil =>
    obtain ⟨rfl, rfl⟩ := pure_run.mp h
    exact ⟨.nil, rfl⟩
  | cons g rest ih =>
    have hrest : ∀ n, .plain n ∈ rest → ∃ text, n = .string text :=
      fun n hn => hplain n (List.mem_cons_of_mem _ hn)
    simp only [List.map_cons, LowerM.sequence, bind_run, pure_run]
    cases g with
    | plain n =>
      obtain ⟨text, rfl⟩ := hplain n List.mem_cons_self
      obtain ⟨hfits, hparts⟩ := ih hrest h
      exact ⟨.text text hfits, _, s, rfl, _, s', hparts, rfl, rfl⟩
    | interpolated n =>
      simp only [splicedNodes, values, LowerM.sequence, bind_run, pure_run] at h
      obtain ⟨e, s₁, he, es, s₂, hes, rfl, rfl⟩ := h
      obtain ⟨hfits, hparts⟩ := ih hrest hes
      refine ⟨.splice n e hfits, _, s₁, ?_, _, s', hparts, rfl, rfl⟩
      exact bind_run.mpr ⟨e, s₁, he, rfl⟩

/-- A binary with something spliced into it is a chain of its parts. -/
theorem binary_eq_joined {n : Node} (hn : .interpolated n ∈ segments) :
    (positions (.binary segments)).value = (do
      let parts ← LowerM.sequence
        (segments.map fun g => textPart g (positions (Node.segmentChild g)).value)
      return (Expr.joined .add parts).getD (.string "")) := by
  have htext : segmentsText? segments = none := by
    cases htext : segmentsText? segments with
    | none => rfl
    | some text =>
      obtain ⟨_, heq⟩ := exists_of_segmentsText? htext _ hn
      cases heq
  have hspliced : segments.any Segment.isInterpolated = true := List.any_eq_true.mpr ⟨_, hn, rfl⟩
  have hvalue : (positions (.binary segments)).value = LowerM.binary (segmentValues segments) := by
    rw [positions]
    rfl
  rw [hvalue, LowerM.binary, segmentValues_eq]
  simp only [List.map_map, List.any_map, Function.comp_def, List.map_id', htext, hspliced, if_true]

/-- A part that is neither a string nor spliced in is refused. -/
theorem binary_fails_of_plain {n m : Node} (hn : .interpolated n ∈ segments)
    (hm : .plain m ∈ segments) (hother : ∀ text, m ≠ .string text) :
    (positions (.binary segments)).value.Fails := by
  have hpart : (textPart (.plain m) (positions m).value).Fails := by
    rw [textPart]
    · exact .fail _
    · exact hother
  rw [binary_eq_joined hn]
  exact .bind (.sequence (List.mem_map_of_mem hm) hpart)

end Lowering

/-- A binary whose plain segments are strings lowers if the nodes that are spliced into it do, each
of them in whatever state of the module around. On every scribe, its value is the concatenation of
the literal texts and of what the spliced expressions show, which are evaluated from the left, once
each. With nothing spliced in it is one string, and otherwise a chain of additions with one operand
for each segment. A binary with something spliced in and a plain segment that is no string never
lowers. -/
theorem text_binaries_concatenate (segments : List (Segment Node)) :
    (∀ (c : Config) (s : State), (∀ n, .plain n ∈ segments → ∃ text, n = .string text) →
      (∀ n, .interpolated n ∈ segments →
        ∃ t e t', t.context = s.context ∧ (positions n).value c t = (.ok e, t')) →
      ∃ es e s', LowerM.sequence (values (splicedNodes segments)) c s = (.ok es, s') ∧
        (positions (.binary segments)).value c s = (.ok e, s') ∧
        (∀ (M : Scribe ⟨c.runtimeName⟩) (env : M.Env), M.eval e env = (do
          let texts ← es.mapM (M.shown env)
          return M.text (String.join (weave id id segments texts)))) ∧
        (splicedNodes segments = [] → e = .string (String.join (weave id id segments []))) ∧
        (splicedNodes segments ≠ [] →
          e.summands = weave Expr.string (RuntimeLibrary.display ⟨c.runtimeName⟩) segments es ∧
          e.summands.length = segments.length)) ∧
    ∀ n m, .interpolated n ∈ segments → .plain m ∈ segments → (∀ text, m ≠ .string text) →
      ∀ (c : Config) (s : State),
        ∃ error, ((positions (.binary segments)).value c s).1 = .error error := by
  refine ⟨fun c s hplain hspliced => ?_, fun n m hn hm hother =>
    (binary_fails_of_plain hn hm hother).error⟩
  have hlower : ∀ n ∈ splicedNodes segments, ∃ t e t',
      t.context = s.context ∧ (positions n).value c t = (.ok e, t') :=
    fun n hn => hspliced n (mem_splicedNodes.mp hn)
  obtain ⟨es, s', hes⟩ := exists_sequence_values hlower
  obtain ⟨hfits, hparts⟩ := sequence_textPart hplain hes
  cases hnodes : splicedNodes segments with
  | nil =>
    -- no step has been taken, and the text is that of the segments alone
    rw [hnodes] at hes
    obtain ⟨rfl, rfl⟩ := pure_run.mp hes
    refine ⟨[], _, s', rfl, binary_value hfits.segmentsText?, fun M env => ?_, fun _ => rfl,
      fun h => (h rfl).elim⟩
    rw [M.eval_string, List.mapM_nil, pure_bind]
  | cons n ns =>
    have hn : .interpolated n ∈ segments := mem_splicedNodes.mp (hnodes ▸ List.mem_cons_self)
    refine ⟨es, RuntimeLibrary.chain ⟨c.runtimeName⟩ segments es, s', hnodes ▸ hes, ?_,
      fun M env => ?_, fun h => ?_, fun _ => ?_⟩
    · rw [binary_eq_joined hn, bind_of_ok hparts]
      rfl
    · have hwrites : M.Writes env _ _ := Scribe.writes_chain hfits
      simpa only [Scribe.Writes, bind_assoc, pure_bind] using hwrites
    · cases h
    · rw [Expr.summands_chain hfits (List.ne_nil_of_mem hn)]
      exact ⟨rfl, hfits.length_weave _ _⟩

section Sample

namespace Target

/-- The text of a value inside of a string. -/
def Datum.wording : Datum → String
  | .text s => s
  | .integer n => toString n
  | .boolean b => toString b
  | _ => ""

def Datum.added : Datum → Datum → Datum
  | .text s, .text t => .text (s ++ t)
  | .integer a, .integer b => .integer (a + b)
  | _, _ => .undefined

/-- A function that is not known gives the number of its call. -/
def scribeCall (lib : RuntimeLibrary) :
    Expr → List Datum → NameTable Datum → Run Memory Datum Datum
  | .ident f, vs, _ => do
    modify fun m => { m with calls := m.calls ++ [(f, vs)] }
    return .integer (← get).calls.length
  | .member (.member (.ident root) (.literal (.string "Kernel")) false)
      (.literal (.string "to_string")) false, [v], _ =>
    pure (if root = lib.name then .text v.wording else .undefined)
  | _, _, _ => pure .undefined

def scribeOperations (lib : RuntimeLibrary) : Operations :=
  { sampleOperations lib with
    operator := fun op v w => pure (if op = .add then v.added w else Datum.operator op v w)
    call := scribeCall lib }

/-- Evaluation on the machine of these operations. -/
def scribeEval (lib : RuntimeLibrary) : Expr → NameTable Datum → Run Memory Datum Datum :=
  (scribeOperations lib).eval

theorem scribeEval_call (lib : RuntimeLibrary) {callee : Expr} (h : ∀ f, callee ≠ .function f)
    (args : List Expr) (env : NameTable Datum) : scribeEval lib (.call callee args) env =
      (do scribeCall lib callee (← args.mapM (scribeEval lib · env)) env) :=
  (scribeOperations lib).eval_call h args env

theorem scribeEval_display (lib : RuntimeLibrary) (e : Expr) (env : NameTable Datum) :
    scribeEval lib (lib.display e) env =
      (do return .text (Datum.wording (← scribeEval lib e env))) := by
  have hcall : ∀ v, scribeCall lib (lib.path ["Kernel", "to_string"]) [v] env =
      pure (.text (Datum.wording v)) := fun v => congrArg pure (if_pos rfl)
  rw [RuntimeLibrary.display, RuntimeLibrary.call, scribeEval_call lib (by rintro f ⟨⟩)]
  simp only [List.mapM_cons, List.mapM_nil, bind_assoc, pure_bind]
  exact bind_congr hcall

/-- The sample machine with texts. -/
def sampleScribe (lib : RuntimeLibrary) : Scribe lib where
  toMachine := (scribeOperations lib).machine
  text := Datum.text
  add v w := pure (v.added w)
  display v := pure v.wording
  eval_string s env := by
    show (scribeOperations lib).eval (.string s) env = _
    rw [Expr.string, Operations.eval]
    · rfl
    · simp
  eval_add l r env := by
    show (scribeOperations lib).eval (.binary l .add r) env = _
    rw [Operations.eval]
    · rfl
    all_goals simp
  add_text _ _ := rfl
  eval_display e env := by
    simp only [pure_bind]
    exact scribeEval_display lib e env

end Target

/-- `"#{tick()}: #{x = 7; "x=#{x}"}#{tick()}"`, with an empty text before the last segment. -/
def tickingSegments : List (Segment Node) :=
  [.interpolated (.call "tick" [] {}), .plain (.string ": "),
   .interpolated (.block [.bind (.var "x") (.integer 7),
     .binary [.plain (.string "x="), .interpolated (.var "x")]]),
   .plain (.string ""), .interpolated (.call "tick" [] {})]

theorem text_binaries_concatenate_ticking :
    (∃ es e s', LowerM.sequence (values (splicedNodes tickingSegments)) {} {} = (.ok es, s') ∧
      (positions (.binary tickingSegments)).value {} {} = (.ok e, s') ∧
      e.summands.length = 5 ∧
      ((sampleScribe ⟨({} : Config).runtimeName⟩).eval e []).run.run {} =
        some (.ok (.text "1: x=72"), { calls := [("tick", []), ("tick", [])] })) ∧
    ∀ (c : Config) (s : State), ∃ error,
      ((positions (.binary (.plain (.integer 1) :: tickingSegments))).value c s).1 =
        .error error := by
  have hplain : ∀ n, .plain n ∈ tickingSegments → ∃ text, n = .string text := by
    simp [tickingSegments]
  have hspliced : ∀ n, .interpolated n ∈ tickingSegments → ∃ t e t',
      t.context = ({} : State).context ∧ (positions n).value {} t = (.ok e, t') := by
    intro n hn
    simp only [tickingSegments, List.mem_cons, Segment.interpolated.injEq, reduceCtorEq,
      List.not_mem_nil, or_false, false_or] at hn
    rcases hn with rfl | rfl | rfl <;> exact ⟨{}, _, _, rfl, rfl⟩
  constructor
  · obtain ⟨es, e, s', hes, he, heval, -, hchain⟩ :=
      (text_binaries_concatenate tickingSegments).1 {} {} hplain hspliced
    refine ⟨es, e, s', hes, he, (hchain (by simp [tickingSegments, splicedNodes])).2, ?_⟩
    rw [heval]
    cases hes
    rfl
  · exact (text_binaries_concatenate (.plain (.integer 1) :: tickingSegments)).2
      (.call "tick" [] {}) (.integer 1) (by simp [tickingSegments]) (by simp) (by simp)

end Sample

end TreeLowering
