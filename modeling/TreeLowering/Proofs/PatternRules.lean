import TreeLowering.Pattern
import TreeLowering.Proofs.Run

/-!
The rules by which a pattern, when it compiles, extends a plan.

`Compiled` has one rule for each form that a pattern can have, and none for the forms that are
refused. What compiling does on success is said here once; facts about plans follow by induction on
the rules.
-/
namespace TreeLowering.Pattern

open Source Target

/-- What is compiled into a plan: a pattern on its subject, patterns on numbered slots of a subject
from one number on, or the entries of a map pattern. -/
inductive Job where
  | pattern (pattern : Node) (subject : Expr)
  | items (slot : Nat → Expr) (i : Nat) (patterns : List Node)
  | entries (subject : Expr) (entries : List (Node × Node))

/-- A literal that is not a float. -/
def isExact : Node → Bool
  | .float _ => false
  | .unaryOp _ (.float _) => false
  | _ => true

inductive Compiled (env : Surroundings) : Job → Plan → Plan → Prop
  | float {x : Binary64} {subject : Expr} {plan : Plan} :
      Compiled env (.pattern (.float x) subject) plan
        (plan.require (env.library.equals subject (.float x)))
  | negatedFloat {x : Binary64} {subject : Expr} {plan : Plan} :
      Compiled env (.pattern (.unaryOp "-" (.float x)) subject) plan
        (plan.require (env.library.equals subject (.float x.neg)))
  | moduleName {segments : List String} {subject : Expr} {plan : Plan} :
      Compiled env (.pattern (.moduleName segments) subject) plan
        (plan.require (.eq subject (env.moduleValue segments)))
  | var {name : String} {subject : Expr} {plan : Plan} :
      Compiled env (.pattern (.var name) subject) plan (compileVariable env name subject plan)
  | pin {name : String} {subject : Expr} {plan : Plan} :
      Compiled env (.pattern (.pin (.var name)) subject) plan
        (plan.require (env.library.equals subject (env.pinned name)))
  | constant {node : Node} {value subject : Expr} {plan : Plan} (exact : isExact node = true)
      (literal : constant? node = some value) :
      Compiled env (.pattern node subject) plan (plan.require (.eq subject value))
  | tuple {items : List Node} {subject : Expr} {plan plan' : Plan}
      (parts : Compiled env (.items (fun i => subject.method "get" [.natural i]) 0 items)
        (plan.requireAll
          [env.library.isTuple subject, .eq (subject.property "size") (.natural items.length)])
        plan') :
      Compiled env (.pattern (.tuple items) subject) plan plan'
  | list {items : List Node} {subject : Expr} {plan plan' : Plan}
      (parts : Compiled env (.items (fun i => subject.index (.natural i)) 0 items)
        (plan.requireAll
          [isArray subject, .eq (subject.property "length") (.natural items.length)])
        plan') :
      Compiled env (.pattern (.list items) subject) plan plan'
  | cons {head : List Node} {tail : Node} {subject : Expr} {plan middle plan' : Plan}
      (front : Compiled env (.items (fun i => subject.index (.natural i)) 0 head)
        (plan.requireAll
          [isArray subject, .binary (subject.property "length") .ge (.natural head.length)])
        middle)
      (rest : Compiled env (.pattern tail (subject.method "slice" [.natural head.length]))
        middle plan') :
      Compiled env (.pattern (.cons head tail) subject) plan plan'
  | map {entries : List (Node × Node)} {subject : Expr} {plan plan' : Plan}
      (parts : Compiled env (.entries subject entries) (plan.require (env.library.isMap subject))
        plan') :
      Compiled env (.pattern (.map entries) subject) plan plan'
  | struct {tag : Node} {fields : List (Node × Node)} {subject : Expr} {plan middle plan' : Plan}
      (name : Compiled env (.pattern tag (subject.index (atomSymbol "__struct__")))
        (plan.require (env.library.isMap subject)) middle)
      (parts : Compiled env (.entries subject fields) middle plan') :
      Compiled env (.pattern (.struct tag fields none) subject) plan plan'
  | both {pattern other : Node} {subject : Expr} {plan middle plan' : Plan}
      (first : Compiled env (.pattern pattern subject) plan middle)
      (second : Compiled env (.pattern other subject) middle plan') :
      Compiled env (.pattern (.bind pattern other) subject) plan plan'
  | start {start : String} {rest : Node} {subject : Expr} {plan plan' : Plan}
      (parts : Compiled env
        (.pattern rest (subject.method "slice" [.natural (utf16Length start)]))
        (plan.requireAll
          [.eq (.unary .typeOf subject) (.string "string"),
           subject.method "startsWith" [.string start]])
        plan') :
      Compiled env (.pattern (.binaryOp "<>" (.string start) rest) subject) plan plan'
  | noItems {slot : Nat → Expr} {i : Nat} {plan : Plan} :
      Compiled env (.items slot i []) plan plan
  | item {slot : Nat → Expr} {i : Nat} {first : Node} {rest : List Node} {plan middle plan' : Plan}
      (head : Compiled env (.pattern first (slot i)) plan middle)
      (tail : Compiled env (.items slot (i + 1) rest) middle plan') :
      Compiled env (.items slot i (first :: rest)) plan plan'
  | noEntries {subject : Expr} {plan : Plan} : Compiled env (.entries subject []) plan plan
  | entry {subject found : Expr} {name value : Node} {rest : List (Node × Node)}
      {plan middle plan' : Plan} (under : key env name = .ok found)
      (head : Compiled env (.pattern value (subject.index found))
        (plan.require (.binary found .in_ subject)) middle)
      (tail : Compiled env (.entries subject rest) middle plan') :
      Compiled env (.entries subject ((name, value) :: rest)) plan plan'

theorem isExact_of_constant {node : Node} {value : Expr} (h : constant? node = some value)
    (hfloat : ∀ x, node = .float x → False)
    (hnegated : ∀ x, node = .unaryOp "-" (.float x) → False) : isExact node = true := by
  unfold isExact
  split
  next x => exact (hfloat x rfl).elim
  next op x =>
    by_cases hop : op = "-"
    · exact (hnegated x (hop ▸ rfl)).elim
    · simp [constant?] at h
  next => rfl

/-- A pattern, items or entries that compile do so by the rules. -/
theorem compiled_of_ok (env : Surroundings) :
    (∀ pattern subject plan plan', compile env pattern subject plan = .ok plan' →
      Compiled env (.pattern pattern subject) plan plan') ∧
    (∀ subject entries plan plan', compileEntries env subject entries plan = .ok plan' →
      Compiled env (.entries subject entries) plan plan') ∧
    (∀ slot i items plan plan', compileItems env slot i items plan = .ok plan' →
      Compiled env (.items slot i items) plan plan') := by
  refine compile.mutual_induct env
    (fun pattern subject plan => ∀ plan', compile env pattern subject plan = .ok plan' →
      Compiled env (.pattern pattern subject) plan plan')
    (fun subject entries plan => ∀ plan', compileEntries env subject entries plan = .ok plan' →
      Compiled env (.entries subject entries) plan plan')
    (fun slot i items plan => ∀ plan', compileItems env slot i items plan = .ok plan' →
      Compiled env (.items slot i items) plan plan')
    ?float ?negatedFloat ?moduleName ?var ?pin ?pinOther ?tuple ?list ?cons ?map ?struct ?both
    ?start ?startOther ?constant ?noItems ?item ?noEntries ?entry
  case float | negatedFloat | moduleName | var | pin | noItems | noEntries =>
    intros
    rename_i h
    simp only [compile, compileItems, compileEntries, Except.ok.injEq] at h
    subst h
    constructor
  case pinOther | startOther =>
    intros
    rename_i h
    rw [compile] at h
    · cases h
    · assumption
  case tuple =>
    intro items subject plan ih plan' h
    rw [compile] at h
    exact .tuple (ih plan' h)
  case list =>
    intro items subject plan ih plan' h
    rw [compile] at h
    exact .list (ih plan' h)
  case cons =>
    intro head tail subject plan ihHead ihTail plan' h
    rw [compile] at h
    obtain ⟨middle, hhead, htail⟩ := exists_ok_of_bind h
    exact .cons (ihHead middle hhead) (ihTail middle plan' htail)
  case map =>
    intro entries subject plan ih plan' h
    rw [compile] at h
    exact .map (ih plan' h)
  case struct =>
    intro tag fields subject plan ihTag ihFields plan' h
    rw [compile] at h
    obtain ⟨middle, htag, hfields⟩ := exists_ok_of_bind h
    exact .struct (ihTag middle htag) (ihFields middle plan' hfields)
  case both =>
    intro pattern other subject plan ihFirst ihSecond plan' h
    rw [compile] at h
    obtain ⟨middle, hfirst, hsecond⟩ := exists_ok_of_bind h
    exact .both (ihFirst middle hfirst) (ihSecond middle plan' hsecond)
  case start =>
    intro start rest subject plan ih plan' h
    rw [compile] at h
    exact .start (ih plan' h)
  case constant =>
    -- every other form must be a literal
    intro node subject plan hfloat hnegated hmodule hvar hpin hpinOther htuple hlist hcons hmap
      hstruct hbind hstart hstartOther plan' h
    rw [compile] at h
    · unfold compileConstant at h
      split at h
      next value hvalue =>
        cases h
        exact .constant (isExact_of_constant hvalue hfloat hnegated) hvalue
      · cases h
    all_goals assumption
  case item =>
    intro slot i first rest plan ihHead ihTail plan' h
    rw [compileItems] at h
    obtain ⟨middle, hhead, htail⟩ := exists_ok_of_bind h
    exact .item (ihHead middle hhead) (ihTail middle plan' htail)
  case entry =>
    intro subject name value rest plan ihHead ihTail plan' h
    rw [compileEntries] at h
    obtain ⟨found, hfound, h⟩ := exists_ok_of_bind h
    obtain ⟨middle, hhead, htail⟩ := exists_ok_of_bind h
    exact .entry hfound (ihHead found middle hhead) (ihTail middle plan' htail)

end TreeLowering.Pattern

namespace TreeLowering.LowerM

open Source Target

theorem plan_run (patterns : List Node) (subjects : List Expr) (c : Config) (s : State) :
    plan patterns subjects c s =
      (Pattern.compileAll ⟨⟨c.runtimeName⟩, s⟩ patterns subjects {}, s) :=
  ofExcept_run _ c s

end TreeLowering.LowerM
