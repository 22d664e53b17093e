import TreeLowering.Proofs.PatternRules

/-!
The names in a pattern: the variables it binds and those it pins.

A plan binds the variables of its patterns, each once and in the order in which they first occur.
-/
namespace TreeLowering.Pattern

open Source Target

mutual

/-- The variables of a pattern from the left, one that occurs again given again. -/
def boundNames : Node → List String
  | .var name => if name = "_" then [] else [name]
  | .tuple items => boundNamesEach items
  | .list items => boundNamesEach items
  | .cons head tail => boundNamesEach head ++ boundNames tail
  | .map entries => boundNamesEntries entries
  | .struct tag fields _ => boundNames tag ++ boundNamesEntries fields
  | .bind pattern other => boundNames pattern ++ boundNames other
  | .binaryOp _ _ rest => boundNames rest
  | _ => []

def boundNamesEach : List Node → List String
  | [] => []
  | pattern :: patterns => boundNames pattern ++ boundNamesEach patterns

def boundNamesEntries : List (Node × Node) → List String
  | [] => []
  | (_, pattern) :: rest => boundNames pattern ++ boundNamesEntries rest

end

mutual

/-- The variables that a pattern pins, in its parts or as keys. -/
def pinnedNames : Node → List String
  | .pin (.var name) => [name]
  | .tuple items => pinnedNamesEach items
  | .list items => pinnedNamesEach items
  | .cons head tail => pinnedNamesEach head ++ pinnedNames tail
  | .map entries => pinnedNamesEntries entries
  | .struct tag fields _ => pinnedNames tag ++ pinnedNamesEntries fields
  | .bind pattern other => pinnedNames pattern ++ pinnedNames other
  | .binaryOp _ _ rest => pinnedNames rest
  | _ => []

def pinnedNamesEach : List Node → List String
  | [] => []
  | pattern :: patterns => pinnedNames pattern ++ pinnedNamesEach patterns

def pinnedNamesEntries : List (Node × Node) → List String
  | [] => []
  | (key, pattern) :: rest => pinnedNames key ++ pinnedNames pattern ++ pinnedNamesEntries rest

end

/-- Names and the new ones among others, in the order in which they come. -/
def withNames (known : List String) : List String → List String
  | [] => known
  | x :: xs => withNames (if x ∈ known then known else known ++ [x]) xs

theorem withNames_append (known xs ys : List String) :
    withNames known (xs ++ ys) = withNames (withNames known xs) ys := by
  induction xs generalizing known with
  | nil => rfl
  | cons x xs ih => exact ih _

theorem mem_withNames {known xs : List String} {y : String} :
    y ∈ withNames known xs ↔ y ∈ known ∨ y ∈ xs := by
  induction xs generalizing known with
  | nil => simp [withNames]
  | cons x xs ih =>
    rw [withNames, ih]
    by_cases h : x ∈ known <;> grind

theorem nodup_withNames {known : List String} (h : known.Nodup) (xs : List String) :
    (withNames known xs).Nodup := by
  induction xs generalizing known with
  | nil => exact h
  | cons x xs ih =>
    apply ih
    by_cases hx : x ∈ known <;> grind

/-- Tests are only added, and of the names given the new ones are bound. -/
def Adds (plan plan' : Plan) (names : List String) : Prop :=
  (∃ ts, plan'.tests = plan.tests ++ ts) ∧
    plan'.bindings.map (·.1) = withNames (plan.bindings.map (·.1)) names

variable {plan plan' last : Plan} {names more : List String}

theorem Adds.trans (h : Adds plan plan' names) (h' : Adds plan' last more) :
    Adds plan last (names ++ more) := by
  obtain ⟨⟨ts, hts⟩, hnames⟩ := h
  obtain ⟨⟨us, hus⟩, hmore⟩ := h'
  refine ⟨⟨ts ++ us, ?_⟩, ?_⟩
  · rw [hus, hts, List.append_assoc]
  · rw [hmore, hnames, withNames_append]

theorem Adds.requireAll (plan : Plan) (tests : List Expr) : Adds plan (plan.requireAll tests) [] :=
  ⟨⟨tests, rfl⟩, rfl⟩

theorem Adds.require (plan : Plan) (test : Expr) : Adds plan (plan.require test) [] :=
  ⟨⟨[test], rfl⟩, rfl⟩

theorem compileVariable_adds (env : Surroundings) (name : String) (subject : Expr) (plan : Plan) :
    Adds plan (compileVariable env name subject plan) (if name = "_" then [] else [name]) := by
  unfold compileVariable
  split
  · exact ⟨⟨[], by simp⟩, rfl⟩
  · split
    next first hfirst =>
      have hmem : name ∈ plan.bindings.map (·.1) := by
        obtain ⟨before, after, hsplit, _⟩ := List.lookup_eq_some_iff.mp hfirst
        simp [hsplit]
      exact ⟨⟨_, rfl⟩, by simp [withNames, hmem, Plan.require]⟩
    next hnone =>
      have hmem : name ∉ plan.bindings.map (·.1) := by
        intro h
        obtain ⟨b, hb, rfl⟩ := List.mem_map.mp h
        simpa using List.lookup_eq_none_iff.mp hnone b hb
      exact ⟨⟨[], by simp [Plan.bind]⟩, by simp [withNames, hmem, Plan.bind]⟩

/-- The variables that a job is about. -/
def jobNames : Job → List String
  | .pattern pattern _ => boundNames pattern
  | .items _ _ patterns => boundNamesEach patterns
  | .entries _ entries => boundNamesEntries entries

theorem boundNames_of_constant {node : Node} {value : Expr} (h : constant? node = some value) :
    boundNames node = [] := by
  unfold constant? at h
  split at h <;> simp_all [boundNames]

theorem compiled_adds {env : Surroundings} {job : Job} (h : Compiled env job plan plan') :
    Adds plan plan' (jobNames job) := by
  induction h with
  | float | negatedFloat | moduleName | pin => exact .require _ _
  | constant _ literal =>
    rw [jobNames, boundNames_of_constant literal]
    exact .require _ _
  | var => exact compileVariable_adds _ _ _ _
  | tuple _ ih | list _ ih => exact (Adds.requireAll _ _).trans ih
  | cons _ _ front rest => exact ((Adds.requireAll _ _).trans front).trans rest
  | map _ ih => exact (Adds.require _ _).trans ih
  | struct _ _ name parts => exact ((Adds.require _ _).trans name).trans parts
  | both _ _ first second => exact first.trans second
  | start _ ih => exact (Adds.requireAll _ _).trans ih
  | noItems | noEntries => exact ⟨⟨[], by simp⟩, rfl⟩
  | item _ _ head tail => exact head.trans tail
  | entry _ _ _ head tail => exact ((Adds.require _ _).trans head).trans tail

end TreeLowering.Pattern
