import TreeLowering.State

/-!
Taking successful runs apart.

A step that succeeds as a sequence of two has succeeded as each. Proofs about the lowering open its
steps with the lemmas of this module and do not unfold the monad. What a table of names holds after
an entry is added is said here too.
-/
namespace TreeLowering

namespace NameTable

theorem get?_set {α : Type} (table : NameTable α) (x y : String) (a : α) :
    (table.set x a).get? y = if y = x then some a else table.get? y := by
  unfold NameTable.set NameTable.get?
  split
  next h => simp [h]
  next h => simp [List.lookup_cons, beq_eq_false_iff_ne.mpr h]

theorem next_set (table : NameTable Nat) (x y : String) (version : Nat) :
    (table.set x version).next y = if y = x then version else table.next y := by
  rw [next, get?_set]
  split <;> rfl

/-- No number is taken back when the next one is given out. -/
theorem next_le_next_set (table : NameTable Nat) (x y : String) :
    table.next y ≤ (table.set x (table.next x + 1)).next y := by
  rw [next_set]
  split
  next h => simp [h]
  next => exact Nat.le_refl _

end NameTable

theorem exists_ok_of_bind {ε α β : Type} {x : Except ε α} {f : α → Except ε β} {b : β}
    (h : (x >>= f) = .ok b) : ∃ a, x = .ok a ∧ f a = .ok b := by
  cases x with
  | error e => cases h
  | ok a => exact ⟨a, rfl, h⟩

theorem bind_eq_ok_iff {ε α β : Type} {x : Except ε α} {f : α → Except ε β} {b : β} :
    (x >>= f) = .ok b ↔ ∃ a, x = .ok a ∧ f a = .ok b :=
  ⟨exists_ok_of_bind, fun ⟨a, hx, hf⟩ => by rw [hx]; exact hf⟩

theorem exists_ok_of_isOk {ε α : Type} {x : Except ε α} (h : x.isOk = true) : ∃ a, x = .ok a := by
  cases x with
  | error e => cases h
  | ok a => exact ⟨a, rfl⟩

namespace LowerM

variable {α β : Type} {c : Config} {s s' : State}

theorem ofExcept_run (x : Except LowerError α) (c : Config) (s : State) :
    ofExcept x c s = (x, s) := by
  cases x <;> rfl

theorem bind_run {x : LowerM α} {f : α → LowerM β} {b : β} :
    (x >>= f) c s = (.ok b, s') ↔ ∃ a s₁, x c s = (.ok a, s₁) ∧ f a c s₁ = (.ok b, s') := by
  show LowerM.bind x f c s = _ ↔ _
  unfold LowerM.bind
  split
  next a s₁ hx =>
    constructor
    · exact fun h => ⟨a, s₁, hx, h⟩
    · rintro ⟨a', s₁', hx', h⟩
      rw [hx] at hx'
      cases hx'
      exact h
  next e s₁ hx =>
    constructor
    · intro h
      cases h
    · rintro ⟨a', s₁', hx', h⟩
      rw [hx] at hx'
      cases hx'

theorem bind_of_ok {x : LowerM α} {f : α → LowerM β} {a : α} (h : x c s = (.ok a, s')) :
    (x >>= f) c s = f a c s' := by
  show LowerM.bind x f c s = _
  rw [LowerM.bind, h]

theorem bind_of_error {x : LowerM α} {f : α → LowerM β} {e : LowerError}
    (h : x c s = (.error e, s')) : (x >>= f) c s = (.error e, s') := by
  show LowerM.bind x f c s = _
  rw [LowerM.bind, h]

theorem pure_run {a b : α} : (pure a : LowerM α) c s = (.ok b, s') ↔ b = a ∧ s' = s := by
  show ((Except.ok a, s) : Except LowerError α × State) = _ ↔ _
  grind

theorem fail_run {e : LowerError} {b : α} : (fail e : LowerM α) c s ≠ (.ok b, s') := by
  intro h
  cases h

theorem state_run {r : State} : state c s = (.ok r, s') ↔ r = s ∧ s' = s := by
  show ((Except.ok s, s) : Except LowerError State × State) = _ ↔ _
  grind

theorem library_run {lib : RuntimeLibrary} :
    library c s = (.ok lib, s') ↔ lib = ⟨c.runtimeName⟩ ∧ s' = s := by
  show ((Except.ok _, s) : Except LowerError RuntimeLibrary × State) = _ ↔ _
  grind

theorem config_run {d : Config} : config c s = (.ok d, s') ↔ d = c ∧ s' = s := by
  show ((Except.ok c, s) : Except LowerError Config × State) = _ ↔ _
  grind

theorem modify_run {f : State → State} {u : Unit} :
    modify f c s = (.ok u, s') ↔ s' = f s := by
  show ((Except.ok (), f s) : Except LowerError Unit × State) = _ ↔ _
  grind

theorem inScope_run {x : LowerM α} {a : α} :
    inScope x c s = (.ok a, s') ↔
      ∃ s₁, x c s = (.ok a, s₁) ∧ s' = { s₁ with scope := s.scope } := by
  unfold inScope
  cases h : x c s
  grind

theorem length_of_sequence {xs : List (LowerM α)} {as : List α}
    (h : sequence xs c s = (.ok as, s')) : as.length = xs.length := by
  induction xs generalizing s as with
  | nil =>
    obtain ⟨rfl, -⟩ := pure_run.mp h
    rfl
  | cons x xs ih =>
    simp only [sequence, bind_run, pure_run] at h
    obtain ⟨a, s₁, -, rest, s₂, hrest, rfl, rfl⟩ := h
    rw [List.length_cons, List.length_cons, ih hrest]

/-- What a sequence gives was given by one of its steps, in a state of the kind that they keep. -/
theorem exists_of_mem_sequence_keeping {ι : Type} {l : List ι} {x : ι → LowerM α} {as : List α}
    {a : α} {I : State → Prop} (hkeeps : ∀ i ∈ l, ∀ s, I s → I (x i c s).2) (hs : I s)
    (h : sequence (l.map x) c s = (.ok as, s')) (ha : a ∈ as) :
    ∃ i ∈ l, ∃ s₁ s₂, I s₁ ∧ x i c s₁ = (.ok a, s₂) := by
  induction l generalizing s as with
  | nil =>
    obtain ⟨rfl, -⟩ := pure_run.mp h
    cases ha
  | cons i l ih =>
    simp only [List.map_cons, sequence, bind_run, pure_run] at h
    obtain ⟨b, s₁, hb, bs, s₂, hbs, rfl, rfl⟩ := h
    rcases List.mem_cons.mp ha with rfl | ha
    · exact ⟨i, by simp, s, s₁, hs, hb⟩
    · have hs₁ := hkeeps i (by simp) s hs
      rw [hb] at hs₁
      obtain ⟨j, hj, hrun⟩ := ih (fun j hj => hkeeps j (by simp [hj])) hs₁ hbs ha
      exact ⟨j, by simp [hj], hrun⟩

/-- What a sequence gives was given by one of its steps. -/
theorem exists_of_mem_sequence {ι : Type} {l : List ι} {x : ι → LowerM α} {as : List α} {a : α}
    (h : sequence (l.map x) c s = (.ok as, s')) (ha : a ∈ as) :
    ∃ i ∈ l, ∃ s₁ s₂, x i c s₁ = (.ok a, s₂) := by
  obtain ⟨i, hi, s₁, s₂, -, hrun⟩ := exists_of_mem_sequence_keeping (I := fun _ => True)
    (fun _ _ _ => id) trivial h ha
  exact ⟨i, hi, s₁, s₂, hrun⟩

end LowerM

end TreeLowering
