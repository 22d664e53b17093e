import TreeLowering.Proofs.Run

/-!
What a step ensures of its result when it succeeds.

A fact that holds of everything the lowering emits, whatever the configuration and the state, is
carried from the parts of a rule to the rule by the lemmas of this module.
-/
namespace TreeLowering.LowerM

variable {α β : Type} {P : α → Prop} {Q : β → Prop}

/-- Every result of the step satisfies the predicate. -/
def Ensures (x : LowerM α) (P : α → Prop) : Prop :=
  ∀ c s a s', x c s = (.ok a, s') → P a

namespace Ensures

theorem pure {a : α} (h : P a) : (Pure.pure a : LowerM α).Ensures P := by
  intro c s b s' hrun
  obtain ⟨rfl, -⟩ := pure_run.mp hrun
  exact h

theorem bind {x : LowerM α} {f : α → LowerM β} (hx : x.Ensures P)
    (hf : ∀ a, P a → (f a).Ensures Q) : (x >>= f).Ensures Q := by
  intro c s b s' hrun
  obtain ⟨a, s₁, hrunx, hrunf⟩ := bind_run.mp hrun
  exact hf a (hx c s a s₁ hrunx) c s₁ b s' hrunf

/-- A step whose result may be anything, before one that ensures `Q`. -/
theorem after {x : LowerM α} {f : α → LowerM β} (hf : ∀ a, (f a).Ensures Q) :
    (x >>= f).Ensures Q :=
  bind (P := fun _ => True) (fun _ _ _ _ _ => trivial) fun a _ => hf a

theorem fail (e : LowerError) : (LowerM.fail e : LowerM α).Ensures P :=
  fun _ _ _ _ hrun => (fail_run hrun).elim

theorem ofExcept {x : Except LowerError α} (h : ∀ a, x = .ok a → P a) :
    (LowerM.ofExcept x).Ensures P := by
  intro c s a s' hrun
  rw [ofExcept_run] at hrun
  exact h a (Prod.mk.inj hrun).1

theorem inScope {x : LowerM α} (h : x.Ensures P) : (LowerM.inScope x).Ensures P := by
  intro c s a s' hrun
  obtain ⟨s₁, hrun, -⟩ := inScope_run.mp hrun
  exact h c s a s₁ hrun

theorem inFunction {x : LowerM α} (h : x.Ensures P) : (LowerM.inFunction x).Ensures P :=
  fun _ _ _ _ hrun => h _ _ _ _ (Prod.ext (Prod.mk.inj hrun).1 rfl)

theorem inModule {name functions : List String} {x : LowerM α} (h : x.Ensures P) :
    (LowerM.inModule name functions x).Ensures P :=
  fun _ _ _ _ hrun => h.inFunction _ _ _ _ (Prod.ext (Prod.mk.inj hrun).1 rfl)

theorem withAttributes {versions : Option (NameTable Nat)} {x : LowerM α} (h : x.Ensures P) :
    (LowerM.withAttributes versions x).Ensures P := by
  cases versions with
  | none => exact h
  | some versions => exact fun _ _ _ _ hrun => h _ _ _ _ (Prod.ext (Prod.mk.inj hrun).1 rfl)

theorem sequence {xs : List (LowerM α)} (h : ∀ x ∈ xs, x.Ensures P) :
    (LowerM.sequence xs).Ensures fun as => ∀ a ∈ as, P a := by
  induction xs with
  | nil => exact pure (by simp)
  | cons x xs ih =>
    refine bind (h x List.mem_cons_self) fun a ha => ?_
    refine bind (ih fun y hy => h y (List.mem_cons_of_mem x hy)) fun as has => ?_
    exact pure (List.forall_mem_cons.mpr ⟨ha, has⟩)

theorem optional {o : Option (LowerM α)} (h : ∀ x ∈ o, x.Ensures P) :
    (LowerM.optional o).Ensures fun r => ∀ a ∈ r, P a := by
  cases o with
  | none => exact pure (by simp)
  | some x => exact bind (h x rfl) fun a ha => pure (by simpa using ha)

end Ensures

end TreeLowering.LowerM
