import TreeLowering.Proofs.Emits

/-!
Which names are new.

Numbers only grow, so a name that is given out lies between the numbers before and those after, and
what is given out later is different. `Numbered` is about variables and invented names, `Versioned`
about attributes. The `$arg` parameters of functions that try their clauses are not numbered.
-/
namespace TreeLowering.Scoping

open Source Identifier

variable {V A : String → Prop} {n m k : Names} {t : String}

/-- No number is smaller afterwards. -/
structure Names.Le (n m : Names) : Prop where
  versions : ∀ x, n.versions.next x ≤ m.versions.next x
  invented : n.invented ≤ m.invented
  attributes : ∀ a, n.attributeVersions.next a ≤ m.attributeVersions.next a
  functions : m.functions = n.functions

namespace Names.Le

theorem refl (n : Names) : n.Le n :=
  ⟨fun _ => Nat.le_refl _, Nat.le_refl _, fun _ => Nat.le_refl _, rfl⟩

theorem trans (h : n.Le m) (h' : m.Le k) : n.Le k :=
  ⟨fun x => Nat.le_trans (h.versions x) (h'.versions x), Nat.le_trans h.invented h'.invented,
    fun a => Nat.le_trans (h.attributes a) (h'.attributes a), h'.functions.trans h.functions⟩

theorem leave (h : n.Le m) (k : Names) : n.Le (k.leave m) := ⟨h.1, h.2, h.3, h.4⟩

theorem bind (n : Names) (x : String) : n.Le (n.bind x) :=
  ⟨n.versions.next_le_next_set x, Nat.le_refl _, fun _ => Nat.le_refl _, rfl⟩

theorem invent (n : Names) : n.Le n.invent :=
  ⟨fun _ => Nat.le_refl _, Nat.le_succ _, fun _ => Nat.le_refl _, rfl⟩

theorem define (n : Names) (a : String) : n.Le (n.define a) :=
  ⟨fun _ => Nat.le_refl _, Nat.le_refl _, n.attributeVersions.next_le_next_set a, rfl⟩

end Names.Le

theorem Binds.le {allowed : String → Prop} {xs : List String} {ms : List Mark}
    (h : Binds allowed n xs ms m) : n.Le m := by
  induction h with
  | done => exact .refl _
  | read _ _ ih => exact ih
  | bind _ ih => exact (Names.Le.bind _ _).trans ih

theorem Emits.le {c : Config} {kept : List (List String)} {es : List Event} {as : List Mark}
    (h : Emits c V A kept n es as m) : n.Le m := by
  induction h with
  | nil | global | read | function | remote | version | unset | use | omitted => exact .refl _
  | define => exact .define _ _
  | bind | param => exact .bind _ _
  | append _ _ ih₁ ih₂ | swap _ _ _ _ ih₁ ih₂ | held _ _ ih₁ ih₂ => exact ih₁.trans ih₂
  | hold _ _ _ _ ih₁ ih₂ => exact (ih₁.trans (.invent _)).trans ih₂
  | loop _ _ _ ih₁ ih₂ | collect _ _ _ _ _ ih₁ ih₂ =>
    exact ((ih₁.trans (.invent _)).trans ih₂).leave _
  | matching _ binds => exact binds.le
  | scope _ ih | params _ ih => exact ih.leave _
  | taken _ ih => exact ih

/-- The variable or invented name is given out between `n` and `m`. -/
inductive Numbered (V : String → Prop) (n m : Names) : String → Prop
  | bound {x : String} {version : Nat} (named : V x) (first : n.versions.next x ≤ version)
      (last : version < m.versions.next x) : Numbered V n m (ofVariable n.functions x version)
  | invented {stem : String} {i : Nat} (known : stem ∈ ["m", "case", "acc", "gen"])
      (first : n.invented ≤ i) (last : i < m.invented) : Numbered V n m (invented stem i)

/-- The attribute's name is given out between `n` and `m`. -/
inductive Versioned (A : String → Prop) (n m : Names) : String → Prop
  | intro {a : String} {version : Nat} (named : A a) (first : n.attributeVersions.next a ≤ version)
      (last : version < m.attributeVersions.next a) :
      Versioned A n m (versioned (ofAttribute a) version)

/-- A parameter of a function that tries its clauses. -/
def IsArgument (t : String) : Prop := ∃ i, t = paramName i

theorem numbered_next {x : String} (named : V x) : Numbered V n (n.bind x) (n.next x) := by
  refine .bound named (Nat.le_refl _) ?_
  simp [Names.bind, NameTable.next_set]

theorem numbered_invented {stem : String} (known : stem ∈ ["m", "case", "acc", "gen"]) :
    Numbered V n n.invent (invented stem n.invented) :=
  .invented known (Nat.le_refl _) (Nat.lt_succ_self _)

theorem isArgument_of_mem {count : Nat} (h : t ∈ (List.range count).map paramName) :
    IsArgument t := by
  obtain ⟨i, -, rfl⟩ := List.mem_map.mp h
  exact ⟨i, rfl⟩

theorem nodup_paramNames (count : Nat) : ((List.range count).map paramName).Nodup :=
  List.Pairwise.map paramName (fun _ _ hne heq =>
    hne (invented_inj (by decide) (by decide) heq).2) List.nodup_range

section Disjoint

variable {n' m' : Names}

theorem Numbered.mono (h : Numbered V n m t) (hn : n'.Le n) (hm : m.Le m') : Numbered V n' m' t := by
  cases h with
  | bound named first last =>
    rw [hn.functions]
    exact .bound named (Nat.le_trans (hn.versions _) first)
      (Nat.lt_of_lt_of_le last (hm.versions _))
  | invented known first last =>
    exact .invented known (Nat.le_trans hn.invented first) (Nat.lt_of_lt_of_le last hm.invented)

theorem Versioned.mono (h : Versioned A n m t) (hn : n'.Le n) (hm : m.Le m') :
    Versioned A n' m' t := by
  obtain ⟨named, first, last⟩ := h
  exact .intro named (Nat.le_trans (hn.attributes _) first)
    (Nat.lt_of_lt_of_le last (hm.attributes _))

theorem mem_stems {stem : String} (h : stem ∈ ["m", "case", "acc", "gen"]) : stem ∈ stems :=
  List.mem_append_left ["arg"] h

theorem Numbered.not_isArgument (hV : ∀ x, V x → IsSourceName x) (h : Numbered V n m t) :
    ¬ IsArgument t := by
  rintro ⟨i, hi⟩
  cases h with
  | bound named => exact ofVariable_ne_invented (hV _ named) hi
  | invented known =>
    obtain ⟨rfl, -⟩ := invented_inj (mem_stems known) (by decide) hi
    simp at known

theorem Versioned.not_isArgument (h : Versioned A n m t) : ¬ IsArgument t := by
  rintro ⟨i, hi⟩
  cases h
  exact invented_ne_ofAttribute (by decide) hi.symm

theorem Numbered.ne_ofAttribute (hV : ∀ x, V x → IsSourceName x) (h : Numbered V n m t)
    (a : String) (version : Nat) : t ≠ versioned (ofAttribute a) version := by
  intro ht
  cases h with
  | bound named => exact ofVariable_ne_ofAttribute (hV _ named) ht
  | invented known => exact invented_ne_ofAttribute (mem_stems known) ht

theorem Numbered.not_versioned (hV : ∀ x, V x → IsSourceName x) (h : Numbered V n m t) :
    ¬ Versioned A n' m' t := by
  intro h'
  cases h'
  exact h.ne_ofAttribute hV _ _ rfl

/-- A name is given out once. -/
theorem Numbered.not_later (hV : ∀ x, V x → IsSourceName x) (h : Numbered V n m t) (hn : n.Le m) :
    ¬ Numbered V m k t := by
  intro h'
  generalize ht : t = u at h'
  cases h with
  | bound named first last =>
    cases h' with
    | bound named' first' last' =>
      rw [hn.functions] at ht
      obtain ⟨rfl, rfl⟩ := ofVariable_inj (hV _ named) (hV _ named') ht
      omega
    | invented => exact ofVariable_ne_invented (hV _ named) ht
  | invented known first last =>
    cases h' with
    | bound named' => exact ofVariable_ne_invented (hV _ named') ht.symm
    | invented known' first' last' =>
      obtain ⟨rfl, rfl⟩ := invented_inj (mem_stems known) (mem_stems known') ht
      omega

theorem Versioned.not_later (hA : ∀ a, A a → IsSourceName a) (h : Versioned A n m t) :
    ¬ Versioned A m k t := by
  intro h'
  generalize ht : t = u at h'
  obtain ⟨named, first, last⟩ := h
  obtain ⟨named', first', last'⟩ := h'
  obtain ⟨rfl, rfl⟩ := ofAttribute_inj (hA _ named) (hA _ named') ht
  omega

end Disjoint

end TreeLowering.Scoping
