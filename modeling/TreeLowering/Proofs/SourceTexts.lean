import TreeLowering.Proofs.PipeRemoval

/-!
The texts of a source tree: every name, every string and every operator that stands in it. Writing
out pipes adds none.
-/
namespace TreeLowering.Source

/-- The texts of what a call was resolved to. -/
def CallMeta.texts (info : CallMeta) : List String :=
  match info.resolution with
  | .qualified segments => segments
  | .unqualified | .imported => []

namespace Node

open Assembly (each field)

/-- The texts of the node itself, without those of its parts. -/
def ownTexts : Node → List String
  | .string text => [text]
  | .atom name | .var name | .attributeSet name _ | .attributeRead name => [name]
  | .binaryOp op _ _ | .unaryOp op _ => [op]
  | .call name _ info => name :: info.texts
  | .dot _ name _ _ | .capture _ name _ => [name]
  | .moduleName segments => segments
  | .module name _ => name
  | .importAll segments => segments
  | .importOnly segments only => segments ++ only.map (·.1)
  | .aliasAs segments rename | .require segments rename => segments ++ rename.toList
  | .defStruct fields | .defException fields => fields.map (·.1)
  | _ => []

/-- The texts of the tree. -/
def texts (n : Node) : List String :=
  n.ownTexts ++ (n.parts.attach.map fun p => texts p.1).flatten
termination_by sizeOf n
decreasing_by exact sizeOf_lt_of_mem_parts p.2

theorem texts_eq (n : Node) : n.texts = n.ownTexts ++ n.parts.flatMap texts := by
  rw [texts, List.attach_map_val, List.flatMap_def]

theorem mem_texts_of_mem_ownTexts {n : Node} {t : String} (h : t ∈ n.ownTexts) : t ∈ n.texts := by
  rw [texts_eq]
  exact List.mem_append_left _ h

theorem mem_texts_of_part {n p : Node} {t : String} (hp : p ∈ n.parts) (h : t ∈ p.texts) :
    t ∈ n.texts := by
  rw [texts_eq]
  exact List.mem_append_right _ (List.mem_flatMap.mpr ⟨p, hp, h⟩)

theorem names_of_each_field (fields : List (String × Node)) (ps : List Node) :
    ((each field fields).build ps).map (·.1) = fields.map (·.1) := by
  induction fields generalizing ps with
  | nil => rfl
  | cons f rest ih =>
    obtain ⟨name, value⟩ := f
    exact congrArg (name :: ·) (ih _)

theorem ownTexts_withParts (n : Node) (ps : List Node) :
    (n.withParts ps).ownTexts = n.ownTexts := by
  cases n with
  | defStruct fields | defException fields => exact names_of_each_field fields ps
  | _ => rfl

theorem mem_texts_of_withFirstArgument {n arg m : Node} {t : String}
    (h : n.withFirstArgument arg = .ok m) (ht : t ∈ m.texts) : t ∈ arg.texts ∨ t ∈ n.texts := by
  have hown : m.ownTexts = n.ownTexts := by cases n <;> cases h <;> rfl
  rw [texts_eq, List.mem_append, List.mem_flatMap] at ht
  rcases ht with ht | ⟨p, hp, ht⟩
  · exact .inr (mem_texts_of_mem_ownTexts (hown ▸ ht))
  · rcases (withFirstArgument_ok h).2.2.2 p hp with rfl | hp
    · exact .inl ht
    · exact .inr (mem_texts_of_part hp ht)

/-- Writing out pipes moves nodes, and adds no text. -/
theorem mem_texts_of_removePipes {n m : Node} {t : String} (h : n.removePipes = .ok m)
    (ht : t ∈ m.texts) : t ∈ n.texts := by
  induction n using Node.inductParts generalizing m with
  | step n ih =>
    rcases removePipes_ok h with ⟨left, right, left', right', rfl, hleft, hright, hm⟩ |
      ⟨-, ps, hps, rfl⟩
    · have hparts : left ∈ (pipe left right).parts ∧ right ∈ (pipe left right).parts := by
        simp [parts, assembly]
      rcases mem_texts_of_withFirstArgument hm ht with ht | ht
      · exact mem_texts_of_part hparts.1 (ih left hparts.1 hleft ht)
      · exact mem_texts_of_part hparts.2 (ih right hparts.2 hright ht)
    · rw [texts_eq, ownTexts_withParts, parts_withParts (length_of_removePipesList hps),
        List.mem_append, List.mem_flatMap] at ht
      rcases ht with ht | ⟨p', hp', ht⟩
      · exact mem_texts_of_mem_ownTexts ht
      · obtain ⟨p, hp, hpp'⟩ := exists_of_mem_removePipesList hps hp'
        exact mem_texts_of_part hp (ih p hp hpp' ht)

end Node

end TreeLowering.Source
