import Mathlib.Data.List.Forall2
import TreeLowering.Json.Decoder

/-!
The forms in which a document may be written.

An encoding has every field of every record, in declared order. What a reader accepts for it is
freer: `WrittenAs` lists the liberties. Tags are capitalised and names of fields are not, so an
object of the encoding is known for a tagged union or for a record by its keys. No liberty adds a
level of nesting.
-/
namespace TreeLowering.Json

/-- Whether a key is the tag of a union. -/
def isTag (key : Option String) : Bool := key.any fun name => name.toList.head?.any Char.isUpper

/-- The fields that are filled in when a record does not have them, and what is filled in. -/
def fieldDefaults : List (Option String × Value) :=
  [(some "resolution", .text "Local"),
   (some "access", .null),
   (some "line", .null),
   (some "meta", .record [("resolution", .text "Local"), ("line", .null)]),
   (some "meta", .record [("access", .null), ("line", .null)])]

/-- A field that an object can leave out: it is nothing, or it holds its default. -/
def Dispensable (field : Option String × Value) : Prop := field.2 = .null ∨ field ∈ fieldDefaults

namespace Value

def isScalar : Value → Bool
  | .null | .bool _ | .number _ | .string _ => true
  | .array _ | .object _ => false

mutual

/-- How deep arrays and objects nest. -/
@[simp]
def depth : Value → Nat
  | .null | .bool _ | .number _ | .string _ => 0
  | .array items => depthOfItems items + 1
  | .object members => depthOfMembers members + 1

@[simp]
def depthOfItems : List Value → Nat
  | [] => 0
  | v :: rest => max v.depth (depthOfItems rest)

@[simp]
def depthOfMembers : List (Option String × Value) → Nat
  | [] => 0
  | (_, v) :: rest => max v.depth (depthOfMembers rest)

end

theorem depthOfItems_le_iff {items : List Value} {k : Nat} :
    depthOfItems items ≤ k ↔ ∀ v ∈ items, v.depth ≤ k := by
  induction items with
  | nil => simp
  | cons v rest ih => simp [ih, Nat.max_le]

theorem depthOfMembers_le_iff {members : List (Option String × Value)} {k : Nat} :
    depthOfMembers members ≤ k ↔ ∀ m ∈ members, m.2.depth ≤ k := by
  induction members with
  | nil => simp
  | cons m rest ih => simp [ih, Nat.max_le]

theorem levels_of_array {items : List Value} {k : Nat} (h : (Value.array items).depth ≤ k) :
    ∃ l, k = l + 1 ∧ ∀ v ∈ items, v.depth ≤ l := by
  rw [depth] at h
  obtain ⟨l, rfl⟩ := Nat.exists_eq_add_of_lt h
  exact ⟨depthOfItems items + l, rfl, depthOfItems_le_iff.mp (by omega)⟩

theorem levels_of_object {members : List (Option String × Value)} {k : Nat}
    (h : (Value.object members).depth ≤ k) : ∃ l, k = l + 1 ∧ ∀ m ∈ members, m.2.depth ≤ l := by
  rw [depth] at h
  obtain ⟨l, rfl⟩ := Nat.exists_eq_add_of_lt h
  exact ⟨depthOfMembers members + l, rfl, depthOfMembers_le_iff.mp (by omega)⟩

/-- What the first value encodes can be written as the second. -/
inductive WrittenAs : Value → Value → Prop
  | same {v : Value} : WrittenAs v v
  | array {items vs : List Value} (each : List.Forall₂ WrittenAs items vs) :
    WrittenAs (.array items) (.array vs)
  | union {tag : Option String} {payload v : Value} (upper : isTag tag = true)
    (inside : WrittenAs payload v) : WrittenAs (.object [(tag, payload)]) (.object [(tag, v)])
  /-- The fields by name, in any order and each once: scalars that are no fields may be among them,
  and what is dispensable may be missing. -/
  | named {members vs : List (Option String × Value)}
    (lower : ∀ m ∈ members, isTag m.1 = false)
    (known : ∀ key w v, (key, w) ∈ members → (key, v) ∈ vs → WrittenAs w v)
    (once : ∀ key ∈ members.map (·.1), (vs.map (·.1)).count key ≤ 1)
    (unknown : ∀ m ∈ vs, m.1 ∉ members.map (·.1) → m.1.isSome = true ∧ m.2.isScalar = true)
    (missing : ∀ m ∈ members, m.1 ∉ vs.map (·.1) → Dispensable m) :
    WrittenAs (.object members) (.object vs)
  /-- The fields by position, in declared order: those at the end may be missing if they hold their
  default. -/
  | positional {members kept rest : List (Option String × Value)} {vs : List Value}
    (lower : ∀ m ∈ members, isTag m.1 = false)
    (split : members = kept ++ rest)
    (each : List.Forall₂ WrittenAs (kept.map (·.2)) vs)
    (missing : ∀ m ∈ rest, m ∈ fieldDefaults) : WrittenAs (.object members) (.array vs)

namespace WrittenAs

variable {v w : Value}

theorem eq_of_isScalar (h : w.WrittenAs v) (hw : w.isScalar = true) : v = w := by
  cases h with
  | same => rfl
  | array | union | named | positional => cases hw

theorem ne_null (h : w.WrittenAs v) (hw : w ≠ .null) : v ≠ .null := by
  cases h with
  | same => exact hw
  | array | union | named | positional => exact Value.noConfusion

theorem of_array {items : List Value} (h : (Value.array items).WrittenAs v) :
    ∃ vs, v = .array vs ∧ List.Forall₂ WrittenAs items vs := by
  cases h with
  | same => exact ⟨items, rfl, List.forall₂_same.mpr fun _ _ => .same⟩
  | array each => exact ⟨_, rfl, each⟩

theorem of_tagged {tag : String} {payload : Value} (htag : isTag (some tag) = true)
    (h : (Value.tagged tag payload).WrittenAs v) :
    ∃ v', v = .tagged tag v' ∧ payload.WrittenAs v' := by
  have hmem : (some tag, payload) ∈ [(some tag, payload)] := List.mem_singleton_self _
  cases h with
  | same => exact ⟨payload, rfl, .same⟩
  | union upper inside => exact ⟨_, rfl, inside⟩
  | named lower | positional lower =>
    have hlower := lower _ hmem
    simp [htag] at hlower

theorem exists_of_mem_right {items vs : List Value} (h : List.Forall₂ WrittenAs items vs)
    (hv : v ∈ vs) : ∃ w ∈ items, w.WrittenAs v := by
  induction h with
  | nil => cases hv
  | cons hhead _ ih =>
    rcases List.mem_cons.mp hv with rfl | hv
    · exact ⟨_, List.mem_cons_self, hhead⟩
    · obtain ⟨w, hw, hwv⟩ := ih hv
      exact ⟨w, List.mem_cons_of_mem _ hw, hwv⟩

/-- No form of a value nests deeper than the value: the fields that are added are scalars. -/
theorem depth_le {k : Nat} (h : w.WrittenAs v) (hw : w.depth ≤ k) : v.depth ≤ k := by
  induction k generalizing w v with
  | zero =>
    have hscalar : w.isScalar = true := by
      cases w with
      | array | object => simp at hw
      | _ => rfl
    rw [h.eq_of_isScalar hscalar]
    exact hw
  | succ k ih =>
    cases h with
    | same => exact hw
    | array each =>
      rw [depth, Nat.add_le_add_iff_right, depthOfItems_le_iff] at hw ⊢
      intro v hv
      obtain ⟨w, hmem, hwv⟩ := exists_of_mem_right each hv
      exact ih hwv (hw w hmem)
    | union upper inside =>
      rw [depth, Nat.add_le_add_iff_right, depthOfMembers_le_iff, List.forall_mem_singleton] at hw ⊢
      exact ih inside hw
    | @named members vs lower known once unknown missing =>
      rw [depth, Nat.add_le_add_iff_right, depthOfMembers_le_iff] at hw ⊢
      rintro ⟨key, v⟩ hv
      by_cases hkey : key ∈ members.map (·.1)
      · obtain ⟨⟨key, w⟩, hmem, rfl⟩ := List.mem_map.mp hkey
        exact ih (known key w v hmem hv) (hw _ hmem)
      · have hscalar := (unknown _ hv hkey).2
        cases v with
        | array | object => cases hscalar
        | _ => exact Nat.zero_le k
    | positional lower split each missing =>
      subst split
      rw [depth, Nat.add_le_add_iff_right, depthOfMembers_le_iff] at hw
      rw [depth, Nat.add_le_add_iff_right, depthOfItems_le_iff]
      intro v hv
      obtain ⟨w, hw', hwv⟩ := exists_of_mem_right each hv
      obtain ⟨m, hmem, rfl⟩ := List.mem_map.mp hw'
      exact ih hwv (hw m (List.mem_append_left _ hmem))

end WrittenAs

end Value

end TreeLowering.Json
