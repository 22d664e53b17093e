import Mathlib.Data.List.Nodup
import TreeLowering.Source.Json
import TreeLowering.Proofs.JsonForms

/-!
What decoders make of every form of a document.

`d.Takes k w a` says that `d` takes each way of writing `w` for `a`, on fewer than `k` levels. A
decoder of trees is unrolled, and each unrolling is good for one more level; so the bound is what an
induction on the unrolling carries. There is one lemma for each way of making decoders.
-/
namespace TreeLowering.Json

namespace Numeral

theorem ofDigits_toDigits (n : Nat) : ofDigits (Nat.toDigits 10 n) = n := by
  have hfold : ofDigits (Nat.toDigits 10 n) = Nat.ofDigitChars 10 (Nat.toDigits 10 n) 0 := by
    simp only [ofDigits, digitValue, Nat.ofDigitChars, Nat.mul_comm]
  rw [hfold, Nat.ofDigitChars_toDigits (by decide) (by decide)]

theorem toInt?_ofInt (n : Int) : (ofInt n).toInt? = some n := by
  simp only [toInt?, ofInt, ofDigits_toDigits, decide_eq_true_eq, Int.natAbs_eq_zero]
  by_cases hn : n < 0
  · rw [if_pos hn, if_neg (by omega)]
    exact congrArg some (by omega)
  · rw [if_neg hn]
    exact congrArg some (by omega)

end Numeral

/-- Names that fields of one record can have. -/
def FieldNames (names : List String) : Prop :=
  names.Nodup ∧ ∀ name ∈ names, isTag (some name) = false

instance (names : List String) : Decidable (FieldNames names) :=
  inferInstanceAs (Decidable (_ ∧ _))

/-- What a field's slot is when the record of an encoding has been read from one of its forms. -/
inductive Held (levels : Nat) (name : String) (w : Value) : Slot → Prop
  | given {v : Value} (written : w.WrittenAs v) (fits : v.depth ≤ levels) :
    Held levels name w (.given v)
  | absent (missing : Dispensable (some name, w)) : Held levels name w .absent
  | cut (missing : (some name, w) ∈ fieldDefaults) : Held levels name w .cut

/-- The record that has been read has the field of an encoding. -/
def Fields.Holds (r : Fields) (name : String) (w : Value) : Prop :=
  ∃ slot, r.slots.lookup name = some slot ∧ Held r.levels name w slot

section Slots

open Decoder

variable {fields : List (String × Value)} {levels : Nat}

theorem lookup_map_pair {names : List String} {name : String} (slot : String → Slot)
    (h : name ∈ names) :
    (names.map fun name => (name, slot name)).lookup name = some (slot name) := by
  induction names with
  | nil => cases h
  | cons first rest ih =>
    by_cases hname : name = first
    · simp [hname]
    · have hmem : name ∈ rest := (List.mem_cons.mp h).resolve_left hname
      rw [List.map_cons, List.lookup_cons, beq_false_of_ne hname]
      exact ih hmem

/-- The fields of a record, as an object that is a form of it has them. -/
structure NamedAs (fields : List (String × Value)) (vs : List (Option String × Value)) : Prop where
  known : ∀ name w v, (name, w) ∈ fields → (some name, v) ∈ vs → w.WrittenAs v
  once : ∀ name ∈ fields.map (·.1), (vs.map (·.1)).count (some name) ≤ 1
  texts : ∀ key ∈ vs.map (·.1), key.isSome = true
  missing : ∀ name w, (name, w) ∈ fields → some name ∉ vs.map (·.1) → Dispensable (some name, w)

theorem NamedAs.held {vs : List (Option String × Value)} (h : NamedAs fields vs)
    (hdepth : ∀ m ∈ vs, m.2.depth ≤ levels) :
    ∃ slots, slotsOfMembers (fields.map (·.1)) vs = some slots ∧
      ∀ f ∈ fields, Fields.Holds ⟨levels, slots⟩ f.1 f.2 := by
  have hkeys : ((vs.map (·.1)).all (·.isSome) &&
      (fields.map (·.1)).all (fun name => (vs.map (·.1)).count (some name) ≤ 1)) = true := by
    rw [Bool.and_eq_true, List.all_eq_true, List.all_eq_true]
    exact ⟨h.texts, fun name hname => decide_eq_true (h.once name hname)⟩
  refine ⟨_, if_pos hkeys, ?_⟩
  rintro ⟨name, w⟩ hf
  refine ⟨_, lookup_map_pair _ (List.mem_map_of_mem hf), ?_⟩
  cases hlookup : vs.lookup (some name) with
  | some v =>
    obtain ⟨front, back, rfl, -⟩ := List.lookup_eq_some_iff.mp hlookup
    have hmem : (some name, v) ∈ front ++ (some name, v) :: back := by simp
    exact .given (h.known name w v hf hmem) (hdepth _ hmem)
  | none =>
    refine .absent (h.missing name w hf fun hkey => ?_)
    obtain ⟨⟨key, v⟩, hmem, hkey⟩ := List.mem_map.mp hkey
    have hne := List.lookup_eq_none_iff.mp hlookup _ hmem
    subst hkey
    simp at hne

theorem slotsOfItems_nil (names : List String) :
    slotsOfItems names [] = some (names.map fun name => (name, .cut)) := by
  cases names <;> rfl

theorem held_of_positions {kept rest : List (String × Value)} {vs : List Value}
    (hnodup : ((kept ++ rest).map (·.1)).Nodup)
    (each : List.Forall₂ Value.WrittenAs (kept.map (·.2)) vs)
    (missing : ∀ f ∈ rest, (some f.1, f.2) ∈ fieldDefaults) (hdepth : ∀ v ∈ vs, v.depth ≤ levels) :
    ∃ slots, slotsOfItems ((kept ++ rest).map (·.1)) vs = some slots ∧
      ∀ f ∈ kept ++ rest, Fields.Holds ⟨levels, slots⟩ f.1 f.2 := by
  induction kept generalizing vs with
  | nil =>
    cases each
    refine ⟨_, slotsOfItems_nil _, fun f hf => ?_⟩
    exact ⟨_, lookup_map_pair _ (List.mem_map_of_mem hf), .cut (missing f hf)⟩
  | cons first kept ih =>
    obtain ⟨name, w⟩ := first
    obtain ⟨v, vs, hfirst, hrest, rfl⟩ := List.forall₂_cons_left_iff.mp each
    simp only [List.cons_append, List.map_cons, List.nodup_cons] at hnodup
    rw [List.forall_mem_cons] at hdepth
    obtain ⟨slots, hslots, hheld⟩ := ih hnodup.2 hrest hdepth.2
    refine ⟨(name, .given v) :: slots, ?_, ?_⟩
    · simp only [List.cons_append, List.map_cons, slotsOfItems, hslots]
      rfl
    · intro f hf
      rcases List.mem_cons.mp hf with rfl | hf
      · exact ⟨_, List.lookup_cons_self, .given hfirst hdepth.1⟩
      · have hne : f.1 ≠ name := fun h => hnodup.1 (h ▸ List.mem_map_of_mem hf)
        obtain ⟨slot, hslot, hf⟩ := hheld f hf
        refine ⟨slot, ?_, hf⟩
        rw [List.lookup_cons, beq_false_of_ne hne]
        exact hslot

/-- The member of an object that a field is. -/
def memberOf (field : String × Value) : Option String × Value := (some field.1, field.2)

theorem record_eq (fields : List (String × Value)) :
    Value.record fields = .object (fields.map memberOf) := rfl

theorem keys_members (fields : List (String × Value)) :
    (fields.map memberOf).map (·.1) = (fields.map (·.1)).map some := by
  simp [memberOf]

/-- A record is a form of itself: two fields of one name are the same field. -/
theorem namedAs_members (hnodup : (fields.map (·.1)).Nodup) :
    NamedAs fields (fields.map memberOf) where
  known name w v hw hv := by
    obtain ⟨⟨name', v⟩, hmem, heq⟩ := List.mem_map.mp hv
    cases heq
    have hsame := List.inj_on_of_nodup_map hnodup hw hmem rfl
    cases hsame
    exact .same
  once name _ := by
    rw [keys_members]
    exact List.nodup_iff_count_le_one.mp (hnodup.map fun _ _ => Option.some.inj) _
  texts key hkey := by
    rw [keys_members] at hkey
    obtain ⟨name, -, rfl⟩ := List.mem_map.mp hkey
    rfl
  missing name w hw hkey := by
    refine absurd ?_ hkey
    rw [keys_members]
    exact List.mem_map_of_mem (List.mem_map_of_mem hw)

theorem forms_of_record {v : Value} (hnames : FieldNames (fields.map (·.1)))
    (h : (Value.record fields).WrittenAs v) :
    (∃ vs, v = .object vs ∧ NamedAs fields vs) ∨
    ∃ kept rest vs, fields = kept ++ rest ∧ v = .array vs ∧
      List.Forall₂ Value.WrittenAs (kept.map (·.2)) vs ∧
      ∀ f ∈ rest, (some f.1, f.2) ∈ fieldDefaults := by
  rw [record_eq] at h
  generalize hmembers : fields.map memberOf = members at h
  cases h with
  | same =>
    subst hmembers
    exact .inl ⟨_, rfl, namedAs_members hnames.1⟩
  | union upper inside =>
    obtain ⟨f, rfl, htag⟩ := List.map_eq_singleton_iff.mp hmembers
    have hlower := hnames.2 f.1 (by simp)
    cases htag
    simp [hlower] at upper
  | @named _ vs lower known once unknown missing =>
    subst hmembers
    refine .inl ⟨vs, rfl, ?known, ?once, ?texts, ?missing⟩
    case known => exact fun name w v hw => known (some name) w v (List.mem_map_of_mem hw)
    case once =>
      intro name hname
      refine once _ ?_
      rw [keys_members]
      exact List.mem_map_of_mem hname
    case texts =>
      intro key hkey
      by_cases hknown : key ∈ (fields.map memberOf).map (·.1)
      · rw [keys_members] at hknown
        obtain ⟨name, -, rfl⟩ := List.mem_map.mp hknown
        rfl
      · obtain ⟨m, hm, rfl⟩ := List.mem_map.mp hkey
        exact (unknown m hm hknown).1
    case missing => exact fun name w hw => missing _ (List.mem_map_of_mem hw)
  | @positional _ kept rest vs lower split each missing =>
    obtain ⟨kept, rest, rfl, rfl, rfl⟩ := List.map_eq_append_iff.mp (hmembers.trans split)
    refine .inr ⟨kept, rest, vs, rfl, rfl, ?_, fun f hf => missing _ (List.mem_map_of_mem hf)⟩
    simpa [memberOf] using each

end Slots

namespace Decoder

variable {α β : Type} {k : Nat} {d : Decoder α} {w : Value} {a : α}

/-- On fewer than `k` levels, the decoder takes every form of the value for `a`. -/
def Takes (d : Decoder α) (k : Nat) (w : Value) (a : α) : Prop :=
  ∀ levels < k, ∀ v, w.WrittenAs v → v.depth ≤ levels → d levels v = some a

/-- The decoder takes every form of the value for `a`, and the value is not the one for nothing. -/
structure Reads (d : Decoder α) (k : Nat) (w : Value) (a : α) : Prop where
  takes : d.Takes k w a
  present : w ≠ .null

section Scalars

/-- A scalar has no form but itself. -/
theorem Takes.ofScalar (hw : w.isScalar = true) (h : ∀ levels, d levels w = some a) :
    d.Takes k w a := by
  intro levels _ v hwritten _
  rw [hwritten.eq_of_isScalar hw]
  exact h levels

theorem reads_text (s : String) : text.Reads k (.text s) s :=
  ⟨.ofScalar rfl fun _ => rfl, Value.noConfusion⟩

theorem reads_flag (b : Bool) : flag.Reads k (.bool b) b :=
  ⟨.ofScalar rfl fun _ => rfl, Value.noConfusion⟩

theorem reads_int64 (n : Int64) : int64.Reads k (.int n.toInt) n := by
  refine ⟨.ofScalar rfl fun levels => ?_, Value.noConfusion⟩
  have hrange : Int64.minValue.toInt ≤ n.toInt ∧ n.toInt ≤ Int64.maxValue.toInt :=
    ⟨n.minValue_le_toInt, n.toInt_le⟩
  have hread : intWithin Int64.minValue.toInt Int64.maxValue.toInt levels (.int n.toInt) =
      some n.toInt := by
    simp only [intWithin, Value.int, Numeral.toInt?_ofInt, Option.bind_eq_bind, Option.bind_some,
      if_pos hrange]
  exact (congrArg (Option.map Int64.ofInt) hread).trans (congrArg some n.ofInt_toInt)

theorem natBelow_int {bound n : Nat} (h : n < bound) (levels : Nat) :
    natBelow bound levels (.int n) = some n := by
  have hrange : 0 ≤ (n : Int) ∧ n < bound := ⟨Int.natCast_nonneg n, h⟩
  simp only [natBelow, Value.int, Numeral.toInt?_ofInt, Option.bind_eq_bind, Option.bind_some,
    Int.toNat_natCast, if_pos hrange]

theorem reads_uint32 (n : UInt32) : uint32.Reads k (.int n.toNat) n := by
  refine ⟨.ofScalar rfl fun levels => ?_, Value.noConfusion⟩
  have hread := natBelow_int n.toNat_lt_size levels
  exact (congrArg (Option.map UInt32.ofNat) hread).trans (congrArg some UInt32.ofNat_toNat)

theorem reads_uint64 (n : UInt64) : uint64.Reads k (.int n.toNat) n := by
  refine ⟨.ofScalar rfl fun levels => ?_, Value.noConfusion⟩
  have hread := natBelow_int n.toNat_lt_size levels
  exact (congrArg (Option.map UInt64.ofNat) hread).trans (congrArg some UInt64.ofNat_toNat)

end Scalars

section Composites

theorem Takes.map (f : α → β) (h : d.Takes k w a) : (f <$> d).Takes k w (f a) := by
  intro levels hlevels v hwritten hdepth
  exact congrArg (Option.map f) (h levels hlevels v hwritten hdepth)

theorem Reads.lower (h : d.Reads (k + 1) w a) : d.Reads k w a :=
  ⟨fun levels hlevels => h.takes levels (Nat.lt_succ_of_lt hlevels), h.present⟩

theorem optionOf_of_ne_null {v : Value} {levels : Nat} (hv : v ≠ .null) :
    optionOf d levels v = (d levels v).map some := by
  cases v with
  | null => exact absurd rfl hv
  | _ => rfl

theorem takes_optionOf {f : α → Value} {o : Option α} (h : ∀ a ∈ o, d.Reads k (f a) a) :
    (optionOf d).Takes k (.optional f o) o := by
  cases o with
  | none => exact .ofScalar rfl fun _ => rfl
  | some a =>
    have ha := h a rfl
    intro levels hlevels v hwritten hdepth
    have hread := ha.takes levels hlevels v hwritten hdepth
    rw [optionOf_of_ne_null (hwritten.ne_null ha.present), hread]
    rfl

theorem all_run {d : Value → Option α} {f : α → Value} {as : List α} {vs : List Value}
    (each : List.Forall₂ Value.WrittenAs (as.map f) vs)
    (h : ∀ a ∈ as, ∀ v ∈ vs, (f a).WrittenAs v → d v = some a) : all d vs = some as := by
  induction as generalizing vs with
  | nil =>
    obtain rfl := List.forall₂_nil_left_iff.mp each
    rfl
  | cons a as ih =>
    obtain ⟨v, rest, hfirst, hrest, rfl⟩ := List.forall₂_cons_left_iff.mp each
    have ha := h a List.mem_cons_self v List.mem_cons_self hfirst
    have has := ih hrest fun a ha v hv =>
      h a (List.mem_cons_of_mem _ ha) v (List.mem_cons_of_mem _ hv)
    rw [all, ha, has]
    rfl

theorem reads_listOf {f : α → Value} {as : List α} (h : ∀ a ∈ as, d.Takes k (f a) a) :
    (listOf d).Reads k (.array (as.map f)) as := by
  refine ⟨fun levels hlevels v hwritten hdepth => ?_, Value.noConfusion⟩
  obtain ⟨vs, rfl, each⟩ := hwritten.of_array
  obtain ⟨levels, rfl, hinner⟩ := Value.levels_of_array hdepth
  exact all_run each fun a ha v hv hwritten => h a ha levels (by omega) v hwritten (hinner v hv)

theorem reads_texts (ss : List String) : (listOf text).Reads k (.texts ss) ss :=
  reads_listOf fun s _ => (reads_text s).takes

theorem reads_pairOf {d' : Decoder β} {w' : Value} {b : β} (h : d.Takes k w a)
    (h' : d'.Takes k w' b) : (pairOf d d').Reads k (.array [w, w']) (a, b) := by
  refine ⟨fun levels hlevels v hwritten hdepth => ?_, Value.noConfusion⟩
  obtain ⟨vs, rfl, each⟩ := hwritten.of_array
  obtain ⟨v, rest, hfirst, hrest, rfl⟩ := List.forall₂_cons_left_iff.mp each
  obtain ⟨v', rest, hsecond, hnil, rfl⟩ := List.forall₂_cons_left_iff.mp hrest
  obtain rfl := List.forall₂_nil_left_iff.mp hnil
  obtain ⟨levels, rfl, hinner⟩ := Value.levels_of_array hdepth
  have hread := h levels (by omega) v hfirst (hinner v (by simp))
  have hread' := h' levels (by omega) v' hsecond (hinner v' (by simp))
  simp only [pairOf, hread, hread']
  rfl

variable {bare : List (String × α)} {variants : List (String × Decoder α)} {tag : String}

theorem reads_bare (h : bare.lookup tag = some a) : (unionOf bare variants).Reads k (.text tag) a :=
  ⟨.ofScalar rfl fun _ => by rw [Value.text, unionOf, h], Value.noConfusion⟩

/-- A payload is a level deeper than its union, so the union reads one level more. -/
theorem reads_variant (htag : isTag (some tag) = true) (hbare : bare.lookup tag = none)
    (hvariant : variants.lookup tag = some d) (h : d.Takes k w a) :
    (unionOf bare variants).Reads (k + 1) (.tagged tag w) a := by
  refine ⟨fun levels hlevels v hwritten hdepth => ?_, Value.noConfusion⟩
  obtain ⟨v, rfl, hinside⟩ := hwritten.of_tagged htag
  obtain ⟨levels, rfl, hinner⟩ := Value.levels_of_object hdepth
  simp only [Value.tagged, Value.record, List.map_cons, List.map_nil, unionOf, hbare, hvariant]
  exact h levels (by omega) v hinside (hinner (some tag, v) (by simp))

/-- A tag whose payload is one value. -/
theorem reads_newtype {d : Decoder β} {f : β → α} {b : β} (htag : isTag (some tag) = true)
    (hbare : bare.lookup tag = none) (hvariant : variants.lookup tag = some (f <$> d))
    (h : d.Takes k w b) : (unionOf bare variants).Reads (k + 1) (.tagged tag w) (f b) :=
  reads_variant htag hbare hvariant (h.map f)

end Composites

section Records

variable {get : Fields → Option α} {name : String}

/-- Reading a field gives `a` when the field has been given in one of its forms, or left out. -/
def TakesField (get : Fields → Option α) (k : Nat) (name : String) (w : Value) (a : α) : Prop :=
  ∀ r : Fields, r.levels < k → r.Holds name w → get r = some a

/-- Whether a field of that name has a default. -/
def hasDefault (name : String) : Bool := (fieldDefaults.map (·.1)).contains (some name)

theorem not_mem_fieldDefaults (h : hasDefault name = false) : (some name, w) ∉ fieldDefaults := by
  intro hmem
  have hname : hasDefault name = true := List.contains_iff_mem.mpr (List.mem_map_of_mem hmem)
  simp [h] at hname

theorem Reads.not_dispensable (h : d.Reads k w a) (hname : hasDefault name = false) :
    ¬ Dispensable (some name, w) := by
  rintro (hnull | hdefault)
  · exact h.present hnull
  · exact not_mem_fieldDefaults hname hdefault

theorem TakesField.required (hname : hasDefault name = false) (h : d.Reads k w a) :
    TakesField (·.required name d) k name w a := by
  rintro r hlevels ⟨slot, hslot, hheld⟩
  simp only [Fields.required, hslot]
  cases hheld with
  | given written fits => exact h.takes r.levels hlevels _ written fits
  | absent missing => exact absurd missing (h.not_dispensable hname)
  | cut missing => exact absurd missing (not_mem_fieldDefaults hname)

theorem optional_of_given {r : Fields} {v : Value} (h : r.slots.lookup name = some (.given v)) :
    r.optional name d = optionOf d r.levels v := by
  unfold Fields.optional
  rw [h]
  cases v <;> rfl

theorem TakesField.optional {f : α → Value} {o : Option α} (hname : hasDefault name = false)
    (h : ∀ a ∈ o, d.Reads k (f a) a) :
    TakesField (·.optional name d) k name (.optional f o) o := by
  rintro r hlevels ⟨slot, hslot, hheld⟩
  cases hheld with
  | given written fits =>
    exact (optional_of_given hslot).trans (takes_optionOf h r.levels hlevels _ written fits)
  | absent missing =>
    simp only [Fields.optional, hslot]
    cases o with
    | none => rfl
    | some a => exact absurd missing ((h a rfl).not_dispensable hname)
  | cut missing => exact absurd missing (not_mem_fieldDefaults hname)

theorem TakesField.defaulted {default : α} (h : d.Takes k w a)
    (hdefault : Dispensable (some name, w) → a = default) :
    TakesField (·.defaulted name d default) k name w a := by
  rintro r hlevels ⟨slot, hslot, hheld⟩
  simp only [Fields.defaulted, hslot]
  cases hheld with
  | given written fits => exact h r.levels hlevels _ written fits
  | absent missing => rw [hdefault missing]
  | cut missing => rw [hdefault (.inr missing)]

/-- The same of several fields, read one after the other. -/
def TakesFields (build : Fields → Option α) (k : Nat) (fields : List (String × Value)) (a : α) :
    Prop :=
  ∀ r : Fields, r.levels < k → (∀ f ∈ fields, r.Holds f.1 f.2) → build r = some a

theorem TakesFields.done : TakesFields (fun _ => pure a) k [] a := fun _ _ _ => rfl

theorem TakesFields.field {fields : List (String × Value)} {rest : α → Fields → Option β} {b : β}
    (h : TakesField get k name w a) (hrest : TakesFields (rest a) k fields b) :
    TakesFields (fun r => get r >>= fun a => rest a r) k ((name, w) :: fields) b := by
  intro r hlevels hholds
  rw [List.forall_mem_cons] at hholds
  simp only [h r hlevels hholds.1, Option.bind_eq_bind, Option.bind_some]
  exact hrest r hlevels hholds.2

/-- A record is read if its fields are, whatever form it is in. -/
theorem reads_record {names : List String} {fields : List (String × Value)}
    {build : Fields → Option α} (hnames : FieldNames names) (hfields : fields.map (·.1) = names)
    (hbuild : TakesFields build k fields a) :
    (recordOf names build).Reads k (.record fields) a := by
  subst hfields
  refine ⟨fun levels hlevels v hwritten hdepth => ?_, Value.noConfusion⟩
  rcases forms_of_record hnames hwritten with
    ⟨vs, rfl, hnamed⟩ | ⟨kept, rest, vs, rfl, rfl, each, missing⟩
  · obtain ⟨levels, rfl, hinner⟩ := Value.levels_of_object hdepth
    obtain ⟨slots, hslots, hheld⟩ := hnamed.held hinner
    rw [recordOf, hslots]
    exact hbuild ⟨levels, slots⟩ (Nat.lt_of_succ_lt hlevels) hheld
  · obtain ⟨levels, rfl, hinner⟩ := Value.levels_of_array hdepth
    obtain ⟨slots, hslots, hheld⟩ := held_of_positions hnames.1 each missing hinner
    rw [recordOf, hslots]
    exact hbuild ⟨levels, slots⟩ (Nat.lt_of_succ_lt hlevels) hheld

/-- A tag whose payload is a record. -/
theorem reads_struct {bare : List (String × α)} {variants : List (String × Decoder α)}
    {tag : String} {names : List String} {fields : List (String × Value)}
    {build : Fields → Option α}
    (htag : isTag (some tag) = true) (hbare : bare.lookup tag = none)
    (hvariant : variants.lookup tag = some (recordOf names build)) (hnames : FieldNames names)
    (hfields : fields.map (·.1) = names) (hbuild : TakesFields build k fields a) :
    (unionOf bare variants).Reads (k + 1) (.tagged tag (.record fields)) a :=
  reads_variant htag hbare hvariant (reads_record hnames hfields hbuild).takes

end Records

end Decoder

end TreeLowering.Json
