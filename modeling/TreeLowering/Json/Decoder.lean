import TreeLowering.Json.Value

/-!
Decoding of JSON values into records and tagged unions.

A union is written as an object of one member, whose name is the tag, or for a tag without payload as
the bare tag. A record is written as an object of its fields in any order, or as the array of its
fields in declared order. Unknown fields are passed over unread, a known field may not be given
twice, and arrays and objects that are read may nest only so deep.
-/
namespace TreeLowering.Json

/-- Decodes a value whose arrays and objects nest at most so many levels deep. -/
def Decoder (α : Type) : Type := Nat → Value → Option α

/-- The levels of nesting that a document may have. -/
def maxLevels : Nat := 127

/-- What a record's field holds. -/
inductive Slot where
  | given (value : Value)
  /-- The object has no such member. -/
  | absent
  /-- The array ends before the field. -/
  | cut

/-- The fields of a record, and the levels that are left for their values. -/
structure Fields where
  levels : Nat
  slots : List (String × Slot)

namespace Fields

variable {α : Type} (fields : Fields)

/-- A field that must be given. -/
def required (name : String) (d : Decoder α) : Option α :=
  match fields.slots.lookup name with
  | some (.given v) => d fields.levels v
  | _ => none

/-- A field that is nothing when it is `null`, or when an object leaves it out. -/
def optional (name : String) (d : Decoder α) : Option (Option α) :=
  match fields.slots.lookup name with
  | some (.given .null) => some none
  | some (.given v) => (d fields.levels v).map some
  | some .absent => some none
  | _ => none

/-- A field that has a default when it is left out. -/
def defaulted (name : String) (d : Decoder α) (default : α) : Option α :=
  match fields.slots.lookup name with
  | some (.given v) => d fields.levels v
  | some _ => some default
  | none => none

end Fields

namespace Decoder

variable {α β : Type}

def map (f : α → β) (d : Decoder α) : Decoder β := fun levels v => (d levels v).map f

instance : Functor Decoder where
  map := map

def text : Decoder String
  | _, .string s => s
  | _, _ => none

def flag : Decoder Bool
  | _, .bool b => some b
  | _, _ => none

/-- An integer of a range. -/
def intWithin (low high : Int) : Decoder Int
  | _, .number n => do
    let i ← n.toInt?
    if low ≤ i ∧ i ≤ high then some i else none
  | _, _ => none

/-- A natural number below a bound. -/
def natBelow (bound : Nat) : Decoder Nat
  | _, .number n => do
    let i ← n.toInt?
    if 0 ≤ i ∧ i.toNat < bound then some i.toNat else none
  | _, _ => none

def int64 : Decoder Int64 :=
  Int64.ofInt <$> intWithin Int64.minValue.toInt Int64.maxValue.toInt

def uint32 : Decoder UInt32 := UInt32.ofNat <$> natBelow UInt32.size

def uint64 : Decoder UInt64 := UInt64.ofNat <$> natBelow UInt64.size

/-- Any number, as the double it is read as. -/
def binary64 : Decoder Binary64
  | _, .number n => n.toBinary64?
  | _, _ => none

/-- `null`, or a value. -/
def optionOf (d : Decoder α) : Decoder (Option α)
  | _, .null => some none
  | levels, v => (d levels v).map some

def all (d : Value → Option α) : List Value → Option (List α)
  | [] => some []
  | v :: vs => do return (← d v) :: (← all d vs)

def listOf (d : Decoder α) : Decoder (List α)
  | levels + 1, .array items => all (d levels) items
  | _, _ => none

/-- An array of two. -/
def pairOf (a : Decoder α) (b : Decoder β) : Decoder (α × β)
  | levels + 1, .array [x, y] => do return (← a levels x, ← b levels y)
  | _, _ => none

/-- A tagged union: tags that stand alone, and tags with a payload. -/
def unionOf (bare : List (String × α)) (variants : List (String × Decoder α)) : Decoder α
  | _, .string (some tag) => bare.lookup tag
  | levels + 1, .object [(some tag, payload)] =>
    match bare.lookup tag, payload with
    | some a, .null => some a
    | some _, _ => none
    | none, payload => do (← variants.lookup tag) levels payload
  | _, _ => none

/-- The slots of fields given by name: every key is a text, and no known one is repeated. -/
def slotsOfMembers (names : List String) (members : List (Option String × Value)) :
    Option (List (String × Slot)) :=
  let keys := members.map (·.1)
  if keys.all (·.isSome) && names.all (fun name => keys.count (some name) ≤ 1) then
    some <| names.map fun name =>
      (name, ((members.lookup (some name)).map Slot.given).getD .absent)
  else none

/-- The slots of fields given by position. -/
def slotsOfItems : List String → List Value → Option (List (String × Slot))
  | [], [] => some []
  | [], _ :: _ => none
  | name :: names, [] => some ((name, .cut) :: names.map fun name => (name, .cut))
  | name :: names, v :: vs => do return (name, .given v) :: (← slotsOfItems names vs)

/-- A record of named fields, in their declared order. -/
def recordOf (names : List String) (build : Fields → Option α) : Decoder α
  | levels + 1, .object members => do build ⟨levels, ← slotsOfMembers names members⟩
  | levels + 1, .array items => do build ⟨levels, ← slotsOfItems names items⟩
  | _, _ => none

/-- The value of a document. -/
def decode? (d : Decoder α) (v : Value) : Option α := d maxLevels v

end Decoder

end TreeLowering.Json
