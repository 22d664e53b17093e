import Mathlib.Data.Finset.Basic
import Mathlib.Data.Fintype.Basic
import TreeLowering.Source.Text

/-!
The values that patterns are matched against.

A map is its set of keys and the value under each, so that two maps are equal exactly when they
have the same entries; `Value.same` decides equality. A struct is a map with a `__struct__` entry.

Strings are sequences of Unicode scalar values. The target sees the same text as UTF-16 units:
`textUnits` gives them, `textOfUnits` reads them back and refuses a lone surrogate, and what is
left of a text after as many units as a leading part takes is exactly the rest of the text.
-/
namespace TreeLowering.Matching

open Source

/-- What a map may hold an entry under. -/
inductive Key where
  | atom (name : String)
  | text (text : String)
deriving DecidableEq, Repr

inductive Value where
  | integer (n : Int)
  | string (text : String)
  | boolean (b : Bool)
  | nil
  | atom (name : String)
  | tuple (items : List Value)
  | list (items : List Value)
  | map (keys : Finset Key) (entry : {k // k ∈ keys} → Value)

namespace Value

/-- The constants `true`, `false` and `nil` are atoms of the source, and values of their own. -/
def ofAtom (name : String) : Value :=
  if name = "true" then .boolean true
  else if name = "false" then .boolean false
  else if name = "nil" then .nil
  else .atom name

/-- A value that is compared by what it is, not by its parts. -/
def isScalar : Value → Bool
  | .integer _ | .string _ | .boolean _ | .nil | .atom _ => true
  | _ => false

def isMap : Value → Bool
  | .map .. => true
  | _ => false

/-- The entry of a map under a key. -/
def get? : Value → Key → Option Value
  | .map keys entry, k => if h : k ∈ keys then some (entry ⟨k, h⟩) else none
  | _, _ => none

/-- The key that a value is when it stands before an entry. -/
def key? : Value → Option Key
  | .string text => some (.text text)
  | .atom name => some (.atom name)
  | _ => none

mutual

/-- Structural equality. -/
def same : Value → Value → Bool
  | .integer a, .integer b => a == b
  | .string a, .string b => a == b
  | .boolean a, .boolean b => a == b
  | .nil, .nil => true
  | .atom a, .atom b => a == b
  | .tuple as, .tuple bs => sameEach as bs
  | .list as, .list bs => sameEach as bs
  | .map as f, .map bs g =>
    if h : as = bs then decide (∀ k : {k // k ∈ as}, same (f k) (g ⟨k.1, h ▸ k.2⟩) = true)
    else false
  | _, _ => false

def sameEach : List Value → List Value → Bool
  | [], [] => true
  | a :: as, b :: bs => same a b && sameEach as bs
  | _, _ => false

end

mutual

theorem same_iff : ∀ a b : Value, same a b = true ↔ a = b
  | .integer a, b => by cases b <;> simp [same]
  | .string a, b => by cases b <;> simp [same]
  | .boolean a, b => by cases b <;> simp [same]
  | .nil, b => by cases b <;> simp [same]
  | .atom a, b => by cases b <;> simp [same]
  | .tuple as, b => by
    cases b with
    | tuple bs => simp [same, sameEach_iff as bs]
    | _ => simp [same]
  | .list as, b => by
    cases b with
    | list bs => simp [same, sameEach_iff as bs]
    | _ => simp [same]
  | .map as f, b => by
    cases b with
    | map bs g =>
      by_cases h : as = bs
      · subst h
        simp [same, same_iff, funext_iff]
      · simp [same, h]
    | _ => simp [same]

theorem sameEach_iff : ∀ as bs : List Value, sameEach as bs = true ↔ as = bs
  | [], bs => by cases bs <;> simp [sameEach]
  | a :: as, bs => by
    cases bs with
    | nil => simp [sameEach]
    | cons b bs => simp [sameEach, same_iff a b, sameEach_iff as bs]

end

instance : DecidableEq Value := fun a b => decidable_of_iff _ (same_iff a b)

end Value

/-- The UTF-16 units of a character: one, or a high and a low surrogate. -/
def charUnits (c : Char) : List Nat :=
  if c.val < 0x10000 then [c.toNat]
  else [0xD800 + (c.toNat - 0x10000) / 0x400, 0xDC00 + (c.toNat - 0x10000) % 0x400]

def textUnits (s : String) : List Nat := s.toList.flatMap charUnits

def isHighSurrogate (u : Nat) : Bool := 0xD800 ≤ u && u < 0xDC00

def isLowSurrogate (u : Nat) : Bool := 0xDC00 ≤ u && u < 0xE000

/-- The character of a high and a low surrogate. -/
def pairedChar (high low : Nat) : Char :=
  Char.ofNat (0x10000 + (high - 0xD800) * 0x400 + (low - 0xDC00))

/-- The characters of a sequence of units; nothing when a surrogate stands alone. -/
def charsOfUnits : List Nat → Option (List Char)
  | [] => some []
  | u :: rest =>
    if isHighSurrogate u then
      match rest with
      | [] => none
      | low :: rest =>
        if isLowSurrogate low then (charsOfUnits rest).map (pairedChar u low :: ·) else none
    else if isLowSurrogate u then none
    else (charsOfUnits rest).map (Char.ofNat u :: ·)

/-- What is left of a text after a number of units; nothing when that splits a character. -/
def dropUnits (n : Nat) (s : String) : Option String :=
  (charsOfUnits ((textUnits s).drop n)).map String.ofList

/-- Whether a text begins with another, unit by unit. -/
def beginsWith (s start : String) : Bool := (textUnits start).isPrefixOf (textUnits s)

theorem charsOfUnits_charUnits (c : Char) (rest : List Nat) :
    charsOfUnits (charUnits c ++ rest) = (charsOfUnits rest).map (c :: ·) := by
  have hv : c.toNat < 0xD800 ∨ (0xDFFF < c.toNat ∧ c.toNat < 0x110000) := c.valid
  by_cases h : c.val < 0x10000
  · have hn : c.toNat < 0x10000 := h
    have hs : isHighSurrogate c.toNat = false := by simp [isHighSurrogate]; omega
    have hl : isLowSurrogate c.toNat = false := by simp [isLowSurrogate]; omega
    rw [charUnits, if_pos h, List.singleton_append, charsOfUnits.eq_def]
    simp [hs, hl]
  · have hn : ¬ c.toNat < 0x10000 := h
    have hs : isHighSurrogate (0xD800 + (c.toNat - 0x10000) / 0x400) = true := by
      simp [isHighSurrogate]; omega
    have hl : isLowSurrogate (0xDC00 + (c.toNat - 0x10000) % 0x400) = true := by
      simp [isLowSurrogate]; omega
    have hp : pairedChar (0xD800 + (c.toNat - 0x10000) / 0x400)
        (0xDC00 + (c.toNat - 0x10000) % 0x400) = c := by
      have hc : 0x10000 + (0xD800 + (c.toNat - 0x10000) / 0x400 - 0xD800) * 0x400 +
          (0xDC00 + (c.toNat - 0x10000) % 0x400 - 0xDC00) = c.toNat := by omega
      rw [pairedChar, hc, Char.ofNat_toNat]
    rw [charUnits, if_neg h, List.cons_append, List.singleton_append, charsOfUnits.eq_def]
    simp [hs, hl, hp]

/-- Reading units back undoes writing them, whatever units follow. -/
theorem charsOfUnits_append (s : String) (rest : List Nat) :
    charsOfUnits (textUnits s ++ rest) = (charsOfUnits rest).map (s.toList ++ ·) := by
  unfold textUnits
  induction s.toList with
  | nil => simp
  | cons c cs ih =>
    rw [List.flatMap_cons, List.append_assoc, charsOfUnits_charUnits, ih, Option.map_map]
    rfl

theorem textUnits_append (s t : String) : textUnits (s ++ t) = textUnits s ++ textUnits t := by
  simp [textUnits]

theorem length_textUnits (s : String) : (textUnits s).length = utf16Length s := by
  unfold textUnits utf16Length
  induction s.toList with
  | nil => rfl
  | cons c cs ih =>
    have hc : (charUnits c).length = utf16Width c := by
      unfold charUnits utf16Width
      split <;> rfl
    rw [List.flatMap_cons, List.length_append, ih, hc, List.foldr_cons]

/-- A text begins with another, unit by unit, exactly when it does so character by character. -/
theorem beginsWith_iff (s start : String) :
    beginsWith s start = true ↔ ∃ rest, s = start ++ rest := by
  unfold beginsWith
  rw [List.isPrefixOf_iff_prefix]
  constructor
  · rintro ⟨units, hu⟩
    have hs := charsOfUnits_append s []
    rw [List.append_nil, ← hu, charsOfUnits_append] at hs
    cases hr : charsOfUnits units with
    | none => simp [hr, charsOfUnits] at hs
    | some rest =>
      refine ⟨String.ofList rest, ?_⟩
      rw [← String.toList_inj]
      simpa [hr, charsOfUnits] using hs.symm
  · rintro ⟨rest, rfl⟩
    exact ⟨textUnits rest, (textUnits_append start rest).symm⟩

/-- Dropping the units of a leading part leaves the rest. -/
theorem dropUnits_append (start rest : String) :
    dropUnits (utf16Length start) (start ++ rest) = some rest := by
  have hr := charsOfUnits_append rest []
  rw [List.append_nil] at hr
  rw [dropUnits, textUnits_append, ← length_textUnits, List.drop_left, hr]
  simp [charsOfUnits]

end TreeLowering.Matching
