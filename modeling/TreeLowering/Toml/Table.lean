import TreeLowering.Number

/-!
TOML values, and how the lines of a document make its tables.

A table comes to be in one of three ways: by a header of its own, on the way to a header further
down, or by a dotted key. A header may define a table once, also one that a deeper header has
implied before; a dotted key may only go on in tables that no header has defined, and the table it
ends in must be made by dotted keys.
-/
namespace TreeLowering.Toml

inductive Value where
  | string (text : String)
  | integer (value : Int)
  | float (value : Binary64)
  | boolean (value : Bool)
  /-- A date, a time or both, as it is written. -/
  | datetime (text : String)
  | array (items : List Value)
  | table (entries : List (String × Value))

/-- How a table came to be. -/
inductive Origin where
  | defined
  | implied
  | dotted
deriving DecidableEq, Repr

/-- An entry of a table under construction. -/
inductive Item where
  | value (v : Value)
  | table (origin : Origin) (entries : List (String × Item))
  /-- The tables of a repeated header. -/
  | tables (elements : List (List (String × Item)))

abbrev Entries := List (String × Item)

mutual

def Item.toValue : Item → Value
  | .value v => v
  | .table _ entries => .table (entriesToValues entries)
  | .tables elements => .array (elementsToValues elements)

def entriesToValues : List (String × Item) → List (String × Value)
  | [] => []
  | (key, item) :: rest => (key, item.toValue) :: entriesToValues rest

def elementsToValues : List (List (String × Item)) → List Value
  | [] => []
  | entries :: rest => .table (entriesToValues entries) :: elementsToValues rest

end

namespace Entries

/-- Replaces the entry of a key, or adds one. -/
def alter (key : String) (f : Option Item → Option Item) : Entries → Option Entries
  | [] => do return [(key, ← f none)]
  | (k, item) :: rest =>
    if k = key then do return (k, ← f (some item)) :: rest
    else do return (k, item) :: (← alter key f rest)

/-- Changes the last of a list, if there is one. -/
def alterLast (f : Entries → Option Entries) : List Entries → Option (List Entries)
  | [] => none
  | [last] => do return [← f last]
  | first :: rest => do return first :: (← alterLast f rest)

/-- Changes the table at the end of a path. Tables that are missing on the way are made, of the
origin `made`; a path goes on in the last table of a repeated header. -/
def alterAt (made : Origin) (f : Origin → Entries → Option Entries) :
    Origin → List String → Entries → Option Entries
  | origin, [], entries => f origin entries
  | _, key :: path, entries =>
    alter key
      (fun
        | none => do return .table made (← alterAt made f made path [])
        | some (.value _) => none
        | some (.tables elements) => do
          return .tables (← alterLast (alterAt made f .defined path) elements)
        | some (.table origin inner) =>
          if made = .dotted ∧ origin = .defined then none
          else do return .table origin (← alterAt made f origin path inner))
      entries

/-- Adds a key that is not there. -/
def insertNew (key : String) (v : Value) (entries : Entries) : Option Entries :=
  if entries.any (·.1 == key) then none else some (entries ++ [(key, .value v)])

/-- Adds a value under a dotted key. -/
def insertAt (path : List String) (key : String) (v : Value) (entries : Entries) :
    Option Entries :=
  alterAt .dotted
    (fun origin inner =>
      if !path.isEmpty && origin != .dotted then none else insertNew key v inner)
    .defined path entries

/-- Splits the last key off a dotted key. -/
def splitKey : List String → Option (List String × String)
  | [] => none
  | [key] => some ([], key)
  | key :: rest => do
    let (path, last) ← splitKey rest
    return (key :: path, last)

/-- Adds values under dotted keys, from the first to the last. -/
def insertAll : List (List String × Value) → Entries → Option Entries
  | [], entries => some entries
  | (keys, v) :: rest, entries => do
    let (path, key) ← splitKey keys
    insertAll rest (← insertAt path key v entries)

/-- Adds the table of a header with the values that follow it. -/
def define (path : List String) (values : List (List String × Value)) (entries : Entries) :
    Option Entries := do
  let (path, key) ← splitKey path
  alterAt .implied
    (fun _ => alter key fun
      | none => do return .table .defined (← insertAll values [])
      | some (.table .implied inner) => do return .table .defined (← insertAll values inner)
      | _ => none)
    .defined path entries

/-- Adds one more table of a repeated header with the values that follow it. -/
def append (path : List String) (values : List (List String × Value)) (entries : Entries) :
    Option Entries := do
  let (path, key) ← splitKey path
  alterAt .implied
    (fun _ => alter key fun
      | none => do return .tables [← insertAll values []]
      | some (.tables elements) => do return .tables (elements ++ [← insertAll values []])
      | _ => none)
    .defined path entries

end Entries

/-- A line of a document. -/
inductive Line where
  | blank
  | header (path : List String) (isRepeated : Bool)
  | entry (keys : List String) (v : Value)

/-- The entries of the lines up to the next header, and the lines from there. -/
def takeEntries : List Line → List (List String × Value) × List Line
  | [] => ([], [])
  | .blank :: rest => takeEntries rest
  | .entry keys v :: rest =>
    let (values, more) := takeEntries rest
    ((keys, v) :: values, more)
  | .header path isRepeated :: rest => ([], .header path isRepeated :: rest)

/-- Takes the sections of the lines: a header, and the entries that follow it. -/
def takeSections : List Line → Entries → Option Entries
  | [], entries => some entries
  | .header path isRepeated :: rest, entries => do
    let values := (takeEntries rest).1
    let entries ← if isRepeated then entries.append path values else entries.define path values
    takeSections rest entries
  | _ :: rest, entries => takeSections rest entries

/-- The table of a whole document. -/
def tableOf? (lines : List Line) : Option (List (String × Value)) := do
  let entries ← Entries.insertAll (takeEntries lines).1 []
  return entriesToValues (← takeSections lines entries)

end TreeLowering.Toml
