/-!
Readers of characters. A reader takes a value off the front of a text and gives the rest, or refuses
the text. An alternative is tried on the same text as the reader that refused it.
-/
namespace TreeLowering.Text

/-- Takes a value off the front of a text. -/
def Reader (α : Type) : Type := List Char → Option (α × List Char)

namespace Reader

variable {α β : Type}

protected def pure (a : α) : Reader α := fun s => some (a, s)

protected def bind (p : Reader α) (f : α → Reader β) : Reader β := fun s =>
  match p s with
  | some (a, rest) => f a rest
  | none => none

instance : Monad Reader where
  pure := Reader.pure
  bind := Reader.bind

def fail : Reader α := fun _ => none

/-- The first reader, or the second where the first refuses. -/
protected def orElse (p : Reader α) (q : Unit → Reader α) : Reader α := fun s =>
  match p s with
  | some r => some r
  | none => q () s

instance : OrElse (Reader α) where
  orElse := Reader.orElse

/-- A value that may be missing. -/
def ofOption : Option α → Reader α
  | some a => pure a
  | none => fail

/-- Refuses unless the condition holds. -/
def check (condition : Bool) : Reader Unit := if condition then pure () else fail

/-- One character of a class. -/
def satisfy (p : Char → Bool) : Reader Char
  | c :: rest => if p c then some (c, rest) else none
  | [] => none

def char (c : Char) : Reader Unit := do let _ ← satisfy (· == c)

/-- Exactly these characters. -/
def exactly : List Char → Reader Unit
  | [] => pure ()
  | c :: cs => do
    char c
    exactly cs

/-- The next character, which stays where it is; nothing at the end of the text. -/
def peek : Reader (Option Char) := fun s => some (s.head?, s)

/-- The end of the text. -/
def atEnd : Reader Unit
  | [] => some ((), [])
  | _ :: _ => none

/-- The longest run of characters of a class, which may be empty. -/
def takeWhile (p : Char → Bool) : Reader (List Char) := fun s =>
  some (s.takeWhile p, s.dropWhile p)

/-- The longest run of characters of a class, at least one. -/
def takeWhile1 (p : Char → Bool) : Reader (List Char) := do
  let run ← takeWhile p
  check !run.isEmpty
  return run

def option (p : Reader α) : Reader (Option α) :=
  (do return some (← p)) <|> pure none

/-- Repeats a reader until it refuses, and at most as often as the first text has characters. -/
def repeated (p : Reader α) : List Char → List α → List Char → List α × List Char
  | [], acc, s => (acc.reverse, s)
  | _ :: bound, acc, s =>
    match p s with
    | some (a, rest) => repeated p bound (a :: acc) rest
    | none => (acc.reverse, s)

/-- As many as there are. A reader that takes something off can be repeated at most as often as the
text has characters. -/
def many (p : Reader α) : Reader (List α) := fun s => some (repeated p s [] s)

/-- One or more, divided by separators. -/
def sepBy1 (p : Reader α) (separator : Reader Unit) : Reader (List α) := do
  let first ← p
  let rest ← many do
    separator
    p
  return first :: rest

/-- The value of a whole text. -/
def run (p : Reader α) (s : String) : Option α :=
  match p s.toList with
  | some (a, []) => some a
  | _ => none

end Reader

/-- The value of a hexadecimal digit. -/
def hexDigit? (c : Char) : Option Nat :=
  if '0' ≤ c ∧ c ≤ '9' then some (c.toNat - '0'.toNat)
  else if 'a' ≤ c ∧ c ≤ 'f' then some (c.toNat - 'a'.toNat + 10)
  else if 'A' ≤ c ∧ c ≤ 'F' then some (c.toNat - 'A'.toNat + 10)
  else none

/-- The number that digits of a base write. -/
def numberOf? (base : Nat) (digits : List Char) : Option Nat :=
  digits.foldlM (fun n c => do
    let d ← hexDigit? c
    if d < base then some (n * base + d) else none) 0

/-- The character of a code point, if it is one. -/
def charOf? (n : Nat) : Option Char :=
  if h : n.isValidChar then some (Char.ofNatAux n h) else none

end TreeLowering.Text
