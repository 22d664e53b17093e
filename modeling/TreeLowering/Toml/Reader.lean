import TreeLowering.Text.Reader
import TreeLowering.Toml.Table

/-!
TOML 1.0 text: lines of headers and entries, with their keys and values. Arrays and inline tables may
nest, and keys may be dotted, fewer than eighty times.
-/
namespace TreeLowering.Toml

open Text Text.Reader

def nestingLimit : Nat := 80

def isBlank (c : Char) : Bool := c == ' ' || c == '\t'

/-- Characters that text may hold as they are: no control character but the tab. -/
def isPrintable (c : Char) : Bool := c == '\t' || (0x20 ≤ c.val && c.val != 0x7F)

def blanks : Reader Unit := do let _ ← takeWhile isBlank

def newline : Reader Unit := char '\n' <|> exactly ['\r', '\n']

def comment : Reader Unit := do
  char '#'
  let _ ← takeWhile isPrintable

def lineEnd : Reader Unit := newline <|> atEnd

/-- What may follow the last token of a line. -/
def lineTail : Reader Unit := do
  blanks
  let _ ← option comment
  lineEnd

/-- Blanks, line ends and comments, as they may stand inside an array. -/
def filler : Reader Unit := do
  let _ ← many ((do let _ ← takeWhile1 isBlank) <|> newline <|> comment)

/-- An escape by the number of a code point. -/
def codePoint (digits : Nat) : Reader Char := fun s => do
  let n ← numberOf? 16 (s.take digits)
  if (s.take digits).length = digits then return (← charOf? n, s.drop digits) else none

def escape : Reader Char := do
  char '\\'
  match ← satisfy fun _ => true with
  | 'b' => return '\x08'
  | 't' => return '\t'
  | 'n' => return '\n'
  | 'f' => return '\x0c'
  | 'r' => return '\r'
  | '"' => return '"'
  | '\\' => return '\\'
  | 'u' => codePoint 4
  | 'U' => codePoint 8
  | _ => fail

def isBasic (c : Char) : Bool := isPrintable c && c != '"' && c != '\\'

def isLiteral (c : Char) : Bool := isPrintable c && c != '\''

def basicString : Reader (List Char) := do
  char '"'
  let pieces ← many (takeWhile1 isBasic <|> do return [← escape])
  char '"'
  return pieces.flatten

def literalString : Reader (List Char) := do
  char '\''
  let text ← takeWhile isLiteral
  char '\''
  return text

/-- A line end inside a string; it is always read as one line feed. -/
def lineBreak : Reader (List Char) := do
  newline
  return ['\n']

/-- A backslash at the end of a line takes the blanks up to the next text away. -/
def joinedLine : Reader (List Char) := do
  char '\\'
  blanks
  newline
  let _ ← many (newline <|> do let _ ← takeWhile1 isBlank)
  return []

/-- A text between triple quotes. It may hold up to two quotes in a row, also right before the
closing ones, and a line end right after the opening ones does not count. -/
def longString (quote : Char) (piece : Reader (List Char)) : Reader (List Char) := do
  exactly [quote, quote, quote]
  let _ ← option newline
  let quotes : Reader (List Char) := takeWhile1 (· == quote)
  let pieces ← many <| piece <|> do
    let run ← quotes
    check (run.length < 3)
    return run
  let closing ← quotes
  check (3 ≤ closing.length && closing.length < 6)
  return pieces.flatten ++ closing.drop 3

def longBasicString : Reader (List Char) :=
  longString '"' (takeWhile1 isBasic <|> joinedLine <|> (do return [← escape]) <|> lineBreak)

def longLiteralString : Reader (List Char) :=
  longString '\'' (takeWhile1 isLiteral <|> lineBreak)

def string : Reader String := do
  return String.ofList
    (← longBasicString <|> basicString <|> longLiteralString <|> literalString)

def isBareKey (c : Char) : Bool := c.isAlphanum || c == '_' || c == '-'

def simpleKey : Reader String := do
  return String.ofList (← basicString <|> literalString <|> takeWhile1 isBareKey)

def key : Reader (List String) := do
  let part : Reader String := do
    blanks
    let k ← simpleKey
    blanks
    return k
  let keys ← sepBy1 part (char '.')
  check (keys.length < nestingLimit)
  return keys

/-- Digits, in which single underscores may stand between two of them. -/
def digitRun (isDigit : Char → Bool) : Reader (List Char) := do
  let first ← satisfy isDigit
  let rest ← many (satisfy isDigit <|> do
    char '_'
    satisfy isDigit)
  return first :: rest

/-- The minus sign, if it is there; a plus sign may stand in its place. -/
def sign : Reader Bool := do
  let s ← option (satisfy fun c => c == '+' || c == '-')
  return s == some '-'

/-- Decimal digits: a single zero, or a run that does not start with one. -/
def decimalDigits : Reader (List Char) := do
  let first ← peek
  if first == some '0' then
    char '0'
    return ['0']
  else digitRun Char.isDigit

def isHexDigit (c : Char) : Bool := (hexDigit? c).isSome

def isOctalDigit (c : Char) : Bool := '0' ≤ c && c ≤ '7'

def isBinaryDigit (c : Char) : Bool := c == '0' || c == '1'

/-- The integers are those of 64 bits. -/
def integerOf (negative : Bool) (base : Nat) (digits : List Char) : Reader Value := do
  let n ← ofOption (numberOf? base digits)
  let i : Int := if negative then -(n : Int) else n
  check (Int64.minValue.toInt ≤ i && i ≤ Int64.maxValue.toInt)
  return .integer i

def basedInteger (mark : Char) (base : Nat) (isDigit : Char → Bool) : Reader Value := do
  exactly ['0', mark]
  integerOf false base (← digitRun isDigit)

def integer : Reader Value :=
  basedInteger 'x' 16 isHexDigit <|> basedInteger 'o' 8 isOctalDigit <|>
    basedInteger 'b' 2 isBinaryDigit <|> do
      let negative ← sign
      integerOf negative 10 (← decimalDigits)

def fraction : Reader (List Char) := do
  char '.'
  digitRun Char.isDigit

def exponent : Reader Int := do
  let _ ← satisfy fun c => c == 'e' || c == 'E'
  let negative ← sign
  let n ← ofOption (numberOf? 10 (← digitRun Char.isDigit))
  return if negative then -(n : Int) else n

def infinity : Binary64 := ⟨Binary64.infinityMagnitude.toUInt64⟩

def notANumber : Binary64 := ⟨0x7FF8000000000000⟩

/-- The double nearest to a decimal. Past four hundred places it is zero or too large. -/
def nearest? (digits : List Char) (exponent : Int) : Option Binary64 := do
  let n ← numberOf? 10 digits
  let places : Int := digits.length + exponent
  if n = 0 ∨ places < -400 then some .zero
  else if 400 + digits.length < places then none
  else Binary64.ofRatio? (n * Nat.pow 10 exponent.toNat) (Nat.pow 10 (-exponent).toNat)

/-- A decimal fraction. One that is too large is refused, unless it is negative. -/
def decimal : Reader Value := do
  let negative ← sign
  let whole ← decimalDigits
  let places ← option fraction
  let power ← option exponent
  check (places.isSome || power.isSome)
  let places := places.getD []
  match nearest? (whole ++ places) (power.getD 0 - places.length) with
  | some x => return .float (if negative then x.neg else x)
  | none =>
    check negative
    return .float infinity.neg

def special : Reader Value := do
  let negative ← sign
  let x ← (do
    exactly ['i', 'n', 'f']
    return infinity) <|> (do
    exactly ['n', 'a', 'n']
    return notANumber)
  return .float (if negative then x.neg else x)

/-- A number of that many digits in a range. -/
def numberIn (digits low high : Nat) : Reader Nat := fun s => do
  let ds := s.take digits
  let n ← numberOf? 10 ds
  if ds.length = digits ∧ low ≤ n ∧ n ≤ high then return (n, s.drop digits) else none

def daysInMonth (year month : Nat) : Nat :=
  if month = 2 then
    if year % 4 = 0 ∧ (year % 100 ≠ 0 ∨ year % 400 = 0) then 29 else 28
  else if month = 4 ∨ month = 6 ∨ month = 9 ∨ month = 11 then 30
  else 31

def date : Reader Unit := do
  let year ← numberIn 4 0 9999
  char '-'
  let month ← numberIn 2 1 12
  char '-'
  let _ ← numberIn 2 1 (daysInMonth year month)

def time : Reader Unit := do
  let _ ← numberIn 2 0 23
  char ':'
  let _ ← numberIn 2 0 59
  char ':'
  let _ ← numberIn 2 0 60
  let _ ← option do
    char '.'
    takeWhile1 Char.isDigit

def offset : Reader Unit :=
  (do let _ ← satisfy fun c => c == 'Z' || c == 'z') <|> do
    let _ ← satisfy fun c => c == '+' || c == '-'
    let _ ← numberIn 2 0 23
    char ':'
    let _ ← numberIn 2 0 59

/-- A date, a date with a time, or a time. -/
def datetime : Reader Value := fun s => do
  let body : Reader Unit :=
    (do
      date
      let _ ← option do
        let _ ← satisfy fun c => c == 'T' || c == 't' || c == ' '
        time
        option offset) <|> time
  let (_, rest) ← body s
  return (.datetime (String.ofList (s.take (s.length - rest.length))), rest)

def boolean : Reader Value :=
  (do
    exactly ['t', 'r', 'u', 'e']
    return .boolean true) <|> do
    exactly ['f', 'a', 'l', 's', 'e']
    return .boolean false

/-- The items of an array, whose last one may be followed by a comma. -/
def arrayOf (item : Reader Value) : Reader Value := do
  char '['
  let padded : Reader Value := do
    filler
    let v ← item
    filler
    return v
  let items ← option (sepBy1 padded (char ','))
  if items.isSome then let _ ← option (char ',')
  filler
  char ']'
  return .array (items.getD [])

/-- The entries of an inline table, which stand on one line. -/
def inlineTableOf (item : Reader Value) : Reader Value := do
  char '\x7b'
  let entry : Reader (List String × Value) := do
    let keys ← key
    char '='
    blanks
    let v ← item
    blanks
    return (keys, v)
  let entries ← option (sepBy1 entry (char ','))
  blanks
  char '\x7d'
  return .table (entriesToValues (← ofOption (Entries.insertAll (entries.getD []) [])))

def scalar : Reader Value :=
  (do return .string (← string)) <|> datetime <|> decimal <|> special <|> integer <|> boolean

/-- A value in which arrays and inline tables nest at most so many times. -/
def valueWithin : Nat → Reader Value
  | 0 => scalar
  | levels + 1 => scalar <|> arrayOf (valueWithin levels) <|> inlineTableOf (valueWithin levels)

def value : Reader Value := valueWithin (nestingLimit - 1)

def header : Reader Line :=
  (do
    exactly ['[', '[']
    let path ← key
    exactly [']', ']']
    lineTail
    return .header path true) <|> do
    char '['
    let path ← key
    char ']'
    lineTail
    return .header path false

def entry : Reader Line := do
  let keys ← key
  char '='
  blanks
  let v ← value
  lineTail
  return .entry keys v

def line : Reader Line :=
  (do
    comment
    lineEnd
    return .blank) <|> (do
    newline
    return .blank) <|> header <|> entry

/-- The lines of a document, which may start with a byte order mark. -/
def document : Reader (List Line) := do
  let _ ← option (char '\ufeff')
  blanks
  let lines ← many do
    let l ← line
    blanks
    return l
  return lines

/-- The table of a document. -/
def ofText? (s : String) : Option (List (String × Value)) := do
  tableOf? (← document.run s)

end TreeLowering.Toml
