import TreeLowering.Source.Node

/-!
Text in source trees: its length in UTF-16 units, by which the target slices strings, and binaries
that are nothing but text.
-/
namespace TreeLowering.Source

/-- How many UTF-16 units a character takes. -/
def utf16Width (c : Char) : Nat := if c.val < 0x10000 then 1 else 2

/-- The length of a text in UTF-16 units. -/
def utf16Length (s : String) : Nat := s.toList.foldr (fun c n => utf16Width c + n) 0

/-- The text of a binary all of whose segments are plain strings. -/
def segmentsText? : List (Segment Node) → Option String
  | [] => some ""
  | .plain (.string s) :: rest => (segmentsText? rest).map (s ++ ·)
  | _ => none

def Segment.isInterpolated {α : Type} : Segment α → Bool
  | .plain _ => false
  | .interpolated _ => true

end TreeLowering.Source
