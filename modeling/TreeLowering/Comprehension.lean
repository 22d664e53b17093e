import TreeLowering.Clause

/-!
Comprehensions: nested loops over the lists of the generators, from the left, with filters as tests
and the results pushed onto an accumulator. Elements that do not match their generator's pattern
are left out.
-/
namespace TreeLowering

open Source Target

/-- A qualifier to be lowered. -/
inductive QualifierParts where
  | generator (pattern : Node) (collection : LowerM Expr)
  | filter (test : LowerM Expr)

namespace QualifierParts

def isGenerator : QualifierParts → Bool
  | .generator .. => true
  | .filter _ => false

end QualifierParts

namespace LowerM

/-- The loops of the qualifiers around the statement that keeps a result. -/
def loops (accumulator : String) (body : LowerM Expr) : List QualifierParts → LowerM Stmt
  | [] => do return .expr ((Expr.ident accumulator).method "push" [← body])
  | .generator pattern collection :: rest => do
    let collection ← collection
    let iterable := (← library).toList collection
    let item ← invent "gen"
    let plan ← plan [pattern] [.ident item]
    let declared ← declare plan.bindings
    let inner ← loops accumulator body rest
    return .forOf item iterable (behind plan.test (declared ++ [inner]))
  | .filter test :: rest => do
    let test ← test
    let inner ← loops accumulator body rest
    return .when_ test (.block [inner])

/-- `for`: the collection to put the results into is lowered first, outside of the loops' scope. -/
def comprehension (qualifiers : List QualifierParts) (body : LowerM Expr)
    (into : Option (LowerM Expr)) : LowerM Expr :=
  if !(qualifiers.head?.any (·.isGenerator)) then malformed .comprehensionStart
  else do
    let into ← optional into
    inScope do
      let accumulator ← invent "acc"
      let loops ← loops accumulator body qualifiers
      let results := Expr.ident accumulator
      let result ← match into with
        | some into => do pure ((← library).call ["Enum", "into"] [results, into])
        | none => pure results
      return .immediate [.const accumulator (.array []), loops, .return_ result]

end LowerM

end TreeLowering
