/-!
Why a tree cannot be lowered. Each cause is a constructor; `LowerError.message` is the one place
where it is put into words.
-/
namespace TreeLowering

/-- Forms that have no counterpart in the target. -/
inductive Unsupported where
  | operator (op : String)
  | unaryOperator (op : String)
  | textSegment (form : String)
  | stringPatternStart
  | pattern (form : String)
deriving DecidableEq, Repr

namespace Unsupported

def reason : Unsupported → String
  | .operator op => "operator `" ++ op ++ "`"
  | .unaryOperator op => "unary operator `" ++ op ++ "`"
  | .textSegment form => form ++ " segment in an interpolated string"
  | .stringPatternStart => "string pattern with a non-literal prefix"
  | .pattern form => form ++ " in a pattern"

end Unsupported

/-- Forms whose parts do not fit together, or that stand in the wrong place. A `got` is the name of
the form that was found. -/
inductive Malformed where
  | pipeTarget (got : String)
  | pipeLeft
  | structModule (got : String)
  | severalStructs
  | raiseAttributes (got : String)
  | captureModule (got : String)
  | pinOutsidePattern
  | pinOperand (got : String)
  | mapKeyPin (got : String)
  | mapKey (got : String)
  | guardOutsideHead
  | guardInsideHead
  | guardChain
  | noCaseClauses
  | casePatterns (count : Nat)
  | noCondClauses
  | condConditions (count : Nat)
  | noFnClauses
  | fnArities
  | comprehensionStart
  | definitionGuard
  | definitionHead (got : String)
  | mixedVisibility (name : String) (arity : Nat)
  | attributeOutsideModule
  | emptyModuleName (form : String)
  | misplaced (form : String)
deriving DecidableEq, Repr

namespace Malformed

/-- The form that is at fault. -/
def form : Malformed → String
  | .pipeTarget _ | .pipeLeft => "pipe"
  | .structModule _ => "struct"
  | .severalStructs => "defstruct"
  | .raiseAttributes _ => "raise"
  | .captureModule _ => "capture"
  | .pinOutsidePattern | .pinOperand _ => "pin"
  | .mapKeyPin _ | .mapKey _ => "map pattern"
  | .guardOutsideHead | .guardInsideHead | .guardChain => "when"
  | .noCaseClauses | .casePatterns _ => "case"
  | .noCondClauses | .condConditions _ => "cond"
  | .noFnClauses | .fnArities => "fn"
  | .comprehensionStart => "for"
  | .definitionGuard | .definitionHead _ | .mixedVisibility .. => "def"
  | .attributeOutsideModule => "attribute read"
  | .emptyModuleName form | .misplaced form => form

def reason : Malformed → String
  | .pipeTarget got => "right-hand side must be a call, got " ++ got
  | .pipeLeft => "pipes must be rewritten before dispatch"
  | .structModule got => "module must be an alias, got " ++ got
  | .severalStructs => "a module defines at most one struct"
  | .raiseAttributes got => "attributes need an exception module, got " ++ got
  | .captureModule got => "module must be an alias or atom, got " ++ got
  | .pinOutsidePattern => "`^` is only valid inside a pattern"
  | .pinOperand got | .mapKeyPin got => "can only pin a variable, got " ++ got
  | .mapKey got => "keys must be literals or pinned variables, got " ++ got
  | .guardOutsideHead => "guard outside of a clause head"
  | .guardInsideHead => "a guard must wrap the whole clause head"
  | .guardChain => "a chained guard must hold exactly one expression"
  | .noCaseClauses | .noCondClauses | .noFnClauses => "no clauses"
  | .casePatterns count => "clause has " ++ toString count ++ " patterns, expected 1"
  | .condConditions count => "clause has " ++ toString count ++ " conditions, expected 1"
  | .fnArities => "all clauses must take the same number of arguments"
  | .comprehensionStart => "the first qualifier must be a generator"
  | .definitionGuard => "`when` must wrap the function head"
  | .definitionHead got => "expected a function head, got " ++ got
  | .mixedVisibility name arity =>
    name ++ "/" ++ toString arity ++ " is defined with both def and defp"
  | .attributeOutsideModule => "used outside of a module"
  | .emptyModuleName _ => "empty module name"
  | .misplaced _ => "not valid in expression position"

end Malformed

inductive LowerError where
  | unsupported (what : Unsupported)
  | malformed (what : Malformed)
deriving DecidableEq, Repr

namespace LowerError

def message : LowerError → String
  | .unsupported what => "unsupported form: " ++ what.reason
  | .malformed what => "malformed " ++ what.form ++ ": " ++ what.reason

end LowerError

end TreeLowering
