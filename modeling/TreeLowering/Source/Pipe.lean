import TreeLowering.Error
import TreeLowering.Source.Node

/-!
Pipes. `left |> right` is `right` with `left` put before its arguments; `removePipes` writes every
pipe of a tree out that way, inner pipes first, so that `a |> f(b) |> g(c)` becomes
`g(f(a, b), c)`. It fails when the right side of a pipe takes no arguments.
-/
namespace TreeLowering.Source

namespace Node

/-- Puts an argument before those of a call; a bare name becomes a call of that name. -/
def withFirstArgument : Node → Node → Except LowerError Node
  | .call name args info, arg => .ok (.call name (arg :: args) info)
  | .dot target name args info, arg => .ok (.dot target name (some (arg :: args.getD [])) info)
  | .apply callee args, arg => .ok (.apply callee (arg :: args))
  | .var name, arg => .ok (.call name [arg] {})
  | other, _ => .error (.malformed (.pipeTarget other.formName))

mutual

def removePipes : Node → Except LowerError Node
  | .pipe left right => do
    let left ← left.removePipes
    let right ← right.removePipes
    right.withFirstArgument left
  | .list items => do return .list (← removePipesList items)
  | .cons head tail => do return .cons (← removePipesList head) (← tail.removePipes)
  | .tuple items => do return .tuple (← removePipesList items)
  | .binary segments => do return .binary (← removePipesSegments segments)
  | .map entries => do return .map (← removePipesEntries entries)
  | .mapUpdate base updates => do
    return .mapUpdate (← base.removePipes) (← removePipesEntries updates)
  | .struct tag fields update => do
    return .struct (← tag.removePipes) (← removePipesEntries fields) (← removePipesOption update)
  | .bind pattern value => do return .bind (← pattern.removePipes) (← value.removePipes)
  | .pin operand => do return .pin (← operand.removePipes)
  | .guarded exprs guard => do return .guarded (← removePipesList exprs) (← guard.removePipes)
  | .binaryOp op left right => do return .binaryOp op (← left.removePipes) (← right.removePipes)
  | .unaryOp op operand => do return .unaryOp op (← operand.removePipes)
  | .range first last step => do
    return .range (← first.removePipes) (← last.removePipes) (← removePipesOption step)
  | .call name args info => do return .call name (← removePipesList args) info
  | .dot target name args info => do
    return .dot (← target.removePipes) name (← removePipesListOption args) info
  | .apply callee args => do return .apply (← callee.removePipes) (← removePipesList args)
  | .capture owner name arity => do return .capture (← removePipesOption owner) name arity
  | .fn clauses => do return .fn (← removePipesClauses clauses)
  | .caseOf subject clauses => do
    return .caseOf (← subject.removePipes) (← removePipesClauses clauses)
  | .cond clauses => do return .cond (← removePipesClauses clauses)
  | .ifElse condition body otherwise => do
    return .ifElse (← condition.removePipes) (← removePipesList body)
      (← removePipesListOption otherwise)
  | .unlessElse condition body otherwise => do
    return .unlessElse (← condition.removePipes) (← removePipesList body)
      (← removePipesListOption otherwise)
  | .comprehension qualifiers body into => do
    return .comprehension (← removePipesQualifiers qualifiers) (← removePipesList body)
      (← removePipesOption into)
  | .block items => do return .block (← removePipesList items)
  | .define visibility head body => do
    return .define visibility (← head.removePipes) (← removePipesList body)
  | .module name body => do return .module name (← removePipesList body)
  | .attributeSet name value => do return .attributeSet name (← value.removePipes)
  | .defStruct fields => do return .defStruct (← removePipesFields fields)
  | .defException fields => do return .defException (← removePipesFields fields)
  | .raise exception attributes => do
    return .raise (← exception.removePipes) (← removePipesOption attributes)
  | node => .ok node

def removePipesList : List Node → Except LowerError (List Node)
  | [] => .ok []
  | n :: ns => do return (← n.removePipes) :: (← removePipesList ns)

def removePipesOption : Option Node → Except LowerError (Option Node)
  | none => .ok none
  | some n => do return some (← n.removePipes)

def removePipesListOption : Option (List Node) → Except LowerError (Option (List Node))
  | none => .ok none
  | some ns => do return some (← removePipesList ns)

def removePipesSegments : List (Segment Node) → Except LowerError (List (Segment Node))
  | [] => .ok []
  | .plain n :: rest => do return .plain (← n.removePipes) :: (← removePipesSegments rest)
  | .interpolated n :: rest => do
    return .interpolated (← n.removePipes) :: (← removePipesSegments rest)

def removePipesEntries : List (Node × Node) → Except LowerError (List (Node × Node))
  | [] => .ok []
  | (k, v) :: rest => do
    return (← k.removePipes, ← v.removePipes) :: (← removePipesEntries rest)

def removePipesFields : List (String × Node) → Except LowerError (List (String × Node))
  | [] => .ok []
  | (name, v) :: rest => do return (name, ← v.removePipes) :: (← removePipesFields rest)

def removePipesClauses : List (Clause Node) → Except LowerError (List (Clause Node))
  | [] => .ok []
  | ⟨head, body⟩ :: rest => do
    return ⟨← removePipesList head, ← removePipesList body⟩ :: (← removePipesClauses rest)

def removePipesQualifiers : List (Qualifier Node) → Except LowerError (List (Qualifier Node))
  | [] => .ok []
  | .generator pattern collection :: rest => do
    return .generator (← pattern.removePipes) (← collection.removePipes)
      :: (← removePipesQualifiers rest)
  | .filter condition :: rest => do
    return .filter (← condition.removePipes) :: (← removePipesQualifiers rest)

end

end Node

end TreeLowering.Source
