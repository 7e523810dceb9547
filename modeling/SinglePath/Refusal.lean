import SinglePath.Fault
import SinglePath.Index

/-!
Why a reduction is refused. Each cause is a value; its wording is given by one function.
-/

namespace SinglePath

inductive TreeDefect where
  | noRoot
  | rootHasParent
  | rootHeaderNotEntry
  | reachableTwice (scope : ScopeId)
  | headerNotFirst (scope : ScopeId)
  | unknownBlock (scope : ScopeId) (block : BlockId)
  | memberTwice (block : BlockId)
  | noPredicate (block : BlockId)
  | parentLink (scope : ScopeId)
  | notInTree (index : Nat)
  | noScope (block : BlockId)
  | unguardedDef (pred : PredId) (source : BlockId)
  | unguardedExit (pred : PredId)
  | outsideEdge (pred : PredId) (source : BlockId) (scope : ScopeId)
  | entryPredDefined
  | noHeaderPred (scope : ScopeId)
  | sourceNotNode (source : BlockId) (scope : ScopeId)
  | noParentContext (scope : ScopeId)
  | neverAllocated (index : Nat)
  | noCallCell
  | alwaysTrueDefined (pred : PredId)
deriving DecidableEq, Repr

def TreeDefect.message : TreeDefect → String
  | .noRoot => "no root scope"
  | .rootHasParent => "root scope has a parent"
  | .rootHeaderNotEntry => "root header is not the entry block"
  | .reachableTwice scope => scope.text ++ " is reachable twice"
  | .headerNotFirst scope => scope.text ++ " does not start with its header"
  | .unknownBlock scope block => scope.text ++ " names unknown block " ++ block.text
  | .memberTwice block => block.text ++ " is a member of two scopes"
  | .noPredicate block => block.text ++ " has no predicate"
  | .parentLink scope => scope.text ++ " has an inconsistent parent link"
  | .notInTree index => "scope " ++ toString index ++ " is not part of the tree"
  | .noScope block => block.text ++ " is not in any scope"
  | .unguardedDef pred source =>
    "definition of " ++ pred.text ++ " in " ++ source.text ++ " is not guarded by the block"
  | .unguardedExit pred => "exit definition of " ++ pred.text ++ " is not guarded by the loop header"
  | .outsideEdge pred source scope =>
    "definition of " ++ pred.text ++ " on an edge from " ++ source.text ++ " outside " ++ scope.text
  | .entryPredDefined => "definition of the function's entry predicate"
  | .noHeaderPred scope => scope.text ++ " has no header predicate"
  | .sourceNotNode source scope => "definition source " ++ source.text ++ " is not a node of " ++ scope.text
  | .noParentContext scope => scope.text ++ " has no parent context"
  | .neverAllocated index => "scope " ++ toString index ++ " was never allocated"
  | .noCallCell => "call without a save cell"
  | .alwaysTrueDefined pred => "definition of always-true " ++ pred.text

/-- What keeps a block from having the shape of single-path code. -/
inductive Irregularity where
  | forwardBranch (target : BlockId)
  | missingTarget (target : BlockId)
  | nonHeaderTarget (target : BlockId)
  | backBranches (count : Nat)
  | unexpectedSucc (succ : BlockId)
  | earlyReturn
deriving DecidableEq, Repr

def Irregularity.message : Irregularity → String
  | .forwardBranch target => "forward branch to " ++ target.text
  | .missingTarget target => "branch to missing block " ++ target.text
  | .nonHeaderTarget target => "branch to non-header " ++ target.text
  | .backBranches count => toString count ++ " back branches to one header"
  | .unexpectedSucc succ => "unexpected successor " ++ succ.text
  | .earlyReturn => "return before the last block"

/-- An irregularity together with the block that shows it. -/
structure ShapeError where
  block : BlockId
  irregularity : Irregularity
deriving DecidableEq, Repr

def ShapeError.text (error : ShapeError) : String :=
  "CheckerError \x7b block: " ++ error.block.text ++ ", msg: \"" ++ error.irregularity.message ++ "\" \x7d"

inductive Refusal where
  | invalidTree (defect : TreeDefect)
  | useWithoutDef (pred : PredId)
  | nestedExitEdge (pred : PredId) (source : BlockId)
  | noTemporary
  | registerPressure (scope : ScopeId)
  | spillWithoutLoad (block : BlockId) (pred : PredId)
  | missingUse (block : BlockId) (pred : PredId)
  | predicatedCall (block : BlockId)
  | irregular (errors : List ShapeError)
deriving DecidableEq, Repr

def Refusal.message : Refusal → String
  | .invalidTree defect => "invalid scope tree: " ++ defect.message
  | .useWithoutDef pred => "predicate " ++ pred.text ++ " is used but never defined"
  | .nestedExitEdge pred source =>
    "definition of " ++ pred.text ++ " on an exit edge from " ++ source.text ++ ", more than one loop deep"
  | .noTemporary => "no free predicate register for the temporary"
  | .registerPressure scope => "scope " ++ scope.text ++ " needs a predicate register, none left"
  | .spillWithoutLoad block pred => "spill of " ++ pred.text ++ " in " ++ block.text ++ " without matching load"
  | .missingUse block pred => "no use location for " ++ pred.text ++ " in " ++ block.text
  | .predicatedCall block => "call in " ++ block.text ++ " is already predicated"
  | .irregular errors =>
    "checker: CheckerErrors \x7b errors: " ++ bracketed (errors.map ShapeError.text) ++ " \x7d"

abbrev Outcome (α : Type) := Except (Failure Refusal) α

/-- Go on only if the scope tree is right in one respect. -/
def demandTree (condition : Bool) (defect : TreeDefect) : Outcome Unit := demand condition (.invalidTree defect)

def refuseTree {α : Type} (defect : TreeDefect) : Outcome α := refuse (.invalidTree defect)

end SinglePath
