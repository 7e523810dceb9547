import SinglePath.Func.Basic
import SinglePath.Refusal
import SinglePath.ScopeTree.Basic

/-!
The shape of single-path code: every branch goes back to the header of a loop, at most one to each; a block has
no other way out than to the next block of the layout and to loop headers; and only the last block returns.
-/

namespace SinglePath

namespace Func

/-- The last place of a block in the layout. -/
def layoutPosition (func : Func) (block : BlockId) : Option Nat :=
  (func.layout.zipIdx.reverse.find? fun entry => entry.1 = block).map (·.2)

end Func

namespace Shape

def loopHeaders (tree : ScopeTree) : List BlockId := (tree.scopes.filter (!·.isTopLevel)).map (·.header)

def branchErrors (func : Func) (headers : List BlockId) (block : BlockId) (position : Nat) (target : BlockId) :
    List ShapeError :=
  let direction := match func.layoutPosition target with
    | some place => if position < place then [⟨block, .forwardBranch target⟩] else []
    | none => [⟨block, .missingTarget target⟩]
  direction ++ if target ∈ headers then [] else [⟨block, .nonHeaderTarget target⟩]

def repeatedTargets (targets : List BlockId) : List ShapeError :=
  let counts : Table BlockId Nat :=
    targets.foldl (fun counts target => counts.alter target fun count => count.getD 0 + 1) Table.empty
  (counts.entries.filter fun entry => 1 < entry.2).map fun entry => ⟨entry.1, .backBranches entry.2⟩

def edgeErrors (headers : List BlockId) (block : BlockId) (content : Block) (next : Option BlockId) :
    List ShapeError :=
  ((content.succs.filter fun succ => some succ ≠ next && succ ∉ headers).map fun succ =>
      ⟨block, .unexpectedSucc succ⟩) ++
    if content.insts.any Inst.isReturn && next.isSome then [⟨block, .earlyReturn⟩] else []

def edgeErrorsFrom (headers : List BlockId) : List (BlockId × Block) → List ShapeError
  | [] => []
  | (block, content) :: rest =>
    edgeErrors headers block content (rest.head?.map (·.1)) ++ edgeErrorsFrom headers rest

/-- Everything in which a function differs from single-path code. -/
def errors (func : Func) (tree : ScopeTree) : Except Fault (List ShapeError) := do
  let headers := loopHeaders tree
  let blocks ← func.layout.mapM fun block => do return (block, ← func.get block)
  let branches := blocks.zipIdx.flatMap fun entry =>
    entry.1.2.branchTargets.flatMap (branchErrors func headers entry.1.1 entry.2)
  let targets := blocks.flatMap (·.2.branchTargets)
  return branches ++ repeatedTargets targets ++ edgeErrorsFrom headers blocks

def check (func : Func) (tree : ScopeTree) : Outcome Unit := do
  match ← errors func tree with
  | [] => return ()
  | found => refuse (.irregular found)

end Shape

end SinglePath
