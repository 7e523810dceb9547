import SinglePath.Func.Basic

/-!
Depth-first traversals of a function from its entry, following successors in order. Each loop takes one step
for every block it visits and every edge it follows, so the number of blocks and edges bounds its length.
-/

namespace SinglePath

namespace Func

def edgeCount (func : Func) : Nat := (func.blocks.flatMap (·.succs)).length

/-- The top of the stack is visited unless it was visited before, and its successors go on top. -/
def preorderFrom (func : Func) : Nat → List BlockId → List BlockId → Except Fault (List BlockId)
  | _, [], visited => .ok visited.reverse
  | 0, _ :: _, _ => .error .endless
  | steps + 1, block :: stack, visited =>
    if block ∈ visited then
      func.preorderFrom steps stack visited
    else do
      let content ← func.get block
      let visited := block :: visited
      func.preorderFrom steps (content.succs.filter (· ∉ visited) ++ stack) visited

/-- Blocks in the order of their first visit. -/
def preorder (func : Func) : Except Fault (List BlockId) :=
  func.preorderFrom (func.edgeCount + 1) [func.entry] []

/-- Each open block keeps the successors that are still to be looked at. A block is done when none is left. -/
def reversePostorderFrom (func : Func) :
    Nat → List (BlockId × List BlockId) → List BlockId → List BlockId → Except Fault (List BlockId)
  | _, [], _, done => .ok done
  | 0, _ :: _, _, _ => .error .endless
  | steps + 1, (block, []) :: stack, visited, done =>
    func.reversePostorderFrom steps stack visited (block :: done)
  | steps + 1, (block, succ :: rest) :: stack, visited, done =>
    if succ ∈ visited then
      func.reversePostorderFrom steps ((block, rest) :: stack) visited done
    else do
      let content ← func.get succ
      func.reversePostorderFrom steps ((succ, content.succs) :: (block, rest) :: stack) (succ :: visited) done

/-- Blocks from the last one finished to the first. -/
def reversePostorder (func : Func) : Except Fault (List BlockId) := do
  let content ← func.get func.entry
  func.reversePostorderFrom (func.edgeCount + func.blocks.length)
    [(func.entry, content.succs)] [func.entry] []

end Func

end SinglePath
