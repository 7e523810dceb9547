import SinglePath.Allocation.Location
import SinglePath.Func.Basic
import SinglePath.ScopeTree.Basic

/-!
The frame cells that the reduction needs: one that keeps return information over calls, words for the stack
bits, and a saved bank and a counter for each depth of loops. They follow the cells that the function uses.
-/

namespace SinglePath

structure FrameLayout where
  /-- Return information is kept here over a call. -/
  callCell : Option CellId
  /-- The words that hold the stack bits. -/
  predWords : List CellId
  /-- The saved bank of each loop depth, outermost first. -/
  bankCells : List CellId
  /-- The iteration counter of each loop depth, outermost first. -/
  counters : List CellId
deriving DecidableEq, Repr

namespace FrameLayout

/-- A predicate word has this many bits. -/
def wordBits : Nat := 32

/-- Consecutive cells from a first one on. -/
def cellRange (first count : Nat) : List CellId := (List.range count).map fun offset => ⟨first + offset⟩

def largest (numbers : List Nat) : Nat := numbers.foldl max 0

def stackBits (allocs : List ScopeAllocation) : Nat := largest (allocs.map ScopeAllocation.stackEnd)

def bankDepth (tree : ScopeTree) (allocs : List ScopeAllocation) : Except Fault Nat := do
  let depths ← (allocs.filter (·.savesBank)).mapM fun alloc => do return (← tree.get alloc.scope).depth
  return largest depths

def counterDepth (tree : ScopeTree) : Nat :=
  largest ((tree.scopes.filter (·.usableBound.isSome)).map (·.depth))

/-- The layout for an allocation, and the function with its cells in use. -/
def create (func : Func) (tree : ScopeTree) (allocs : List ScopeAllocation) : Except Fault (FrameLayout × Func) := do
  let callCells := if func.hasCalls then 1 else 0
  let words := (stackBits allocs + wordBits - 1) / wordBits
  let banks ← bankDepth tree allocs
  let counters := counterDepth tree
  let first := func.cells
  let cells ← inWord (first + callCells + words + banks + counters)
  return (⟨(cellRange first callCells).head?, cellRange (first + callCells) words,
      cellRange (first + callCells + words) banks, cellRange (first + callCells + words + banks) counters⟩,
    { func with cells := cells })

/-- The word and the bit of a stack location. -/
def stackBit (layout : FrameLayout) (location : Nat) : Except Fault (CellId × Nat) := do
  return (← present layout.predWords[location / wordBits]?, location % wordBits)

/-- The cell of a depth; the function itself has depth zero and no cell. -/
def atDepth (cells : List CellId) : Nat → Except Fault CellId
  | 0 => .error .dangling
  | depth + 1 => present cells[depth]?

def bankCell (layout : FrameLayout) (depth : Nat) : Except Fault CellId := atDepth layout.bankCells depth

def counter (layout : FrameLayout) (depth : Nat) : Except Fault CellId := atDepth layout.counters depth

/-- All cells of the layout, in the order of their numbers. -/
def cells (layout : FrameLayout) : List CellId :=
  layout.callCell.toList ++ layout.predWords ++ layout.bankCells ++ layout.counters

end FrameLayout

def wordBit (bit : Nat) : Except Fault UInt32 :=
  if bit < 32 then .ok (1 <<< UInt32.ofNat bit) else .error .overflow

end SinglePath
