import SinglePath.NumberSet
import SinglePath.Refusal
import SinglePath.Table

/-!
Where the predicates of a scope live: in an allocatable register, in a stack bit, or nowhere because they are
always true. Each block has its own list of the registers it reads, of the bits it loads and of the bits it
spills to.
-/

namespace SinglePath

inductive Location where
  /-- A position in the list of allocatable registers. -/
  | register (index : Nat)
  /-- A bit of the stack, counted over all predicate words. -/
  | stack (bit : Nat)
  | always
deriving DecidableEq, Repr

def Location.text : Location → String
  | .register index => "Register(" ++ toString index ++ ")"
  | .stack bit => "Stack(" ++ toString bit ++ ")"
  | .always => "None"

/-- For each block, a register or a stack bit for some of the predicates. -/
abbrev BlockLocs := Table BlockId (List (PredId × Nat))

namespace BlockLocs

def entriesAt (locs : BlockLocs) (block : BlockId) : List (PredId × Nat) := (locs.get? block).getD []

def lookup (locs : BlockLocs) (block : BlockId) (pred : PredId) : Option Nat :=
  Table.find pred (locs.entriesAt block)

/-- The first entry for a block and a predicate stays. -/
def record (locs : BlockLocs) (block : BlockId) (pred : PredId) (place : Nat) : BlockLocs :=
  locs.alter block fun found =>
    let entries := found.getD []
    if entries.any (·.1 == pred) then entries else entries ++ [(pred, place)]

end BlockLocs

structure ScopeAllocation where
  scope : ScopeId
  defLocs : Table PredId Location
  /-- The register from which a block reads a predicate. -/
  useLocs : BlockLocs
  /-- The stack bit from which a predicate is loaded at the start of a block. For the header of an inner loop the
  load is done before that loop; for the header of this scope, before its branch back. -/
  loadLocs : BlockLocs
  /-- The stack bit to which the use register of a predicate is saved before the predicate is loaded. -/
  spillLocs : BlockLocs
  /-- The position among the definitions of the first definition of each predicate. -/
  firstDefs : Table PredId Nat
  defCounts : Table PredId Nat
  firstStackLoc : Nat
  stackLocs : Nat
  /-- The scope uses registers that enclosing scopes need, so the bank is saved on entry and put back on exit. -/
  savesBank : Bool
  preserve : NumberSet
  usedRegs : NumberSet

namespace ScopeAllocation

def defLoc (alloc : ScopeAllocation) (pred : PredId) : Location := (alloc.defLocs.get? pred).getD .always

def useReg (alloc : ScopeAllocation) (block : BlockId) (pred : PredId) : Option Nat :=
  alloc.useLocs.lookup block pred

def loadLoc (alloc : ScopeAllocation) (block : BlockId) (pred : PredId) : Option Nat :=
  alloc.loadLocs.lookup block pred

def spillLoc (alloc : ScopeAllocation) (block : BlockId) (pred : PredId) : Option Nat :=
  alloc.spillLocs.lookup block pred

def loadsAt (alloc : ScopeAllocation) (block : BlockId) : List (PredId × Nat) := alloc.loadLocs.entriesAt block

def spillsAt (alloc : ScopeAllocation) (block : BlockId) : List (PredId × Nat) := alloc.spillLocs.entriesAt block

/-- A spill makes room for a load at the same block. -/
def checkSpillsAt (alloc : ScopeAllocation) (block : BlockId) : Outcome Unit :=
  match (alloc.spillsAt block).find? fun spill => !(alloc.loadsAt block).any (·.1 == spill.1) with
  | some spill => refuse (.spillWithoutLoad block spill.1)
  | none => .ok ()

def hasSpillOrLoad (alloc : ScopeAllocation) (block : BlockId) : Bool :=
  alloc.loadLocs.contains block || alloc.spillLocs.contains block

/-- The definition at the position is the first one of its predicate. -/
def isFirstDef (alloc : ScopeAllocation) (position : Nat) : Bool := alloc.firstDefs.values.contains position

def hasMultipleDefs (alloc : ScopeAllocation) (pred : PredId) : Bool :=
  (alloc.defCounts.get? pred).any (1 < ·)

def stackEnd (alloc : ScopeAllocation) : Nat := alloc.firstStackLoc + alloc.stackLocs

def dropLoads (alloc : ScopeAllocation) (block : BlockId) : ScopeAllocation :=
  { alloc with loadLocs := alloc.loadLocs.erase block }

end ScopeAllocation

end SinglePath
