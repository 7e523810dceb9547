import SinglePath.Allocation.Assignment

namespace SinglePath

namespace Replay

/-- What registers and stack bits hold, and the current value of each predicate. -/
structure State (ν : Type) where
  regs : Nat → ν
  bits : Nat → ν
  current : PredId → ν

/-- What a scope does with its registers and stack bits. -/
inductive Action where
  /-- The bit takes the value of the register. -/
  | spill (bit r : Nat)
  /-- The register takes the value of the bit. -/
  | load (r bit : Nat)
  | readReg (r : Nat) (pred : PredId)
  | readBit (bit : Nat) (pred : PredId)
  /-- An inner loop keeps the registers of the set and the bits below the bound. -/
  | inner (preserve : NumberSet) (stackEnd : Nat)
  /-- The predicate takes a new value, whatever it was. -/
  | define (location : Location) (pred : PredId)
  /-- The predicate takes a value that may depend on the old one. -/
  | merge (location : Location) (pred : PredId)
  /-- The block reads the predicate and has no register for it. -/
  | unplaced (b : BlockId) (pred : PredId)

namespace State

variable {ν : Type}

def setReg (s : State ν) (r : Nat) (v : ν) : State ν :=
  { s with regs := fun o => if o = r then v else s.regs o }

def setBit (s : State ν) (bit : Nat) (v : ν) : State ν :=
  { s with bits := fun o => if o = bit then v else s.bits o }

/-- The predicate has a new value, and its place holds it. -/
def write (s : State ν) (location : Location) (pred : PredId) (v : ν) : State ν :=
  let placed := match location with
    | .register r => s.setReg r v
    | .stack bit => s.setBit bit v
    | .always => s
  { placed with current := fun o => if o = pred then v else s.current o }

/-- The place holds the current value of the predicate. -/
def Holds (s : State ν) (location : Location) (pred : PredId) : Prop :=
  match location with
  | .register r => s.regs r = s.current pred
  | .stack bit => s.bits bit = s.current pred
  | .always => False

end State

namespace Action

variable {ν : Type}

/-- The states to which an action can lead. -/
def Moves (s next : State ν) : Action → Prop
  | .spill bit r => next = s.setBit bit (s.regs r)
  | .load r bit => next = s.setReg r (s.bits bit)
  | .readReg _ _ => next = s
  | .readBit _ _ => next = s
  | .inner preserve stackEnd => (∀ r ∈ preserve.members, next.regs r = s.regs r) ∧
      (∀ bit < stackEnd, next.bits bit = s.bits bit) ∧ next.current = s.current
  | .define location pred => ∃ v, next = s.write location pred v
  | .merge location pred => ∃ v, next = s.write location pred v
  | .unplaced _ _ => next = s

/-- What an action expects of the state: that it reads current values only. -/
def Met (s : State ν) : Action → Prop
  | .spill _ _ => True
  | .load _ _ => True
  | .readReg r pred => s.Holds (.register r) pred
  | .readBit bit pred => s.Holds (.stack bit) pred
  | .inner _ _ => True
  | .define location _ => location ≠ .always
  | .merge location pred => s.Holds location pred
  | .unplaced _ _ => False

end Action

/-- Whatever the actions do, each of them finds what it expects, and the last state is as required. -/
def Safe {ν : Type} : List Action → State ν → (State ν → Prop) → Prop
  | [], s, post => post s
  | action :: rest, s, post => action.Met s ∧ ∀ next, action.Moves s next → Safe rest next post

theorem safe_append {ν : Type} {first second : List Action} {s : State ν} {post : State ν → Prop} :
    Safe (first ++ second) s post ↔ Safe first s fun middle => Safe second middle post := by
  induction first generalizing s with
  | nil => exact Iff.rfl
  | cons action rest ih => simp only [List.cons_append, Safe, ih]

theorem Safe.mono {ν : Type} {actions : List Action} {s : State ν} {post weaker : State ν → Prop}
    (safe : Safe actions s post) (weakens : ∀ final, post final → weaker final) : Safe actions s weaker := by
  induction actions generalizing s with
  | nil => exact weakens s safe
  | cons action rest ih =>
    exact ⟨safe.1, fun next moves => ih (safe.2 next moves)⟩

end Replay

open Replay (Action)

namespace ScopeAllocation

/-- The read of a predicate from the register that a block has for it. -/
def readAction (alloc : ScopeAllocation) (b : BlockId) (pred : PredId) : Action :=
  match alloc.useReg b pred with
  | some r => .readReg r pred
  | none => .unplaced b pred

/-- An inner loop reads its guard from the stack bit that is recorded for it, or else from its register. -/
def loopReadAction (alloc : ScopeAllocation) (header : BlockId) (pred : PredId) : Action :=
  match alloc.loadLoc header pred with
  | some bit => .readBit bit pred
  | none => alloc.readAction header pred

/-- One load at the start of a block; what the register held is saved before if the block spills it. -/
def loadActions (alloc : ScopeAllocation) (b : BlockId) (e : PredId × Nat) : List Action :=
  match alloc.useReg b e.1 with
  | some r => ((alloc.spillLoc b e.1).map fun bit => Action.spill bit r).toList ++ [.load r e.2]
  | none => [.unplaced b e.1]

/-- The loads before a block reads its guard; the header has none. -/
def entryActions (alloc : ScopeAllocation) (header b : BlockId) : List Action :=
  if b = header then [] else (alloc.loadsAt b).flatMap (alloc.loadActions b)

/-- The definitions that leave a node, in order. -/
def defActions (alloc : ScopeAllocation) (defs : List PredDef) (u : BlockId) : List Action :=
  (defs.zipIdx.filter (·.1.source = u)).map fun e =>
    if alloc.firstDefs.get? e.1.pred = some e.2 then .define (alloc.defLoc e.1.pred) e.1.pred
    else .merge (alloc.defLoc e.1.pred) e.1.pred

end ScopeAllocation

namespace ScopeTree

/-- The predicate is that of the header of a whole function, which is always true. -/
def isConstant (tree : ScopeTree) (scope : Scope) (pred : PredId) : Bool :=
  scope.isTopLevel && tree.wholeFunction && tree.blockPred scope.header = some pred

/-- What one node of a scope does. -/
def nodeActions (tree : ScopeTree) (allocs : List ScopeAllocation) (alloc : ScopeAllocation) (scope : Scope) :
    ScopeNode → Except Fault (List Action)
  | .block b => do
      let pred ← present (tree.blockPred b)
      let read := if tree.isConstant scope pred then [] else [alloc.readAction b pred]
      return alloc.entryActions scope.header b ++ read ++ alloc.defActions scope.defs b
  | .subscope loop => do
      let header := (← tree.get loop).header
      let pred ← present (tree.blockPred header)
      let inner ← present allocs[loop.index]?
      let read := if tree.isConstant scope pred then [] else [alloc.loopReadAction header pred]
      return read ++ [.inner inner.preserve alloc.stackEnd] ++ alloc.defActions scope.defs header

/-- Before the branch back the header's predicate is loaded, if it has to be, and read. -/
def backActions (alloc : ScopeAllocation) (scope : Scope) (headerPred : PredId) : List Action :=
  if scope.isTopLevel then []
  else (alloc.loadsAt scope.header).flatMap (alloc.loadActions scope.header) ++
    [alloc.readAction scope.header headerPred]

/-- The replay of one pass through a scope. -/
def scopeActions (tree : ScopeTree) (allocs : List ScopeAllocation) (id : ScopeId) :
    Except Fault (List Action) := do
  let scope ← tree.get id
  let alloc ← present allocs[id.index]?
  let headerPred ← present (tree.blockPred scope.header)
  let nodes ← scope.nodes.mapM (tree.nodeActions allocs alloc scope)
  return nodes.flatten ++ backActions alloc scope headerPred

/-- On entry to a scope the register of its header's predicate holds the current value. -/
def EntersWith {ν : Type} (tree : ScopeTree) (allocs : List ScopeAllocation) (id : ScopeId)
    (s : Replay.State ν) : Prop :=
  ∀ scope alloc pred r, tree.get id = .ok scope → allocs[id.index]? = some alloc →
    tree.blockPred scope.header = some pred → alloc.useReg scope.header pred = some r →
    s.Holds (.register r) pred

end ScopeTree

end SinglePath
