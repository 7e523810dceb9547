import SinglePath.Allocation.Event
import SinglePath.Allocation.Location
import SinglePath.Sorting

/-!
Linear scan over the live ranges of one scope. Ranges are met in the order of their starts, the header's first.
A range takes the first free register of the pool; if there is none, the range that ends last, among the active
ones and the new one, goes to the stack. The header's range never does.
-/

namespace SinglePath

/-- What a scope inherits from the scope around it. -/
structure ScopeContext where
  pool : List Nat
  /-- The registers whose values the enclosing scopes still need. -/
  preserve : NumberSet
  /-- The register that the header's predicate should take if it can. -/
  preferred : Option Nat
  firstStackLoc : Nat

/-- A predicate in a register over its live range, which starts at a point and ends before another. -/
structure Holder where
  pred : PredId
  reg : Nat
  start : Nat
  finish : Nat
deriving DecidableEq, Repr

def Holder.overlaps (holder : Holder) (start finish : Nat) : Bool :=
  holder.start < finish && start < holder.finish

/-- The holder ends later, or has the smaller predicate if both end together. -/
def Holder.outlasts (holder other : Holder) : Bool :=
  other.finish < holder.finish || (holder.finish = other.finish && holder.pred < other.pred)

/-- The holder that outlasts all others. -/
def Holder.longest : List Holder → Option Holder
  | [] => none
  | first :: rest =>
    match longest rest with
    | none => some first
    | some best => if best.outlasts first then some best else some first

inductive AllocFailure where
  /-- There is no register for the header's predicate. -/
  | pressure
  /-- A stack predicate needs a register and none can be made free. -/
  | noCandidate
deriving DecidableEq, Repr

namespace LinearScan

/-- The ranges that are live in registers, and the register of each predicate met so far, if it has one. -/
structure State where
  active : List Holder
  regs : Table PredId (Option Nat)

/-- The temporary that is set aside is the last register that need not be preserved. -/
def reserved (context : ScopeContext) : Option Nat :=
  match context.pool.reverse.find? fun reg => !context.preserve.contains reg with
  | some reg => some reg
  | none => context.pool.getLast?

def poolFor (context : ScopeContext) (reserve : Bool) : List Nat :=
  if reserve then context.pool.filter (some · ≠ reserved context) else context.pool

def isFree (active : List Holder) (reg : Nat) : Bool := !active.any (·.reg = reg)

/-- The header takes its preferred register if that is free. -/
def choose (pool : List Nat) (preferred : Option Nat) (isHeader : Bool) (active : List Holder) : Option Nat :=
  let first := pool.find? (isFree active)
  match preferred with
  | some reg => if isHeader && pool.contains reg && isFree active reg then some reg else first
  | none => first

def step (scope : ScopeEvents) (context : ScopeContext) (pool : List Nat) (state : State) (pred : PredId) :
    Except AllocFailure State :=
  let start := scope.start pred
  let finish := scope.finish pred
  let active := state.active.filter (start < ·.finish)
  let isHeader := pred = scope.headerPred
  match choose pool context.preferred isHeader active with
  | some reg => .ok ⟨active ++ [⟨pred, reg, start, finish⟩], state.regs.insert pred (some reg)⟩
  | none =>
    if isHeader then
      .error .pressure
    else
      match Holder.longest (active.filter (·.pred ≠ scope.headerPred)) with
      | some victim =>
        if finish < victim.finish then
          .ok ⟨active.filter (·.pred ≠ victim.pred) ++ [⟨pred, victim.reg, start, finish⟩],
            (state.regs.insert victim.pred none).insert pred (some victim.reg)⟩
        else
          .ok ⟨active, state.regs.insert pred none⟩
      | none => .ok ⟨active, state.regs.insert pred none⟩

/-- The header's predicate comes first, then the others by start and number. -/
def order (scope : ScopeEvents) : List PredId :=
  let preds := scope.events.keys
  preds.filter (· = scope.headerPred) ++ sortByKey scope.start (preds.filter (· ≠ scope.headerPred))

def run (scope : ScopeEvents) (context : ScopeContext) (pool : List Nat) :
    Except AllocFailure (Table PredId (Option Nat)) := do
  return (← (order scope).foldlM (step scope context pool) ⟨[], Table.empty⟩).regs

/-- The predicates with a register, in the order of the scan. -/
def holders (scope : ScopeEvents) (regs : Table PredId (Option Nat)) : List Holder :=
  (order scope).filterMap fun pred =>
    (regs.get? pred).join.map fun reg => ⟨pred, reg, scope.start pred, scope.finish pred⟩

/-- Predicates without a register get consecutive stack bits in the order of their numbers. -/
def numberStack : Nat → List (PredId × Option Nat) → List (PredId × Location)
  | _, [] => []
  | next, (pred, some reg) :: rest => (pred, .register reg) :: numberStack next rest
  | next, (pred, none) :: rest => (pred, .stack next) :: numberStack (next + 1) rest

def stackCount (regs : Table PredId (Option Nat)) : Nat := (regs.values.filter (·.isNone)).length

end LinearScan

end SinglePath
