import SinglePath.Allocation.LinearScan

/-!
From the locations of the predicates to what each node does. A block whose predicate lives in a register reads
it there. A block whose predicate lives on the stack loads it into a register that is free at the node, or takes
the register of a holder that is not needed there, and that holder is loaded again where it is next read.
-/

namespace SinglePath

/-- A holder whose register is in other use, up to and with the point where it is needed again. -/
structure Eviction where
  reg : Nat
  pred : PredId
  till : Nat
deriving DecidableEq, Repr

/-- Where an evicted predicate comes back. -/
inductive Reload where
  | before (block : BlockId)
  /-- The predicate is not read again before it is written. -/
  | never
deriving DecidableEq, Repr

/-- A holder that can give up its register, the point of its next event, and where it comes back. -/
structure Candidate where
  holder : Holder
  point : Nat
  reload : Reload
deriving DecidableEq, Repr

/-- The candidate is needed later, or has the smaller predicate if both are needed at once. -/
def Candidate.isBetter (candidate other : Candidate) : Bool :=
  other.point < candidate.point ||
    (candidate.point = other.point && candidate.holder.pred < other.holder.pred)

/-- The best candidate; the earlier one stays if a later one is not better. -/
def Candidate.best (candidates : List Candidate) : Option Candidate :=
  candidates.foldl (fun best candidate =>
    match best with
    | none => some candidate
    | some found => if candidate.isBetter found then some candidate else some found) none

namespace Placement

/-- The records made so far, the evictions still open, and the stack bits handed out. -/
structure State where
  useLocs : BlockLocs := Table.empty
  loadLocs : BlockLocs := Table.empty
  spillLocs : BlockLocs := Table.empty
  /-- The registers borrowed for stack predicates. -/
  borrowed : List Nat := []
  evictions : List Eviction := []
  /-- The stack bit of each predicate that was ever evicted. -/
  slots : Table PredId Nat := Table.empty
  nextStack : Nat

/-- No holder of the register has a value that is needed at the node. -/
def isFreeAt (scope : ScopeEvents) (holders : List Holder) (evictions : List Eviction) (position reg : Nat) : Bool :=
  holders.all fun holder =>
    holder.reg ≠ reg || !holder.overlaps (2 * position) (2 * position + 2) ||
      scope.isDeadAt holder.pred position ||
      evictions.any fun eviction =>
        eviction.reg = reg && eviction.pred = holder.pred && 2 * position + 2 ≤ eviction.till

/-- Where a predicate comes back, if it can be evicted until its next event. -/
def reloadFor (scope : ScopeEvents) (pred : PredId) (next : Event) : Option Reload :=
  match next.kind with
  | .use (.block id) => some (.before id)
  | .use (.loop header) => if scope.isLastEvent pred next then some (.before header) else none
  | .use .backEdge => some (if scope.isTopLevel then .never else .before scope.header)
  | .define true => some .never
  | .define false => none

/-- A holder that is live and idle at the node can be evicted, unless its register is already taken. -/
def candidate (scope : ScopeEvents) (evictions : List Eviction) (position : Nat) (holder : Holder) :
    Option Candidate :=
  if !holder.overlaps (2 * position) (2 * position + 2) || scope.hasEventAt holder.pred position ||
      evictions.any (·.reg = holder.reg) then
    none
  else do
    let next ← scope.nextEventAfter holder.pred (2 * position + 1)
    let reload ← reloadFor scope holder.pred next
    return ⟨holder, next.point, reload⟩

/-- An evicted predicate keeps one stack bit for all its evictions. -/
def slotFor (state : State) (pred : PredId) : Nat × State :=
  match state.slots.get? pred with
  | some slot => (slot, state)
  | none =>
    (state.nextStack,
      { state with slots := state.slots.insert pred state.nextStack, nextStack := state.nextStack + 1 })

/-- Save the victim before the block's predicate is loaded, and load it where it comes back. -/
def recordEviction (state : State) (block : BlockId) (pred : PredId) (victim : Candidate) : State :=
  let state := match victim.reload with
    | .never => state
    | .before back =>
      let (slot, state) := slotFor state victim.holder.pred
      { state with
        spillLocs := state.spillLocs.record block pred slot
        loadLocs := state.loadLocs.record back victim.holder.pred slot }
  { state with evictions := state.evictions ++ [⟨victim.holder.reg, victim.holder.pred, victim.point⟩] }

def placeStackUse (scope : ScopeEvents) (context : ScopeContext) (holders : List Holder) (state : State)
    (position : Nat) (block : BlockId) (pred : PredId) (bit : Nat) : Except AllocFailure State :=
  match context.pool.find? (isFreeAt scope holders state.evictions position) with
  | some reg => .ok { state with
      useLocs := state.useLocs.record block pred reg
      loadLocs := state.loadLocs.record block pred bit
      borrowed := state.borrowed ++ [reg] }
  | none =>
    match Candidate.best (holders.filterMap (candidate scope state.evictions position)) with
    | none => .error .noCandidate
    | some victim => .ok (recordEviction { state with
        useLocs := state.useLocs.record block pred victim.holder.reg
        loadLocs := state.loadLocs.record block pred bit } block pred victim)

/-- A block reads its predicate from a register; the predicate of an inner loop may stay on the stack. -/
def placeNode (scope : ScopeEvents) (context : ScopeContext) (locs : Table PredId Location) (holders : List Holder)
    (state : State) (entry : NodeSite × Nat) : Except AllocFailure State :=
  let (site, position) := entry
  let state := { state with evictions := state.evictions.filter (2 * position ≤ ·.till) }
  match site.pred.filter (some · ≠ scope.alwaysTrue) with
  | none => .ok state
  | some pred =>
    match locs.get? pred, site.node with
    | some (.register reg), _ =>
      .ok { state with useLocs := state.useLocs.record site.block pred reg }
    | some (.stack bit), .block id => placeStackUse scope context holders state position id pred bit
    | some (.stack bit), .subscope _ =>
      .ok { state with loadLocs := state.loadLocs.record site.block pred bit }
    | _, _ => .ok state

def run (scope : ScopeEvents) (context : ScopeContext) (locs : Table PredId Location) (holders : List Holder)
    (nextStack : Nat) : Except AllocFailure State :=
  scope.sites.zipIdx.foldlM (placeNode scope context locs holders) { nextStack := nextStack }

end Placement

end SinglePath
