import SinglePath.CellFlow.Live
import SinglePath.Chain
import SinglePath.Definition
import SinglePath.Func.Renumbering
import SinglePath.Inst.Text
import SinglePath.Merging
import SinglePath.Predication
import SinglePath.Shape

/-!
The reduction of a function to single-path code. Every branch but the one back of each loop is replaced by
predication. A plan is made first, and the function is changed only after the plan is complete.
-/

namespace SinglePath

structure ReduceOptions where
  checkShape : Bool := false
  dropLoads : Bool := true
  dropStores : Bool := false
deriving DecidableEq, Repr

structure Reduction where
  stats : Stats := {}
  allocs : List ScopeAllocation := []
  available : List PReg := []
  temporary : Option PReg := none
  /-- The new number of each block that is left. -/
  blockMap : BlockMap := Table.empty

def Stats.text (stats : Stats) : String :=
  recordText "ReduceStats"
    [("removed_branches", toString stats.removedBranches), ("inserted_insts", toString stats.insertedInsts),
      ("loop_counters", toString stats.loopCounters), ("eliminated_ld_st", toString stats.eliminated)]

namespace Plan

/-- Predicate all blocks, define all predicates, and bring the blocks into one chain. -/
def straighten (plan : Plan) (work : Work) : Step Work := do
  let work ← plan.predicate work
  let work ← plan.define work
  plan.linearize work

/-- Drop the loads and stores of the plan's cells that the options ask for. -/
def clean (plan : Plan) (options : ReduceOptions) (work : Work) : Step Work := do
  let cells := plan.frame.cells
  let work ← if options.dropLoads then work.eliminate (·.dropRedundantLoads plan.guards cells) else pure work
  if options.dropStores then work.eliminate (·.dropDeadStores cells) else pure work

/-- Carry out the plan on the function with the plan's cells. -/
def carryOut (plan : Plan) (options : ReduceOptions) (work : Work) : Step (Reduction × Work) := do
  let work ← plan.straighten work
  let work ← work.mapFunc Func.merge
  let work ← plan.clean options work
  let work ← work.mapFunc Func.resolveCells
  if options.checkShape then
    work.await (Shape.check work.func plan.tree)
  let (blockMap, func) ← work.expect work.func.renumber
  return ({
    stats := work.stats
    allocs := plan.allocs
    available := plan.available
    temporary := some plan.temporary
    blockMap := blockMap }, { work with func := func })

end Plan

/-- Plan a reduction and carry it out. A function that is not meant to be single-path is left alone. -/
def Work.reduce (work : Work) (tree : ScopeTree) (regs : TargetRegs) (options : ReduceOptions) :
    Step (Reduction × Work) := do
  if tree.singlePath then
    let (plan, func) ← work.await (Plan.make tree regs work.func)
    plan.carryOut options { work with func := func }
  else
    return ({}, work)

/-- The outcome of a reduction and the function that it leaves behind. -/
def Func.reduce (func : Func) (tree : ScopeTree) (regs : TargetRegs) (options : ReduceOptions) :
    Outcome Reduction × Func :=
  match ({ func := func } : Work).reduce tree regs options with
  | .ok (reduction, work) => (.ok reduction, work.func)
  | .error stopped => (.error stopped.failure, stopped.work.func)

end SinglePath
