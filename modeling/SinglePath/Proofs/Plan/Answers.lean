import SinglePath.Chain
import SinglePath.Definition
import SinglePath.Predication
import SinglePath.Proofs.Plan.Made

/-!
A plan that was made has an answer to every question that the later phases ask it.
-/

namespace SinglePath

open List ScopeTree

namespace Plan

namespace Made

variable {plan : Plan} {f start : Func} {depths : List Nat} {id : ScopeId} {scope : Scope} {alloc : ScopeAllocation}
  {b : BlockId} {pred : PredId}

section

theorem useReg_of_recorded (recorded : Recorded plan.tree plan.available.length scope alloc)
    (isAlloc : plan.alloc id = .ok alloc)
    (otherwise : alloc.useReg b pred = none → plan.tree.isConstant scope pred = true) :
    ∃ r, plan.useReg id b pred = .ok r := by
  unfold useReg
  rw [isAlloc, liftM_ok, ok_bind]
  cases use : alloc.useReg b pred with
  | some index =>
    obtain ⟨r, _, isReg⟩ := preg_ok (recorded.useRange use)
    exact ⟨r, by simp [isReg]⟩
  | none => exact ⟨PReg.zero, by simp [recorded.constant (otherwise use), pure, Except.pure]⟩

section

variable (made : plan.Made f start depths)

include made

variable (got : plan.tree.get id = .ok scope)

include got

/-- A block finds the register of the predicate that guards it. -/
theorem useReg_ok (inside : b ∈ scope.blocks) (guards : plan.tree.blockPred b = some pred) :
    ∃ r, plan.useReg id b pred = .ok r := by
  obtain ⟨alloc, isAlloc, _, _, _, recorded⟩ := made.alloc_ok got
  refine useReg_of_recorded recorded isAlloc fun unused => ?_
  by_contra notConstant
  obtain ⟨r, use⟩ := recorded.blockUse inside guards (by simpa using notConstant)
  simp [unused] at use

/-- Every member of a scope has a guard. -/
theorem blockGuard_ok (inside : b ∈ scope.blocks) : ∃ r, plan.blockGuard id b = .ok r := by
  obtain ⟨pred, guards⟩ := ((made.valid.checked got).usable b inside).2
  obtain ⟨r, isReg⟩ := made.useReg_ok got inside guards
  exact ⟨r, by rw [blockGuard, guards]; exact isReg⟩

theorem headerPred_ok : ∃ pred, plan.tree.blockPred scope.header = some pred ∧ plan.headerPred id = .ok pred := by
  have inside := made.valid.header_mem_blocks got
  obtain ⟨pred, guards⟩ := ((made.valid.checked got).usable _ inside).2
  simp [headerPred, ScopeTree.headerPred, got, guards, pure, Except.pure]

/-- Every header has a register. -/
theorem headerReg_ok : ∃ r, plan.headerReg id = .ok r := by
  obtain ⟨pred, guards, isPred⟩ := made.headerPred_ok got
  obtain ⟨r, isReg⟩ := made.useReg_ok got (made.valid.header_mem_blocks got) guards
  exact ⟨r, by simp [headerReg, got, isPred, isReg]⟩

end

theorem loadReg_ok (recorded : Recorded plan.tree plan.available.length scope alloc) (inside : b ∈ scope.blocks)
    (notTop : b = scope.header → scope.isTopLevel = false) {e : PredId × Nat}
    (mem : e ∈ alloc.loadsAt b) : ∃ r, plan.loadReg alloc b e.1 = .ok r := by
  obtain ⟨index, use⟩ := recorded.loadUse inside notTop mem
  obtain ⟨r, _, isReg⟩ := preg_ok (recorded.useRange use)
  exact ⟨r, by rw [loadReg, use]; simp [isReg]⟩

end

section

variable {location : Nat}

section

variable (made : plan.Made f start depths) (isAlloc : alloc ∈ plan.allocs)

include made isAlloc

theorem loadCode_ok (r : PReg) (inRange : location < alloc.stackEnd) : ∃ code, plan.loadCode r location = .ok code := by
  obtain ⟨c, isBit⟩ := made.laid.stackBit_ok isAlloc inRange
  exact ⟨_, by rw [loadCode, isBit]; rfl⟩

theorem spillCode_ok (r : PReg) (inRange : location < alloc.stackEnd) :
    ∃ code, plan.spillCode r location = .ok code := by
  obtain ⟨c, isBit⟩ := made.laid.stackBit_ok isAlloc inRange
  exact ⟨_, by rw [spillCode, isBit]; rfl⟩

theorem saveCode_ok
    (recorded : Recorded plan.tree plan.available.length scope alloc) (b : BlockId) (pred : PredId) (r : PReg) :
    ∃ code, plan.saveCode alloc b pred r = .ok code := by
  unfold saveCode
  cases spill : alloc.spillLoc b pred with
  | none => exact ⟨[], rfl⟩
  | some slot => exact made.spillCode_ok isAlloc r (recorded.spillRange (Table.mem_of_find spill))

end

theorem checkSpillsAt_ok (recorded : Recorded plan.tree plan.available.length scope alloc) (b : BlockId) :
    alloc.checkSpillsAt b = .ok () := by
  unfold ScopeAllocation.checkSpillsAt
  split
  · next spill isLost =>
      obtain ⟨load, isLoad, same⟩ := mem_map.mp (recorded.paired (mem_of_find?_eq_some isLost))
      have lost := find?_some isLost
      simp only [Bool.not_eq_true', any_eq_false, beq_iff_eq] at lost
      exact absurd same (lost load isLoad)
  · rfl

variable (made : plan.Made f start depths) (isAlloc : alloc ∈ plan.allocs)
  (recorded : Recorded plan.tree plan.available.length scope alloc)

include made isAlloc recorded

/-- The code for the uses of a block can be made. -/
theorem useCode_ok (inside : b ∈ scope.blocks)
    (notHeader : b ≠ scope.header) : ∃ code, plan.useCode alloc b = .ok code := by
  have each : ∀ e ∈ alloc.loadsAt b, ∃ code, plan.bringCode alloc b e = .ok code := by
    intro e mem
    obtain ⟨r, isReg⟩ := loadReg_ok recorded inside (fun isHeader => absurd isHeader notHeader) mem
    obtain ⟨save, saved⟩ := made.saveCode_ok isAlloc recorded b e.1 r
    obtain ⟨load, loaded⟩ := made.loadCode_ok isAlloc r (recorded.loadRange mem)
    exact ⟨save ++ load, by simp [bringCode, isReg, saved, loaded, pure, Except.pure]⟩
  obtain ⟨codes, mapped⟩ := mapM_ok each
  exact ⟨codes.flatten, by simp [useCode, checkSpillsAt_ok recorded, mapped, pure, Except.pure]⟩

/-- The code that reloads for the next round can be made. -/
theorem reloadCode_ok (inside : scope.header ∈ scope.blocks)
    (isLoop : scope.isTopLevel = false) : ∃ code, plan.reloadCode alloc scope.header = .ok code := by
  have each : ∀ e ∈ alloc.loadsAt scope.header, ∃ code, plan.returnCode alloc scope.header e = .ok code := by
    intro e mem
    obtain ⟨r, isReg⟩ := loadReg_ok recorded inside (fun _ => isLoop) mem
    obtain ⟨load, loaded⟩ := made.loadCode_ok isAlloc r (recorded.loadRange mem)
    exact ⟨load, by simp [returnCode, isReg, loaded]⟩
  obtain ⟨codes, mapped⟩ := mapM_ok each
  exact ⟨codes.flatten, by simp [reloadCode, mapped, pure, Except.pure]⟩

end

section

variable (made : plan.Made f start depths)

include made

theorem bankCell_ok (got : plan.tree.get id = .ok scope) (isAlloc : plan.alloc id = .ok alloc)
    (saves : alloc.savesBank = true) : ∃ c, plan.frame.bankCell scope.depth = .ok c := by
  obtain ⟨same, sameAlloc, mem, named, notTop, _⟩ := made.alloc_ok got
  obtain rfl := ok_unique sameAlloc isAlloc
  exact made.laid.bankCell_ok mem saves (named ▸ got) (made.valid.depth_pos got (notTop saves))

theorem registerDef_ok {exited : Option ScopeId}
    (known : ∀ loop, exited = some loop → ∃ inner, plan.tree.get loop = .ok inner) (alloc : ScopeAllocation)
    (index : Nat) (defn : PredDef) (guard dst : PReg) (cond : Cond) :
    ∃ made, plan.registerDef alloc exited index defn guard dst cond = .ok made := by
  unfold registerDef
  cases exited with
  | none => exact ⟨_, rfl⟩
  | some loop =>
    obtain ⟨inner, innerFound⟩ := known loop rfl
    obtain ⟨innerAlloc, isAlloc, _, _, _, _⟩ := made.alloc_ok innerFound
    simp only [isAlloc, liftM_ok, ok_bind, innerFound]
    split
    · next saves =>
        obtain ⟨c, isCell⟩ := made.bankCell_ok innerFound isAlloc saves
        simp only [isCell, liftM_ok, ok_bind]
        exact ⟨_, rfl⟩
    · exact ⟨_, rfl⟩

theorem addDef_ok (got : plan.tree.get id = .ok scope) {e : PredDef × Nat}
    (mem : e.1 ∈ scope.defs) (pending : PendingDefs) : ∃ next, plan.addDef id pending e = .ok next := by
  obtain ⟨defn, index⟩ := e
  obtain ⟨alloc, isAlloc, inAllocs, _, _, recorded⟩ := made.alloc_ok got
  obtain ⟨exited, exits⟩ := made.valid.childWithHeader_ok got defn.source
  have u := made.valid.source_mem got mem exits
  have guards := (made.valid.defs got mem).guarded
  have known : ∀ loop, exited = some loop → ∃ inner, plan.tree.get loop = .ok inner := by
    rintro loop rfl
    obtain ⟨_, inner, innerFound, _⟩ := u
    exact ⟨inner, innerFound⟩
  have guarded : ∃ r, plan.useReg (exited.getD id) defn.source defn.guard = .ok r := by
    cases exited with
    | none => exact made.useReg_ok got u guards
    | some loop =>
      obtain ⟨_, inner, innerFound, heads⟩ := u
      exact made.useReg_ok innerFound (heads ▸ made.valid.header_mem_blocks innerFound) guards
  obtain ⟨guard, isGuard⟩ := guarded
  unfold addDef
  simp only [exits, liftM_ok, ok_bind, isGuard, isAlloc]
  cases place : alloc.defLoc defn.pred with
  | register r =>
    obtain ⟨dst, _, isDst⟩ := preg_ok (recorded.defRange place)
    obtain ⟨code, isCode⟩ := made.registerDef_ok known alloc index defn guard dst
      (defn.cond.getD .always).withoutKill
    simp only [isDst, liftM_ok, ok_bind, isCode]
    exact ⟨_, rfl⟩
  | stack location =>
    obtain ⟨c, isBit⟩ := made.laid.stackBit_ok inAllocs (recorded.stackRange place)
    simp only [isBit, liftM_ok, ok_bind]
    exact ⟨_, rfl⟩
  | always => exact absurd place (recorded.located mem)

/-- The code of the definitions of a scope can be made. -/
theorem addScopeDefs_ok (got : plan.tree.get id = .ok scope)
    (pending : PendingDefs) : ∃ next, plan.addScopeDefs pending id = .ok next := by
  unfold addScopeDefs
  rw [got, liftM_ok, ok_bind]
  have each (s : PendingDefs) (_ : True) (e : PredDef × Nat) (mem : e ∈ scope.defs.zipIdx) :
      ∃ next, plan.addDef id s e = .ok next ∧ True :=
    (made.addDef_ok got (fst_mem_of_mem_zipIdx mem) s).imp fun _ added => ⟨added, trivial⟩
  obtain ⟨next, folded, _⟩ := foldlM_ok (fun _ => True) trivial each
  exact ⟨next, folded⟩

end

variable (made : plan.Made f start depths) (got : plan.tree.get id = .ok scope)
  (isLoop : scope.isTopLevel = false)

include made got isLoop

theorem enterPredCode_ok (guards : plan.tree.blockPred scope.header = some pred) :
    ∃ code, plan.enterPredCode (scope.parent.getD root) id scope.header pred = .ok code := by
  obtain ⟨outer, outerFound, mem⟩ := made.valid.parent_ok got isLoop
  obtain ⟨inner, isInner⟩ := made.headerReg_ok got
  obtain ⟨alloc, isAlloc, inAllocs, _, _, recorded⟩ := made.alloc_ok outerFound
  unfold enterPredCode
  simp only [isInner, ok_bind, isAlloc, liftM_ok]
  cases load : alloc.loadLoc scope.header pred with
  | some location =>
    obtain ⟨code, isCode⟩ := made.loadCode_ok inAllocs inner (recorded.loadRange (Table.mem_of_find load))
    exact ⟨code, by simp [isCode]⟩
  | none =>
    have used : ∃ r, plan.useReg (scope.parent.getD root) scope.header pred = .ok r := by
      refine useReg_of_recorded recorded isAlloc fun unused => ?_
      by_contra notConstant
      rcases recorded.loopUse mem got guards (by simpa using notConstant) with ⟨bit, o⟩ | ⟨r, o⟩
      · simp [load] at o
      · simp [unused] at o
    obtain ⟨r, isReg⟩ := used
    exact ⟨_, by simp only [isReg, ok_bind]; rfl⟩

/-- The code of a branch block can be made. -/
theorem branchCode_ok : ∃ code, plan.branchCode id scope = .ok code := by
  unfold branchCode
  cases bound : scope.usableBound with
  | some n =>
    obtain ⟨c, isCell⟩ := made.laid.counter_ok got (by simp [bound]) (made.valid.depth_pos got isLoop)
    exact ⟨_, by simp only [isCell, liftM_ok, ok_bind]; rfl⟩
  | none =>
    obtain ⟨r, isReg⟩ := made.headerReg_ok got
    exact ⟨_, by simp only [isReg, ok_bind]; rfl⟩

end Made

end Plan

end SinglePath
