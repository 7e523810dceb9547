import SinglePath.Proofs.Func.Possible
import SinglePath.Proofs.Plan.Answers
import SinglePath.Proofs.ScopeTree.Arranged

/-!
More answers of a plan that was made: the masks of the stack predicates, the registers that the exits of a loop write,
and the code that is placed around a loop.
-/

namespace SinglePath

open Func List PredId Table

section

variable {scope : ScopeEvents} {ctx : ScopeContext}

theorem PredId.eq_of_index {first second : PredId} (same : first.index = second.index) : first = second :=
  congrArg mk same

theorem Table.insert_increasing {ν : Type} {table : Table PredId ν} (increasing : Increasing index table.entries)
    (pred : PredId) (v : ν) : Increasing index (table.insert pred v).entries := by
  have ranked (first second : PredId) : first < second ↔ first.index < second.index := Iff.rfl
  exact place_increasing ranked (fun _ _ => eq_of_index) pred v increasing

namespace LinearScan

variable {pool : List Nat}

theorem step_increasing {s next : State} {pred : PredId} (increasing : Increasing index s.regs.entries)
    (stepped : step scope ctx pool s pred = .ok next) : Increasing index next.regs.entries := by
  unfold step at stepped
  dsimp only at stepped
  split at stepped
  · cases stepped
    exact insert_increasing increasing ..
  · split at stepped
    · cases stepped
    · split at stepped
      · split at stepped
        · cases stepped
          exact insert_increasing (insert_increasing increasing ..) ..
        · cases stepped
          exact insert_increasing increasing ..
      · cases stepped
        exact insert_increasing increasing ..

/-- The scan lists predicates in increasing order. -/
theorem run_increasing {regs : Table PredId (Option Nat)} (res : run scope ctx pool = .ok regs) :
    Increasing index regs.entries := by
  obtain ⟨final, folded, rfl⟩ := bind_pure_inv res
  exact foldlM_invariant (fun s : State => Increasing index s.regs.entries) folded Pairwise.nil
    fun s pred next _ increasing => step_increasing increasing

theorem keys_numberStack (next : Nat) (entries : List (PredId × Option Nat)) :
    (numberStack next entries).map (·.1) = entries.map (·.1) := by
  induction entries generalizing next with
  | nil => rfl
  | cons e rest ih =>
    obtain ⟨pred, place⟩ := e
    cases place <;> simp [numberStack, ih]

end LinearScan

theorem Table.Increasing.of_keys {ν μ : Type} {rank : PredId → Nat} {entries : List (PredId × ν)}
    {others : List (PredId × μ)} (increasing : Increasing rank entries) (same : others.map (·.1) = entries.map (·.1)) :
    Increasing rank others := by
  have keys : (entries.map (·.1)).Pairwise fun first second => rank first < rank second := pairwise_map.mpr increasing
  rw [← same, pairwise_map] at keys
  exact keys

/-- No predicate has two locations. -/
theorem ScopeResult.defLocs_once {res : ScopeResult} (allocated : allocate scope ctx = .ok res) :
    res.alloc.defLocs.keys.Nodup := by
  obtain ⟨reserve, comp⟩ := compute_of_allocate allocated
  obtain ⟨regs, scanned, final, _, rfl⟩ := bind_bind_pure_inv comp
  have ordered : Increasing index (LinearScan.numberStack ctx.firstStackLoc regs.entries) :=
    (LinearScan.run_increasing scanned).of_keys (LinearScan.keys_numberStack ..)
  refine Increasing.nodup_keys (?_ : Increasing index _)
  cases scope.alwaysTrue with
  | none => exact ordered
  | some pred => exact insert_increasing ordered ..

end

namespace Plan

namespace Made

variable {plan : Plan} {f start : Func} {depths : List Nat} {id : ScopeId} {scope : Scope} {alloc : ScopeAllocation}

variable (made : plan.Made f start depths)

include made

section

variable (found : plan.tree.get id = .ok scope)

include found

theorem member_lt {b : BlockId} (inside : b ∈ scope.blocks) : b.index < f.blocks.length :=
  made.valid.member_lt found inside

theorem header_lt : scope.header.index < f.blocks.length := made.member_lt found (made.valid.header_mem_blocks found)

theorem source_lt {defn : PredDef} (mem : defn ∈ scope.defs) : defn.source.index < f.blocks.length := by
  obtain ⟨exited, exits⟩ := made.valid.childWithHeader_ok found defn.source
  have u := made.valid.source_mem found mem exits
  cases exited with
  | none => exact made.member_lt found u
  | some loop =>
    obtain ⟨_, inner, innerFound, heads⟩ := u
    exact heads ▸ made.header_lt innerFound

theorem defLocs_once (isAlloc : plan.alloc id = .ok alloc) : alloc.defLocs.keys.Nodup := by
  obtain ⟨o, ctx, es, res, isOther, assigned⟩ := ScopeTree.allocate_assigned made.allocated found
  obtain rfl := Option.mem_unique isOther (present_eq_ok.mp isAlloc)
  rw [← assigned.same]
  exact ScopeResult.defLocs_once assigned.allocated

/-- The stack bits of a scope can be cleared. -/
theorem stackMasks_ok (isAlloc : plan.alloc id = .ok alloc) (headerPred : Option PredId) :
    ∃ masks, plan.stackMasks alloc headerPred = .ok masks := by
  obtain ⟨same, sameAlloc, inAllocs, _, _, recorded⟩ := made.alloc_ok found
  obtain rfl := ok_unique sameAlloc isAlloc
  obtain ⟨masks, folded, _⟩ : ∃ masks, plan.stackMasks same headerPred = .ok masks ∧ True := by
    refine foldlM_ok (fun _ => True) trivial fun masks _ e mem => ?_
    have isPlace : same.defLoc e.1 = e.2 := by
      rw [ScopeAllocation.defLoc, get?_of_mem (made.defLocs_once found isAlloc) mem]
      rfl
    cases place : e.2 with
    | register _ => exact ⟨masks, rfl, trivial⟩
    | always => exact ⟨masks, rfl, trivial⟩
    | stack location =>
      dsimp only
      split
      · exact ⟨masks, rfl, trivial⟩
      · obtain ⟨c, isBit⟩ := made.laid.stackBit_ok inAllocs (recorded.stackRange (isPlace.trans place))
        have small : location % FrameLayout.wordBits < 32 := Nat.mod_lt _ (by decide)
        simp only [isBit, ok_bind, wordBit, small, if_true]
        exact ⟨_, rfl, trivial⟩
  exact ⟨masks, folded⟩

theorem saveBankCode_ok
    (isAlloc : plan.alloc id = .ok alloc) : ∃ code, plan.saveBankCode alloc scope.depth = .ok code := by
  unfold saveBankCode
  split
  · next saves =>
      obtain ⟨c, isCell⟩ := made.bankCell_ok found isAlloc saves
      exact ⟨_, by rw [isCell]; rfl⟩
  · exact ⟨_, rfl⟩

theorem exitRegs_ok (header : BlockId) : ∃ regs, plan.exitRegs id header = .ok regs := by
  obtain ⟨alloc, isAlloc, _, _, _, recorded⟩ := made.alloc_ok found
  unfold exitRegs
  rw [isAlloc, ok_bind, found, ok_bind]
  refine (foldlM_ok (fun _ => True) trivial fun regs _ e _ => ?_).imp fun _ folded => folded.1
  dsimp only
  split
  · exact ⟨regs, rfl, trivial⟩
  · cases place : alloc.defLoc e.1.pred with
    | register i =>
      obtain ⟨r, _, isReg⟩ := preg_ok (recorded.defRange place)
      exact ⟨_, by simp only [isReg]; rfl, trivial⟩
    | stack _ => exact ⟨regs, rfl, trivial⟩
    | always => exact ⟨regs, rfl, trivial⟩

end

theorem available_lt {r : PReg} (mem : r ∈ plan.available) : r.bankBit < plan.regs.predCount := by
  have isFree : r ∈ (candidates plan.regs).filter fun r => !f.mentionsPred r := by
    rw [made.free]
    exact mem_append_left _ mem
  obtain ⟨index, inRange, rfl⟩ := mem_map.mp (mem_filter.mp isFree).1
  have bounds := mem_range'_1.mp inRange
  simp only [PReg.bankBit]
  omega

/-- The predicates of exits can be cleared. -/
theorem clearExitsCode_ok (few : plan.regs.predCount ≤ 32)
    (found : plan.tree.get id = .ok scope) (isAlloc : plan.alloc id = .ok alloc) {regs : List PReg}
    (own : ∀ r ∈ regs, r ∈ plan.available) : ∃ code, plan.clearExitsCode alloc scope.depth regs = .ok code := by
  unfold clearExitsCode
  split
  · exact ⟨_, rfl⟩
  · split
    · next saves =>
        obtain ⟨c, isCell⟩ := made.bankCell_ok found isAlloc saves
        obtain ⟨mask, isMask, _⟩ : ∃ mask, regs.foldlM (fun mask r => do return mask ||| (← wordBit r.bankBit)) 0 =
            .ok mask ∧ True := by
          refine foldlM_ok (fun _ => True) trivial fun mask _ r mem => ?_
          have small : r.bankBit < 32 := Nat.lt_of_lt_of_le (made.available_lt (own r mem)) few
          simp only [wordBit, small, if_true]
          exact ⟨_, rfl, trivial⟩
        exact ⟨_, by rw [isMask, ok_bind, isCell]; rfl⟩
    · exact ⟨_, rfl⟩

/-- The counter of a loop can be set. -/
theorem setCounterCode_ok (found : plan.tree.get id = .ok scope)
    (isLoop : scope.isTopLevel = false) : ∃ code, plan.setCounterCode scope = .ok code := by
  unfold setCounterCode
  cases bound : scope.usableBound with
  | none => exact ⟨_, rfl⟩
  | some n =>
    obtain ⟨c, isCell⟩ := made.laid.counter_ok found (by simp [bound]) (made.valid.depth_pos found isLoop)
    exact ⟨_, by rw [isCell]; rfl⟩

/-- The postlude of a loop can be made. -/
theorem postludeCode_ok (linked : f.Linked) (found : plan.tree.get id = .ok scope)
    (isAlloc : plan.alloc id = .ok alloc) (saves : alloc.savesBank = true) {grown : Func}
    (length : f.blocks.length ≤ grown.blocks.length) : ∃ code, plan.postludeCode grown id scope = .ok code := by
  obtain ⟨c, isCell⟩ := made.bankCell_ok found isAlloc saves
  obtain ⟨live, isLive⟩ : ∃ live, ((plan.facts.exits.get? id).getD []).mapM
      (fun b => do return (← grown.get b).liveIns) = .ok live := by
    obtain ⟨_, isAlloc', _, _, isLoop, _⟩ := made.alloc_ok found
    obtain rfl := ok_unique isAlloc isAlloc'
    obtain ⟨exits, isExits, _, mem_exits⟩ := ScopeTree.exits_of_validate made.validated found (isLoop saves)
    rw [isExits, Option.getD_some]
    refine mapM_ok fun b mem => ?_
    obtain ⟨_, u, _, _, isSucc⟩ := (mem_exits b).mp mem
    obtain ⟨body, got⟩ := get_total (Nat.lt_of_lt_of_le (linked.succ_lt isSucc) length)
    exact ⟨_, by rw [got]; rfl⟩
  unfold postludeCode liveOut
  rw [isCell, ok_bind]
  dsimp only
  rw [isLive]
  exact ⟨_, rfl⟩

end Made

end Plan

end SinglePath
