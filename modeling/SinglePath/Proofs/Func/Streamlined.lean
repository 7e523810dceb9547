import SinglePath.Proofs.Func.Conforming
import SinglePath.Proofs.Func.Renumbered

/-!
Streamlined functions: one chain of blocks, one branch back for each of the given headers, and one return, in the last
block.
-/

namespace SinglePath

open Inst List Nat Table

/-- Something for each return. -/
def Inst.returns? (inst : Inst) : Option Unit := if inst.isReturn then some () else none

namespace Func

variable {f next : Func} {headers : List BlockId} {cells : List CellId} {i : Nat} {b : BlockId}

/-- The only return is in the last block: from each block to the end of the code there is one. -/
def ReturnsLast (f : Func) : Prop :=
  ∀ b ∈ f.layout, (f.codeOf b ++ f.codeAfter b).filterMap Inst.returns? = [()]

structure Streamlined (f : Func) (headers : List BlockId) : Prop where
  chained : f.Chained
  branches : (f.code.filterMap Inst.branchTarget).Perm headers
  returns : f.ReturnsLast

theorem code_filterMap {α : Type} (f : Func) (pick : Inst → Option α) :
    f.code.filterMap pick = f.layout.flatMap fun b => (f.codeOf b).filterMap pick :=
  filterMap_flatMap ..

/-- The code of a function whose cells are resolved. -/
theorem Recoded.code {change : Inst → Inst} (recoded : Recoded f next fun b => (f.codeOf b).map change) :
    next.code = f.code.map change := by
  rw [Func.code, Func.code, recoded.layout, map_flatMap]
  exact flatMap_congr recoded.codeOf

theorem Renumbered.code_eq (renumbered : Renumbered f next) : next.code = f.code.map (renamed f.placement) := by
  rw [Func.code, renumbered.layout, range_eq_range']
  refine renumbered.flatMap_codeOf f.layout 0 fun i b isBlock => ?_
  rwa [zero_add]

/-- Dropping loads and stores leaves the branches of every block. -/
theorem Thinned.targetsOf (thinned : Thinned (Touches cells) f next) (inside : b ∈ f.layout) :
    next.targetsOf b = f.targetsOf b := by
  refine ((thinned.codes b inside).filterMap_eq (fun _ _ same => same ▸ rfl) ?_).symm
  rintro ⟨guard, frameSetup, op⟩ ⟨c, _, accessed⟩
  cases op <;> simp_all [readsCell, writesCell, branchTarget]

theorem Chained.thinned (chained : f.Chained) (thinned : Thinned (Touches cells) f next) : next.Chained :=
  thinned.recoded.chained chained fun _ => thinned.targetsOf

namespace Streamlined

variable (streamlined : f.Streamlined headers)

include streamlined

theorem merge (res : f.merge = .ok next) : next.Streamlined headers := by
  have merged := merge_merged streamlined.chained res
  refine ⟨merged.chained, ?_, fun b inside => ?_⟩
  · rw [(merge_joined streamlined.chained.strung res).code]
    exact streamlined.branches
  · rw [merged.code b inside]
    exact streamlined.returns b (merged.subset b inside)

/-- New code with the branches and returns of the old one. -/
theorem recoded {code : BlockId → List Inst} (recoded : Recoded f next code)
    (targets : ∀ b ∈ f.layout, (code b).filterMap branchTarget = f.targetsOf b)
    (returns : ∀ b ∈ f.layout, (code b).filterMap returns? = (f.codeOf b).filterMap returns?) :
    next.Streamlined headers := by
  refine ⟨recoded.chained streamlined.chained targets, ?_, fun b inside => ?_⟩
  · rw [code_filterMap, recoded.layout]
    have same : (f.layout.flatMap fun b => (next.codeOf b).filterMap branchTarget) =
        f.layout.flatMap f.targetsOf :=
      flatMap_congr fun b inside => by rw [recoded.codeOf b inside, targets b inside]
    rw [same]
    exact f.code_filterMap branchTarget ▸ streamlined.branches
  · rw [recoded.layout] at inside
    rw [← streamlined.returns b inside, filterMap_append, filterMap_append, recoded.codeOf b inside,
      returns b inside, recoded.codeAfter, codeAfter, filterMap_flatMap, filterMap_flatMap]
    congr 1
    exact flatMap_congr fun o later => returns o (following_subset later)

theorem thinned (thinned : Thinned (Touches cells) f next) : next.Streamlined headers := by
  have quiet : ∀ inst : Inst, inst.Touches cells → inst.returns? = none := by
    rintro ⟨guard, frameSetup, op⟩ ⟨c, _, accessed⟩
    cases op <;> simp_all [readsCell, writesCell, returns?, isReturn]
  refine streamlined.recoded thinned.recoded (fun b inside => ?_) fun b inside => ?_
  · exact thinned.targetsOf inside
  · exact ((thinned.codes b inside).filterMap_eq (fun _ _ same => same ▸ rfl) quiet).symm

theorem resolveCells (res : f.resolveCells = .ok next) : next.Streamlined headers := by
  have laid := streamlined.chained.laid
  have returns_placed (inst : Inst) : inst.placed.returns? = inst.returns? := by
    obtain ⟨guard, frameSetup, op⟩ := inst
    cases op with
    | load dst addr => cases addr <;> rfl
    | store addr src => cases addr <;> rfl
    | _ => rfl
  refine streamlined.recoded (resolveCells_recoded laid.once laid.found res)
    (fun b _ => f.targetsOf_placed b) fun b _ => ?_
  rw [filterMap_map]
  exact filterMap_congr fun inst _ => returns_placed inst

end Streamlined

theorem Chained.target_place (chained : f.Chained) {t : BlockId}
    (isBlock : f.layout[i]? = some b) (isTarget : t ∈ f.targetsOf b) :
    ∃ place, f.layout[place]? = some t ∧ place ≤ i := by
  have inside : b ∈ f.layout := mem_of_getElem? isBlock
  obtain ⟨inst, mem, isInst⟩ := mem_filterMap.mp isTarget
  obtain ⟨place, isPlace⟩ := getElem?_of_mem (chained.laid.targets b inside inst mem t isInst)
  refine ⟨place, isPlace, Nat.not_lt.mp fun later => chained.back b inside t isTarget ?_⟩
  have isLater : (f.layout.drop (i + 1))[place - (i + 1)]? = some t := by
    rw [getElem?_drop, Nat.add_sub_cancel' later, isPlace]
  rw [following_at chained.laid.once isBlock]
  exact mem_of_getElem? isLater

theorem ReturnsLast.not_return (returns : f.ReturnsLast) (once : f.layout.Nodup)
    (inside : b ∈ f.layout) (follows : following b f.layout ≠ []) : ∀ inst ∈ f.codeOf b, inst.isReturn = false := by
  obtain ⟨o, more, isNext⟩ := exists_cons_of_ne_nil follows
  obtain ⟨otherInside, isMore⟩ := following_next once inside isNext
  have all := returns b inside
  have later := returns o otherInside
  rw [codeAfter, isMore, ← flatMap_cons, ← isNext] at later
  rw [filterMap_append, codeAfter, later, append_eq_singleton_iff] at all
  have none : (f.codeOf b).filterMap returns? = [] := by simpa using all
  intro inst mem
  have isNone := filterMap_eq_nil_iff.mp none inst mem
  cases isReturn : inst.isReturn with
  | false => rfl
  | true => simp [returns?, isReturn] at isNone

/-- The last block has the return, and no other block has one. -/
theorem ReturnsLast.last (returns : f.ReturnsLast) (once : f.layout.Nodup) (some : f.layout ≠ []) :
    ∃ before last, f.layout = before ++ [last] ∧ ((f.codeOf last).filter isReturn).length = 1 ∧
      ∀ b ∈ before, ∀ inst ∈ f.codeOf b, inst.isReturn = false := by
  obtain ⟨before, last, isLayout⟩ : ∃ before last, f.layout = before ++ [last] :=
    ⟨_, _, (dropLast_append_getLast some).symm⟩
  refine ⟨before, last, isLayout, ?_, fun b inside => ?_⟩
  · have one := returns last (by simp [isLayout])
    rw [codeAfter, following_split once isLayout, flatMap_nil, append_nil] at one
    have counted := congrArg length one
    rw [length_filterMap_eq_countP, length_singleton] at counted
    rw [← countP_eq_length_filter, ← counted]
    refine countP_congr fun inst _ => ?_
    cases isReturn : inst.isReturn <;> simp [returns?, isReturn]
  · refine returns.not_return once (by simp [isLayout, inside]) ?_
    obtain ⟨first, second, split⟩ := append_of_mem inside
    have isSplit : f.layout = first ++ b :: (second ++ [last]) := by simp [isLayout, split]
    simp [following_split once isSplit]

theorem Streamlined.errors_nil {tree : ScopeTree} (streamlined : f.Streamlined (Shape.loopHeaders tree))
    (once : (Shape.loopHeaders tree).Nodup) : Shape.errors f tree = .ok [] := by
  have chained := streamlined.chained
  have headed {b t : BlockId} (inside : b ∈ f.layout) (isTarget : t ∈ f.targetsOf b) :
      t ∈ Shape.loopHeaders tree := by
    refine streamlined.branches.mem_iff.mp ?_
    rw [code_filterMap]
    exact mem_flatMap.mpr ⟨b, inside, isTarget⟩
  refine (Shape.errors_eq_nil chained.laid.once).mpr ⟨chained.laid.found, fun i b isBlock t isTarget => ?_,
    fun header _ => ?_,
    fun b inside succ isSucc => ?_, fun b inside => streamlined.returns.not_return chained.laid.once inside⟩
  · exact ⟨headed (mem_of_getElem? isBlock) isTarget, chained.target_place isBlock isTarget⟩
  · exact nodup_iff_count_le_one.mp (streamlined.branches.nodup_iff.mpr once) header
  · exact ((chained.edges b inside succ).mp isSucc).imp_right (headed inside)

end Func

end SinglePath
