import SinglePath.Proofs.Reduction.Instructions
import SinglePath.Proofs.Straight.Chains

namespace SinglePath

open Inst List

namespace Func

variable {func next final : Func} {tree : ScopeTree}

/-- The shape of single-path code for a tree, under the new numbers of its blocks. -/
structure SinglePathShape (func : Func) (tree : ScopeTree) (blockMap : BlockMap) : Prop where
  branches : ((func.code.filterMap Inst.branchTarget).map some).Perm ((Shape.loopHeaders tree).map blockMap.get?)
  back : ∀ b ∈ func.layout, ∀ t ∈ func.targetsOf b,
    t ∈ func.layout ∧ func.layout.idxOf t ≤ func.layout.idxOf b
  falls : ∀ b ∈ func.layout, ∀ o, o ∈ func.succsOf b ↔
    (following b func.layout).head? = some o ∨ o ∈ func.targetsOf b
  returns : ∃ before last, func.layout = before ++ [last] ∧ ((func.codeOf last).filter Inst.isReturn).length = 1 ∧
    ∀ b ∈ before, ∀ inst ∈ func.codeOf b, inst.isReturn = false
  entry : func.predsOf func.entry = []

theorem Laid.renamed_targets (laid : func.Laid) {code : List Inst}
    (inside : ∀ inst ∈ code, ∀ t, inst.branchTarget = some t → t ∈ func.layout) :
    ((code.map (renamed func.placement)).filterMap branchTarget).map some =
      (code.filterMap branchTarget).map func.placement.get? := by
  have each : branchTarget ∘ renamed func.placement = fun inst : Inst =>
      inst.branchTarget.map fun t => (func.placement.get? t).getD t :=
    funext fun inst => branchTarget_renamed func.placement inst
  rw [filterMap_map, each, ← map_filterMap, map_map]
  refine map_congr_left fun t isTarget => ?_
  obtain ⟨inst, mem, isInst⟩ := mem_filterMap.mp isTarget
  obtain ⟨place, isPlace⟩ := getElem?_of_mem (inside inst mem t isInst)
  simp [placement_get? laid.once isPlace]

namespace Renumbered

variable (renumbered : Renumbered func next) {i : Nat} {b : BlockId}

include renumbered

theorem idxOf (inside : i < func.layout.length) : next.layout.idxOf ⟨i⟩ = i := by
  have inRange : i < next.layout.length := by simpa [renumbered.layout] using inside
  have isAt : next.layout[i] = ⟨i⟩ := by simp [renumbered.layout]
  rw [← isAt]
  exact renumbered.once.idxOf_getElem i inRange

theorem targetsOf (laid : func.Laid) (isBlock : func.layout[i]? = some b) :
    (next.targetsOf ⟨i⟩).map some = (func.targetsOf b).map func.placement.get? := by
  rw [Func.targetsOf, renumbered.codeOf i b isBlock]
  exact laid.renamed_targets (laid.targets b (mem_of_getElem? isBlock))

theorem head_following (once : func.layout.Nodup) (isBlock : func.layout[i]? = some b) :
    (following ⟨i⟩ next.layout).head?.map some = (following b func.layout).head?.map func.placement.get? := by
  have inside := lt_length isBlock
  rw [renumbered.following_eq inside, following_at once isBlock, head?_map, head?_range', head?_drop]
  cases isNext : func.layout[i + 1]? with
  | none =>
    have short := getElem?_eq_none_iff.mp isNext
    simp [Nat.sub_eq_zero_of_le short]
  | some o =>
    have longer := lt_length isNext
    have more : func.layout.length - (i + 1) ≠ 0 := by omega
    simp [placement_get? once isNext, more]

theorem returnsLast (returns : func.ReturnsLast) (once : func.layout.Nodup) : next.ReturnsLast := by
  have same : returns? ∘ renamed func.placement = returns? := by
    funext inst
    obtain unchanged | ⟨t, label, isBranch, isRenamed⟩ := renamed_cases func.placement inst
    · rw [Function.comp_apply, unchanged]
    · rw [Function.comp_apply, isRenamed, returns?, returns?, isReturn, isReturn, isBranch]
  intro b inside
  have isOld := getElem?_eq_getElem (renumbered.mem_layout.mp inside)
  have isCode := renumbered.code once isOld
  rw [isCode, filterMap_map, same]
  exact returns _ (mem_of_getElem? isOld)

end Renumbered

/-- A streamlined function has its shape under the new numbers. -/
theorem Streamlined.shape (streamlined : func.Streamlined (Shape.loopHeaders tree))
    (renumbered : Renumbered func next) :
    next.SinglePathShape tree func.placement := by
  have chained := streamlined.chained
  have laid := chained.laid
  have position_of : ∀ b ∈ next.layout, ∃ i old, b = ⟨i⟩ ∧ func.layout[i]? = some old := by
    intro b inside
    have inRange := renumbered.mem_layout.mp inside
    exact ⟨b.index, _, rfl, getElem?_eq_getElem inRange⟩
  refine ⟨?_, ?_, ?_, ?_, ?_⟩
  · rw [renumbered.code_eq, laid.renamed_targets fun inst mem => ?_]
    · exact streamlined.branches.map _
    · obtain ⟨b, inside, isInst⟩ := mem_flatMap.mp mem
      exact laid.targets b inside inst isInst
  · intro b inside t isTarget
    obtain ⟨i, old, rfl, isOld⟩ := position_of b inside
    have isNew : some t ∈ (func.targetsOf old).map func.placement.get? :=
      renumbered.targetsOf laid isOld ▸ mem_map_of_mem isTarget
    obtain ⟨oldTarget, isOldTarget, isPlaced⟩ := mem_map.mp isNew
    obtain ⟨place, isPlace, earlier⟩ := chained.target_place isOld isOldTarget
    rw [placement_get? laid.once isPlace] at isPlaced
    cases isPlaced
    have placeInside := lt_length isPlace
    refine ⟨renumbered.mem_layout.mpr placeInside, ?_⟩
    rw [renumbered.idxOf placeInside, renumbered.idxOf (lt_length isOld)]
    exact earlier
  · intro b inside o
    obtain ⟨i, old, rfl, isOld⟩ := position_of b inside
    have succs : o ∈ next.succsOf ⟨i⟩ ↔ some o ∈ (func.succsOf old).map func.placement.get? := by
      rw [← renumbered.succsOf i old isOld]
      simp
    have targets : o ∈ next.targetsOf ⟨i⟩ ↔ some o ∈ (func.targetsOf old).map func.placement.get? := by
      rw [← renumbered.targetsOf laid isOld]
      simp
    have isNext : (following ⟨i⟩ next.layout).head? = some o ↔
        (following old func.layout).head?.map func.placement.get? = some (some o) := by
      rw [← renumbered.head_following laid.once isOld]
      simp
    rw [succs, targets, isNext]
    simp only [mem_map, chained.edges old (mem_of_getElem? isOld), Option.map_eq_some_iff]
    grind
  · obtain ⟨start, isStart, _⟩ := renumbered.entry
    have inside : (⟨start⟩ : BlockId) ∈ next.layout := renumbered.mem_layout.mpr (lt_length isStart)
    exact (renumbered.returnsLast streamlined.returns laid.once).last renumbered.once (ne_nil_of_mem inside)
  · obtain ⟨i, isPosition, isEntry⟩ := renumbered.entry
    have noPreds : func.predsOf func.entry = [] := eq_nil_iff_forall_not_mem.mpr fun b isPred =>
      chained.entry_not_succ b ((chained.linked.ends b func.entry).mpr isPred)
    have preds := renumbered.predsOf i func.entry isPosition
    rw [noPreds, map_nil, map_eq_nil_iff] at preds
    rw [isEntry]
    exact preds

variable {original : Func} {regs : TargetRegs} {options : ReduceOptions} {reduction : Reduction}

/-- If the edges of a function follow its code, its branches stand at the ends of its blocks and its only return ends
the last node of the tree, a reduction gives single-path code, and the check of the shape makes no difference. -/
theorem reduce_shape (derived : original.deriveEdges = .ok func) (singlePath : tree.singlePath = true)
    (once : func.layout.Nodup) (plain : ∀ inst ∈ trailing (func.codeOf func.entry), inst.frameSetup = false)
    (tails : ∀ block, BranchesLast (func.codeOf block)) {last : BlockId} (only : func.OnlyReturn tree last)
    (reduced : func.reduce tree regs options = (.ok reduction, final)) :
    final.SinglePathShape tree reduction.blockMap ∧
      func.reduce tree regs { options with checkShape := true } = (.ok reduction, final) := by
  obtain ⟨plan, start, straight, merged, cleaned, resolved, planned, phases⟩ := reduce_ok singlePath reduced
  obtain ⟨rfl, _, depths, made⟩ := Plan.make_ok planned
  obtain ⟨predicated, defined, events, links, stages⟩ :=
    made.stages once plain (phases.entered made) phases.straightened
  have straightened := stages.streamlined made (deriveEdges_ok derived).2 tails only
  have streamlined := ((straightened.merge phases.merging).thinned (Plan.clean_thinned phases.cleaning)).resolveCells
    phases.resolving
  have correct : Shape.check resolved plan.tree = .ok () := by
    rw [Shape.check, streamlined.errors_nil (Plan.loopHeaders_nodup made.valid)]
    rfl
  obtain ⟨isMap, renumbered⟩ := renumber_renumbered streamlined.chained.laid.once phases.renumbering
  refine ⟨isMap ▸ streamlined.shape renumbered, ?_⟩
  rw [← reduced]
  unfold reduce Work.reduce
  simp only [planned, Work.await_ok, ok_bind, phases.carryOut_checked correct]

theorem forall_codeOf {Holds : BlockId → List Inst → Prop} (nothing : ∀ b, Holds b [])
    (each : ∀ index < func.blocks.length, Holds ⟨index⟩ (func.codeOf ⟨index⟩)) (b : BlockId) :
    Holds b (func.codeOf b) := by
  by_cases inside : b.index < func.blocks.length
  · exact each b.index inside
  · rw [Chain.codeOf_fresh (Nat.not_lt.mp inside)]
    exact nothing b

theorem branchesLast_of_blocks (each : ∀ index < func.blocks.length, BranchesLast (func.codeOf ⟨index⟩)) :
    ∀ b, BranchesLast (func.codeOf b) :=
  @forall_codeOf func (fun _ code => BranchesLast code) (fun _ => by decide) each

theorem OnlyReturn.of_blocks {top : Scope} {body : List Inst} {final : Inst} {last : BlockId}
    (got : tree.get ScopeTree.root = .ok top) (isLast : top.nodes.getLast? = some (.block last))
    (isCode : func.codeOf last = body ++ [final]) (isReturn : final.isReturn = true)
    (plain : ∀ inst ∈ body, inst.isReturn = false) (others : ∀ index < func.blocks.length, (⟨index⟩ : BlockId) ≠ last →
      ∀ inst ∈ func.codeOf ⟨index⟩, inst.isReturn = false) : func.OnlyReturn tree last :=
  ⟨⟨top, got, isLast⟩, ⟨body, final, isCode, isReturn, plain⟩,
    @forall_codeOf func (fun b code => b ≠ last → ∀ inst ∈ code, inst.isReturn = false) (fun _ _ => nofun) others⟩

theorem reduce_shape_countdown :
    ∃ reduction final, countdownFunc.reduce countdownTree {} {} = (.ok reduction, final) ∧
      final.SinglePathShape countdownTree reduction.blockMap ∧
      countdownFunc.reduce countdownTree {} { checkShape := true } = (.ok reduction, final) := by
  obtain ⟨reduction, final, reduced, _⟩ := exists_of_reducesTo
    (show countdownFunc.reducesTo countdownTree {} {} (fun _ _ => true) = true by decide +kernel)
  have derived : countdownFunc.deriveEdges = .ok countdownFunc := rfl
  have only : countdownFunc.OnlyReturn countdownTree ⟨2⟩ :=
    .of_blocks rfl rfl (List.nil_append _).symm rfl nofun (by decide)
  obtain ⟨shape, checked⟩ := reduce_shape derived (show countdownTree.singlePath = true from rfl)
    (by decide) (by decide)
    (branchesLast_of_blocks (by decide)) only reduced
  exact ⟨reduction, final, reduced, shape, checked⟩

/-- A branch of the entry that is marked as frame setup stays, and a block that is laid out twice returns twice. -/
theorem reduce_not_shaped :
    (∃ reduction final, setupBranchFunc.deriveEdges = .ok setupBranchFunc ∧
      (∀ block, BranchesLast (setupBranchFunc.codeOf block)) ∧ setupBranchFunc.OnlyReturn setupBranchTree ⟨1⟩ ∧
      setupBranchFunc.reduce setupBranchTree {} {} = (.ok reduction, final) ∧
      ¬ final.SinglePathShape setupBranchTree reduction.blockMap) ∧
    ∃ reduction final, twiceLaidFunc.deriveEdges = .ok twiceLaidFunc ∧
      (∀ block, BranchesLast (twiceLaidFunc.codeOf block)) ∧ twiceLaidFunc.OnlyReturn (.single ⟨0⟩) ⟨0⟩ ∧
      twiceLaidFunc.reduce (.single ⟨0⟩) {} {} = (.ok reduction, final) ∧
      ¬ final.SinglePathShape (.single ⟨0⟩) reduction.blockMap := by
  constructor
  · obtain ⟨reduction, final, reduced, told⟩ :=
      exists_of_reducesTo (show setupBranchFunc.reducesTo setupBranchTree {} {}
      (fun _ final => final.code.filterMap Inst.branchTarget = [⟨0⟩]) = true by decide +kernel)
    refine ⟨reduction, final, rfl, branchesLast_of_blocks (by decide),
      .of_blocks rfl rfl (List.nil_append _).symm rfl nofun (by decide), reduced, fun shape => ?_⟩
    have counted := shape.branches.length_eq
    rw [of_decide_eq_true told, List.length_map, List.length_map] at counted
    exact absurd counted (by decide)
  · obtain ⟨reduction, final, reduced, told⟩ := exists_of_reducesTo (show twiceLaidFunc.reducesTo (.single ⟨0⟩) {} {}
      (fun _ final => final.layout = [⟨0⟩, ⟨1⟩] ∧ final.codeOf ⟨0⟩ = [.plain (.ret ⟨1⟩)]) = true by decide +kernel)
    obtain ⟨isLayout, isCode⟩ := of_decide_eq_true told
    refine ⟨reduction, final, rfl, branchesLast_of_blocks (by decide),
      .of_blocks rfl rfl (List.nil_append _).symm rfl nofun (by decide), reduced, fun shape => ?_⟩
    obtain ⟨before, last, split, _, noReturn⟩ := shape.returns
    have first : (⟨0⟩ : BlockId) ∈ before := by
      have shorter : before = [⟨0⟩] := by
        rw [isLayout] at split
        exact (List.append_inj_left' (show [⟨0⟩] ++ [⟨1⟩] = before ++ [last] from split) rfl).symm
      simp [shorter]
    exact absurd (noReturn ⟨0⟩ first (.plain (.ret ⟨1⟩)) (by simp [isCode])) (by decide)

end Func

end SinglePath
