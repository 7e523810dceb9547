import SinglePath.Proofs.Flow.Unbroken
import SinglePath.Proofs.Reduction.Faultless
import SinglePath.Proofs.Reduction.Options

namespace SinglePath

open List

namespace Func

variable {func merged : Func} {base : BlockId} {rest : List BlockId}

/-- A block begins here, because the block before it branches or because a branch leads to it. -/
def Parts (func : Func) (before b : BlockId) : Prop :=
  func.targetsOf before ≠ [] ∨ ∃ o ∈ func.layout, b ∈ func.targetsOf o

/-- A merge leaves alone what stands before its base, and after the base it keeps blocks that begin for a reason. -/
theorem MergeRun.parts (run : MergeRun base rest func merged) (chained : func.Chained) {before : List BlockId}
    (split : func.layout = before ++ base :: rest) :
    ∃ kept, merged.layout = before ++ base :: kept ∧ (∀ b ∈ before, merged.codeOf b = func.codeOf b) ∧
      IsChain merged.Parts (base :: kept) := by
  have once := chained.laid.once
  induction run generalizing before with
  | done => exact ⟨[], split, fun _ _ => rfl, .singleton _⟩
  | splice alone res _ _ ih =>
    have step := spliceStep once split res
    obtain ⟨kept, layout, same, parts⟩ := ih (step.strings chained alone) step.splitNext step.onceNext
    exact ⟨kept, layout, fun b isBefore => (same b isBefore).trans (step.codeOf_kept (.inl isBefore)), parts⟩
  | @close base b fresh later func next merged alone res several _ ih =>
    have step := spliceStep once split res
    have chainedNext := step.strings chained alone
    obtain ⟨kept, layout, same, parts⟩ := ih chainedNext (step.splitNext.trans (append_cons ..)) step.onceNext
    refine ⟨fresh :: kept, layout.trans (append_cons ..).symm, fun b isBefore => ?_, .cons_cons (.inl ?_) parts⟩
    · exact (same b (mem_append_left _ isBefore)).trans (step.codeOf_kept (.inl isBefore))
    · -- The base has two successors, so it has a branch.
      intro noBranch
      rw [targetsOf, same base (by simp)] at noBranch
      have one := chainedNext.single_succ (by simp [step.splitNext]) noBranch
      omega
  | last alone res =>
    have step := spliceStep once split res
    exact ⟨[], step.splitNext, fun _ isBefore => step.codeOf_kept (.inl isBefore), .singleton _⟩
  | @skip base b rest func merged shared run ih =>
    have regrouped := split.trans (append_cons before base (b :: rest))
    obtain ⟨kept, layout, same, parts⟩ := ih chained regrouped once
    refine ⟨b :: kept, layout.trans (append_cons ..).symm, fun o isBefore => same o (by simp [isBefore]),
      .cons_cons (.inr ?_) parts⟩
    obtain ⟨o, otherInside, branches⟩ := chained.target_of_shared split shared
    obtain ⟨inst, isInst, isTarget⟩ := mem_filterMap.mp branches
    have isCode : inst ∈ func.code := mem_flatMap.mpr ⟨o, otherInside, isInst⟩
    rw [← (run.joined once regrouped).code] at isCode
    obtain ⟨holder, holderInside, isHeld⟩ := mem_flatMap.mp isCode
    exact ⟨holder, holderInside, mem_filterMap.mpr ⟨inst, isHeld, isTarget⟩⟩

/-- Every block is closed by its branch: nothing follows a branch, a block with two ways out ends in a branch back to
one of the headers, and a block begins at the entry, at a header or right after a branch. -/
structure BranchClosed (func : Func) (headers : List BlockId) : Prop where
  ends : ∀ b ∈ func.layout, BranchEnds (func.codeOf b)
  several : ∀ b ∈ func.layout, 1 < (func.succsOf b).length → ∃ inst t,
    (func.codeOf b).getLast? = some inst ∧ inst.branchTarget = some t ∧ t ∈ headers ∧
      t ∉ following b func.layout
  begins : ∀ b ∈ func.layout, b = func.entry ∨ b ∈ headers ∨ ∃ before ∈ func.layout,
    (following before func.layout).head? = some b ∧ ∃ inst t,
      (func.codeOf before).getLast? = some inst ∧ inst.branchTarget = some t ∧ t ∈ headers

theorem merge_branchClosed {headers : List BlockId} (chained : func.Chained) (spaced : func.Spaced)
    (targets : ∀ t ∈ func.code.filterMap Inst.branchTarget, t ∈ headers) (res : func.merge = .ok merged) :
    merged.BranchClosed headers := by
  have ends := merge_branchEnds chained spaced res
  have chainedMerged := (merge_merged chained res).chained
  have isHeader : ∀ b ∈ merged.layout, ∀ t ∈ merged.targetsOf b, t ∈ headers := by
    intro b inside t branches
    obtain ⟨inst, isInst, isTarget⟩ := mem_filterMap.mp branches
    refine targets t (mem_filterMap.mpr ⟨inst, ?_, isTarget⟩)
    exact (merge_joined chained.strung res).code ▸ mem_flatMap.mpr ⟨b, inside, isInst⟩
  have closes : ∀ b ∈ merged.layout, merged.targetsOf b ≠ [] → ∃ inst t,
      (merged.codeOf b).getLast? = some inst ∧ inst.branchTarget = some t ∧ t ∈ merged.targetsOf b := by
    intro b inside branches
    obtain ⟨t, isTarget⟩ := exists_mem_of_ne_nil _ branches
    obtain ⟨inst, isLast, isBranch⟩ := (ends b inside).last isTarget
    exact ⟨inst, t, isLast, isBranch, isTarget⟩
  refine ⟨ends, fun b inside several => ?_, fun b inside => ?_⟩
  · have branches : merged.targetsOf b ≠ [] := fun none => by
      have one := chainedMerged.single_succ inside none
      omega
    obtain ⟨inst, t, isLast, isBranch, isTarget⟩ := closes b inside branches
    exact ⟨inst, t, isLast, isBranch, isHeader b inside t isTarget, chainedMerged.back b inside t isTarget⟩
  · obtain ⟨rest, split, run⟩ := merge_run chained.strung res
    obtain ⟨kept, layout, _, parts⟩ := run.parts chained split
    rw [layout, nil_append] at inside
    rcases mem_cons.mp inside with rfl | isKept
    · exact .inl (merge_merged chained res).entry.symm
    · obtain ⟨first, second, around⟩ := append_of_mem isKept
      obtain ⟨earlier, before, isEnd⟩ : ∃ earlier before, func.entry :: first = earlier ++ [before] :=
        ⟨_, _, (dropLast_concat_getLast (cons_ne_nil _ _)).symm⟩
      have whole : merged.layout = earlier ++ before :: b :: second := by
        rw [layout, around, nil_append, ← cons_append, isEnd, append_assoc, singleton_append]
      have beforeInside : before ∈ merged.layout := by simp [whole]
      have next : (following before merged.layout).head? = some b := by
        rw [following_split chainedMerged.laid.once whole]
        rfl
      rw [← nil_append (func.entry :: kept), ← layout, whole, isChain_split] at parts
      rcases (isChain_cons_cons.mp parts.2).1 with branches | ⟨o, otherInside, branches⟩
      · obtain ⟨inst, t, isLast, isBranch, isTarget⟩ := closes before beforeInside branches
        exact .inr (.inr ⟨before, beforeInside, next, inst, t, isLast, isBranch,
          isHeader before beforeInside t isTarget⟩)
      · exact .inr (.inl (isHeader o otherInside b branches))

section

variable {original start : Func} {tree : ScopeTree} {regs : TargetRegs} {plan : Plan} {straight : Work}

/-- The blocks of a straightened function can be merged, and its runs stay the same but for the block that they may fall
off. -/
theorem straighten_merge_run (derived : original.deriveEdges = .ok func) (once : func.layout.Nodup)
    (entered : func.entry ∈ func.layout) (plain : ∀ inst ∈ trailing (func.codeOf func.entry), inst.frameSetup = false)
    (tails : ∀ block, BranchesLast (func.codeOf block)) (planned : Plan.make tree regs func = .ok (plan, start))
    (straightened : plan.straighten { func := start } = .ok straight) :
    ∃ merged, straight.func.merge = .ok merged ∧
      (∀ regs, (merged.run regs).anonymous = (straight.func.run regs).anonymous) ∧ ∀ regs limit machine,
        (merged.runWithin regs limit machine).anonymous = (straight.func.runWithin regs limit machine).anonymous := by
  obtain ⟨_, _, depths, made⟩ := Plan.make_ok planned
  obtain ⟨predicated, defined, events, links, stages⟩ := made.stages once plain entered straightened
  have chained := stages.chained made (deriveEdges_ok derived).2 tails
  obtain ⟨merged, merging⟩ := chained.merge_total
  have same := (merge_merged chained merging).runWithin_eq chained.laid
  refine ⟨merged, merging, fun regs => ?_, same⟩
  rw [run_eq, run_eq]
  cases Machine.initial regs with
  | error fault => rw [liftM_error, error_bind, error_bind]
  | ok machine => rw [liftM_ok, ok_bind, ok_bind, same]

/-- The blocks of a straightened function can be merged, and every merged block is closed by its branch back, if the
loops of the tree are apart. -/
theorem straighten_merge_closed (derived : original.deriveEdges = .ok func) (once : func.layout.Nodup)
    (entered : func.entry ∈ func.layout) (plain : ∀ inst ∈ trailing (func.codeOf func.entry), inst.frameSetup = false)
    (tails : ∀ block, BranchesLast (func.codeOf block)) (planned : Plan.make tree regs func = .ok (plan, start))
    (straightened : plan.straighten { func := start } = .ok straight) (loopsApart : tree.LoopsApart plan.allocs) :
    ∃ merged, straight.func.merge = .ok merged ∧ merged.BranchClosed (Shape.loopHeaders tree) := by
  obtain ⟨rfl, _, depths, made⟩ := Plan.make_ok planned
  obtain ⟨predicated, defined, events, links, stages⟩ := made.stages once plain entered straightened
  have chained := stages.chained made (deriveEdges_ok derived).2 tails
  have spaced := stages.linearized.spaced made.valid (stages.entry made) (stages.length made)
    (stages.plain tails) loopsApart
  obtain ⟨merged, merging⟩ := chained.merge_total
  refine ⟨merged, merging, merge_branchClosed chained spaced (fun target branches => ?_) merging⟩
  rw [stages.linearized.code_targets (stages.plain tails)] at branches
  exact (stages.linearized.backs_perm made.valid).mem_iff.mp branches

/-- A plan for the function is made, the function is straightened and its blocks are merged, and the functions before
and after that are as told. -/
def mergesTo (func : Func) (tree : ScopeTree) (regs : TargetRegs) (told : Func → Func → Bool) : Bool :=
  (do
    let (plan, start) ← (Plan.make tree regs func).toOption
    let straight ← (plan.straighten { func := start }).toOption
    let merged ← straight.func.merge.toOption
    return told straight.func merged) = some true

theorem exists_of_mergesTo {told : Func → Func → Bool} (merges : func.mergesTo tree regs told = true) :
    ∃ plan start straight merged, Plan.make tree regs func = .ok (plan, start) ∧
      plan.straighten { func := start } = .ok straight ∧ straight.func.merge = .ok merged ∧
      told straight.func merged = true := by
  unfold mergesTo at merges
  cases planned : Plan.make tree regs func with
  | error failure => simp [planned, Except.toOption] at merges
  | ok made =>
    cases straightened : made.1.straighten { func := made.2 } with
    | error failure => simp [planned, straightened, Except.toOption] at merges
    | ok straight =>
      cases merging : straight.func.merge with
      | error fault => simp [planned, straightened, merging, Except.toOption] at merges
      | ok merged =>
        refine ⟨made.1, made.2, straight, merged, rfl, straightened, merging, ?_⟩
        simpa [planned, straightened, merging, Except.toOption] using merges

end

theorem straighten_merge_run_countdown : ∃ plan start straight merged,
    Plan.make countdownTree {} countdownFunc = .ok (plan, start) ∧ plan.straighten { func := start } = .ok straight ∧
      straight.func.merge = .ok merged ∧ ∀ regs limit machine,
        (merged.runWithin regs limit machine).anonymous = (straight.func.runWithin regs limit machine).anonymous := by
  obtain ⟨plan, start, straight, _, planned, straightened, _, _⟩ := exists_of_mergesTo
    (show countdownFunc.mergesTo countdownTree {} (fun _ _ => true) = true by decide +kernel)
  have derived : countdownFunc.deriveEdges = .ok countdownFunc := rfl
  obtain ⟨merged, merging, _, same⟩ := straighten_merge_run derived (by decide) (by decide) (by decide)
    (branchesLast_of_blocks (by decide)) planned straightened
  exact ⟨plan, start, straight, merged, planned, straightened, merging, same⟩

theorem straighten_merge_closed_countdown : ∃ plan start straight merged,
    Plan.make countdownTree {} countdownFunc = .ok (plan, start) ∧ plan.straighten { func := start } = .ok straight ∧
      straight.func.merge = .ok merged ∧ merged.BranchClosed (Shape.loopHeaders countdownTree) := by
  obtain ⟨plan, start, straight, _, planned, straightened, _, _⟩ := exists_of_mergesTo
    (show countdownFunc.mergesTo countdownTree {} (fun _ _ => true) = true by decide +kernel)
  have derived : countdownFunc.deriveEdges = .ok countdownFunc := rfl
  obtain ⟨merged, merging, closed⟩ := straighten_merge_closed derived (by decide) (by decide) (by decide)
    (branchesLast_of_blocks (by decide)) planned straightened (countdownTree_loopsApart plan.allocs)
  exact ⟨plan, start, straight, merged, planned, straightened, merging, closed⟩

/-- The branch back of the outer loop is not the last instruction of its merged block. -/
theorem merge_not_closed :
    (⟨endingLoopFunc, endingLoopTree⟩ : Program).validate { predCount := 5 } = .ok () ∧
    endingLoopFunc.deriveEdges = .ok endingLoopFunc ∧ (∀ block, BranchesLast (endingLoopFunc.codeOf block)) ∧
    ∃ plan start straight merged, Plan.make endingLoopTree { predCount := 5 } endingLoopFunc = .ok (plan, start) ∧
      plan.straighten { func := start } = .ok straight ∧ straight.func.merge = .ok merged ∧
      ∃ block ∈ merged.layout, ¬ BranchEnds (merged.codeOf block) := by
  obtain ⟨plan, start, straight, merged, planned, straightened, merging, told⟩ := exists_of_mergesTo
    (show endingLoopFunc.mergesTo endingLoopTree { predCount := 5 }
      (fun _ merged => ∃ block ∈ merged.layout, ¬ BranchEnds (merged.codeOf block)) = true by decide +kernel)
  exact ⟨by decide +kernel, rfl, branchesLast_of_blocks (by decide), plan, start, straight, merged, planned,
    straightened,
    merging, of_decide_eq_true told⟩

end Func

namespace Program

/-- The entry has two places in the layout. -/
def entryLaidTwice : Program where
  func := {
    name := "twice"
    blocks := [
      { name := "entry", insts := [.plain (.branch ⟨1⟩)], succs := [⟨1⟩] },
      { name := "done", insts := [.plain (.ret ⟨1⟩)], preds := [⟨0⟩] }]
    layout := [⟨0⟩, ⟨0⟩, ⟨1⟩] }
  tree := { Func.setupBranchTree with wholeFunction := true }

/-- The program is accepted, its edges are derived and branches come last in its blocks, but merging changes the run of
the straightened function. -/
def MergeMatters (p : Program) : Prop :=
  p.validate {} = .ok () ∧ p.func.deriveEdges = .ok p.func ∧
    (∀ b, BranchesLast (p.func.codeOf b)) ∧ ∃ plan start straight merged,
      Plan.make p.tree {} p.func = .ok (plan, start) ∧ plan.straighten { func := start } = .ok straight ∧
        straight.func.merge = .ok merged ∧ (merged.run {}).anonymous ≠ (straight.func.run {}).anonymous

theorem merge_matters : entryLaidTwice.MergeMatters ∧ setupBranchOut.MergeMatters := by
  have matters : ∀ {program : Program}, program.validate {} = .ok () → program.func.deriveEdges = .ok program.func →
      (∀ index < program.func.blocks.length, BranchesLast (program.func.codeOf ⟨index⟩)) →
      program.func.mergesTo program.tree {}
        (fun straight merged => (merged.run {}).anonymous ≠ (straight.run {}).anonymous) =
        true → program.MergeMatters := by
    intro program accepted derived tails merges
    obtain ⟨plan, start, straight, merged, planned, straightened, merging, told⟩ := Func.exists_of_mergesTo merges
    exact ⟨accepted, derived, Func.branchesLast_of_blocks tails, plan, start, straight, merged, planned,
      straightened, merging,
      of_decide_eq_true told⟩
  exact ⟨matters (by decide +kernel) rfl (by decide) (by decide +kernel),
    matters (by decide +kernel) rfl (by decide) (by decide +kernel)⟩

end Program

end SinglePath
