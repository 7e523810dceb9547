import SinglePath.Proofs.Reduction.Shaped
import SinglePath.Proofs.Straight.Completed

/-!
How a reduction that is planned is concluded, if the edges of the function follow its code and its branches end its
blocks.
-/

namespace SinglePath

open Func Inst Shape Work

/-- The edges of the function follow its code, and its branches stand at the ends of its blocks. -/
structure Func.Ordered (f : Func) : Prop where
  derived : f.Derived
  once : f.layout.Nodup
  entered : f.entry ∈ f.layout
  plain : ∀ inst ∈ trailing (f.codeOf f.entry), inst.frameSetup = false
  tails : ∀ b, BranchesLast (f.codeOf b)

/-- An ordered function whose only return is the last instruction of the last node of the tree, and whose calls are
unguarded. -/
structure Func.Regular (f : Func) (tree : ScopeTree) (last : BlockId) : Prop extends f.Ordered where
  only : f.OnlyReturn tree last
  unguarded : ∀ b, ∀ inst ∈ f.codeOf b, inst.isCall = true → inst.guard.isAlways = true

theorem Shape.errors_total {f : Func} (found : ∀ b ∈ f.layout, b.index < f.blocks.length) (tree : ScopeTree) :
    ∃ wrong, errors f tree = .ok wrong := by
  obtain ⟨blocks, mapped⟩ : ∃ blocks, f.layout.mapM (fun b => do return (b, ← f.get b)) = .ok blocks := by
    refine mapM_ok fun b inside => ?_
    obtain ⟨body, got⟩ := get_total (found b inside)
    exact ⟨(b, body), by rw [got]; rfl⟩
  exact ⟨_, bind_ok mapped rfl⟩

theorem Inst.Addressable.of_bare {inst o : Inst} (addressable : inst.Addressable) (same : o.bare = inst.bare) :
    o.Addressable := by
  intro c named
  refine addressable c ?_
  rwa [← readsCell_bare, ← writesCell_bare, ← same, readsCell_bare, writesCell_bare]

namespace Plan

variable {plan : Plan} {f start : Func} {depths : List Nat} {last : BlockId}

theorem Own.cell_mem {inst : Inst} (own : plan.Own inst) {c : CellId}
    (named : inst.readsCell = some c ∨ inst.writesCell = some c) : c ∈ plan.frame.cells := by
  obtain ⟨guard, frameSetup, op⟩ := inst
  obtain ⟨_, owned⟩ := own
  cases op with
  | load dst addr =>
    cases addr with
    | frame o =>
      obtain rfl : o = c := by simpa [readsCell, writesCell] using named
      exact owned.2
    | stack _ => simp [readsCell, writesCell] at named
    | memory _ _ => simp [readsCell, writesCell] at named
  | store addr src =>
    cases addr with
    | frame o =>
      obtain rfl : o = c := by simpa [readsCell, writesCell] using named
      exact owned.2
    | stack _ => simp [readsCell, writesCell] at named
    | memory _ _ => simp [readsCell, writesCell] at named
  | _ => simp [readsCell, writesCell] at named

/-- The instructions of the plan can be resolved if its cells have offsets. -/
theorem Inserts.addressable {inst : Inst} (inserts : plan.Inserts inst)
    (placed : ∀ c ∈ plan.frame.cells, ∃ k, c.offset = .ok k) : inst.Addressable := by
  intro c named
  rcases inserts with own | ⟨_, header, _, isBranch⟩
  · exact placed c (own.cell_mem named)
  · simp [readsCell, writesCell, isBranch] at named

variable {work : Work} {options : ReduceOptions} {straight cleaned : Work} {merged : Func}

/-- An optional elimination that is possible leaves a chain a chain. -/
theorem optional_total (on : Bool) (drop : Func → Except Fault (Nat × Func)) {cells : List CellId}
    (chained : work.func.Chained) (possible : work.func.Closed → ∃ dropped, drop work.func = .ok dropped)
    (sweeps : ∀ {next : Func} {n : Nat}, drop work.func = .ok (n, next) → Swept (Touches cells) work.func next n) :
    ∃ next, (if on then work.eliminate drop else pure work) = .ok next ∧ next.func.Chained := by
  split
  · obtain ⟨⟨n, next⟩, dropping⟩ := possible chained.closed
    exact ⟨_, bind_ok (expect_eq_ok.mpr dropping) rfl, chained.thinned (sweeps dropping).thinned⟩
  · exact ⟨work, rfl, chained⟩

theorem clean_total (plan : Plan) (options : ReduceOptions) (chained : work.func.Chained) :
    ∃ next, plan.clean options work = .ok next ∧ next.func.Chained := by
  obtain ⟨between, loads, chainedBetween⟩ := optional_total options.dropLoads
    (·.dropRedundantLoads plan.guards plan.frame.cells) chained
    (fun closed => closed.dropRedundantLoads_total plan.guards plan.frame.cells) dropRedundantLoads_swept
  obtain ⟨next, stores, chainedNext⟩ := optional_total options.dropStores
    (·.dropDeadStores plan.frame.cells) chainedBetween
    (fun closed => closed.dropDeadStores_total plan.frame.cells) dropDeadStores_swept
  refine ⟨next, ?_, chainedNext⟩
  unfold clean
  dsimp only
  split
  · next drops =>
      rw [if_pos drops] at loads
      rw [loads, ok_bind, stores]
  · next drops =>
      rw [if_neg drops] at loads
      obtain rfl := pure_inv loads
      rw [pure_bind, stores]

/-- The phases up to the one that resolves the cells. -/
structure Prepared (plan : Plan) (options : ReduceOptions) (start : Func) (straight : Work) (merged : Func)
    (cleaned : Work) :
    Prop where
  straightened : plan.straighten { func := start } = .ok straight
  merging : straight.func.merge = .ok merged
  cleaning : plan.clean options { straight with func := merged } = .ok cleaned
  chained : cleaned.func.Chained

/-- All phases before the cells are resolved come to their end, unless a call has a guard of its own. -/
theorem Made.prepared (made : plan.Made f start depths) (few : plan.regs.predCount ≤ 32) (ordered : f.Ordered)
    (options : ReduceOptions) : (∃ straight merged cleaned, plan.Prepared options start straight merged cleaned) ∨
      ∃ stopped, plan.carryOut options { func := start } = .error stopped ∧ OnGuardedCall f stopped := by
  obtain ⟨straight, straightened⟩ | ⟨stopped, stops, onCall⟩ := straighten_cases made few ordered.derived.linked
  · obtain ⟨predicated, defined, es, links, stages⟩ :=
      made.stages ordered.once ordered.plain ordered.entered straightened
    have chained := stages.chained made ordered.derived ordered.tails
    obtain ⟨merged, merging⟩ := chained.merge_total
    obtain ⟨cleaned, cleaning, chainedLast⟩ : ∃ cleaned,
        plan.clean options { straight with func := merged } = .ok cleaned ∧ cleaned.func.Chained :=
      clean_total plan options (merge_merged chained merging).chained
    exact .inl ⟨straight, merged, cleaned, straightened, merging, cleaning, chainedLast⟩
  · refine .inr ⟨stopped, ?_, onCall⟩
    unfold carryOut
    rw [stops, error_bind]

/-- Whatever is left to do depends on the frame cells and the shape alone. -/
theorem Prepared.carryOut (prepared : plan.Prepared options start straight merged cleaned) :
    (∃ stopped, plan.carryOut options { func := start } = .error stopped ∧ stopped.failure = .fault .overflow ∧
        cleaned.func.resolveCells = .error .overflow) ∨
      (∃ stopped resolved first others, plan.carryOut options { func := start } = .error stopped ∧
        stopped.failure = .refused (.irregular (first :: others)) ∧ cleaned.func.resolveCells = .ok resolved ∧
        errors resolved plan.tree = .ok (first :: others)) ∨
      ∃ res, plan.carryOut options { func := start } = .ok res := by
  have laid := prepared.chained.laid
  unfold Plan.carryOut mapFunc
  simp only [prepared.straightened, prepared.merging, prepared.cleaning, ok_bind, expect_ok, pure, Except.pure]
  cases resolving : cleaned.func.resolveCells with
  | error fault =>
    obtain rfl := resolveCells_error (fun b => laid.index_lt) resolving
    exact .inl ⟨_, rfl, rfl, rfl⟩
  | ok resolved =>
    have chained : resolved.Chained := (resolveCells_recoded laid.once laid.found resolving).chained prepared.chained
      fun b _ => cleaned.func.targetsOf_placed b
    obtain ⟨wrong, isWrong⟩ := errors_total (fun b => chained.laid.index_lt) plan.tree
    obtain ⟨renumbered, renumbering⟩ := chained.renumber_total
    simp only [expect_ok, ok_bind, check, isWrong, liftM_ok, renumbering]
    cases wrong with
    | nil => exact .inr (.inr ⟨_, by simp only [pure, Except.pure, await_ok, ite_self, ok_bind]; rfl⟩)
    | cons first others =>
      split
      · exact .inr (.inl ⟨_, resolved, first, others, rfl, rfl, rfl, isWrong⟩)
      · exact .inr (.inr ⟨_, rfl⟩)

variable (made : plan.Made f start depths)

include made

theorem Prepared.errors_nil (regular : f.Regular plan.tree last)
    (prepared : plan.Prepared options start straight merged cleaned) {resolved : Func}
    (resolving : cleaned.func.resolveCells = .ok resolved) : errors resolved plan.tree = .ok [] := by
  obtain ⟨predicated, defined, es, links, stages⟩ :=
    made.stages regular.once regular.plain regular.entered prepared.straightened
  have streamlined := (stages.streamlined made regular.derived regular.tails regular.only).merge prepared.merging
  exact ((streamlined.thinned (clean_thinned prepared.cleaning)).resolveCells resolving).errors_nil
    (loopHeaders_nodup made.valid)

/-- The code of a prepared function can be resolved if the cells of the function and those of the plan have offsets. -/
theorem Prepared.addressable (ordered : f.Ordered) (prepared : plan.Prepared options start straight merged cleaned)
    (own : ∀ b, ∀ inst ∈ f.codeOf b, inst.Addressable) (placed : ∀ c ∈ plan.frame.cells, ∃ k, c.offset = .ok k) :
    ∀ b ∈ cleaned.func.layout, ∀ inst ∈ cleaned.func.codeOf b, inst.Addressable := by
  obtain ⟨es, _, isStraight⟩ := made.straighten_ok ordered.once ordered.plain ordered.entered prepared.straightened
  have straightCode : ∀ inst ∈ straight.func.code, inst.Addressable := isStraight.laces.forall_new
    (fun old isOld new same => by
      obtain ⟨b, _, isCode⟩ := List.mem_flatMap.mp isOld
      exact (own b old (mem_of_mem_stripped isCode)).of_bare same)
    fun new inserts => inserts.addressable placed
  have joined := merge_joined isStraight.strung prepared.merging
  have thinned := clean_thinned prepared.cleaning
  intro b inside inst isInst
  have isLaid : b ∈ merged.layout := thinned.recoded.layout ▸ inside
  have isKept : inst ∈ merged.codeOf b := (thinned.codes b isLaid).sublist.subset isInst
  exact straightCode inst (joined.code ▸ List.mem_flatMap.mpr ⟨b, isLaid, isKept⟩)

/-- A plan for an ordered function is carried out or refused, unless a frame cell has no offset. -/
theorem Made.carryOut_cases (few : plan.regs.predCount ≤ 32) (ordered : f.Ordered)
    (options : ReduceOptions) : (∃ res, plan.carryOut options { func := start } = .ok res) ∨
      ∃ stopped, plan.carryOut options { func := start } = .error stopped ∧
        ((∃ cause, stopped.failure = .refused cause) ∨
        stopped.failure = .fault .overflow ∧ ((∃ b, ∃ inst ∈ f.codeOf b, ¬ inst.Addressable) ∨
          ∃ c ∈ plan.frame.cells, c.offset = .error .overflow)) := by
  obtain ⟨straight, merged, cleaned, prepared⟩ | ⟨stopped, stops, _, isRefused, _⟩ := made.prepared few ordered options
  · obtain ⟨stopped, stops, overflows, failed⟩ | ⟨stopped, _, _, _, stops, isRefused, _⟩ | carried := prepared.carryOut
    · refine .inr ⟨stopped, stops, .inr ⟨overflows, ?_⟩⟩
      by_contra! none
      obtain ⟨resolved, resolving⟩ := resolveCells_total (fun b => prepared.chained.laid.index_lt)
        (prepared.addressable made ordered none.1 fun c isCell => c.offset_cases.resolve_right (none.2 c isCell))
      exact nomatch failed.symm.trans resolving
    · exact .inr ⟨stopped, stops, .inl ⟨_, isRefused⟩⟩
    · exact .inl carried
  · exact .inr ⟨stopped, stops, .inl ⟨_, isRefused⟩⟩

theorem Made.carryOut_failure (few : plan.regs.predCount ≤ 32) (regular : f.Regular plan.tree last) {stopped : Stopped}
    (failed : plan.carryOut options { func := start } = .error stopped) : stopped.failure = .fault .overflow := by
  obtain ⟨straight, merged, cleaned, prepared⟩ | ⟨o, _, b, _, inst, mem, isCall, guarded⟩ :=
    made.prepared few regular.toOrdered options
  · obtain ⟨o, isOther, overflows, _⟩ | ⟨_, resolved, _, _, _, _, resolving, wrong⟩ | ⟨res, carried⟩ :=
      prepared.carryOut
    · exact Except.error.inj (failed.symm.trans isOther) ▸ overflows
    · exact nomatch (prepared.errors_nil made regular resolving).symm.trans wrong
    · exact nomatch failed.symm.trans carried
  · exact nomatch (regular.unguarded b inst mem isCall).symm.trans guarded

/-- A plan for a regular function is carried out if all frame cells have offsets. -/
theorem Made.carryOut_total (few : plan.regs.predCount ≤ 32) (regular : f.Regular plan.tree last)
    (options : ReduceOptions) (own : ∀ b, ∀ inst ∈ f.codeOf b, inst.Addressable)
    (placed : ∀ c ∈ plan.frame.cells, ∃ k, c.offset = .ok k) :
    ∃ res, plan.carryOut options { func := start } = .ok res := by
  refine (made.carryOut_cases few regular.toOrdered options).resolve_right ?_
  rintro ⟨stopped, stops, ⟨cause, isRefused⟩ | ⟨_, ⟨b, inst, mem, far⟩ | ⟨c, isCell, far⟩⟩⟩
  · exact nomatch isRefused.symm.trans (made.carryOut_failure few regular stops)
  · exact far (own b inst mem)
  · obtain ⟨k, isOffset⟩ := placed c isCell
    exact nomatch isOffset.symm.trans far

end Plan

end SinglePath
