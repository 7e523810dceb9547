import SinglePath.Proofs.CellFlow.DeadStores
import SinglePath.Proofs.CellFlow.RedundantLoads
import SinglePath.Proofs.Flow.Relabelled
import SinglePath.Proofs.Reduction.Shaped
import SinglePath.Proofs.Straight.Spaced
import SinglePath.Program.Validity

namespace SinglePath

open CellFlow CellSet Inst

variable {options : ReduceOptions} {func final : Func} {reduction : Reduction} {inst : Inst}

theorem Op.framed_mapConds (change : Cond → Cond) (op : Op) : (op.mapConds change).Framed ↔ op.Framed := by
  cases op <;> exact .rfl

theorem Inst.framed_of_bare {o : Inst} (same : o.bare = inst.bare) (framed : inst.Framed) : o.Framed := by
  have isFramed : inst.bare.op.Framed := (Op.framed_mapConds _ _).mpr framed
  rw [← same] at isFramed
  exact (Op.framed_mapConds _ _).mp isFramed

/-- A tidy function without some instructions of the cells is tidy. -/
theorem Func.Tidy.thinned {next : Func} {cells : List CellId} (tidy : func.Tidy)
    (thinned : Thinned (Touches cells) func next) : next.Tidy := by
  have part : ∀ b ∈ next.layout, b ∈ func.layout ∧ (next.codeOf b).Sublist (func.codeOf b) := by
    intro b inside
    rw [thinned.recoded.layout] at inside
    exact ⟨inside, (thinned.codes b inside).sublist⟩
  exact ⟨tidy.chained.thinned thinned, fun b inside =>
    (tidy.last b (part b inside).1).sublist (part b inside).2,
    fun b inside inst listed => tidy.framed b (part b inside).1 inst ((part b inside).2.subset listed)⟩

namespace Plan

variable {plan : Plan} {start merged resolved : Func} {depths : List Nat} {es : List WalkEvent}
  {straight cleaned next : Work}

/-- The instruction names frame words by their cells, and what it stores in a cell of the plan comes from a register
that the machine has. -/
structure Orderly (plan : Plan) (inst : Inst) : Prop where
  framed : inst.Framed
  readable : ReadableStore (CellSet.ofList plan.frame.cells) inst

/-- What the plan inserts is orderly. -/
theorem Inserts.orderly (inserts : plan.Inserts inst) (writable : plan.guards.index < 32)
    (present : plan.regs.returnInfo.index < 32) : plan.Orderly inst := by
  obtain ⟨guard, setup, op⟩ := inst
  rcases inserts with ⟨_, own⟩ | ⟨_, header, _, rfl⟩
  · cases op with
    | load dst address =>
      cases address with
      | frame c => exact ⟨trivial, fun _ _ isStore => by cases isStore⟩
      | stack _ | memory _ _ => exact own.elim
    | store address src =>
      cases address with
      | frame c =>
        refine ⟨trivial, fun o r isStore _ => ?_⟩
        simp only [cellStore] at isStore
        split at isStore
        · obtain ⟨rfl, rfl⟩ : c = o ∧ src = r := by simpa using isStore
          rcases own.1 with rfl | rfl
          · exact writable
          · exact present
        · cases isStore
      | stack _ | memory _ _ => exact own.elim
    | _ => exact ⟨trivial, fun _ _ isStore => by cases isStore⟩
  · exact ⟨trivial, fun _ _ isStore => by cases isStore⟩

/-- An instruction of the function itself stores in its own cells only. -/
theorem Made.orderly (made : plan.Made func start depths) (uses : func.UsesOwnCells) {b : BlockId} {old : Inst}
    (listed : old ∈ func.codeOf b) (framed : old.Framed) (same : inst.bare = old.bare) : plan.Orderly inst := by
  refine ⟨framed_of_bare same framed, fun c src isStore tracked => ?_⟩
  have touches : inst.Touches plan.frame.cells :=
    ⟨c, by simpa using tracked, .inr (writesCell_of_cellStore isStore)⟩
  obtain ⟨o, isPlanned, inUse⟩ := uses.of_touches listed (touches_of_bare same.symm touches)
  exact absurd (made.laid.mem_cells.mp isPlanned).1 (Nat.not_le.mpr inUse)

theorem Straightened.orderly (straightened : plan.Straightened func es straight) (made : plan.Made func start depths)
    (uses : func.UsesOwnCells) (framed : ∀ b, ∀ inst ∈ func.codeOf b, inst.Framed)
    (writable : plan.guards.index < 32) (present : plan.regs.returnInfo.index < 32) :
    ∀ inst ∈ straight.func.code, plan.Orderly inst := by
  refine straightened.laces.forall_new (fun old listed inst same => ?_) fun inst inserts =>
    inserts.orderly writable present
  obtain ⟨b, _, inside⟩ := List.mem_flatMap.mp listed
  have isCode := mem_of_mem_stripped inside
  exact made.orderly uses isCode (framed b old isCode) same

/-- Cleaning does not change how a tidy function ends, if the sources of its stores can be read. -/
theorem clean_endsAs {work : Work} (tidy : work.func.Tidy)
    (readable : ∀ b ∈ work.func.layout, ∀ inst ∈ work.func.codeOf b, ReadableStore (ofList plan.frame.cells) inst)
    (res : plan.clean options work = .ok next) (regs : TargetRegs) (words : Nat → UInt32) (m : Machine)
    (ending : Ending) :
    (work.func.viewed true).EndsAs regs words m ending ↔ (next.func.viewed true).EndsAs regs words m ending := by
  obtain ⟨between, loads, stores⟩ := clean_ok res
  have middle : between.func.Tidy ∧ (∀ b ∈ between.func.layout, ∀ inst ∈ between.func.codeOf b,
      ReadableStore (ofList plan.frame.cells) inst) ∧ ((work.func.viewed true).EndsAs regs words m ending ↔
          (between.func.viewed true).EndsAs regs words m ending) := by
    rcases optional_ok loads with same | ⟨n, dropping⟩
    · rw [same]
      exact ⟨tidy, readable, .rfl⟩
    · have thinned := (Func.dropRedundantLoads_swept dropping).thinned
      refine ⟨tidy.thinned thinned, fun b inside inst listed => ?_, ?_⟩
      · rw [thinned.recoded.layout] at inside
        exact readable b inside inst ((thinned.codes b inside).sublist.subset listed)
      · obtain ⟨order, traversed, _⟩ := bind_inv dropping
        obtain ⟨_, _, dropped, same⟩ :=
          (tidy.met traversed).dropRedundantLoads_ok tidy.chained.unentered plan.guards plan.frame.cells
        obtain ⟨rfl, rfl⟩ := Prod.mk.inj (ok_unique dropping dropped)
        exact same true regs m words (tidy.chained.followsEdges true regs words m) ending
  obtain ⟨betweenTidy, betweenReadable, alike⟩ := middle
  refine alike.trans ?_
  rcases optional_ok stores with same | ⟨n, dropping⟩
  · rw [same]
  · obtain ⟨order, traversed, _⟩ := bind_inv dropping
    obtain ⟨_, _, dropped, same⟩ := (betweenTidy.met traversed).dropDeadStores_ok plan.frame.cells
    obtain ⟨rfl, rfl⟩ := Prod.mk.inj (ok_unique dropping dropped)
    have possible : between.func.TrackedPossible true (ofList plan.frame.cells) order :=
      fun b isMet inst inCode c src isStore tracked =>
        ⟨betweenReadable b (betweenTidy.chained.mem_layout_of_met traversed isMet) inst inCode c src isStore tracked,
          c.place, rfl⟩
    have ends := same true regs m words (betweenTidy.chained.followsEdges true regs words m) ending
    exact ⟨fun before => (ends.1 before).resolve_right fun lost => lost.1 possible,
      fun after => (ends.2 after).resolve_right fun lost => lost.1 possible⟩

/-- The reduced function ends as the merged function does. -/
theorem Phases.endsAs (phases : plan.Phases options start straight merged cleaned resolved final reduction)
    (tidy : merged.Tidy) (readable : ∀ b ∈ merged.layout, ∀ inst ∈ merged.codeOf b,
      ReadableStore (ofList plan.frame.cells) inst) (regs : TargetRegs) (words : Nat → UInt32)
    (m : Machine) (ending : Ending) :
    (merged.viewed true).EndsAs regs words m ending ↔ final.EndsAs regs words m ending := by
  have laid := (tidy.thinned (clean_thinned phases.cleaning)).chained.laid
  have recoded := Func.resolveCells_recoded laid.once laid.found phases.resolving
  have renumbered := (Func.renumber_renumbered (recoded.layout ▸ laid.once) phases.renumbering).2
  have relabelled := (Func.renumber_relabelled laid phases.resolving recoded renumbered).viewed
  refine (clean_endsAs tidy readable phases.cleaning regs words m ending).trans
    (relabelled.endsAs_iff (laid.viewed true) (fun b inside inst isInst before => ?_) words m ending)
  rw [Func.codeOf_viewed] at isInst
  obtain ⟨origin, _, rfl⟩ := List.mem_map.mp isInst
  exact congrArg (before.perform regs) origin.placed_placed

/-- A merged function is tidy if the loops of the tree are apart. -/
theorem Stages.merged_tidy {predicated defined : Work} {links : List Link}
    (stages : plan.Stages func start predicated defined straight es links) (made : plan.Made func start depths)
    (derived : func.Derived) (tails : ∀ b, BranchesLast (func.codeOf b))
    (loopsApart : plan.tree.LoopsApart plan.allocs) (orderly : ∀ inst ∈ straight.func.code, plan.Orderly inst)
    (merging : straight.func.merge = .ok merged) :
    merged.Tidy ∧ ∀ b ∈ merged.layout, ∀ inst ∈ merged.codeOf b, plan.Orderly inst := by
  have chained := stages.chained made derived tails
  have spaced := stages.linearized.spaced made.valid (stages.entry made) (stages.length made)
    (stages.plain tails) loopsApart
  have sameCode := (Func.merge_joined chained.strung merging).code
  have mergedOrderly : ∀ b ∈ merged.layout, ∀ inst ∈ merged.codeOf b, plan.Orderly inst :=
    fun b inside inst listed => orderly inst (sameCode ▸ List.mem_flatMap.mpr ⟨b, inside, listed⟩)
  exact ⟨⟨(Func.merge_merged chained merging).chained,
    fun b inside => (Func.merge_branchEnds chained spaced merging b inside).branchesLast,
    fun b inside inst listed => (mergedOrderly b inside inst listed).framed⟩, mergedOrderly⟩

end Plan

namespace Func

variable {original otherFinal : Func} {tree : ScopeTree} {otherOptions : ReduceOptions} {otherReduction : Reduction}
  {value : UInt32} {text : String} {regs : TargetRegs}

theorem reduce_unchanged (multiPath : tree.singlePath = false)
    (reduced : func.reduce tree regs options = (.ok reduction, final)) : final = func := by
  unfold reduce Work.reduce at reduced
  rw [multiPath] at reduced
  exact (Prod.mk.inj reduced).2.symm

/-- The loads and stores that a reduction drops make no difference to what the reduced function gives. -/
theorem reduce_gives_iff {count : Nat} (derived : original.deriveEdges = .ok func) (once : func.layout.Nodup)
    (plain : ∀ inst ∈ trailing (func.codeOf func.entry), inst.frameSetup = false)
    (tails : ∀ block, BranchesLast (func.codeOf block)) (framed : ∀ block, ∀ inst ∈ func.codeOf block, inst.Framed)
    (uses : func.UsesOwnCells)
    (reduced : func.reduce tree { predCount := count } options = (.ok reduction, final))
    (otherReduced : func.reduce tree { predCount := count } otherOptions = (.ok otherReduction, otherFinal))
    (loopsApart : tree.LoopsApart reduction.allocs) (fresh : ¬ final.ReadsCallOffset { predCount := count }) :
    final.Gives { predCount := count } value text ↔ otherFinal.Gives { predCount := count } value text := by
  cases singlePath : tree.singlePath with
  | false =>
      obtain rfl := reduce_unchanged singlePath reduced
      obtain rfl := reduce_unchanged singlePath otherReduced
      exact .rfl
  | true =>
      obtain ⟨plan, start, straight, merged, cleaned, resolved, planned, phases⟩ := reduce_ok singlePath reduced
      obtain ⟨plan', start', straight', merged', _, _, planned', phases'⟩ := reduce_ok singlePath otherReduced
      obtain ⟨rfl, rfl⟩ := Prod.mk.inj (ok_unique planned planned')
      obtain rfl := ok_unique phases.straightened phases'.straightened
      obtain rfl := ok_unique phases.merging phases'.merging
      obtain ⟨rfl, isRegs, depths, made⟩ := Plan.make_ok planned
      have laid := phases.entered made
      obtain ⟨_, _, straightened⟩ := made.straighten_ok once plain laid phases.straightened
      obtain ⟨predicated, defined, events, links, stages⟩ := made.stages once plain laid phases.straightened
      have writable : plan.guards.index < 32 := by
        rw [Plan.guards, isRegs]
        exact show 26 < 32 by decide
      have present : plan.regs.returnInfo.index < 32 := by
        rw [isRegs]
        exact show 9 < 32 by decide
      have orderly := straightened.orderly made uses framed writable present
      obtain ⟨tidy, mergedOrderly⟩ := stages.merged_tidy made (deriveEdges_ok derived).2 tails
        (phases.allocs ▸ loopsApart) orderly phases.merging
      have readable := fun block inside inst listed => (mergedOrderly block inside inst listed).readable
      refine gives_iff_of_endsAs (fun words machine ending => ?_) fresh
      exact (phases.endsAs tidy readable _ words machine ending).symm.trans
        (phases'.endsAs tidy readable _ words machine ending)

/-- The function runs to an end and gives the result. -/
def returns (func : Func) (regs : TargetRegs) (value : UInt32) (text : String) : Bool :=
  match func.run regs with
  | .ok res => res.value = value && res.output = text
  | .error _ => false

theorem gives_of_returns (returns : func.returns regs value text = true) : func.Gives regs value text := by
  unfold Func.returns at returns
  split at returns
  · next res ran =>
      obtain ⟨rfl, rfl⟩ : res.value = value ∧ res.output = text := by simpa using returns
      exact gives_of_run ran
  · cases returns

/-- No instruction of any block is a call. -/
def isCallFree (func : Func) : Bool := func.blocks.all fun body => body.insts.all fun inst => !inst.isCall

theorem countdownTree_loopsApart (allocs : List ScopeAllocation) : countdownTree.LoopsApart allocs := by
  rintro ⟨_ | _ | s⟩ body inner alloc got isLoop isLast
  · cases got
    cases isLoop
  · cases got
    cases isLast
  · cases got

theorem reduce_gives_iff_countdown :
    ∃ reduction final otherReduction otherFinal,
      countdownFunc.reduce countdownTree { predCount := 8 } {} = (.ok reduction, final) ∧
      countdownFunc.reduce countdownTree { predCount := 8 } { dropLoads := false } = (.ok otherReduction, otherFinal) ∧
      (final.Gives { predCount := 8 } 0 "3\n2\n1\n" ↔ otherFinal.Gives { predCount := 8 } 0 "3\n2\n1\n") := by
  obtain ⟨reduction, final, reduced, callFree⟩ := exists_of_reducesTo
    (show countdownFunc.reducesTo countdownTree { predCount := 8 } {} (fun _ final => final.isCallFree) = true by
      decide +kernel)
  obtain ⟨otherReduction, otherFinal, otherReduced, _⟩ := exists_of_reducesTo
    (show countdownFunc.reducesTo countdownTree { predCount := 8 } { dropLoads := false } (fun _ _ => true) = true by
      decide +kernel)
  have derived : countdownFunc.deriveEdges = .ok countdownFunc := rfl
  have framed : ∀ block, ∀ inst ∈ countdownFunc.codeOf block, inst.Framed :=
    @forall_codeOf countdownFunc (fun _ code => ∀ inst ∈ code, inst.Framed) (fun _ => nofun) (by decide)
  refine ⟨reduction, final, otherReduction, otherFinal, reduced, otherReduced, ?_⟩
  exact reduce_gives_iff derived (by decide) (by decide) (branchesLast_of_blocks (by decide)) framed (by decide) reduced
    otherReduced (countdownTree_loopsApart _) (not_readsCallOffset (by simpa [isCallFree] using callFree))

/-- A loop whose last node is a loop without a postlude. -/
def endingLoopFunc : Func where
  name := "ending"
  blocks := [
    { name := "entry", succs := [⟨1⟩], insts := [
      .plain (.imm ⟨2⟩ 3), .plain (.compare .eq ⟨1⟩ ⟨0⟩ ⟨0⟩), .plain (.branch ⟨1⟩)] },
    { name := "outer", succs := [⟨2⟩], preds := [⟨0⟩], insts := [
      .plain (.binaryImm .add ⟨1⟩ ⟨1⟩ 1), .plain (.compare .lt ⟨1⟩ ⟨1⟩ ⟨2⟩), .plain (.branch ⟨2⟩)] },
    { name := "between", succs := [⟨3⟩], preds := [⟨1⟩], insts := [.plain (.branch ⟨3⟩)] },
    { name := "inner", succs := [⟨4⟩], preds := [⟨2⟩], insts := [.plain (.print ⟨2⟩), .plain (.branch ⟨4⟩)] },
    { name := "done", preds := [⟨3⟩], insts := [.plain (.print ⟨2⟩), .plain (.ret ⟨1⟩)] }]
  layout := [⟨0⟩, ⟨1⟩, ⟨2⟩, ⟨3⟩, ⟨4⟩]

def endingLoopTree : ScopeTree where
  scopes := [
    ⟨none, 0, ⟨0⟩, [.block ⟨0⟩, .subscope ⟨1⟩, .block ⟨4⟩],
      [⟨⟨1⟩, ⟨0⟩, ⟨0⟩, ⟨0⟩, some (.fails ⟨1⟩)⟩, ⟨⟨2⟩, ⟨0⟩, ⟨0⟩, ⟨0⟩, some (.holds ⟨1⟩)⟩,
        ⟨⟨3⟩, ⟨0⟩, ⟨0⟩, ⟨0⟩, some (.holds ⟨1⟩)⟩], none⟩,
    ⟨some ⟨0⟩, 1, ⟨1⟩, [.block ⟨1⟩, .block ⟨2⟩, .subscope ⟨2⟩],
      [⟨⟨4⟩, ⟨3⟩, ⟨1⟩, ⟨1⟩, none⟩, ⟨⟨5⟩, ⟨3⟩, ⟨1⟩, ⟨1⟩, none⟩, ⟨⟨6⟩, ⟨3⟩, ⟨1⟩, ⟨1⟩, some (.holds ⟨1⟩)⟩,
        ⟨⟨3⟩, ⟨6⟩, ⟨2⟩, ⟨1⟩, none⟩], none⟩,
    ⟨some ⟨1⟩, 2, ⟨3⟩, [.block ⟨3⟩], [], some 1⟩]
  blockPreds := ⟨[(⟨0⟩, ⟨0⟩), (⟨1⟩, ⟨3⟩), (⟨2⟩, ⟨6⟩), (⟨3⟩, ⟨4⟩), (⟨4⟩, ⟨2⟩)]⟩
  predCount := 7

/-- The branch of the outer loop gets into the middle of a merged block, and a load after it is taken for redundant. -/
theorem reduce_gives_not_iff :
    (⟨endingLoopFunc, endingLoopTree⟩ : Program).validate { predCount := 5 } = .ok () ∧
    endingLoopFunc.deriveEdges = .ok endingLoopFunc ∧ (∀ block, BranchesLast (endingLoopFunc.codeOf block)) ∧
    endingLoopFunc.OnlyReturn endingLoopTree ⟨4⟩ ∧ (∀ block, ∀ inst ∈ endingLoopFunc.codeOf block, inst.Framed) ∧
    endingLoopFunc.UsesOwnCells ∧ ∃ reduction final otherReduction otherFinal,
      endingLoopFunc.reduce endingLoopTree { predCount := 5 } {} = (.ok reduction, final) ∧
      endingLoopFunc.reduce endingLoopTree { predCount := 5 } { dropLoads := false } = (.ok otherReduction,
        otherFinal) ∧
      final.Gives { predCount := 5 } 3 "3\n3\n3\n" ∧ ¬ otherFinal.Gives { predCount := 5 } 3 "3\n3\n3\n" := by
  obtain ⟨reduction, final, reduced, returns⟩ := exists_of_reducesTo
    (show endingLoopFunc.reducesTo endingLoopTree { predCount := 5 } {}
      (fun _ final => final.returns { predCount := 5 } 3 "3\n3\n3\n") = true by decide +kernel)
  obtain ⟨otherReduction, otherFinal, otherReduced, otherReturns⟩ := exists_of_reducesTo
    (show endingLoopFunc.reducesTo endingLoopTree { predCount := 5 } { dropLoads := false }
      (fun _ final => final.returns { predCount := 5 } 3 "3\n3\n3\n3\n") = true by decide +kernel)
  refine ⟨by decide +kernel, rfl, branchesLast_of_blocks (by decide), ?_, ?_, by decide, reduction, final,
    otherReduction,
    otherFinal, reduced, otherReduced, gives_of_returns returns, fun gives => ?_⟩
  · exact .of_blocks rfl rfl (List.singleton_append ..).symm rfl (by decide) (by decide)
  · exact @forall_codeOf endingLoopFunc (fun _ code => ∀ inst ∈ code, inst.Framed) (fun _ => nofun) (by decide)
  · exact absurd (gives.unique (gives_of_returns otherReturns)).2 (by decide)

end Func

end SinglePath
