import SinglePath.Proofs.Func.Streamlined
import SinglePath.Proofs.Reduction.Phases

namespace SinglePath

open List Nat Work

variable {func start final : Func} {options : ReduceOptions} {reduction : Reduction} {depths : List Nat}
  {tree : ScopeTree} {cells : List CellId} {inst : Inst}

namespace Inst

theorem bare_placed (inst : Inst) : inst.placed.bare = inst.bare.placed := by
  obtain ⟨guard, frameSetup, op⟩ := inst
  cases op with
  | load dst addr => cases addr <;> rfl
  | store addr src => cases addr <;> rfl
  | _ => rfl

theorem bare_renamed (blockMap : BlockMap) (inst : Inst) :
    (Func.renamed blockMap inst).bare = Func.renamed blockMap inst.bare := by
  obtain ⟨guard, frameSetup, op⟩ := inst
  cases op <;> rfl

theorem readsCell_bare (inst : Inst) : inst.bare.readsCell = inst.readsCell := by
  obtain ⟨guard, frameSetup, op⟩ := inst
  cases op <;> rfl

theorem writesCell_bare (inst : Inst) : inst.bare.writesCell = inst.writesCell := by
  obtain ⟨guard, frameSetup, op⟩ := inst
  cases op <;> rfl

theorem touches_of_bare {o : Inst} (same : o.bare = inst.bare) (touches : inst.Touches cells) : o.Touches cells := by
  obtain ⟨c, listed, accessed⟩ := touches
  rw [← readsCell_bare, ← writesCell_bare, ← same, readsCell_bare, writesCell_bare] at accessed
  exact ⟨c, listed, accessed⟩

/-- The instruction that a reduction makes of another one: its frame cell is at its place and its target has its new
number, and its guard and its kill flags may be any. -/
def Becomes (blockMap : BlockMap) (old new : Inst) : Prop := new.bare = (Func.renamed blockMap old.placed).bare

theorem becomes_of_bare {blockMap : BlockMap} {old : Inst} (same : inst.bare = old.bare) :
    old.Becomes blockMap (Func.renamed blockMap inst.placed) := by
  rw [Becomes, bare_renamed, bare_renamed, bare_placed, bare_placed, same]

end Inst

namespace Func

/-- The instructions name only frame cells that are in use. -/
def UsesOwnCells (func : Func) : Prop :=
  ∀ body ∈ func.blocks, ∀ inst ∈ body.insts, ∀ c ∈ inst.readsCell.toList ++ inst.writesCell.toList,
    c.index < func.cells

instance (func : Func) : Decidable func.UsesOwnCells := by unfold UsesOwnCells; infer_instance

variable {next : Func}

theorem UsesOwnCells.of_touches (uses : func.UsesOwnCells) {b : BlockId}
    (listed : inst ∈ func.codeOf b) (touches : inst.Touches cells) : ∃ c ∈ cells, c.index < func.cells := by
  obtain ⟨c, isTouched, accessed⟩ := touches
  refine ⟨c, isTouched, ?_⟩
  unfold codeOf at listed
  cases got : func.block? b with
  | none => simp [got] at listed
  | some body =>
    refine uses body (mem_of_getElem? got) inst (by simpa [got] using listed) c ?_
    rcases accessed with reads | writes
    · simp [reads]
    · simp [writes]

theorem Strung.compact (strung : func.Strung) (res : func.merge = .ok next) : next.Compact func.layout := by
  have joined := merge_joined strung res
  have inside : ∀ b ∈ next.layout, b.index < next.blocks.length := by
    intro b listed
    obtain ⟨body, got⟩ := strung.found b (joined.layout.subset listed)
    rw [joined.length]
    exact lt_length got
  refine ⟨joined.layout.nodup strung.once, inside, joined.entry ▸ mem_of_head? strung.starts, ?_, joined.empty⟩
  refine joined.closed func.layout (fun _ => id) fun b listed o edge => ?_
  rcases strung.back b listed o edge with isNext | ⟨earlier, _⟩
  · exact following_subset (mem_of_head? isNext)
  · exact earlier

end Func

namespace Plan

variable {plan : Plan} {work next : Work} {blocks : List BlockId}

/-- What cleaning drops: loads and stores of the plan's cells, and it counts them. -/
structure Cleaned (plan : Plan) (blocks : List BlockId) (work next : Work) : Prop where
  compact : next.func.Compact blocks
  drops : Woven Eq (Inst.Touches plan.frame.cells) next.func.code work.func.code
  length : next.func.code.length + next.stats.eliminated = work.func.code.length + work.stats.eliminated
  inserted : next.stats.insertedInsts = work.stats.insertedInsts
  removed : next.stats.removedBranches = work.stats.removedBranches

theorem clean_cleaned (compact : work.func.Compact blocks) (res : plan.clean options work = .ok next) :
    plan.Cleaned blocks work next := by
  have optional : ∀ {on : Bool} {drop : Func → Except Fault (Nat × Func)} {before after : Work},
      before.func.Compact blocks → (∀ {n : Nat} {after : Func}, drop before.func = .ok (n, after) →
        Func.Swept (Inst.Touches plan.frame.cells) before.func after n) →
      (if on then before.eliminate drop else pure before) = .ok after → plan.Cleaned blocks before after := by
    intro on drop before after isCompact sweeps eliminating
    split at eliminating
    · obtain ⟨⟨n, dropped⟩, dropping, rfl⟩ := bind_pure_inv eliminating
      obtain ⟨stays, drops, length⟩ := isCompact.swept (sweeps (expect_eq_ok.mp dropping))
      refine ⟨stays, drops, ?_, rfl, rfl⟩
      simp only [countEliminated]
      omega
    · obtain rfl := pure_inv eliminating
      exact ⟨isCompact, .refl (fun _ => rfl) _, rfl, rfl, rfl⟩
  obtain ⟨between, loads, stores⟩ := clean_ok res
  have one := optional compact Func.dropRedundantLoads_swept loads
  have two := optional one.compact Func.dropDeadStores_swept stores
  refine ⟨two.compact, ?_, two.length.trans one.length, two.inserted.trans one.inserted,
    two.removed.trans one.removed⟩
  exact two.drops.trans one.drops (fun _ _ _ => Eq.trans) fun _ _ touches same => same ▸ touches

end Plan

namespace Func

variable {regs : TargetRegs}

theorem reduce_ok (singlePath : tree.singlePath = true)
    (reduced : func.reduce tree regs options = (.ok reduction, final)) :
    ∃ plan start straight merged cleaned resolved, Plan.make tree regs func = .ok (plan, start) ∧
      plan.Phases options start straight merged cleaned resolved final reduction := by
  unfold reduce at reduced
  split at reduced
  · rename_i done isDone
    cases reduced
    rw [Work.reduce, if_pos singlePath] at isDone
    obtain ⟨⟨plan, start⟩, planned, carried⟩ := bind_inv isDone
    obtain ⟨straight, merged, cleaned, resolved, phases⟩ := Plan.carryOut_ok carried
    exact ⟨plan, start, straight, merged, cleaned, resolved, await_eq_ok.mp planned, phases⟩
  · cases reduced

/-- A reduction loses, repeats and reorders no instruction. The code of the reduced function in layout order is the code
of the blocks of the walk without their trailing branches, each instruction changed at most in its guard, its kill
flags, its frame cell and its target, with instructions of the plan between. The counts say how many there are. -/
theorem reduce_woven (singlePath : tree.singlePath = true) (once : func.layout.Nodup)
    (plain : ∀ inst ∈ trailing (func.codeOf func.entry), inst.frameSetup = false) (uses : func.UsesOwnCells)
    (reduced : func.reduce tree regs options = (.ok reduction, final)) :
    ∃ plan start events, Plan.make tree regs func = .ok (plan, start) ∧ tree.walk = .ok events ∧
      Woven (Inst.Becomes reduction.blockMap)
        (fun new => ∃ inserted, plan.Inserts inserted ∧ inserted.Becomes reduction.blockMap new)
        (func.walkCode events) final.code ∧
      final.code.length + reduction.stats.eliminated = (func.walkCode events).length + reduction.stats.insertedInsts ∧
      reduction.stats.removedBranches = func.walkBranches events := by
  obtain ⟨plan, start, straight, merged, cleaned, resolved, planned, phases⟩ := reduce_ok singlePath reduced
  obtain ⟨rfl, _, depths, made⟩ := Plan.make_ok planned
  obtain ⟨events, isWalk, straightened⟩ := made.straighten_ok once plain (phases.entered made) phases.straightened
  have joined := merge_joined straightened.strung phases.merging
  have isCleaned := Plan.clean_cleaned (straightened.strung.compact phases.merging) phases.cleaning
  have found : ∀ block ∈ cleaned.func.layout, ∃ content, cleaned.func.block? block = some content :=
    fun block listed => ⟨_, List.getElem?_eq_getElem (isCleaned.compact.inside block listed)⟩
  have resolvedCode := (resolveCells_recoded isCleaned.compact.once found phases.resolving).code
  have onceResolved : resolved.layout.Nodup :=
    (resolveCells_recoded isCleaned.compact.once found phases.resolving).layout ▸ isCleaned.compact.once
  obtain ⟨isMap, renumbered⟩ := renumber_renumbered onceResolved phases.renumbering
  have finalCode : final.code = cleaned.func.code.map fun inst => renamed reduction.blockMap inst.placed := by
    rw [renumbered.code_eq, resolvedCode, List.map_map, isMap]
    rfl
  have laces : plan.Laces (func.walkCode events) cleaned.func.code := by
    refine Woven.drop (joined.code ▸ straightened.laces) isCleaned.drops fun old listed new same touches => ?_
    obtain ⟨block, _, inside⟩ := List.mem_flatMap.mp listed
    obtain ⟨cell, isPlanned, inUse⟩ :=
      uses.of_touches (mem_of_mem_stripped inside) (Inst.touches_of_bare same.symm touches)
    exact absurd (made.laid.mem_cells.mp isPlanned).1 (Nat.not_le.mpr inUse)
  refine ⟨plan, start, events, planned, isWalk, ?_, ?_, ?_⟩
  · rw [finalCode]
    exact laces.map _ (fun _ _ same => Inst.becomes_of_bare same) fun new inserts => ⟨new, inserts,
      Inst.becomes_of_bare rfl⟩
  · have length := isCleaned.length
    rw [straightened.eliminated, joined.code, straightened.length] at length
    rw [finalCode, List.length_map, phases.stats, isCleaned.inserted]
    exact length
  · rw [phases.stats, isCleaned.removed, straightened.removed]

/-- The reduction ends well, and what it returns is as told. -/
def reducesTo (func : Func) (tree : ScopeTree) (regs : TargetRegs) (options : ReduceOptions)
    (told : Reduction → Func → Bool) : Bool :=
  match func.reduce tree regs options with
  | (.ok reduction, final) => told reduction final
  | _ => false

theorem exists_of_reducesTo {told : Reduction → Func → Bool} (reduces : func.reducesTo tree regs options told = true) :
    ∃ reduction final, func.reduce tree regs options = (.ok reduction, final) ∧ told reduction final = true := by
  unfold reducesTo at reduces
  split at reduces
  · rename_i reduction final reduced
    exact ⟨reduction, final, reduced, reduces⟩
  · cases reduces

/-- A loop that counts a register down to zero and prints it. -/
def countdownFunc : Func where
  name := "countdown"
  blocks := [
    { name := "entry", insts := [.plain (.imm ⟨2⟩ 3), .plain (.branch ⟨1⟩)], succs := [⟨1⟩] },
    { name := "body", succs := [⟨1⟩, ⟨2⟩], preds := [⟨0⟩, ⟨1⟩], insts := [
      .plain (.print ⟨2⟩), .plain (.binaryImm .sub ⟨2⟩ ⟨2⟩ 1), .plain (.compare .eq ⟨1⟩ ⟨2⟩ ⟨0⟩),
      (Inst.plain (.branch ⟨1⟩)).withGuard (.fails ⟨1⟩), .plain (.branch ⟨2⟩)] },
    { name := "done", insts := [.plain (.ret ⟨2⟩)], preds := [⟨1⟩] }]
  layout := [⟨0⟩, ⟨1⟩, ⟨2⟩]

def countdownTree : ScopeTree where
  scopes := [
    ⟨none, 0, ⟨0⟩, [.block ⟨0⟩, .subscope ⟨1⟩, .block ⟨2⟩],
      [⟨⟨1⟩, ⟨0⟩, ⟨0⟩, ⟨1⟩, none⟩, ⟨⟨2⟩, ⟨1⟩, ⟨1⟩, ⟨2⟩, some (.holds ⟨1⟩)⟩], none⟩,
    ⟨some ⟨0⟩, 1, ⟨1⟩, [.block ⟨1⟩], [⟨⟨1⟩, ⟨1⟩, ⟨1⟩, ⟨1⟩, some (.fails ⟨1⟩)⟩], some 3⟩]
  blockPreds := ⟨[(⟨0⟩, ⟨0⟩), (⟨1⟩, ⟨1⟩), (⟨2⟩, ⟨2⟩)]⟩
  predCount := 3

theorem reduce_woven_countdown :
    ∃ reduction final plan start events, countdownFunc.reduce countdownTree {} {} = (.ok reduction, final) ∧
      Plan.make countdownTree {} countdownFunc = .ok (plan, start) ∧ countdownTree.walk = .ok events ∧
      Woven (Inst.Becomes reduction.blockMap)
        (fun new => ∃ inserted, plan.Inserts inserted ∧ inserted.Becomes reduction.blockMap new)
        (countdownFunc.walkCode events) final.code ∧
      final.code.length + reduction.stats.eliminated =
        (countdownFunc.walkCode events).length + reduction.stats.insertedInsts ∧
      reduction.stats.removedBranches = countdownFunc.walkBranches events := by
  obtain ⟨reduction, final, reduced, _⟩ := exists_of_reducesTo
    (show countdownFunc.reducesTo countdownTree {} {} (fun _ _ => true) = true by decide +kernel)
  obtain ⟨plan, start, events, kept⟩ := reduce_woven rfl (by decide) (by decide) (by decide) reduced
  exact ⟨reduction, final, plan, start, events, reduced, kept⟩

/-- A region whose entry ends in a branch that is marked as frame setup. -/
def setupBranchFunc : Func where
  name := "setup"
  blocks := [
    { name := "entry", insts := [⟨.always, true, .branch ⟨0⟩⟩], succs := [⟨0⟩], preds := [⟨0⟩] },
    { name := "done", insts := [.plain (.ret ⟨1⟩)] }]
  layout := [⟨0⟩, ⟨1⟩]

def setupBranchTree : ScopeTree where
  scopes := [⟨none, 0, ⟨0⟩, [.block ⟨0⟩, .block ⟨1⟩], [], none⟩]
  blockPreds := ⟨[(⟨0⟩, ⟨0⟩), (⟨1⟩, ⟨0⟩)]⟩
  predCount := 1
  wholeFunction := false

/-- One block that is laid out twice. -/
def twiceLaidFunc : Func where
  name := "twice"
  blocks := [{ name := "entry", insts := [.plain (.ret ⟨1⟩)] }]
  layout := [⟨0⟩, ⟨0⟩]

/-- The code of a region is inserted behind the frame setup of its entry, so a branch that is marked as such is not at
the end of the block any more and stays. A block that is laid out twice is there twice in the end. -/
theorem reduce_not_woven :
    (∃ reduction final events, setupBranchFunc.UsesOwnCells ∧
      setupBranchFunc.reduce setupBranchTree {} {} = (.ok reduction, final) ∧ setupBranchTree.walk = .ok events ∧
      reduction.stats.removedBranches ≠ setupBranchFunc.walkBranches events) ∧
    ∃ reduction final events, twiceLaidFunc.UsesOwnCells ∧
      twiceLaidFunc.reduce (.single ⟨0⟩) {} {} = (.ok reduction, final) ∧ (ScopeTree.single ⟨0⟩).walk = .ok events ∧
      final.code.length + reduction.stats.eliminated ≠
        (twiceLaidFunc.walkCode events).length + reduction.stats.insertedInsts := by
  constructor
  · obtain ⟨reduction, final, reduced, removed⟩ :=
      exists_of_reducesTo (show setupBranchFunc.reducesTo setupBranchTree {} {}
      (fun reduction _ => reduction.stats.removedBranches = 0) = true by decide +kernel)
    refine ⟨reduction, final, _, by decide, reduced, rfl, ?_⟩
    rw [of_decide_eq_true removed]
    decide
  · obtain ⟨reduction, final, reduced, counted⟩ := exists_of_reducesTo (show twiceLaidFunc.reducesTo (.single ⟨0⟩) {} {}
      (fun reduction final => final.code.length = 2 ∧ reduction.stats = {}) = true by decide +kernel)
    obtain ⟨length, stats⟩ := of_decide_eq_true counted
    refine ⟨reduction, final, _, by decide, reduced, rfl, ?_⟩
    rw [length, stats]
    decide

end Func

end SinglePath
