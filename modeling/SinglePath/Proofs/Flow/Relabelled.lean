import SinglePath.Proofs.Flow.Finishing
import SinglePath.Proofs.Func.Possible

/-!
Functions whose frame cells are resolved and whose blocks are then numbered in code order.
-/

namespace SinglePath

open CellId Inst List Option Point Setting

variable {regs : TargetRegs} {func resolved next : Func} {b : BlockId}

theorem CellId.offset_total {c : CellId} (near : c.index < 2 ^ 29) : ∃ offset, c.offset = .ok offset := by
  have same : Int.bmod c.index 0x100000000 = c.index := Int.bmod_eq_of_le (by omega) (by omega)
  unfold offset
  rw [same, if_pos (by unfold cellBytes; omega)]
  exact ⟨_, rfl⟩

/-- The transfer under the new numbers of the blocks. -/
def Transfer.renamed (placement : BlockMap) : Transfer → Transfer
  | .jump t => .jump ((placement.get? t).getD t)
  | transfer => transfer

namespace Machine

variable {m : Machine} {inst : Inst}

theorem perform_placed (addressable : inst.Addressable) : m.perform regs inst.placed = m.perform regs inst := by
  rw [perform_eq, perform_eq, isCall_placed, guard_placed]
  obtain ⟨guard, frameSetup, op⟩ := inst
  rcases op.placed_cases with ⟨dst, c, rfl, _⟩ | ⟨c, src, rfl, _⟩ | same
  · obtain ⟨offset, isOffset⟩ := addressable c (.inl rfl)
    simp [placed, Op.placed, isReturn, execute, load, place_of_offset isOffset, isOffset]
  · obtain ⟨offset, isOffset⟩ := addressable c (.inr rfl)
    simp [placed, Op.placed, isReturn, execute, store, place_of_offset isOffset, isOffset]
  · simp [placed, same]

theorem perform_renamed_eq (placement : BlockMap) : m.perform regs (Func.renamed placement inst) =
    (m.perform regs inst).map fun res => (res.1, res.2.renamed placement) := by
  cases isTarget : inst.branchTarget with
  | none =>
    have same : Func.renamed placement inst = inst := by simp [Func.renamed, isTarget]
    rw [same]
    cases ran : m.perform regs inst with
    | error cause => rfl
    | ok res =>
      obtain ⟨after, transfer⟩ := res
      cases transfer with
      | jump t => cases isTarget.symm.trans (perform_jump ran)
      | next => rfl
      | leave v => rfl
  | some t =>
    obtain ⟨guard, frameSetup, op⟩ := inst
    cases op with
    | branch label =>
      simp only [Func.renamed, isTarget, withTarget, perform_eq]
      cases m.cond guard with
      | error fault => rfl
      | ok enabled => cases enabled <;> simp_all [isCall, isReturn, branchTarget, execute] <;> rfl
    | _ => cases isTarget

end Machine

namespace Func

/-- The number that a laid out block gets. -/
def placeOf (func : Func) (b : BlockId) : BlockId := (func.placement.get? b).getD b

/-- The instruction with its cell resolved and under the new numbers of the blocks. -/
def relabel (func : Func) (inst : Inst) : Inst := renamed func.placement inst.placed

/-- What resolving the cells and numbering the blocks in code order does to a function. -/
structure Relabelled (func next : Func) : Prop where
  length : next.layout.length = func.layout.length
  entry : next.entry = func.placeOf func.entry
  starts : ∀ b ∈ func.layout,
    next.startOf (func.placeOf b) = .ok ⟨func.placeOf b, (func.codeOf b).map func.relabel⟩
  follows : ∀ b ∈ func.layout, next.layoutNext (func.placeOf b) = (func.layoutNext b).map func.placeOf
  named : ∀ b ∈ func.layout, (next.block? (func.placeOf b)).map (·.name) = (func.block? b).map (·.name)

theorem placeOf_eq (once : func.layout.Nodup) {i : Nat} (isBlock : func.layout[i]? = some b) :
    func.placeOf b = ⟨i⟩ := by
  rw [placeOf, placement_get? once isBlock, getD_some]

theorem resolveCells_named (res : func.resolveCells = .ok resolved) (b : BlockId) :
    (resolved.block? b).map (·.name) = (func.block? b).map (·.name) := by
  refine foldlM_invariant (fun s => (s.block? b).map (·.name) = (func.block? b).map (·.name)) res rfl
    fun s o after _ same moved => ?_
  obtain ⟨body, _, insts, _, rfl⟩ := bind_bind_pure_inv moved
  rw [← same, block?_modify]
  split
  · rw [Option.map_map]
    rfl
  · rfl

theorem renumber_relabelled (laid : func.Laid) (resolving : func.resolveCells = .ok resolved)
    (recoded : Recoded func resolved fun b => (func.codeOf b).map placed)
    (renumbered : Renumbered resolved next) : Relabelled func next := by
  have sameLayout := recoded.layout
  have samePlacement : resolved.placement = func.placement := by rw [placement, placement, sameLayout]
  have once : resolved.layout.Nodup := sameLayout ▸ laid.once
  have at_ : ∀ b ∈ func.layout, ∃ i, resolved.layout[i]? = some b ∧ func.placeOf b = ⟨i⟩ := by
    intro b inside
    obtain ⟨i, isBlock⟩ := getElem?_of_mem inside
    exact ⟨i, sameLayout ▸ isBlock, placeOf_eq laid.once isBlock⟩
  refine ⟨by rw [renumbered.layout, sameLayout]; simp, ?_, ?_, ?_, ?_⟩
  · obtain ⟨i, isEntry, isNext⟩ := renumbered.entry
    rw [recoded.entry, sameLayout] at isEntry
    rw [isNext, placeOf_eq laid.once isEntry]
  · intro b inside
    obtain ⟨i, isBlock, isPlace⟩ := at_ b inside
    obtain ⟨body, got⟩ := renumbered.found i (lt_length isBlock)
    have code := renumbered.codeOf i b isBlock
    rw [codeOf_eq got, recoded.codeOf b inside, samePlacement, List.map_map] at code
    simp only [isPlace, startOf, get_eq_ok.mpr got, ok_bind, code]
    rfl
  · intro b inside
    obtain ⟨i, isBlock, isPlace⟩ := at_ b inside
    have within := lt_length isBlock
    rw [layoutNext, layoutNext, nextAfterLast_eq, nextAfterLast_eq, isPlace, renumbered.following_eq within,
      ← sameLayout,
      following_at once isBlock]
    cases after : resolved.layout.drop (i + 1) with
    | nil => rfl
    | cons o more =>
      have isOther : func.layout[i + 1]? = some o := by
        rw [← sameLayout, ← Nat.add_zero (i + 1), ← getElem?_drop, after]
        rfl
      simp [range'_succ, placeOf_eq laid.once isOther]
  · intro b inside
    obtain ⟨i, isBlock, isPlace⟩ := at_ b inside
    rw [isPlace, renumbered.named i b isBlock, resolveCells_named resolving]

end Func

/-- The point under the new numbers of the blocks. -/
def Point.relabelled (func : Func) (p : Point) : Point := ⟨func.placeOf p.block, p.rest.map func.relabel⟩

def Status.relabelled (func : Func) : Status → Status
  | .running p m => .running (p.relabelled func) m
  | .returned v m => .returned v m

namespace Func.Relabelled

variable {p : Point} (relabelled : Relabelled func next) {limit : Option Nat}

include relabelled

section

variable (laid : func.Laid)
  (same : ∀ b ∈ func.layout, ∀ inst ∈ func.codeOf b, ∀ m : Machine,
    m.perform regs inst.placed = m.perform regs inst)

include laid same

/-- A step of the new function is the step of the old one under the new numbers. -/
theorem step_eq (within : p.Within func) (m : Machine) : (⟨next, regs, limit⟩ : Setting).step (p.relabelled func) m =
      ((⟨func, regs, limit⟩ : Setting).step p m).map (Status.relabelled func) := by
  obtain ⟨b, rest⟩ := p
  have start : ∀ o ∈ func.layout, next.startOf (func.placeOf o) = (func.startOf o).map (Point.relabelled func) := by
    intro o isLaid
    rw [relabelled.starts o isLaid, laid.startOf isLaid]
    rfl
  cases rest with
  | nil =>
    simp only [step, Point.relabelled, map_nil, fallThrough, relabelled.follows b within.inside]
    cases isNext : func.layoutNext b with
    | none =>
      have named := relabelled.named b within.inside
      obtain ⟨body, got⟩ := laid.found b within.inside
      rw [got, map_some] at named
      obtain ⟨o, foundOther, sameName⟩ := map_eq_some_iff.mp named
      simp only [map_none, get_eq_ok.mpr got, get_eq_ok.mpr foundOther, liftM_ok, ok_bind, sameName]
      rfl
    | some following =>
      rw [layoutNext, nextAfterLast_eq] at isNext
      obtain ⟨more, follows⟩ := head?_eq_some_iff.mp isNext
      have isLaid := (following_next laid.once within.inside follows).1
      simp only [map_some, start following isLaid, laid.startOf isLaid]
      rfl
  | cons inst rest =>
    have isInst : inst ∈ func.codeOf b := within.part.subset (by simp)
    have ran : m.perform regs (func.relabel inst) = _ := Machine.perform_renamed_eq func.placement
    rw [same b within.inside inst isInst] at ran
    simp only [Point.relabelled, map_cons, step_cons_eq, ran]
    have sameLimit : isExhausted ⟨next, regs, limit⟩ = isExhausted ⟨func, regs, limit⟩ := rfl
    rw [sameLimit]
    cases isExhausted ⟨func, regs, limit⟩ m.steps with
    | true => rfl
    | false =>
      cases stepped : m.perform regs inst with
      | error cause => rfl
      | ok res =>
        obtain ⟨after, transfer⟩ := res
        cases transfer with
        | next => rfl
        | leave v => rfl
        | jump t =>
          have isLaid := laid.targets b within.inside inst isInst t (Machine.perform_jump stepped)
          have started := start t isLaid
          rw [laid.startOf isLaid] at started
          simp only [Except.map, ok_bind, Transfer.renamed, proceed, laid.startOf isLaid]
          rw [show (func.placement.get? t).getD t = func.placeOf t from rfl, started]
          rfl

/-- So is any number of steps. -/
theorem advance_eq (steps : Nat) (within : p.Within func) (m : Machine) :
    (⟨next, regs, limit⟩ : Setting).advance steps (.running (p.relabelled func) m) =
      ((⟨func, regs, limit⟩ : Setting).advance steps (.running p m)).map (Status.relabelled func) := by
  induction steps generalizing p m with
  | zero => rfl
  | succ steps ih =>
    simp only [advance, relabelled.step_eq laid same within]
    cases stepped : (⟨func, regs, limit⟩ : Setting).step p m with
    | error cause => rfl
    | ok status =>
      cases status with
      | returned v after => exact (advance_of_returned ..).trans (by rw [ok_bind, advance_of_returned]; rfl)
      | running reached after => exact ih (step_within laid within stepped) after

theorem runWithin_eq {limit : Nat} (m : Machine) : next.runWithin regs limit m = func.runWithin regs limit m := by
  have entered : (⟨next, regs, some limit⟩ : Setting).enter m =
      .ok (.running ((⟨func.entry, func.codeOf func.entry⟩ : Point).relabelled func) m) := by
    simp only [enter, relabelled.entry, relabelled.starts _ laid.entered]
    rfl
  rw [laid.runWithin_eq, runWithin, entered, liftM_ok, ok_bind, finish, finish, relabelled.length,
    relabelled.advance_eq laid same _ (within_start laid.entered)]
  cases (⟨func, regs, some limit⟩ : Setting).advance _ _ with
  | error cause => rfl
  | ok status => cases status <;> rfl

/-- Both functions have the same endings. -/
theorem endsAs_iff (words : Nat → UInt32) (m : Machine)
    (ending : Ending) : func.EndsAs regs words m ending ↔ next.EndsAs regs words m ending := by
  let Related (calls n : Nat) (first : Point) (one : Machine) (second : Point) (two : Machine) : Prop :=
    n = calls ∧ first.Within func ∧ second = first.relabelled func ∧ two = one
  have step : ∀ calls n first one second two, Related calls n first one second two →
      Same (Alike (Related (callsAfter calls first) (callsAfter n second)))
        ((func.free regs).stepGiven (words calls) first one)
        ((next.free regs).stepGiven (words n) second two) := by
    rintro _ calls first _ _ one ⟨rfl, within, rfl, rfl⟩
    have sameCall : (first.relabelled func).atCall = first.atCall := by
      obtain ⟨b, _ | ⟨inst, rest⟩⟩ := first
      · rfl
      · simp only [atCall, Point.relabelled, relabel, map_cons, head?_cons, any_some]
        rw [← inst.isCall_placed]
        rcases renamed_cases func.placement inst.placed with isSame | ⟨t, label, isBranch, isSame⟩
        · rw [isSame]
        · rw [isSame, isCall, isCall, isBranch]
    have sameCount : callsAfter calls (first.relabelled func) = callsAfter calls first := by
      rw [callsAfter, callsAfter, sameCall]
    rw [stepGiven, stepGiven, relabelled.step_eq laid same within, sameCall, sameCount]
    rcases stepped : (func.free regs).step first one with cause | ⟨reached, after⟩ | ⟨v, after⟩
    · exact .error _
    · exact .ok (.running ⟨rfl, step_within laid within stepped, rfl, rfl⟩)
    · exact .ok (.returned rfl)
  have enters : (func.free regs).enter m = .ok (.running ⟨func.entry, func.codeOf func.entry⟩ m) := by
    simp only [enter, laid.startOf laid.entered]
    rfl
  have entersNext : (next.free regs).enter m =
      .ok (.running ((⟨func.entry, func.codeOf func.entry⟩ : Point).relabelled func) m) := by
    simp only [enter, relabelled.entry, relabelled.starts _ laid.entered]
    rfl
  have related : Related 0 0 ⟨func.entry, func.codeOf func.entry⟩ m _ m :=
    ⟨rfl, within_start laid.entered, rfl, rfl⟩
  constructor
  · rintro ⟨start, isStart, ends⟩
    obtain rfl := ok_unique enters isStart
    exact ⟨_, entersNext, @Ends.lockstep _ _ _ _ Related step _ _ _ _ _ ends (.running related)⟩
  · rintro ⟨start, isStart, ends⟩
    obtain rfl := ok_unique entersNext isStart
    refine ⟨_, enters, @Ends.lockstep _ _ _ _ (fun calls n first one second two =>
      Related n calls second two first one) (fun calls n first one second two related => ?_) _ _ _ _ _ ends
      (.running related)⟩
    exact (step n calls second two first one related).flip.mono fun _ _ => Alike.flip

end

/-- The view in which all cells are at their places becomes the same function. -/
theorem viewed : Relabelled (func.viewed true) next := by
  refine ⟨relabelled.length, relabelled.entry, fun b inside => ?_, relabelled.follows, fun b inside => ?_⟩
  · have code : ((func.viewed true).codeOf b).map func.relabel = (func.codeOf b).map func.relabel := by
      rw [codeOf_viewed, List.map_map]
      exact map_congr_left fun inst _ => congrArg (renamed func.placement) inst.placed_placed
    have starts := relabelled.starts b inside
    rwa [← code] at starts
  · rw [block?_viewed, Option.map_map]
    exact relabelled.named b inside

end Func.Relabelled

namespace Func

/-- The map gives the laid out blocks the numbers from zero in code order, and the new function is under these numbers
what the old one is. -/
structure NumberedBy (func next : Func) (blockMap : BlockMap) : Prop where
  domain : ∀ b, (∃ place, blockMap.get? b = some place) ↔ b ∈ func.layout
  injective : ∀ first second place, blockMap.get? first = some place → blockMap.get? second = some place →
    first = second
  layout : next.layout = (List.range func.layout.length).map BlockId.mk
  order : next.layout.map some = func.layout.map blockMap.get?
  entry : blockMap.get? func.entry = some next.entry
  succs : ∀ b place, blockMap.get? b = some place →
    (next.succsOf place).map some = (func.succsOf b).map blockMap.get?
  preds : ∀ b place, blockMap.get? b = some place →
    (next.predsOf place).map some = (func.predsOf b).map blockMap.get?
  targets : ∀ b place, blockMap.get? b = some place →
    (next.targetsOf place).map some = (func.targetsOf b).map blockMap.get?

theorem placement_eq_some (once : func.layout.Nodup) {place : BlockId} :
    func.placement.get? b = some place ↔ func.layout[place.index]? = some b := by
  refine ⟨fun placed => ?_, placement_get? once⟩
  obtain ⟨i, isBlock⟩ := getElem?_of_mem (mem_layout_of_placed placed)
  obtain rfl := mem_unique placed (placement_get? once isBlock)
  exact isBlock

theorem renumber_numberedBy (laid : func.Laid) (recoded : Recoded func resolved fun b => (func.codeOf b).map placed)
    (renumbered : Renumbered resolved next) : NumberedBy func next func.placement := by
  have once := laid.once
  have sameLayout := recoded.layout
  have samePlacement : resolved.placement = func.placement := by rw [placement, placement, sameLayout]
  refine ⟨fun b => ⟨fun got => got.elim fun _ => mem_layout_of_placed, fun inside => ?_⟩, ?_, ?_, ?_, ?_, ?_, ?_, ?_⟩
  · obtain ⟨i, isBlock⟩ := getElem?_of_mem inside
    exact ⟨⟨i⟩, placement_get? once isBlock⟩
  · intro first second place isFirst isSecond
    exact mem_unique ((placement_eq_some once).mp isFirst) ((placement_eq_some once).mp isSecond)
  · rw [renumbered.layout, sameLayout]
  · rw [renumbered.layout, sameLayout]
    refine ext_getElem? fun i => ?_
    simp only [getElem?_map]
    cases isBlock : func.layout[i]? with
    | none => simp [getElem?_eq_none_iff.mp isBlock]
    | some b =>
      have inside := lt_length isBlock
      simp [getElem?_range inside, placement_get? once isBlock]
  · obtain ⟨i, isEntry, isNext⟩ := renumbered.entry
    rw [recoded.entry, sameLayout] at isEntry
    rw [isNext, placement_get? once isEntry]
  · intro b place placed
    have isBlock : resolved.layout[place.index]? = some b := sameLayout ▸ (placement_eq_some once).mp placed
    rw [← recoded.succsOf, ← samePlacement]
    exact renumbered.succsOf place.index b isBlock
  · intro b place placed
    have isBlock : resolved.layout[place.index]? = some b := sameLayout ▸ (placement_eq_some once).mp placed
    rw [← recoded.predsOf, ← samePlacement]
    exact renumbered.predsOf place.index b isBlock
  · intro b place placed
    have isBlock : resolved.layout[place.index]? = some b := sameLayout ▸ (placement_eq_some once).mp placed
    have inside := mem_layout_of_placed placed
    have code := renumbered.codeOf place.index b isBlock
    rw [recoded.codeOf b inside, samePlacement] at code
    simp only [targetsOf, code, map_filterMap, filterMap_map]
    refine filterMap_congr fun inst isInst => ?_
    rw [Function.comp_apply, Function.comp_apply, branchTarget_renamed, branchTarget_placed]
    cases isTarget : inst.branchTarget with
    | none => rfl
    | some t =>
      obtain ⟨i, isPosition⟩ := getElem?_of_mem (laid.targets b inside inst isInst t isTarget)
      simp [placement_get? once isPosition]

/-- Resolving the frame cells and numbering the blocks in code order is possible and leaves every run as it is, if each
laid out block has one place, branches and edges stay among these blocks, and all frame cells are near. -/
theorem resolve_renumber_run (laid : func.Laid)
    (succs : ∀ block ∈ func.layout, ∀ succ ∈ func.succsOf block, succ ∈ func.layout)
    (preds : ∀ block ∈ func.layout, ∀ pred ∈ func.predsOf block, pred ∈ func.layout)
    (near : ∀ block ∈ func.layout, ∀ inst ∈ func.codeOf block, ∀ cell,
      inst.readsCell = some cell ∨ inst.writesCell = some cell → cell.index < 2 ^ 29) :
    ∃ resolved blockMap next, func.resolveCells = .ok resolved ∧ resolved.renumber = .ok (blockMap, next) ∧
      NumberedBy func next blockMap ∧ (∀ regs, next.run regs = func.run regs) ∧
      ∀ regs limit machine, next.runWithin regs limit machine = func.runWithin regs limit machine := by
  have addressable : ∀ block ∈ func.layout, ∀ inst ∈ func.codeOf block, inst.Addressable :=
    fun block inside inst isInst cell named => CellId.offset_total (near block inside inst isInst cell named)
  obtain ⟨resolved, resolving⟩ := resolveCells_total (fun _ => laid.index_lt) addressable
  have recoded := resolveCells_recoded laid.once laid.found resolving
  have sameLayout := recoded.layout
  have laidResolved : resolved.Laid := by
    refine ⟨sameLayout ▸ laid.once,
      fun block inside => recoded.found block (laid.found block (sameLayout ▸ inside)), ?_, ?_⟩
    · intro block inside inst isInst target isTarget
      rw [sameLayout] at inside ⊢
      rw [recoded.codeOf block inside] at isInst
      obtain ⟨origin, isOrigin, rfl⟩ := List.mem_map.mp isInst
      exact laid.targets block inside origin isOrigin target (origin.branchTarget_placed ▸ isTarget)
    · rw [sameLayout, recoded.entry]
      exact laid.entered
  obtain ⟨⟨blockMap, next⟩, renumbering⟩ := laidResolved.renumber_total
    (fun block inside succ isSucc => sameLayout ▸ succs block (sameLayout ▸ inside) succ
      (recoded.succsOf block ▸ isSucc))
    (fun block inside pred isPred => sameLayout ▸ preds block (sameLayout ▸ inside) pred
      (recoded.predsOf block ▸ isPred))
  obtain ⟨rfl, renumbered⟩ := renumber_renumbered laidResolved.once renumbering
  have relabelled := renumber_relabelled laid resolving recoded renumbered
  have within : ∀ regs limit machine, next.runWithin regs limit machine = func.runWithin regs limit machine :=
    fun regs limit machine => relabelled.runWithin_eq laid (fun block inside inst isInst _ =>
      Machine.perform_placed (addressable block inside inst isInst)) machine
  have samePlacement : resolved.placement = func.placement := by rw [placement, placement, sameLayout]
  refine ⟨resolved, _, next, resolving, renumbering, samePlacement ▸ renumber_numberedBy laid recoded renumbered,
    fun regs => ?_, within⟩
  rw [run_eq, run_eq]
  exact congrArg _ (funext fun machine => within regs stepLimit machine)

/-- Two blocks in the wrong order, with a hole before them and a cell that is stored and loaded. -/
def swappedFunc : Func where
  name := "swapped"
  blocks := [
    { name := "hole", erased := true },
    { name := "last", insts := [.plain (.load ⟨2⟩ (.frame ⟨1⟩)), .plain (.ret ⟨2⟩)], preds := [⟨2⟩] },
    { name := "first", insts := [.plain (.store (.frame ⟨1⟩) ⟨1⟩), .plain (.branch ⟨1⟩)], succs := [⟨1⟩] }]
  layout := [⟨2⟩, ⟨1⟩]
  entry := ⟨2⟩
  cells := 2

theorem resolve_renumber_run_swapped : ∃ resolved blockMap next, swappedFunc.resolveCells = .ok resolved ∧
    resolved.renumber = .ok (blockMap, next) ∧ next.layout = [⟨0⟩, ⟨1⟩] ∧
    ∀ regs limit machine, next.runWithin regs limit machine = swappedFunc.runWithin regs limit machine := by
  have laid : swappedFunc.Laid := ⟨by decide, by simp [swappedFunc, block?], by decide, by decide⟩
  have near : ∀ block ∈ swappedFunc.layout, ∀ inst ∈ swappedFunc.codeOf block,
      ∀ cell ∈ inst.readsCell.toList ++ inst.writesCell.toList, cell.index < 2 ^ 29 := by decide
  obtain ⟨resolved, blockMap, next, resolving, renumbering, numbered, _, same⟩ :=
    resolve_renumber_run laid (by decide) (by decide) fun block inside inst isInst cell named =>
      near block inside inst isInst cell (by simpa using named)
  exact ⟨resolved, blockMap, next, resolving, renumbering, numbered.layout, same⟩

end Func

end SinglePath
