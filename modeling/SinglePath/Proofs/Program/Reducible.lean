import SinglePath.Program.Samples
import SinglePath.Proofs.Program.Planned
import SinglePath.Proofs.Reduction.Concluded

namespace SinglePath

open Builder List

variable {code : List Inst} {ss : List Stmt}

theorem BranchesLast.cons {inst : Inst} {code : List Inst} (plain : inst.branchTarget = none)
    (last : BranchesLast code) :
    BranchesLast (inst :: code) := by
  obtain ⟨body, branches, rfl, plainBody, only⟩ := last
  exact ⟨inst :: body, branches, rfl, by simpa [plain] using plainBody, only⟩

theorem BranchesLast.prepend {before : List Inst} (plain : ∀ inst ∈ before, inst.branchTarget = none)
    (last : BranchesLast code) : BranchesLast (before ++ code) := by
  induction before with
  | nil => exact last
  | cons inst rest ih =>
    exact .cons (plain inst (.head _)) (ih fun o listed => plain o (.tail _ listed))

theorem BranchesLast.of_branches (only : ∀ inst ∈ code, ∃ t, inst.branchTarget = some t) : BranchesLast code :=
  ⟨[], code, rfl, by simp, only⟩

theorem BranchesLast.of_plain (plain : ∀ inst ∈ code, inst.branchTarget = none) : BranchesLast code :=
  ⟨code, [], by simp, plain, by simp⟩

namespace Inst

variable {inst : Inst}

theorem branchTarget_of_plain (plain : inst.isTerminator = false) : inst.branchTarget = none := by
  simp only [isTerminator, isBranch, Bool.or_eq_false_iff] at plain
  simpa using plain.1

theorem isReturn_of_plain (plain : inst.isTerminator = false) : inst.isReturn = false := by
  simp only [isTerminator, Bool.or_eq_false_iff] at plain
  exact plain.2

end Inst

section

variable {Tested : Test → Prop} {limit : Nat} {Last : List Inst → Prop}

/-- The branches of a segment stand at its end if those of what is last do. -/
theorem Segment.branchesLast (segment : Segment (fun inst => inst.isTerminator = false) Tested limit Last code)
    (atEnd : ∀ code, Last code → BranchesLast code) : BranchesLast code := by
  induction segment with
  | last isLast => exact atEnd _ isLast
  | jump _ => exact .of_branches (by simp [Inst.branchTarget, Inst.plain])
  | fork _ _ _ =>
    exact .cons rfl (.of_branches (by simp [forkCode, Inst.branchIf, Inst.branchTarget, Inst.plain, Inst.withGuard]))
  | cons plain _ ih => exact .cons (Inst.branchTarget_of_plain plain) ih

/-- A segment does not return, apart from what is last. -/
theorem Segment.returns (segment : Segment (fun inst => inst.isTerminator = false) Tested limit Last code) :
    (∀ inst ∈ code, inst.isReturn = false) ∨
      ∃ body rest, code = body ++ rest ∧ Last rest ∧ ∀ inst ∈ body, inst.isReturn = false := by
  induction segment with
  | last isLast => exact .inr ⟨[], _, rfl, isLast, by simp⟩
  | jump _ => exact .inl (by simp [Inst.isReturn, Inst.plain])
  | fork _ _ _ =>
    exact .inl (by simp [forkCode, Inst.branchIf, Inst.isReturn, Inst.plain, Inst.withGuard, Test.inst])
  | cons plain _ ih =>
    have first := Inst.isReturn_of_plain plain
    rcases ih with silent | ⟨body, rest, rfl, isLast, silent⟩
    · exact .inl (by simpa [first] using silent)
    · exact .inr ⟨_ :: body, rest, rfl, isLast, by simpa [first] using silent⟩

end

/-- The statements end at the last node of their scope, or at the block where they start if there are no nodes. -/
theorem Spells.last_node {text : Text} {s : ScopeId} {depth : Nat} {first last : Numbers} {start final : Place}
    {nodes : List ScopeNode} {defs : List PredDef} (spelt : Spells text s depth first start ss nodes defs final last) :
    (.block start.block :: nodes).getLast? = some (.block final.block) := by
  have after : ∀ (before rest : List ScopeNode) {final b : BlockId},
      (.block b :: rest).getLast? = some (ScopeNode.block final) →
      (before ++ .block b :: rest).getLast? = some (.block final) := by
    intro before rest final b isLast
    rw [getLast?_append_of_ne_nil _ (cons_ne_nil _ _), isLast]
  induction spelt with
  | nil => rfl
  | simple _ later => exact later
  | ifThenElse _ _ _ _ _ _ _ _ later =>
    simp only [← cons_append]
    exact after _ _ later
  | whileDo _ _ _ _ _ _ _ _ later => exact after [_, _] _ later
  | repeatUntil _ _ _ _ _ later => exact after [_, _] _ later

namespace Program

variable {p : Program} {result : GReg} {outline : Outline}

variable (built : p.Built ss result outline)

include built

/-- The edges of a built program follow its code. -/
theorem Built.derived : p.func.Derived where
  linked := built.linked
  sourced b o isSucc := ((built.succs b o).mp isSucc).1
  targets b inside c got t isTarget := by
    refine (built.succs b t).mpr ⟨inside, ?_⟩
    rwa [Func.targetsOf, Func.codeOf_eq got]

variable (plain : StraightLine (Stmt.instsAll ss))

include plain

/-- The branches of a built program end its blocks. -/
theorem Built.tails (b : BlockId) : BranchesLast (p.func.codeOf b) := by
  by_cases inside : b.index < outline.numbers.blocks
  · obtain ⟨before, code, isCode, isBefore, segment⟩ := built.segment plain inside
    rw [isCode]
    refine .prepend ?_ (segment.branchesLast fun code isLast => isLast.2 ▸ .of_plain ?_)
    · rcases isBefore with rfl | rfl
      · simp
      · decide
    · simp [epilogue, Inst.setup, Inst.plain, Inst.branchTarget]
  · rw [built.codeOf_missing (Nat.le_of_not_lt inside)]
    exact .of_plain (by simp)

/-- The only return of a built program ends the last node of its root. -/
theorem Built.onlyReturn : p.func.OnlyReturn p.tree outline.exit := by
  have silent {before : List Inst} (isBefore : before = [] ∨ before = prologue frameWords) :
      ∀ inst ∈ before, inst.isReturn = false := by
    rcases isBefore with rfl | rfl
    · simp
    · decide
  constructor
  · exact ⟨_, present_eq_ok.mpr built.root, built.spelt.last_node⟩
  · have sited : epilogue frameWords result <:+ p.func.codeOf outline.exit :=
      built.spelt.sited (⟨_, built.entryCode.symm⟩ : Place.Sited ⟨⟨0⟩, ⟨0⟩, outline.body⟩ p.text)
    have inside : outline.exit.index < outline.numbers.blocks := by
      by_contra outside
      rw [built.codeOf_missing (Nat.le_of_not_lt outside)] at sited
      exact absurd (suffix_nil.mp sited) (by simp [epilogue])
    obtain ⟨before, code, isCode, isBefore, segment⟩ := built.segment plain inside
    rcases segment.returns with none | ⟨body, rest, rfl, ⟨_, rfl⟩, silentBody⟩
    · have isReturn : Inst.plain (.ret result) ∈ before ++ code := isCode ▸ sited.subset (by simp [epilogue])
      rcases mem_append.mp isReturn with early | late
      · cases silent isBefore _ early
      · cases none _ late
    · refine ⟨before ++ body ++ restoring frameWords, .plain (.ret result), ?_, rfl, ?_⟩
      · rw [isCode]
        simp [epilogue, restoring]
      · simp only [forall_mem_append]
        exact ⟨⟨silent isBefore, silentBody⟩, by decide⟩
  · intro b ne
    by_cases inside : b.index < outline.numbers.blocks
    · obtain ⟨before, code, isCode, isBefore, segment⟩ := built.segment plain inside
      rw [isCode, forall_mem_append]
      refine ⟨silent isBefore, ?_⟩
      rcases segment.returns with none | ⟨_, _, _, ⟨isExit, _⟩, _⟩
      · exact none
      · exact absurd isExit.symm ne
    · simp [built.codeOf_missing (Nat.le_of_not_lt inside)]

/-- A built program is regular if its statements have no branches and returns of their own and no guarded calls. -/
theorem Built.regular (unguarded : ∀ inst ∈ Stmt.instsAll ss, inst.isCall = true → inst.guard.isAlways = true) :
    p.func.Regular p.tree outline.exit where
  derived := built.derived
  once := (built.laid plain).once
  entered := (built.laid plain).entered
  plain inst listed := by
    have branches : ∀ inst ∈ p.func.codeOf p.func.entry, inst.isBranch = true → inst.frameSetup = false := by
      refine built.forall_code (by decide) ?_ (fun _ => Bool.noConfusion) (fun t => ⟨fun _ => rfl, fun _ => rfl⟩)
        (fun inst listed isBranch => ?_) _
      · simp [epilogue, Inst.setup, Inst.plain, Inst.isBranch, Inst.branchTarget]
      · simp [Inst.isBranch, Inst.branchTarget_of_plain (plain inst listed)] at isBranch
    refine branches inst ?_ (isBranch_of_mem_trailing listed)
    rw [← stripped_append_trailing (p.func.codeOf p.func.entry)]
    exact mem_append_right _ listed
  tails := built.tails plain
  only := built.onlyReturn plain
  unguarded := by
    refine built.forall_code (by decide) ?_ (fun _ => Bool.noConfusion)
      (fun t => ⟨Bool.noConfusion, Bool.noConfusion⟩) unguarded
    simp [epilogue, Inst.setup, Inst.plain, Inst.isCall]

end Program

/-- Carrying out a plan decides how a reduction ends. -/
theorem Func.reduce_of_plan {f start : Func} {tree : ScopeTree} {regs : TargetRegs} {options : ReduceOptions}
    {plan : Plan}
    (singlePath : tree.singlePath = true) (planned : Plan.make tree regs f = .ok (plan, start)) :
    f.reduce tree regs options =
      match plan.carryOut options { func := start } with
      | .ok (reduction, work) => (.ok reduction, work.func)
      | .error stopped => (.error stopped.failure, stopped.work.func) := by
  have isRun : ({ func := f } : Work).reduce tree regs options = plan.carryOut options { func := start } := by
    simp only [Work.reduce, singlePath, if_true, planned, Work.await_ok, ok_bind]
  unfold reduce
  cases carried : plan.carryOut options { func := start } <;> simp only [isRun, carried]

/-- Statements are built into a program that is always reduced: by a function or a region, with at least one predicate
register to allocate, whatever the options. No instruction may branch, return, call under a guard or name another
predicate register than the condition register. If the scopes and the frame cells can be numbered, a plan is made, and
it is carried out if every frame cell of the statements and of the plan has a byte offset; without that the only failure
is a number that leaves its word. -/
theorem Builder.Opened.reduces {builder : Builder} (opened : builder.Opened) {stmts : List Stmt}
    (plain : ∀ inst ∈ Stmt.instsAll stmts, inst.isTerminator = false)
    (named : ∀ inst ∈ Stmt.instsAll stmts, inst.NamesCond)
    (unguarded : ∀ inst ∈ Stmt.instsAll stmts, inst.isCall = true → inst.guard.isAlways = true) (result : GReg)
    {regs : TargetRegs} (several : 4 ≤ regs.predCount) (few : regs.predCount ≤ 32) (options : ReduceOptions) :
    ∃ program, builder.finish stmts result = .ok program ∧ (program.tree.scopes.length < 0x100000000 →
      (∀ failure, (program.func.reduce program.tree regs options).1 = .error failure → failure = .fault .overflow) ∧
      (Plan.make program.tree regs program.func = .error (.fault .overflow) ∧
          (∃ registers allocs count, program.tree.allocate registers = .ok allocs ∧
            FrameLayout.size program.func program.tree allocs = .ok count ∧
            0x100000000 ≤ program.func.cells + count) ∨
        ∃ plan start, Plan.make program.tree regs program.func = .ok (plan, start) ∧
          ((∀ inst ∈ Stmt.instsAll stmts, inst.Addressable) →
            (∀ cell ∈ plan.frame.cells, ∃ offset, cell.offset = .ok offset) →
            ∃ reduction, (program.func.reduce program.tree regs options).1 = .ok reduction))) := by
  obtain ⟨program, outline, finished, built, _⟩ := opened.finish_built plain result
  refine ⟨program, finished, fun numbered => ?_⟩
  obtain ⟨plan, start, planned⟩ | ⟨unplanned, far⟩ := built.planned numbered named several
  swap
  · refine ⟨fun failure failed => ?_, .inl ⟨unplanned, far⟩⟩
    simp only [Func.reduce, Work.reduce, built.singlePath, unplanned, Work.await] at failed
    exact (Except.error.inj failed).symm
  obtain ⟨isTree, rfl, depths, made⟩ := Plan.make_ok planned
  have regular : program.func.Regular plan.tree outline.exit := isTree ▸ built.regular plain unguarded
  refine ⟨?_, .inr ⟨plan, start, planned, ?_⟩⟩
  · intro failure failed
    rw [Func.reduce_of_plan built.singlePath planned] at failed
    cases carried : plan.carryOut options { func := start } with
    | ok done => simp [carried] at failed
    | error stopped =>
        simp only [carried] at failed
        exact Except.error.inj failed ▸ made.carryOut_failure few regular carried
  · intro addressable placed
    have own : ∀ block, ∀ inst ∈ program.func.codeOf block, inst.Addressable := by
      refine built.forall_code (by decide) ?_ (fun test cell named => ?_) (fun target =>
        ⟨fun cell named => ?_, fun cell named => ?_⟩)
        addressable
      · simp [epilogue, Inst.setup, Inst.plain, Inst.Addressable, Inst.readsCell, Inst.writesCell]
      all_goals simp [Inst.readsCell, Inst.writesCell, Test.inst, Inst.branchIf, Inst.withGuard, Inst.plain] at named
    obtain ⟨⟨reduction, work⟩, carried⟩ := made.carryOut_total few regular options own placed
    exact ⟨reduction, by rw [Func.reduce_of_plan built.singlePath planned, carried]⟩

/-- Calls, conditionals and two loops as a region, with a single register to allocate: the plan takes four frame
cells. -/
theorem Samples.calls_selfLoop_reduces :
    (Builder.cellRegion "calls").Opened ∧
      (∀ inst ∈ Stmt.instsAll (calls ++ selfLoop),
        inst.isTerminator = false ∧ inst.NamesCond ∧ (inst.isCall = true → inst.guard.isAlways = true) ∧
        inst.Addressable) ∧
      ∀ options, ∃ program plan start,
        (Builder.cellRegion "calls").finish (calls ++ selfLoop) (reg 1) = .ok program ∧
          Plan.make program.tree { predCount := 4 } program.func = .ok (plan, start) ∧
          (∀ cell ∈ plan.frame.cells, ∃ offset, cell.offset = .ok offset) ∧
          ∃ reduction, (program.func.reduce program.tree { predCount := 4 } options).1 = .ok reduction := by
  have opened := Builder.cellRegion_opened "calls"
  have fit : ∀ inst ∈ Stmt.instsAll (calls ++ selfLoop),
      inst.isTerminator = false ∧ inst.NamesCond ∧ (inst.isCall = true → inst.guard.isAlways = true) ∧
        inst.Addressable := by
    decide
  refine ⟨opened, fit, fun options => ?_⟩
  obtain ⟨program, finished, reduces⟩ :=
    Builder.Opened.reduces opened (fun inst listed => (fit inst listed).1) (fun inst listed => (fit inst listed).2.1)
      (fun inst listed => (fit inst listed).2.2.1) (reg 1)
      (show 4 ≤ ({ predCount := 4 } : TargetRegs).predCount by decide) (by decide) options
  have shown : (do
      let program ← ((Builder.cellRegion "calls").finish (calls ++ selfLoop) (reg 1)).toOption
      let made ← (Plan.make program.tree { predCount := 4 } program.func).toOption
      return (made.1.frame.cells, program.tree.scopes.length)) = some ((List.range' 1 4).map CellId.mk, 3) := by
    decide +kernel
  rw [finished] at shown
  cases planned : Plan.make program.tree { predCount := 4 } program.func with
  | error failure => simp [planned, Except.toOption] at shown
  | ok made =>
    simp only [Except.toOption, Option.pure_def, Option.bind_eq_bind, Option.bind_some, planned, Option.some.injEq,
      Prod.mk.injEq] at shown
    have placed : ∀ cell ∈ made.1.frame.cells, ∃ offset, cell.offset = .ok offset := by
      rw [shown.1]
      exact fun cell listed => cell.offset_cases.resolve_right (by revert cell; decide)
    obtain ⟨_, ⟨unplanned, _⟩ | ⟨plan, start, isPlan, carries⟩⟩ := reduces (by omega)
    · simp [planned] at unplanned
    · obtain rfl := ok_unique planned isPlan
      exact ⟨program, plan, start, finished, planned, placed,
        carries (fun inst listed => (fit inst listed).2.2.2) placed⟩

/-- A load from a frame cell at a distance of 2^31 bytes: nothing but the cell is out of the ordinary, and the reduction
stops when it computes the cell's offset. -/
theorem Samples.far_cell_not_reduced :
    (Builder.start "far").Opened ∧
      (∀ inst ∈ Stmt.instsAll [.simple (.plain (.load (reg 1) (.frame ⟨2 ^ 29⟩)))],
        inst.isTerminator = false ∧ inst.NamesCond ∧ inst.isCall = false) ∧
      ∃ program,
        (Builder.start "far").finish [.simple (.plain (.load (reg 1) (.frame ⟨2 ^ 29⟩)))] (reg 1) = .ok program ∧
        (program.func.reduce program.tree { predCount := 4 } {}).1 = .error (.fault .overflow) :=
  ⟨.start "far", by decide, _, rfl, rfl⟩

end SinglePath
