import SinglePath.Program.Samples
import SinglePath.Program.Validity
import SinglePath.Proofs.Func.Possible
import SinglePath.Proofs.Program.Built

/-!
The predicate registers that are live at a block of a built program, and those that it declares.
-/

namespace SinglePath

open Builder Func Inst List Stmt

variable {r : PReg}

/-- The register is written whatever the predicates are. -/
def Inst.overwrites (inst : Inst) (r : PReg) : Bool := inst.guard.isAlways && inst.writesPred r

/-- The code reads the register before it overwrites it. -/
def readsFirst (r : PReg) : List Inst → Bool
  | [] => false
  | inst :: rest => inst.readsPred r || (!inst.overwrites r && readsFirst r rest)

theorem exists_of_readsFirst {code : List Inst} (reads : readsFirst r code = true) :
    ∃ inst ∈ code, inst.readsPred r = true := by
  induction code with
  | nil => cases reads
  | cons inst rest ih =>
    simp only [readsFirst, Bool.or_eq_true, Bool.and_eq_true] at reads
    rcases reads with here | ⟨_, later⟩
    · exact ⟨inst, .head _, here⟩
    · obtain ⟨o, listed, isRead⟩ := ih later
      exact ⟨o, .tail _ listed, isRead⟩

/-- On some way from the block the register is read before it is overwritten. -/
inductive Func.LiveAt (f : Func) (r : PReg) : BlockId → Prop where
  | here {b : BlockId} (reads : readsFirst r (f.codeOf b) = true) : LiveAt f r b
  | later {b next : BlockId} (kept : ∀ inst ∈ f.codeOf b, inst.overwrites r = false)
    (isSucc : next ∈ f.succsOf b) (live : LiveAt f r next) : LiveAt f r b

/-- Every block declares the registers that are live at it, the constant apart. -/
def Func.DeclaresLive (f : Func) : Prop :=
  ∀ b ∈ f.layout, ∀ body, f.block? b = some body →
    ∀ r, f.LiveAt r b → r = .zero ∨ r ∈ body.liveIns

/-- The guard and the conditions of the instruction name the constant and the register of the tests only. -/
abbrev Inst.ReadsTests (inst : Inst) : Prop :=
  ∀ cond ∈ inst.guard :: inst.op.condReads, cond.reg = .zero ∨ cond.reg = condReg

theorem Inst.ReadsTests.reg_eq {inst : Inst} (tested : inst.ReadsTests) (reads : inst.readsPred r = true) :
    r = .zero ∨ r = condReg := by
  simp only [readsPred, Bool.or_eq_true, Bool.and_eq_true, List.any_eq_true, beq_iff_eq] at reads
  rcases reads with ⟨_, rfl⟩ | ⟨cond, listed, rfl⟩
  · exact tested _ (.head _)
  · exact tested cond (.tail _ listed)

namespace Program.Finished

variable {p : Program} {ss : List Stmt} {result : GReg} {outline : Outline} {b : BlockId}
  (finished : p.Finished ss result outline)
include finished

theorem succ_laid {next : BlockId} (isSucc : next ∈ p.func.succsOf b) : next ∈ p.func.layout :=
  (mem_layout_iff finished.layout).mpr (finished.size ▸ finished.linked.succ_lt isSucc)

/-- What is live at a block is read first by some block. -/
theorem readsFirst_of_liveAt (live : p.func.LiveAt r b) (inside : b ∈ p.func.layout) :
    ∃ reader ∈ p.func.layout, readsFirst r (p.func.codeOf reader) = true := by
  induction live with
  | here reads => exact ⟨_, inside, reads⟩
  | later _ isSucc _ ih => exact ih (finished.succ_laid isSucc)

theorem covers_iff : p.func.DeclaresLive ↔ ∀ b ∈ p.func.layout, ∀ r, readsFirst r (p.func.codeOf b) = true →
      r = .zero ∨ r = condReg := by
  have declared {b : BlockId} {body : Block} (got : p.func.block? b = some body) :
      body.liveIns = [condReg] := (finished.contents body (mem_of_getElem? got)).2
  constructor
  · intro declares b inside r reads
    obtain ⟨body, got⟩ := finished.found ((mem_layout_iff finished.layout).mp inside)
    simpa [declared got] using declares b inside body got r (.here reads)
  · intro tested b inside body got r live
    obtain ⟨reader, readerInside, reads⟩ := finished.readsFirst_of_liveAt live inside
    simpa [declared got] using tested reader readerInside r reads

/-- What a block reads beside, a statement reads. -/
theorem readsTests (tested : ∀ inst ∈ instsAll ss, inst.ReadsTests)
    (inside : b ∈ p.func.layout) : ∀ inst ∈ p.func.codeOf b, inst.ReadsTests := by
  refine finished.spelt.forall_code finished.entryCode (by decide) ?_ (fun _ _ => ?_) ?_ tested
    ((mem_layout_iff finished.layout).mp inside)
  · simp [epilogue, ReadsTests, setup, plain, Op.condReads, Cond.always]
  · simp [ReadsTests, Test.inst, plain, Op.condReads, Cond.always]
  · simp [ReadsTests, plain, Op.condReads, Cond.always, branchIf, withGuard, Cond.fails]

end Program.Finished

/-- A built program declares what is live if and only if no block reads a register, other than that of the tests, that
it has not overwritten before. So does every program whose statements read no other register. -/
theorem Builder.Opened.declaresLive_iff {builder : Builder} {stmts : List Stmt} {result : GReg} {program : Program}
    (opened : builder.Opened) (built : builder.finish stmts result = .ok program) :
    (program.func.DeclaresLive ↔ ∀ block ∈ program.func.layout, ∀ reg,
      readsFirst reg (program.func.codeOf block) = true → reg = .zero ∨ reg = condReg) ∧
      ((∀ inst ∈ instsAll stmts, inst.ReadsTests) → program.func.DeclaresLive) := by
  obtain ⟨derived, isDerived, rfl⟩ := finish_eq_ok.mp built
  obtain ⟨outline, completed⟩ := opened.begun.completed stmts result
  have finished := completed.finished opened.begun isDerived
  refine ⟨finished.covers_iff, fun tested => finished.covers_iff.mpr ?_⟩
  intro block inside reg reads
  obtain ⟨inst, listed, isRead⟩ := exists_of_readsFirst reads
  exact (finished.readsTests tested inside inst listed).reg_eq isRead

theorem Samples.nestedLoops_declared :
    ∃ program, build "nested_loops" nestedLoops 3 = .ok program ∧ program.func.DeclaresLive := by
  have opened : (Builder.start "nested_loops").Opened := .start _
  obtain ⟨program, _, built, _⟩ := opened.finish_built (by decide : ∀ inst ∈ instsAll nestedLoops, _) (reg 3)
  exact ⟨program, built, (Builder.Opened.declaresLive_iff opened built).2 (by decide)⟩

/-- A branch reads the predicate that was computed before the test, and does not declare it. -/
theorem Samples.guardedOps_undeclared : ∃ program, build "guarded_ops" guardedOps 3 = .ok program ∧
    program.validate {} = .ok () ∧ ¬ program.func.DeclaresLive := by
  have shown : (build "guarded_ops" guardedOps 3).map (fun program => (program.validate {},
      decide (⟨1⟩ ∈ program.func.layout),
      (program.func.block? ⟨1⟩).map fun content => (readsFirst ⟨2⟩ content.insts, content.liveIns))) =
      .ok (.ok (), true, some (true, [condReg])) := by
    cbv
  cases built : build "guarded_ops" guardedOps 3 with
  | error fault => simp [built, Except.map] at shown
  | ok program =>
    simp only [built, Except.map, Except.ok.injEq, Prod.mk.injEq, decide_eq_true_eq, Option.map_eq_some_iff] at shown
    obtain ⟨accepted, inside, content, found, reads, declared⟩ := shown
    refine ⟨program, rfl, accepted, fun declares => ?_⟩
    have covered := declares ⟨1⟩ inside content found ⟨2⟩ (.here (by rwa [codeOf_eq found]))
    rw [declared] at covered
    revert covered
    decide

end SinglePath
