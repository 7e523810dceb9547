import SinglePath.Proofs.CellFlow.Facts
import SinglePath.Proofs.Flow.Placed

namespace SinglePath

open Bool CellSet Inst List Option

variable {guards : GReg} {tracked : CellSet} {outs : CellFlow.Facts} {body : Block}

namespace CellFlow

variable {available : CellSet} {inst : Inst}

section

variable {more : CellSet}

theorem transferAvailable_mono (within : available.Within more) (inst : Inst) :
    (transferAvailable guards tracked available inst).Within (transferAvailable guards tracked more inst) := by
  intro c
  unfold transferAvailable
  simp only
  split
  · exact id
  · exact id
  · split
    · exact id
    · split
      · simp only [contains_erase, and_eq_true]
        exact fun isMember => ⟨isMember.1, within c isMember.2⟩
      · exact within c

theorem foldl_transferAvailable_mono (within : available.Within more) (code : List Inst) :
    (code.foldl (transferAvailable guards tracked) available).Within
      (code.foldl (transferAvailable guards tracked) more) := by
  induction code generalizing available more with
  | nil => exact within
  | cons inst rest ih => exact ih (transferAvailable_mono within inst)

theorem isRedundantLoad_mono (within : available.Within more)
    (redundant : isRedundantLoad guards tracked available inst = true) :
    isRedundantLoad guards tracked more inst = true := by
  unfold isRedundantLoad at redundant ⊢
  split at redundant
  · simp only [and_eq_true] at redundant ⊢
    exact ⟨redundant.1, within _ redundant.2⟩
  · cases redundant

theorem transferAvailable_of_terminator (ends : inst.isTerminator = true) :
    transferAvailable guards tracked available inst = available := by
  obtain ⟨guard, frameSetup, op⟩ := inst
  cases op <;> simp_all [isTerminator, isBranch, isReturn, branchTarget, transferAvailable,
    cellLoad, cellStore, isCall, writesReg, Op.regWrite, writesCell]

theorem availableIn_within {pred : BlockId} (isPred : pred ∈ body.preds) :
    ∀ c, (availableIn outs body).contains c = true → ∃ out, outs.get? pred = some out ∧ out.contains c = true := by
  intro c isMember
  have folded {step : CellSet → BlockId → CellSet} (steps : ∀ start pred, (step start pred).contains c = true →
      start.contains c = true ∧ ∃ out, outs.get? pred = some out ∧ out.contains c = true) :
      ∀ (rest : List BlockId) (start : CellSet), (rest.foldl step start).contains c = true →
      start.contains c = true ∧ ∀ o ∈ rest, ∃ out, outs.get? o = some out ∧ out.contains c = true := by
    intro rest
    induction rest with
    | nil => exact fun start isMember => ⟨isMember, by simp⟩
    | cons first rest ih =>
      intro start isMember
      obtain ⟨isFirst, others⟩ := ih _ isMember
      obtain ⟨isMember, isFirst⟩ := steps _ _ isFirst
      refine ⟨isMember, fun o isOther => ?_⟩
      rcases mem_cons.mp isOther with rfl | isOther
      · exact isFirst
      · exact others o isOther
  unfold availableIn at isMember
  split at isMember
  · simp at isMember
  · rename_i first rest same
    obtain ⟨isFirst, others⟩ := folded (fun start pred isMember => by
      cases got : outs.get? pred with
      | none => simp [got] at isMember
      | some out => simpa [got] using isMember) rest _ isMember
    rw [same] at isPred
    rcases mem_cons.mp isPred with rfl | isPred
    · cases got : outs.get? pred with
      | none => simp [got] at isFirst
      | some out => exact ⟨out, rfl, by simpa [got] using isFirst⟩
    · exact others pred isPred

theorem availableIn_mono {facts more : Facts} (below : Below facts more) (body : Block) :
    (availableIn facts body).Within (availableIn more body) := by
  have folded {one two : CellSet → BlockId → CellSet}
      (steps : ∀ pred start larger, start.Within larger → (one start pred).Within (two larger pred)) :
      ∀ (rest : List BlockId) (start larger : CellSet), start.Within larger →
      (rest.foldl one start).Within (rest.foldl two larger) := by
    intro rest
    induction rest with
    | nil => exact fun start larger within => within
    | cons first rest ih =>
      intro start larger within
      exact ih _ _ (steps first start larger within)
  unfold availableIn
  split
  · exact fun c => id
  · rename_i first rest _
    refine folded (fun pred start larger within c isMember => ?_) rest _ _ fun c isMember => ?_
    · cases got : facts.get? pred with
      | none => simp [got] at isMember
      | some out =>
        obtain ⟨outLarger, foundLarger, outWithin⟩ := below pred out got
        simp only [got, contains_inter, and_eq_true] at isMember
        simp [foundLarger, within c isMember.1, outWithin c isMember.2]
    cases got : facts.get? first with
    | none => simp [got] at isMember
    | some out =>
      obtain ⟨outLarger, foundLarger, outWithin⟩ := below first out got
      simp only [got, getD_some] at isMember
      simp [foundLarger, outWithin c isMember]

theorem availableOut_growing : Growing (availableOut guards tracked) := fun _ _ below body =>
  foldl_transferAvailable_mono (availableIn_mono below body) body.insts

end

section

/-- What the analysis says after an instruction comes from a load, from a store, or from before. -/
theorem transferAvailable_cases {c : CellId}
    (isMember : (transferAvailable guards tracked available inst).contains c = true) :
    inst.cellLoad = some (guards, c) ∨ inst.cellStore = some (c, guards) ∨
      inst.isCall = false ∧ inst.op.regWrite ≠ some guards ∧ inst.writesCell ≠ some c ∧
        available.contains c = true := by
  unfold transferAvailable at isMember
  simp only at isMember
  split at isMember
  · rename_i dst loaded isLoad
    obtain ⟨loads, isGuards⟩ := filter_eq_some_iff.mp isLoad
    obtain rfl : dst = guards := by simpa using isGuards
    obtain rfl : c = loaded := by split at isMember <;> simp_all
    exact .inl loads
  · rename_i stored src _ isStore
    obtain ⟨stores, isGuards⟩ := filter_eq_some_iff.mp isStore
    obtain ⟨rfl, _⟩ : src = guards ∧ tracked.contains stored = true := by simpa using isGuards
    obtain rfl : c = stored := by simpa using isMember
    exact .inr (.inl stores)
  · split at isMember
    · simp at isMember
    · rename_i quiet
      obtain ⟨notCall, unwritten⟩ : inst.isCall = false ∧ inst.op.regWrite ≠ some guards := by
        simpa [writesReg] using quiet
      split at isMember
      · rename_i stored isWrite
        obtain ⟨ne, wasMember⟩ : c ≠ stored ∧ available.contains c = true := by simpa using isMember
        refine .inr (.inr ⟨notCall, unwritten, ?_, wasMember⟩)
        rw [isWrite]
        exact fun same => ne (some.inj same).symm
      · rename_i noWrite
        exact .inr (.inr ⟨notCall, unwritten, by rw [noWrite]; exact nofun, isMember⟩)

end

theorem foldl_transferAvailable_of_terminators {code : List Inst} (ending : ∀ inst ∈ code, inst.isTerminator = true) :
    code.foldl (transferAvailable guards tracked) available = available := by
  induction code with
  | nil => rfl
  | cons inst rest ih =>
    rw [foldl_cons, transferAvailable_of_terminator (ending inst (mem_cons_self ..))]
    exact ih fun o isLater => ending o (.tail _ isLater)

theorem isRedundantLoad_eq_true (redundant : isRedundantLoad guards tracked available inst = true) :
    ∃ c, inst.cellLoad = some (guards, c) ∧ tracked.contains c = true ∧ available.contains c = true := by
  unfold isRedundantLoad at redundant
  split at redundant
  · rename_i dst c isLoad
    simp only [and_eq_true, decide_eq_true_eq] at redundant
    obtain ⟨⟨rfl, isTracked⟩, isMember⟩ := redundant
    exact ⟨c, isLoad, isTracked, isMember⟩
  · cases redundant

end CellFlow

namespace Func

open CellFlow

variable {f : Func}

/-- The cells that the guards register holds at the start of a block. -/
def heldAt (f : Func) (outs : Facts) (b : BlockId) : CellSet :=
  match f.block? b with
  | some body => availableIn outs body
  | none => .empty

/-- What is held at the start of a block is held at the end of each block from which control comes. -/
theorem heldAt_within (grounded : Grounded (availableOut guards tracked) f outs)
    {b succ : BlockId} (got : f.block? b = some body) (isPred : b ∈ f.predsOf succ) :
    (f.heldAt outs succ).Within (availableOut guards tracked outs body) := by
  intro c isMember
  unfold heldAt at isMember
  split at isMember
  · rename_i succContent foundSucc
    rw [predsOf_eq foundSucc] at isPred
    obtain ⟨out, isOut, isMemberOut⟩ := availableIn_within isPred c isMember
    exact grounded b body out got isOut c isMemberOut
  · simp at isMember

end Func

end SinglePath
