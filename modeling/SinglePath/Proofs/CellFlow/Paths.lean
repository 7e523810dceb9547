import SinglePath.Proofs.CellFlow.RedundantLoads

/-!
Redundant loads along the paths of a function: on every path that comes to a dropped load, the register took the cell's
content before and kept it.
-/

namespace SinglePath

variable {guards : GReg} {tracked : CellSet} {passed : List Inst}

namespace CellFlow

/-- What is left of the items without those at the positions that are picked. -/
def without {α : Type} (picks : Nat → Bool) : List α → List α
  | [] => []
  | item :: rest =>
    if picks 0 then without (fun index => picks (index + 1)) rest
    else item :: without (fun index => picks (index + 1)) rest

theorem without_none {α : Type} (items : List α) : without (fun _ => false) items = items := by
  induction items with
  | nil => rfl
  | cons item rest ih => simp [without, ih]

/-- Among the instructions there is an unguarded load of the cell into the register, or an unguarded store from it, and
none of those after it is a call, defines the register or writes the cell. -/
def Holding (guards : GReg) (c : CellId) (passed : List Inst) : Prop :=
  ∃ before inst after, passed = before ++ inst :: after ∧
    (inst.cellLoad = some (guards, c) ∨ inst.cellStore = some (c, guards)) ∧
    ∀ later ∈ after, later.isCall = false ∧ later.writesReg guards = false ∧ later.writesCell ≠ some c

variable {available : CellSet}

theorem holding_transfer (held : ∀ c, available.contains c = true → Holding guards c passed) (inst : Inst)
    (c : CellId) (isMember : (transferAvailable guards tracked available inst).contains c = true) :
    Holding guards c (passed ++ [inst]) := by
  rcases transferAvailable_cases isMember with isLoad | isStore | ⟨notCall, unwritten, unstored, wasMember⟩
  · exact ⟨passed, inst, [], rfl, .inl isLoad, nofun⟩
  · exact ⟨passed, inst, [], rfl, .inr isStore, nofun⟩
  · obtain ⟨before, u, after, rfl, takes, keeps⟩ := held c wasMember
    refine ⟨before, u, after ++ [inst], by simp, takes, fun later isLater => ?_⟩
    rcases List.mem_append.mp isLater with isLater | isLast
    · exact keeps later isLater
    · obtain rfl := List.mem_singleton.mp isLast
      exact ⟨notCall, by simpa [Inst.writesReg] using unwritten, unstored⟩

theorem holding_foldl (held : ∀ c, available.contains c = true → Holding guards c passed) (code : List Inst) :
    ∀ c, (code.foldl (transferAvailable guards tracked) available).contains c = true →
      Holding guards c (passed ++ code) := by
  induction code generalizing available passed with
  | nil => simpa using held
  | cons inst rest ih => simpa using ih (holding_transfer held inst)

/-- The load at the position is dropped from the code. -/
def dropsLoad (guards : GReg) (tracked available : CellSet) (code : List Inst) (index : Nat) : Bool :=
  (code[index]?).any (isRedundantLoad guards tracked
    ((code.take index).foldl (transferAvailable guards tracked) available))

theorem keepLoads_eq_without (guards : GReg) (tracked available : CellSet) (code : List Inst) :
    keepLoads guards tracked available code = without (dropsLoad guards tracked available code) code := by
  induction code generalizing available with
  | nil => rfl
  | cons inst rest ih =>
    have later : (fun index => dropsLoad guards tracked available (inst :: rest) (index + 1)) =
        dropsLoad guards tracked (transferAvailable guards tracked available inst) rest := by
      funext index
      simp [dropsLoad]
    rw [keepLoads, ih, without, later]
    simp [dropsLoad]

end CellFlow

namespace Func

open CellFlow

variable {func next : Func} {cells : List CellId} {count : Nat}

/-- A path along edges from the start of the function comes to the block after the instructions. -/
inductive PathTo (func : Func) : BlockId → List Inst → Prop where
  | entry : PathTo func func.entry []
  | edge {b succ : BlockId} {passed : List Inst} (path : PathTo func b passed) (isSucc : succ ∈ func.succsOf b) :
      PathTo func succ (passed ++ func.codeOf b)

/-- The next function is this one without some loads of the cells into the register, and on every path that comes to one
of these loads the register holds the cell. -/
def LoadsRedundant (func : Func) (guards : GReg) (cells : List CellId) (next : Func) : Prop :=
  ∃ drops : BlockId → Nat → Bool, (∀ b, next.codeOf b = without (drops b) (func.codeOf b)) ∧
    ∀ b index, drops b index = true → ∃ inst, (func.codeOf b)[index]? = some inst ∧
      ∃ c ∈ cells, inst.cellLoad = some (guards, c) ∧
        ∀ passed, func.PathTo b passed → Holding guards c (passed ++ (func.codeOf b).take index)

/-- Along every path the register holds what the analysis says at the start of the block that the path comes to. -/
theorem PathTo.holding {outs : Facts} (grounded : Grounded (availableOut guards tracked) func outs)
    (linked : func.Linked) (unentered : func.predsOf func.entry = []) {b : BlockId} (path : func.PathTo b passed) :
    ∀ c, (func.heldAt outs b).contains c = true → Holding guards c passed := by
  induction path with
  | entry =>
    intro c isMember
    unfold heldAt at isMember
    split at isMember
    · rename_i body got
      rw [predsOf_eq got] at unentered
      simp [availableIn, unentered] at isMember
    · simp at isMember
  | @edge b succ passed _ isSucc ih =>
    intro c isMember
    cases got : func.block? b with
    | none => simp [succsOf, got] at isSucc
    | some body =>
      have atEnd := heldAt_within grounded got ((linked.ends b succ).mp isSucc) c isMember
      simp only [heldAt, got] at ih
      rw [codeOf_eq got]
      exact holding_foldl ih body.insts c atEnd

/-- Every load that is dropped is redundant on every path from the start of the function, if the entry has no
predecessors. -/
theorem dropRedundantLoads_redundant (linked : func.Linked) (unentered : func.predsOf func.entry = [])
    (dropped : func.dropRedundantLoads guards cells = .ok (count, next)) : func.LoadsRedundant guards cells next := by
  obtain ⟨order, _, dropped⟩ := bind_eq_ok.mp dropped
  obtain ⟨blocks, gathered, dropped⟩ := bind_eq_ok.mp dropped
  obtain rfl : _ = next := congrArg Prod.snd (pure_eq_ok.mp dropped)
  have grounded : Grounded (availableOut guards (CellSet.ofList cells)) func
      (availableCells guards (CellSet.ofList cells) blocks) :=
    iterate_grounded availableOut_growing (blocksOf_listed gathered) _ fun block content set _ present =>
      nomatch present
  revert grounded
  generalize availableCells guards (CellSet.ofList cells) blocks = outs
  intro grounded
  refine ⟨fun block index => decide (block ∈ order) &&
    dropsLoad guards (CellSet.ofList cells) (func.heldAt outs block) (func.codeOf block) index,
    fun block => ?_, fun block index drops => ?_⟩
  · rw [codeOf, (shrink_trimmed _ gathered).1.block? block]
    cases found : func.block? block with
    | none => simp [codeOf, found, without]
    | some content =>
      simp only [codeOf_eq found, heldAt, found]
      by_cases isMet : block ∈ order
      · simp [isMet, keepLoads_eq_without]
      · simp [isMet, without_none]
  · obtain ⟨_, drops⟩ := Bool.and_eq_true_iff.mp drops
    obtain ⟨inst, isInst, redundant⟩ := (Option.any_eq_true _ _).mp drops
    obtain ⟨cell, isLoad, isTracked, isMember⟩ := isRedundantLoad_eq_true redundant
    exact ⟨inst, isInst, cell, by simpa using isTracked, isLoad, fun passed path =>
      holding_foldl (path.holding grounded linked unentered) _ cell isMember⟩

/-- The two loads that the function with a loop loses are redundant on every path. -/
theorem reloadingFunc_redundant : ∃ next, reloadingFunc.dropRedundantLoads ⟨26⟩ [⟨0⟩] = .ok (2, next) ∧
    reloadingFunc.LoadsRedundant ⟨26⟩ [⟨0⟩] next := by
  have derived : reloadingFunc.deriveEdges = .ok reloadingFunc := by decide +kernel
  have counted : (reloadingFunc.dropRedundantLoads ⟨26⟩ [⟨0⟩]).map Prod.fst = .ok 2 := by decide +kernel
  cases dropped : reloadingFunc.dropRedundantLoads ⟨26⟩ [⟨0⟩] with
  | error fault => simp [dropped, Except.map] at counted
  | ok result =>
    obtain ⟨count, next⟩ := result
    rw [dropped] at counted
    obtain rfl : count = 2 := Except.ok.inj counted
    exact ⟨next, rfl, dropRedundantLoads_redundant (deriveEdges_ok derived).2.linked rfl dropped⟩

/-- A block that branches back to itself, the entry of its function. -/
def reenteredFunc : Func where
  name := "reentered"
  blocks := [
    { name := "entry", succs := [⟨0⟩, ⟨1⟩], preds := [⟨0⟩], insts := [
      .plain (.load ⟨26⟩ (.frame ⟨0⟩)), (Inst.plain (.branch ⟨0⟩)).withGuard (.holds ⟨1⟩)] },
    { name := "exit", preds := [⟨0⟩], insts := [.plain (.ret ⟨26⟩)] }]
  layout := [⟨0⟩, ⟨1⟩]

/-- The only load of a function whose entry is its own predecessor is dropped, though nothing was loaded before the path
that has just entered the function. -/
theorem reenteredFunc_not_redundant : ∃ next, reenteredFunc.Linked ∧
    reenteredFunc.dropRedundantLoads ⟨26⟩ [⟨0⟩] = .ok (1, next) ∧ ¬ reenteredFunc.LoadsRedundant ⟨26⟩ [⟨0⟩] next := by
  have derived : reenteredFunc.deriveEdges = .ok reenteredFunc := by decide +kernel
  have fewer : (reenteredFunc.dropRedundantLoads ⟨26⟩ [⟨0⟩]).map (fun result => (result.1, result.2.codeOf ⟨0⟩)) =
      .ok (1, [(Inst.plain (.branch ⟨0⟩)).withGuard (.holds ⟨1⟩)]) := by decide +kernel
  cases dropped : reenteredFunc.dropRedundantLoads ⟨26⟩ [⟨0⟩] with
  | error fault => simp [dropped, Except.map] at fewer
  | ok result =>
    obtain ⟨count, next⟩ := result
    rw [dropped] at fewer
    obtain ⟨rfl, isCode⟩ := Prod.mk.inj (Except.ok.inj fewer)
    refine ⟨next, (deriveEdges_ok derived).2.linked, rfl, ?_⟩
    rintro ⟨drops, codes, held⟩
    have kept := codes ⟨0⟩
    cases picked : drops ⟨0⟩ 0 with
    | false =>
      rw [isCode] at kept
      simp only [codeOf, block?, reenteredFunc, List.getElem?_cons_zero, Option.map_some, Option.getD_some, without,
        picked] at kept
      exact absurd (List.cons.inj kept).1 (by decide)
    | true =>
      obtain ⟨_, _, _, _, _, holding⟩ := held ⟨0⟩ 0 picked
      obtain ⟨before, _, _, nothing, _⟩ := holding [] .entry
      simp at nothing

end Func

end SinglePath
