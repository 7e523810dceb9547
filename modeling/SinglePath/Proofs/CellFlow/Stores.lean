import SinglePath.Proofs.CellFlow.Facts
import SinglePath.Proofs.Func.Recoded

namespace SinglePath

open Inst

variable {tracked : CellSet}

namespace CellFlow

variable {live after : CellSet} {inst : Inst} {k : Int}

section

variable {more : CellSet}

/-- Before an instruction the cells are live that it reads, or that are live after it and not overwritten. -/
theorem contains_transferLive (inst : Inst) (live : CellSet) (c : CellId) :
    (transferLive tracked inst live).contains c = true ↔ (inst.readsCell = some c ∧ tracked.contains c = true) ∨
        (live.contains c = true ∧ ∀ src, inst.cellStore ≠ some (c, src)) := by
  unfold transferLive
  rcases stored : inst.cellStore with _ | ⟨o, src⟩ <;> rcases isRead : inst.readsCell with _ | read <;>
    grind [CellSet.contains_insert, CellSet.contains_erase]

theorem transferLive_mono (within : live.Within more) (inst : Inst) :
    (transferLive tracked inst live).Within (transferLive tracked inst more) := by
  intro c isMember
  rw [contains_transferLive] at isMember ⊢
  exact isMember.imp_right fun isKept => ⟨within c isKept.1, isKept.2⟩

theorem foldr_transferLive_mono (within : live.Within more) (code : List Inst) :
    (code.foldr (transferLive tracked) live).Within (code.foldr (transferLive tracked) more) := by
  induction code with
  | nil => exact within
  | cons inst rest ih => exact transferLive_mono ih inst

theorem foldr_transferLive_within (within : live.Within tracked) (code : List Inst) :
    (code.foldr (transferLive tracked) live).Within tracked := by
  induction code with
  | nil => exact within
  | cons inst rest ih =>
    intro c isMember
    rw [List.foldr_cons, contains_transferLive] at isMember
    exact isMember.elim (·.2) fun isKept => ih c isKept.1

theorem contains_liveOut (ins : Facts) (body : Block) (c : CellId) : (liveOut ins body).contains c = true ↔
      ∃ succ ∈ body.succs, ∃ set, ins.get? succ = some set ∧ set.contains c = true := by
  have folded {step : CellSet → BlockId → CellSet} (steps : ∀ live succ, (step live succ).contains c = true ↔
      live.contains c = true ∨ ∃ set, ins.get? succ = some set ∧ set.contains c = true) :
      ∀ (succs : List BlockId) (start : CellSet), (succs.foldl step start).contains c = true ↔
      start.contains c = true ∨ ∃ succ ∈ succs, ∃ set, ins.get? succ = some set ∧ set.contains c = true := by
    intro succs
    induction succs with
    | nil => simp
    | cons first rest ih =>
      intro start
      rw [List.foldl_cons, ih, steps]
      simp [or_assoc]
  refine (folded (fun live succ => ?_) body.succs .empty).trans (by simp)
  cases got : ins.get? succ with
  | none => simp
  | some set => simp

/-- More live cells after a block mean more before it. -/
theorem liveIn_growing : Growing (liveIn tracked) := by
  intro facts more below body
  refine foldr_transferLive_mono (fun c isMember => ?_) body.insts
  rw [contains_liveOut] at isMember ⊢
  obtain ⟨succ, isSucc, set, got, isLive⟩ := isMember
  obtain ⟨larger, foundLarger, within⟩ := below succ set got
  exact ⟨succ, isSucc, larger, foundLarger, within c isLive⟩

theorem liveIn_within {facts : Facts} (bounded : ∀ b set, facts.get? b = some set → set.Within tracked)
    (body : Block) : (liveIn tracked facts body).Within tracked := by
  refine foldr_transferLive_within (fun c isMember => ?_) body.insts
  obtain ⟨succ, _, set, got, isLive⟩ := (contains_liveOut facts body c).mp isMember
  exact bounded succ set got c isLive

theorem transferLive_of_terminator (ends : inst.isTerminator = true) : transferLive tracked inst live = live := by
  obtain ⟨guard, frameSetup, op⟩ := inst
  cases op <;> simp_all [isTerminator, isBranch, isReturn, branchTarget, transferLive, cellStore, readsCell]

theorem keepStores_snd (live : CellSet) (code : List Inst) :
    (keepStores tracked live code).2 = code.foldr (transferLive tracked) live := by
  induction code with
  | nil => rfl
  | cons inst rest ih => rw [List.foldr_cons, ← ih]; rfl

theorem foldr_transferLive_of_terminators {code : List Inst} (ending : ∀ inst ∈ code, inst.isTerminator = true) :
    code.foldr (transferLive tracked) live = live := by
  induction code with
  | nil => rfl
  | cons inst rest ih =>
    rw [List.foldr_cons, transferLive_of_terminator (ending inst (List.mem_cons_self ..))]
    exact ih fun o isLater => ending o (.tail _ isLater)

/-- A dead store goes to a tracked cell that is not live. -/
theorem isDeadStore_eq_true (dead : isDeadStore tracked live inst = true) :
    ∃ c src, inst.cellStore = some (c, src) ∧ tracked.contains c = true ∧ live.contains c = false := by
  unfold isDeadStore at dead
  split at dead
  · rename_i c src isStore
    simp only [Bool.and_eq_true, Bool.not_eq_true'] at dead
    exact ⟨c, src, isStore, dead.1, dead.2⟩
  · cases dead

end

/-- The word of the frame belongs to a cell that is not live. -/
def Hidden (tracked live : CellSet) (k : Int) : Prop :=
  ∃ c, tracked.contains c = true ∧ live.contains c = false ∧ c.place = k

theorem Hidden.mono {fewer : CellSet} (within : fewer.Within live)
    (isHidden : Hidden tracked live k) : Hidden tracked fewer k := by
  obtain ⟨c, isTracked, isDead, isPlace⟩ := isHidden
  exact ⟨c, isTracked, Bool.eq_false_iff.mpr fun isLive => by simp [within c isLive] at isDead, isPlace⟩

/-- The store's source is a register of the machine. -/
def ReadableStore (tracked : CellSet) (inst : Inst) : Prop :=
  ∀ c src, inst.cellStore = some (c, src) → tracked.contains c = true → src.index < 32

/-- A cell that is hidden before an instruction is so after it, or is stored by it. -/
theorem hidden_before (isHidden : Hidden tracked (transferLive tracked inst after) k) :
    Hidden tracked after k ∨ ∃ c src, inst.cellStore = some (c, src) ∧ c.place = k := by
  obtain ⟨c, isTracked, isDead, isPlace⟩ := isHidden
  by_cases stored : ∃ src, inst.cellStore = some (c, src)
  · obtain ⟨src, isStore⟩ := stored
    exact .inr ⟨c, src, isStore, isPlace⟩
  · refine .inl ⟨c, isTracked, Bool.eq_false_iff.mpr fun isLive => ?_, isPlace⟩
    have stillLive : (transferLive tracked inst after).contains c = true :=
      (contains_transferLive inst after c).mpr (.inr ⟨isLive, fun src isStore => stored ⟨src, isStore⟩⟩)
    simp [stillLive] at isDead

/-- A cell that is loaded is not hidden. -/
theorem not_hidden_of_load {dst : GReg} {c : CellId}
    (isOp : inst.op = .load dst (.frame c)) : ¬ Hidden tracked (transferLive tracked inst after) c.place := by
  rintro ⟨o, isTracked, isDead, isPlace⟩
  obtain rfl := CellId.place_injective isPlace
  have isLive := (contains_transferLive inst after o).mpr (.inl ⟨by simp [readsCell, isOp], isTracked⟩)
  simp [isLive] at isDead

end CellFlow

namespace Func

open CellFlow

variable {f : Func}

/-- The live cells are the last of repeated rounds. -/
theorem liveCells_repeats {blocks : List (BlockId × Block)} (mem : Listed f blocks) :
    Repeats (liveRound tracked blocks) Table.empty (liveCells tracked blocks) :=
  roundBound_repeats liveIn_growing (fun _ _ => liveIn_within) mem

/-- The cells that are live at the start of a block. -/
def liveAt (ins : Facts) (b : BlockId) : CellSet := (ins.get? b).getD .empty

/-- The cells that are live at the end of a block. -/
def liveAfter (f : Func) (ins : Facts) (b : BlockId) : CellSet :=
  match f.block? b with
  | some body => liveOut ins body
  | none => .empty

theorem liveAt_within {ins : Facts} {b succ : BlockId} (edge : succ ∈ f.succsOf b) :
    (liveAt ins succ).Within (f.liveAfter ins b) := by
  intro c isLive
  unfold liveAt at isLive
  cases got : ins.get? succ with
  | none => simp [got] at isLive
  | some set =>
    unfold liveAfter
    cases foundBlock : f.block? b with
    | none => simp [succsOf, foundBlock] at edge
    | some body =>
      rw [succsOf_eq foundBlock] at edge
      exact (contains_liveOut ins body c).mpr ⟨succ, edge, set, got, by simpa [got] using isLive⟩

end Func

end SinglePath
