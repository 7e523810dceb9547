import SinglePath.Proofs.CellFlow.Loads
import SinglePath.Proofs.CellFlow.Trimmed

/-!
Redundant loads in a function with any edges, run from any machine.
-/

namespace SinglePath

open CellSet Inst List Machine PReg Setting

variable {placed : Bool} {guards : GReg} {tracked : CellSet} {regs : TargetRegs}

namespace CellFlow

variable {available : CellSet} {m after : Machine} {inst : Inst} {control : Transfer} {c : CellId}

/-- A load of the cell into the register is possible and changes nothing. -/
def Loaded (placed : Bool) (guards : GReg) (c : CellId) (m : Machine) : Prop :=
  guards.index < 32 ∧ ∃ k, c.reached placed = .ok k ∧
    (guards ≠ GReg.zero → m.reg guards = m.readStack k)

theorem perform_reload (const : m.pred zero = true) (isLoad : inst.cellLoad = some (guards, c))
    (loaded : Loaded placed guards c m) : m.perform regs (inst.viewed placed) = .ok (m.fetch, .next) := by
  obtain ⟨isOp, always⟩ := cellLoad_eq_some.mp isLoad
  obtain ⟨addr, isViewed, reaches⟩ := @viewed_load placed _ _ _ isOp
  obtain ⟨inside, k, reached, same⟩ := loaded
  have unchanged : m.fetch.writeReg guards (m.fetch.readStack k) = .ok m.fetch := by
    refine writeReg_eq_ok.mpr ⟨inside, ?_⟩
    by_cases isZero : guards = GReg.zero
    · simp [isZero, withReg]
    · have holds : m.fetch.readStack k = m.fetch.reg guards := (same isZero).symm
      rw [holds, withReg_self]
  rw [perform_of_always const (by simpa using always), isViewed]
  simp only [execute, reaches.load, reached, liftM_ok, ok_bind, pure_bind, unchanged]
  rfl

theorem loaded_of_load (const : m.pred zero = true) (isLoad : inst.cellLoad = some (guards, c))
    (ran : m.perform regs (inst.viewed placed) = .ok (after, control)) : Loaded placed guards c after := by
  obtain ⟨isOp, always⟩ := cellLoad_eq_some.mp isLoad
  obtain ⟨addr, isViewed, reaches⟩ := @viewed_load placed _ _ _ isOp
  rw [perform_of_always const (by simpa using always), isViewed] at ran
  obtain ⟨word, loads, ran⟩ := bind_inv ran
  rw [reaches.load] at loads
  obtain ⟨k, reached, rfl⟩ := bind_pure_inv loads
  obtain ⟨written, writes, res⟩ := bind_inv ran
  obtain ⟨inside, rfl⟩ := writeReg_eq_ok.mp (liftM_inv writes)
  obtain ⟨rfl, _⟩ := Prod.mk.inj (pure_inv res)
  refine ⟨inside, k, liftM_inv reached, fun writable => ?_⟩
  rw [reg_withReg, if_pos ⟨rfl, writable, inside⟩, readStack_withReg]

theorem loaded_of_store (const : m.pred zero = true) (isStore : inst.cellStore = some (c, guards))
    (ran : m.perform regs (inst.viewed placed) = .ok (after, control)) : Loaded placed guards c after := by
  obtain ⟨isOp, always⟩ := cellStore_eq_some.mp isStore
  obtain ⟨addr, isViewed, reaches⟩ := @viewed_store placed _ _ _ isOp
  rw [perform_of_always const (by simpa using always), isViewed] at ran
  obtain ⟨word, reads, ran⟩ := bind_inv ran
  obtain ⟨inside, rfl⟩ := readReg_eq_ok.mp (liftM_inv reads)
  obtain ⟨stored, stores, res⟩ := bind_inv ran
  rw [reaches.store] at stores
  obtain ⟨k, reached, rfl⟩ := bind_pure_inv stores
  obtain ⟨rfl, _⟩ := Prod.mk.inj (pure_inv res)
  refine ⟨inside, k, liftM_inv reached, fun _ => ?_⟩
  rw [readStack_writeStack, if_pos rfl]
  rfl

/-- After an instruction the register holds what the analysis says. -/
theorem loaded_transfer (held : ∀ c, available.contains c = true → Loaded placed guards c m)
    (const : m.pred zero = true) (framed : inst.Framed)
    (ran : m.perform regs (inst.viewed placed) = .ok (after, control)) (c : CellId)
    (isMember : (transferAvailable guards tracked available inst).contains c = true) :
    Loaded placed guards c after := by
  rcases transferAvailable_cases isMember with isLoad | isStore | ⟨notCall, unwritten, unstored, wasMember⟩
  · exact loaded_of_load const isLoad ran
  · exact loaded_of_store const isStore ran
  · obtain ⟨inside, k, reached, same⟩ := held c wasMember
    refine ⟨inside, k, reached, fun writable => ?_⟩
    have sameReg := perform_reg ran (by simpa using unwritten) fun _ => by simpa using notCall
    have sameWord := framed.readStack ran unstored
    rw [CellId.place_of_reached reached] at sameWord
    rw [sameReg, sameWord, same writable]

end CellFlow

namespace Func

open CellFlow

variable {func next : Func} {outs : Facts} {order : List BlockId}

/-- Two runs at the same place of a block and of what is kept of it. The machines agree, the register holds what the
analysis says, and at the end of the block it says at least what it says at the start of each block after it. -/
inductive LoadsMatch (placed : Bool) (func : Func) (guards : GReg) (tracked : CellSet) (outs : Facts)
    (order : List BlockId) : Point → Machine → Point → Machine → Prop where
  | intro {b : BlockId} {code : List Inst} {available : CellSet} {one two : Machine} (reached : b ∈ order)
      (last : code.Pairwise fun first second => ∀ t, first.branchTarget = some t → second.isTerminator = true)
      (framed : ∀ inst ∈ code, inst.Framed) (agrees : Machine.Agrees (fun _ => False) false one two)
      (held : one.pred PReg.zero = true → ∀ c, available.contains c = true → Loaded placed guards c one)
      (within : ∀ succ, func.IsEdge b succ →
        (func.heldAt outs succ).Within (code.foldl (transferAvailable guards tracked) available)) :
      LoadsMatch placed func guards tracked outs order ⟨b, code.map (Inst.viewed placed)⟩ one
        ⟨b, (keepLoads guards tracked available code).map (Inst.viewed placed)⟩ two

/-- The instructions of a block without its redundant loads. -/
def loadsKept (guards : GReg) (tracked : CellSet) (outs : Facts) (b : Block) : List Inst :=
  keepLoads guards tracked (availableIn outs b) b.insts

section

variable (trimming : Trimming (loadsKept guards tracked outs) order func next)
  (grounded : Grounded (availableOut guards tracked) func outs)

include trimming grounded

/-- Machines that agree match at the start of a block, if the register holds what is known there. -/
theorem loads_land {b : BlockId} (isMet : b ∈ order) {one two : Machine}
    (agrees : Agrees (fun _ => False) false one two)
    (held : one.pred zero = true → ∀ c, (func.heldAt outs b).contains c = true → Loaded placed guards c one) :
    Lands (func.viewed placed) (next.viewed placed) (LoadsMatch placed func guards tracked outs order) b one
      two := by
  obtain ⟨body, got⟩ := trimming.known b isMet
  obtain ⟨started, startedNext⟩ := @Trimming.startOf _ _ _ _ placed trimming _ _ got isMet
  have last := trimming.last b isMet
  have framed := trimming.framed b isMet
  rw [codeOf_eq got] at last framed
  refine ⟨_, _, started, startedNext, .intro isMet last framed agrees ?_ fun succ edge => ?_⟩
  · simpa only [heldAt, got] using held
  · exact heldAt_within grounded got edge.2

theorem loads_land_entry (unentered : func.predsOf func.entry = []) (m : Machine) :
    Lands (func.viewed placed) (next.viewed placed) (LoadsMatch placed func guards tracked outs order) func.entry
      m m := by
  refine loads_land trimming grounded trimming.entered (.refl m) fun _ c isHeld => ?_
  obtain ⟨body, got⟩ := trimming.known func.entry trimming.entered
  rw [predsOf_eq got] at unentered
  simp [heldAt, got, availableIn, unentered] at isHeld

/-- A step of two runs that match. -/
theorem loads_advance (first : Point) (one : Machine) (second : Point) (two : Machine)
    (matched : LoadsMatch placed func guards tracked outs order first one second two)
    (follows : ∀ b, (⟨func.viewed placed, regs, none⟩ : Setting).Transfers first one b →
      (func.viewed placed).IsEdge first.block b) :
    Advance ⟨func.viewed placed, regs, none⟩ ⟨next.viewed placed, regs, none⟩ False
      (LoadsMatch placed func guards tracked outs order) first one second two := by
  obtain @⟨b, code, available, one, two, reached, last, framed, agrees, held, within⟩ := matched
  simp only [isEdge_viewed] at follows
  have onward : ∀ t, func.IsEdge b t → t ∈ order := fun t edge => trimming.onward b reached t edge.1
  cases code with
  | nil =>
    refine trimming.advance_end reached fun t falls => ?_
    have edge := follows t (.inl ⟨rfl, falls⟩)
    exact loads_land trimming grounded (onward t edge) agrees fun const c isHeld =>
      held const c (within t edge c isHeld)
  | cons inst rest =>
    have heldAfter : ∀ {after : Machine} {control : Transfer},
        one.perform regs (inst.viewed placed) = .ok (after, control) →
        after.pred zero = true → ∀ c, (transferAvailable guards tracked available inst).contains c = true →
        Loaded placed guards c after := by
      intro after control ran const c isMember
      rw [perform_pred_zero ran] at const
      exact loaded_transfer (held const) const (framed inst (.head _)) ran c isMember
    have further : ∀ {before after : Machine}, Agrees (fun _ => False) false before after →
        (before.pred zero = true → ∀ c, (transferAvailable guards tracked available inst).contains c = true →
          Loaded placed guards c before) →
        LoadsMatch placed func guards tracked outs order ⟨b, rest.map (Inst.viewed placed)⟩ before ⟨b,
          (keepLoads guards tracked (transferAvailable guards tracked available inst) rest).map
            (Inst.viewed placed)⟩ after :=
      fun agreed holds =>
        .intro reached last.tail (forall_mem_cons.mp framed).2 agreed holds within
    rw [keepLoads, map_cons]
    split
    · rename_i redundant
      obtain ⟨c, isLoad, _, isMember⟩ := isRedundantLoad_eq_true redundant
      obtain ⟨isOp, always⟩ := cellLoad_eq_some.mp isLoad
      have notCall : inst.isCall = false := by simp [isCall, isOp]
      obtain ⟨after, ran, agreed⟩ : ∃ after, one.perform regs (inst.viewed placed) = .ok (after, .next) ∧
          Agrees (fun _ => False) false after two := by
        cases const : one.pred zero with
        | false =>
          obtain ⟨addr, isViewed, _⟩ := @viewed_load placed _ _ _ isOp
          exact ⟨one.skip, perform_of_disabled const (by simpa using always) (by simpa using notCall)
            (by simp [isReturn, isViewed]), { agrees with }⟩
        | true => exact ⟨one.fetch, perform_reload const isLoad (held const c isMember), { agrees with }⟩
      exact .alone (step_of_perform ran) (by simpa [Point.atCall] using notCall) (Nat.lt_succ_self _)
        (further agreed (heldAfter ran))
    · refine .both rfl fun word => alike_of_perform ?_
      have visible : ∀ dst addr, (inst.viewed placed).op = .load dst addr → addr.Visible fun _ => False := by
        intro dst addr _
        cases addr <;> simp [Addr.Visible]
      refine (agrees.perform (fun hidden => hidden.elim fun _ => False.elim) visible
        (fun stale => Bool.noConfusion stale.1)).attach.mono ?_
      rintro ⟨after, control⟩ ⟨afterKept, o⟩ ⟨⟨same, agreed⟩, ran, _⟩
      have alike := (agreed.mono fun _ isHidden => isHidden.1).given word
      refine ⟨same, agreed.printed, fun _ => ?_, fun t jumps => ?_⟩
      · exact further alike (by simpa [Loaded] using heldAfter ran)
      · obtain rfl := jumps
        have edge := follows t (.inr ⟨_, _, after, rfl, ran⟩)
        have branches : inst.branchTarget = some t := by simpa using perform_jump ran
        have unchanged : rest.foldl (transferAvailable guards tracked)
            (transferAvailable guards tracked available inst) =
            transferAvailable guards tracked available inst :=
          foldl_transferAvailable_of_terminators fun o isLater => rel_of_pairwise_cons last isLater t branches
        refine loads_land trimming grounded (onward t edge) alike fun const c isHeld => ?_
        have isMember := within t edge c isHeld
        rw [foldl_cons, unchanged] at isMember
        simpa [Loaded] using heldAfter ran (by simpa using const) c isMember

end

/-- Dropping redundant loads from the blocks that the traversal meets is possible and does not change how the function
ends, if the entry has no predecessors. -/
theorem Met.dropRedundantLoads_ok (met : func.Met order) (unentered : func.predsOf func.entry = []) (guards : GReg)
    (cells : List CellId) : ∃ n next, func.dropRedundantLoads guards cells = .ok (n, next) ∧
      ∀ placed regs m words, (func.viewed placed).FollowsEdges regs words m → ∀ ending,
        (func.viewed placed).EndsAs regs words m ending ↔ (next.viewed placed).EndsAs regs words m ending := by
  obtain ⟨blocks, gathered, trimming⟩ := met.trimming fun _ => .rfl
  let outs := availableCells guards (ofList cells) blocks
  have dropped : func.dropRedundantLoads guards cells =
      .ok (func.shrink blocks (loadsKept guards (ofList cells) outs)) := by
    rw [dropRedundantLoads, met.traversed, ok_bind, gathered]
    rfl
  have grounded : Grounded (availableOut guards (ofList cells)) func outs :=
    iterate_grounded availableOut_growing (blocksOf_listed gathered) _ fun b body set _ present => nomatch present
  refine ⟨_, _, dropped, fun placed regs m words follows ending => ?_⟩
  have alike := endsAs_of_advance (loads_advance (trimming _) grounded) (trimming _).entry
    (loads_land_entry (trimming _) grounded unentered m) follows ending
  exact ⟨fun ends => (alike.1 ends).resolve_right fun lost => lost.1,
    fun ends => (alike.2 ends).resolve_right fun lost => lost.1⟩

/-- Dropping redundant loads does not change how a function ends. It returns the same value and text or stops for the
same reason, whatever machine it is run from and whatever its calls leave as return offset, if control moves between
blocks along edges only, branches and returns end blocks, and the entry has no predecessors. -/
theorem dropRedundantLoads_endsAs (orderly : func.Orderly) (unentered : func.predsOf func.entry = []) (guards : GReg)
    (cells : List CellId) :
    ∃ count next, func.dropRedundantLoads guards cells = .ok (count, next) ∧ ∀ regs machine,
      (∀ words, func.FollowsEdges regs words machine →
        ∀ ending, func.EndsAs regs words machine ending ↔ next.EndsAs regs words machine ending) ∧
      ∀ ending, func.HaltsAs regs machine ending → ∃ words, func.EndsAs regs words machine ending ∧
        (func.FollowsEdges regs words machine → next.EndsAs regs words machine ending) := by
  obtain ⟨order, met⟩ := orderly.met
  obtain ⟨count, next, dropped, same⟩ := met.dropRedundantLoads_ok unentered guards cells
  have same := same false
  simp only [viewed_false] at same
  refine ⟨count, next, dropped, fun regs machine => ⟨same regs machine, fun ending halts => ?_⟩⟩
  obtain ⟨words, ends⟩ := halts.endsAs
  exact ⟨words, ends, fun follows => (same regs machine words follows ending).mp ends⟩

/-- A loop that loads a cell twice in each turn, and a load of the same cell after it. -/
def reloadingFunc : Func where
  name := "reloading"
  blocks := [
    { name := "entry", succs := [⟨1⟩], insts := [.plain (.imm ⟨1⟩ 3), .plain (.store (.frame ⟨0⟩) ⟨1⟩)] },
    { name := "loop", succs := [⟨1⟩, ⟨2⟩], preds := [⟨0⟩, ⟨1⟩], insts := [
      .plain (.load ⟨26⟩ (.frame ⟨0⟩)), .plain (.binaryImm .sub ⟨1⟩ ⟨1⟩ 1), .plain (.compare .ne ⟨1⟩ ⟨1⟩ ⟨0⟩),
      .plain (.load ⟨26⟩ (.frame ⟨0⟩)), (Inst.plain (.branch ⟨1⟩)).withGuard (.holds ⟨1⟩)] },
    { name := "exit", preds := [⟨1⟩], insts := [
      .plain (.load ⟨26⟩ (.frame ⟨0⟩)), .plain (.print ⟨26⟩), .plain (.ret ⟨26⟩)] }]
  layout := [⟨0⟩, ⟨1⟩, ⟨2⟩]

/-- The second load of a turn and the load after the loop are dropped, and every run ends as before. -/
theorem reloadingFunc_endsAs : ∃ next, reloadingFunc.dropRedundantLoads ⟨26⟩ [⟨0⟩] = .ok (2, next) ∧
    ∀ regs words machine ending,
      reloadingFunc.EndsAs regs words machine ending ↔ next.EndsAs regs words machine ending := by
  have orderly : reloadingFunc.Orderly := ⟨.of_numbers (by decide) (by decide), by decide, by decide⟩
  obtain ⟨count, next, dropped, same⟩ := dropRedundantLoads_endsAs orderly rfl ⟨26⟩ [⟨0⟩]
  have counted : (reloadingFunc.dropRedundantLoads ⟨26⟩ [⟨0⟩]).map Prod.fst = .ok 2 := by decide +kernel
  have follows : ∀ regs words machine, reloadingFunc.FollowsEdges regs words machine :=
    followsEdges_of_targets (by decide) (by decide)
  refine ⟨next, ?_, fun regs words machine => (same regs machine).1 words (follows regs words machine)⟩
  rw [dropped] at counted ⊢
  obtain rfl : count = 2 := Except.ok.inj counted
  rfl

end Func

end SinglePath
