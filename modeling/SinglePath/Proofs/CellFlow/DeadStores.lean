import SinglePath.Proofs.CellFlow.Stores
import SinglePath.Proofs.CellFlow.Trimmed

namespace SinglePath

open CellSet Inst List Machine Setting

variable {placed : Bool} {tracked live : CellSet} {regs : TargetRegs}

namespace CellFlow

variable {after : CellSet} {m next : Machine} {inst : Inst} {control : Transfer} {c : CellId} {src : GReg}

/-- A store without a guard puts the register into the cell, or stops at a fault. -/
theorem perform_store (const : m.pred PReg.zero = true) (isStore : inst.cellStore = some (c, src)) :
    (∃ k, c.reached placed = .ok k ∧
        m.perform regs (inst.viewed placed) = .ok (m.fetch.writeStack k (m.reg src), .next)) ∨
      (¬ (src.index < 32 ∧ ∃ k, c.reached placed = .ok k) ∧
        ∃ fault, m.perform regs (inst.viewed placed) = .error (.fault fault)) := by
  obtain ⟨isOp, always⟩ := cellStore_eq_some.mp isStore
  obtain ⟨addr, isViewed, reaches⟩ := @viewed_store placed _ _ _ isOp
  rw [perform_of_always const (by simpa using always), isViewed]
  simp only [execute, reaches.store]
  cases reads : m.fetch.readReg src with
  | error fault =>
    refine .inr ⟨fun possible => ?_, fault, rfl⟩
    cases reads.symm.trans (readReg_eq_ok.mpr ⟨possible.1, rfl⟩)
  | ok word =>
    obtain ⟨inside, rfl⟩ := readReg_eq_ok.mp reads
    cases c.reached placed with
    | error fault => exact .inr ⟨by simp, fault, rfl⟩
    | ok k => exact .inl ⟨k, rfl, rfl⟩

theorem hidden_after (const : m.pred PReg.zero = true)
    (ran : m.perform regs (inst.viewed placed) = .ok (next, control)) {k : Int}
    (isHidden : Hidden tracked (transferLive tracked inst after) k) (kept : ¬ (inst.viewed placed).Overwrites k) :
    Hidden tracked after k := by
  refine (hidden_before isHidden).resolve_right ?_
  rintro ⟨c, src, isStore, rfl⟩
  refine kept ?_
  obtain ⟨isOp, always⟩ := cellStore_eq_some.mp isStore
  obtain ⟨addr, isViewed, reaches⟩ := @viewed_store placed _ _ _ isOp
  refine ⟨by simpa using always, addr, src, isViewed, ?_⟩
  rcases reaches with ⟨rfl, same⟩ | ⟨rfl, _⟩
  · rcases perform_store const isStore with ⟨place, reached, _⟩ | ⟨_, fault, fails⟩
    · exact .inr ⟨c, rfl, by rw [← same, reached, CellId.place_of_reached reached]⟩
    · exact nomatch fails.symm.trans ran
  · exact .inl rfl

end CellFlow

namespace Func

open CellFlow

variable {func next : Func} {ins : Facts} {order : List BlockId}

/-- The words in which machines may differ: those of dead cells. A machine that skips everything without a guard
overwrites none of them, so it may not differ in any. -/
def DeadWord (tracked live : CellSet) (m : Machine) (k : Int) : Prop :=
  m.pred PReg.zero = true ∧ Hidden tracked live k

/-- Two runs at the same place of a block and of what is kept of it, with machines that agree but for dead cells. -/
inductive StoresMatch (placed : Bool) (func : Func) (tracked : CellSet) (ins : Facts) (order : List BlockId) :
    Point → Machine → Point → Machine → Prop where
  | intro {b : BlockId} {code : List Inst} {one two : Machine} (reached : b ∈ order)
      (last : code.Pairwise fun first second => ∀ t, first.branchTarget = some t → second.isTerminator = true)
      (mem : ∀ inst ∈ code, inst ∈ func.codeOf b)
      (agrees : Machine.Agrees (DeadWord tracked (code.foldr (transferLive tracked) (func.liveAfter ins b)) one)
        false one two) :
      StoresMatch placed func tracked ins order ⟨b, code.map (Inst.viewed placed)⟩ one
        ⟨b, (keepStores tracked (func.liveAfter ins b) code).1.map (Inst.viewed placed)⟩ two

/-- The instructions of a block without its dead stores. -/
def storesKept (tracked : CellSet) (ins : Facts) (b : Block) : List Inst :=
  (keepStores tracked (liveOut ins b) b.insts).1

/-- The machine has the register and the cell of every unguarded store to a tracked cell. -/
def TrackedPossible (func : Func) (placed : Bool) (tracked : CellSet) (order : List BlockId) : Prop :=
  ∀ b ∈ order, ∀ inst ∈ func.codeOf b, ∀ c src, inst.cellStore = some (c, src) →
    tracked.contains c = true → src.index < 32 ∧ ∃ k, c.reached placed = .ok k

/-- The cells live at the start of a block are those that its instructions leave of the cells live at its end. -/
def LiveSettled (func : Func) (tracked : CellSet) (ins : Facts) (order : List BlockId) : Prop :=
  ∀ b ∈ order, ∀ body, func.block? b = some body →
    (body.insts.foldr (transferLive tracked) (func.liveAfter ins b)).Within (liveAt ins b)

section

variable (trimming : Trimming (storesKept tracked ins) order func next) (settled : func.LiveSettled tracked ins order)

include trimming settled

theorem stores_land {b : BlockId} (isMet : b ∈ order) {one two : Machine}
    (agrees : Agrees (DeadWord tracked live one) false one two) (within : (liveAt ins b).Within live) :
    Lands (func.viewed placed) (next.viewed placed) (StoresMatch placed func tracked ins order) b one two := by
  obtain ⟨body, got⟩ := trimming.known b isMet
  obtain ⟨started, startedNext⟩ := @Trimming.startOf _ _ _ _ placed trimming _ _ got isMet
  have last := trimming.last b isMet
  rw [codeOf_eq got] at last
  have isKept : storesKept tracked ins body = (keepStores tracked (func.liveAfter ins b) body.insts).1 := by
    simp only [storesKept, liveAfter, got]
  rw [isKept] at startedNext
  refine ⟨_, _, started, startedNext, .intro isMet last (fun inst inCode => codeOf_eq got ▸ inCode) ?_⟩
  exact agrees.mono fun k isDead => ⟨isDead.1, isDead.2.mono ((settled b isMet body got).trans within)⟩

/-- A step of two runs that match. -/
theorem stores_advance (first : Point) (one : Machine) (second : Point) (two : Machine)
    (matched : StoresMatch placed func tracked ins order first one second two)
    (follows : ∀ b, (⟨func.viewed placed, regs, none⟩ : Setting).Transfers first one b →
      (func.viewed placed).IsEdge first.block b) :
    Advance ⟨func.viewed placed, regs, none⟩ ⟨next.viewed placed, regs, none⟩
      (¬ func.TrackedPossible placed tracked order)
      (StoresMatch placed func tracked ins order) first one second two := by
  obtain @⟨b, code, one, two, reached, last, mem, agrees⟩ := matched
  simp only [isEdge_viewed] at follows
  have lands : ∀ {t : BlockId} {before after : Machine}, func.IsEdge b t →
      Agrees (DeadWord tracked (func.liveAfter ins b) before) false before after →
      Lands (func.viewed placed) (next.viewed placed) (StoresMatch placed func tracked ins order) t before
        after :=
    fun edge agreed =>
      stores_land trimming settled (trimming.onward b reached _ edge.1) agreed (liveAt_within edge.1)
  cases code with
  | nil => exact trimming.advance_end reached fun t falls => lands (follows t (.inl ⟨rfl, falls⟩)) agrees
  | cons inst rest =>
    have isListed := mem inst (.head _)
    have framed := trimming.framed b reached inst isListed
    rw [foldr_cons] at agrees
    simp only [keepStores, keepStores_snd, map_cons]
    generalize isLive : rest.foldr (transferLive tracked) (func.liveAfter ins b) = live at agrees
    have further : ∀ {before after : Machine}, Agrees (DeadWord tracked live before) false before after →
        StoresMatch placed func tracked ins order ⟨b, rest.map (Inst.viewed placed)⟩ before
          ⟨b, (keepStores tracked (func.liveAfter ins b) rest).1.map (Inst.viewed placed)⟩ after :=
      fun agreed => .intro reached last.tail (forall_mem_cons.mp mem).2 (by rw [isLive]; exact agreed)
    split
    · rename_i dead
      obtain ⟨c, src, isStore, isTracked, isDead⟩ := isDeadStore_eq_true dead
      obtain ⟨isOp, always⟩ := cellStore_eq_some.mp isStore
      have notCall : inst.isCall = false := by simp [isCall, isOp]
      have quiet : (⟨b, inst.viewed placed :: rest.map (Inst.viewed placed)⟩ : Point).atCall = false := by
        simpa [Point.atCall] using notCall
      cases const : one.pred PReg.zero with
      | false =>
        obtain ⟨addr, isViewed, _⟩ := @viewed_store placed _ _ _ isOp
        have ran : one.perform regs (inst.viewed placed) = .ok (one.skip, .next) :=
          perform_of_disabled const (by simpa using always) (by simpa using notCall)
            (by simp [isReturn, isViewed])
        have shown : ∀ k, ¬ DeadWord tracked (transferLive tracked inst live) one k :=
          fun k isDead => Bool.noConfusion (const.symm.trans isDead.1)
        refine .alone (step_of_perform ran) quiet (Nat.lt_succ_self _) (further ?_)
        exact { agrees with stack := fun k _ => agrees.stack k (shown k) }
      | true =>
        rcases perform_store const isStore with ⟨place, isReached, ran⟩ | ⟨impossible, fault, fails⟩
        · refine .alone (step_of_perform ran) quiet (Nat.lt_succ_self _) (further ?_)
          refine { agrees with stack := fun k visible => ?_ }
          obtain rfl := CellId.place_of_reached isReached
          rw [readStack_writeStack]
          split
          · rename_i isPlace
            exact absurd ⟨const, c, isTracked, isDead, isPlace.symm⟩ visible
          · rename_i ne
            refine agrees.stack k fun wasDead => visible ⟨const, ?_⟩
            refine (hidden_before wasDead.2).resolve_right ?_
            rintro ⟨o, u, isOther, isPlace⟩
            obtain ⟨rfl, _⟩ := Prod.mk.inj (Option.mem_unique isStore isOther)
            exact ne isPlace.symm
        · refine .lost (fun possible => impossible ?_) quiet (step_of_failure fails)
          exact possible b reached inst isListed c src isStore isTracked
    · refine .both rfl fun word => alike_of_perform ?_
      have visible : ∀ dst addr, (inst.viewed placed).op = .load dst addr →
          addr.Visible (DeadWord tracked (transferLive tracked inst live) one) :=
        framed.visible fun dst c isOp isDead => not_hidden_of_load isOp isDead.2
      refine (agrees.perform (fun hidden => hidden.elim fun _ isDead => isDead.1) visible
        (fun stale => Bool.noConfusion stale.1)).attach.mono ?_
      rintro ⟨after, control⟩ ⟨afterKept, o⟩ ⟨⟨same, agreed⟩, ran, _⟩
      have stays := perform_pred_zero ran
      have alike : Agrees (DeadWord tracked live (after.given (inst.viewed placed).isCall word)) false
          (after.given (inst.viewed placed).isCall word) (afterKept.given (inst.viewed placed).isCall word) := by
        refine (agreed.mono fun k isDead => ?_).given word
        obtain ⟨⟨const, wasDead⟩, unwritten⟩ := isDead
        exact ⟨by simpa [stays] using const, hidden_after const ran wasDead unwritten⟩
      refine ⟨same, agreed.printed, fun _ => further alike, fun t jumps => ?_⟩
      obtain rfl := jumps
      have branches : inst.branchTarget = some t := by simpa using perform_jump ran
      have atEnd : live = func.liveAfter ins b := by
        rw [← isLive]
        exact foldr_transferLive_of_terminators fun o isLater => rel_of_pairwise_cons last isLater t branches
      rw [atEnd] at alike
      exact lands (follows t (.inr ⟨_, _, after, rfl, ran⟩)) alike

end

/-- Dropping dead stores from the blocks that the traversal meets is possible. It does not change how the function ends,
but for a fault of a dropped store that the machine cannot do. -/
theorem Met.dropDeadStores_ok (met : func.Met order) (cells : List CellId) :
    ∃ n next, func.dropDeadStores cells = .ok (n, next) ∧
      ∀ placed regs m words, (func.viewed placed).FollowsEdges regs words m → ∀ ending,
        ((func.viewed placed).EndsAs regs words m ending → (next.viewed placed).EndsAs regs words m ending ∨
          ¬ func.TrackedPossible placed (ofList cells) order ∧ ∃ fault, ending = .error (.fault fault)) ∧
        ((next.viewed placed).EndsAs regs words m ending → (func.viewed placed).EndsAs regs words m ending ∨
          ¬ func.TrackedPossible placed (ofList cells) order ∧
            ∃ fault, (func.viewed placed).EndsAs regs words m (.error (.fault fault))) := by
  obtain ⟨blocks, gathered, trimming⟩ := @trimming _ _ met order.reverse fun _ => mem_reverse
  let ins := liveCells (ofList cells) blocks
  have dropped : func.dropDeadStores cells = .ok (func.shrink blocks (storesKept (ofList cells) ins)) := by
    rw [dropDeadStores, met.traversed, ok_bind, gathered]
    rfl
  have isSettled : Settled (liveIn (ofList cells)) blocks ins := (liveCells_repeats (blocksOf_listed gathered)).settled
  have settled : func.LiveSettled (ofList cells) ins order := by
    intro b isMet body got c isLive
    obtain ⟨set, isSet, same⟩ := isSettled _ (blocksOf_covers gathered (mem_reverse.mpr isMet) got)
    simpa only [liveAt, isSet, Option.getD_some, same c, liveIn, liveAfter, got] using isLive
  refine ⟨_, _, dropped, fun placed regs m words follows ending => ?_⟩
  have trims := trimming (storesKept (ofList cells) ins)
  exact endsAs_of_advance (stores_advance trims settled) trims.entry
    (stores_land trims settled trims.entered (.refl m) fun _ => id) follows ending

/-- Dropping dead stores does not change how a function ends. It returns the same value and text or stops for the same
reason, whatever machine it is run from and whatever its calls leave as return offset, if control moves between blocks
along edges only and branches and returns end blocks. A run that stops at a fault is left out, unless the machine has
the register and the cell of every store to one of the cells in the blocks that the traversal meets. -/
theorem dropDeadStores_endsAs (orderly : func.Orderly) (cells : List CellId) :
    ∃ order count next, func.reversePostorder = .ok order ∧ func.dropDeadStores cells = .ok (count, next) ∧
      ∀ regs machine, (∀ words, func.FollowsEdges regs words machine →
        (func.TrackedPossible false (CellSet.ofList cells) order ∨
          ∀ fault, ¬ func.EndsAs regs words machine (.error (.fault fault))) →
        ∀ ending, func.EndsAs regs words machine ending ↔ next.EndsAs regs words machine ending) ∧
      ∀ ending, func.HaltsAs regs machine ending →
        (func.TrackedPossible false (CellSet.ofList cells) order ∨ ∀ fault, ending ≠ .error (.fault fault)) →
        ∃ words, func.EndsAs regs words machine ending ∧
          (func.FollowsEdges regs words machine → next.EndsAs regs words machine ending) := by
  obtain ⟨order, met⟩ := orderly.met
  obtain ⟨count, next, dropped, alike⟩ := met.dropDeadStores_ok cells
  have alike := alike false
  simp only [viewed_false] at alike
  refine ⟨order, count, next, met.traversed, dropped, fun regs machine => ⟨?_, ?_⟩⟩
  · intro words follows faultless ending
    constructor
    · intro ends
      refine ((alike regs machine words follows ending).1 ends).resolve_right ?_
      rintro ⟨impossible, fault, rfl⟩
      exact faultless.elim impossible fun never => never fault ends
    · intro ends
      refine ((alike regs machine words follows ending).2 ends).resolve_right ?_
      rintro ⟨impossible, fault, fails⟩
      exact faultless.elim impossible fun never => never fault fails
  · intro ending halts faultless
    obtain ⟨words, ends⟩ := halts.endsAs
    refine ⟨words, ends, fun follows => ((alike regs machine words follows ending).1 ends).resolve_right ?_⟩
    rintro ⟨impossible, fault, isFault⟩
    exact faultless.elim impossible fun never => never fault isFault

/-- A loop that stores to one cell in each turn and reads it only after storing it again, and to another one that is
read in the next turn. -/
def overwritingFunc : Func where
  name := "overwriting"
  blocks := [
    { name := "entry", succs := [⟨1⟩], insts := [
      .plain (.imm ⟨1⟩ 3), .plain (.store (.frame ⟨0⟩) ⟨1⟩), .plain (.store (.frame ⟨1⟩) ⟨1⟩)] },
    { name := "loop", succs := [⟨1⟩, ⟨2⟩], preds := [⟨0⟩, ⟨1⟩], insts := [
      .plain (.load ⟨1⟩ (.frame ⟨1⟩)), .plain (.store (.frame ⟨0⟩) ⟨1⟩), .plain (.binaryImm .sub ⟨1⟩ ⟨1⟩ 1),
      .plain (.store (.frame ⟨1⟩) ⟨1⟩), .plain (.compare .ne ⟨1⟩ ⟨1⟩ ⟨0⟩),
      (Inst.plain (.branch ⟨1⟩)).withGuard (.holds ⟨1⟩)] },
    { name := "exit", preds := [⟨1⟩], insts := [
      .plain (.store (.frame ⟨0⟩) ⟨0⟩), .plain (.load ⟨1⟩ (.frame ⟨0⟩)), .plain (.print ⟨1⟩), .plain (.ret ⟨1⟩)] }]
  layout := [⟨0⟩, ⟨1⟩, ⟨2⟩]

/-- The stores to the cell that is always stored again are dropped, and every run ends as before. -/
theorem overwritingFunc_endsAs : ∃ next, overwritingFunc.dropDeadStores [⟨0⟩, ⟨1⟩] = .ok (2, next) ∧
    ∀ regs words machine ending,
      overwritingFunc.EndsAs regs words machine ending ↔ next.EndsAs regs words machine ending := by
  have orderly : overwritingFunc.Orderly := ⟨.of_numbers (by decide) (by decide), by decide, by decide⟩
  have possible (order : List BlockId) : overwritingFunc.TrackedPossible false (CellSet.ofList [⟨0⟩, ⟨1⟩]) order := by
    have checked : ∀ content ∈ overwritingFunc.blocks, ∀ inst ∈ content.insts,
        inst.cellStore.all (fun store => store.2.index < 32 && store.1.offset.toBool) = true := by decide
    intro block _ inst inCode cell src isStore _
    cases found : overwritingFunc.block? block with
    | none => simp [codeOf, found] at inCode
    | some content =>
      have isPossible := checked content (mem_blocks found) inst (codeOf_eq found ▸ inCode)
      simp only [isStore, Option.all_some, Bool.and_eq_true, decide_eq_true_eq] at isPossible
      refine ⟨isPossible.1, ?_⟩
      cases placed : cell.offset with
      | error fault => simp [placed, Except.toBool] at isPossible
      | ok offset => exact ⟨offset, placed⟩
  obtain ⟨order, count, next, _, dropped, same⟩ := dropDeadStores_endsAs orderly [⟨0⟩, ⟨1⟩]
  have counted : (overwritingFunc.dropDeadStores [⟨0⟩, ⟨1⟩]).map Prod.fst = .ok 2 := by decide +kernel
  have follows : ∀ regs words machine, overwritingFunc.FollowsEdges regs words machine :=
    followsEdges_of_targets (by decide) (by decide)
  refine ⟨next, ?_, fun regs words machine => (same regs machine).1 words (follows regs words machine)
    (.inl (possible order))⟩
  rw [dropped] at counted ⊢
  obtain rfl : count = 2 := Except.ok.inj counted
  rfl

end Func

end SinglePath
