import SinglePath.Proofs.Program.Tame

namespace SinglePath

open Builder Inst Machine Nat

namespace Generator

variable {m : Machine} {nesting : Nesting} {count loops cost : Nat}

section

variable {α β : Type} {draw : Draw α} {next : α → Draw β}

/-- Whatever is drawn has the property, which may speak of how much of the budget is used. -/
def Yields (draw : Draw α) (Holds : Nat → α → Prop) : Prop :=
  ∀ u : Source, ∃ used, u.budget = (draw.run u).2.budget + used ∧ Holds used (draw.run u).1

/-- Whatever is drawn has the property, and none of the budget is used. -/
def Draws (draw : Draw α) (Holds : α → Prop) : Prop := Yields draw fun used v => used = 0 ∧ Holds v

theorem yields_pure {Holds : Nat → α → Prop} {v : α} (holds : Holds 0 v) : Yields (pure v) Holds :=
  fun _ => ⟨0, rfl, holds⟩

theorem draws_pure {Holds : α → Prop} {v : α} (holds : Holds v) : Draws (pure v) Holds := yields_pure ⟨rfl, holds⟩

/-- Draws compose, and the bytes that they use add up. -/
theorem Yields.bind {Holds : Nat → α → Prop} {Result : Nat → β → Prop} (yields : Yields draw Holds)
    (continued : ∀ used v, Holds used v → Yields (next v) fun more => Result (used + more)) :
    Yields (draw >>= next) Result := by
  intro u
  obtain ⟨used, isUsed, holds⟩ := yields u
  obtain ⟨more, isMore, result⟩ := continued used _ holds (draw.run u).2
  refine ⟨used + more, ?_, result⟩
  rw [isUsed, isMore]
  exact Nat.add_right_comm _ _ _ |>.trans (Nat.add_assoc _ _ _)

theorem Yields.mono {Holds Weaker : Nat → α → Prop} (yields : Yields draw Holds)
    (weaker : ∀ used v, Holds used v → Weaker used v) : Yields draw Weaker := by
  intro u
  obtain ⟨used, isUsed, holds⟩ := yields u
  exact ⟨used, isUsed, weaker _ _ holds⟩

theorem Draws.bind {Holds : α → Prop} {Result : Nat → β → Prop} (draws : Draws draw Holds)
    (continued : ∀ v, Holds v → Yields (next v) Result) : Yields (draw >>= next) Result := by
  refine Yields.bind draws ?_
  rintro _ v ⟨rfl, holds⟩
  simpa only [Nat.zero_add] using continued v holds

theorem byte_draws : Draws byte fun v => v < 256 := by
  intro u
  refine ⟨0, ?_, rfl, ?_⟩
  · simp only [byte, StateT.run]
    split <;> rfl
  · simp only [byte, StateT.run]
    split
    · exact zero_lt_succ _
    · exact UInt8.toNat_lt _

theorem word_draws : Draws word fun _ => True :=
  byte_draws.bind fun _ _ => byte_draws.bind fun _ _ => byte_draws.bind fun _ _ => byte_draws.bind fun _ _ =>
    draws_pure trivial

theorem pick_draws (items : List α) (o : α) : Draws (pick items o) fun _ => True :=
  word_draws.bind fun _ _ => draws_pure trivial

end

section

variable {op : Op}

/-- Data registers are the first to the eighth. -/
theorem dataReg_draws : Draws dataReg fun r => 1 ≤ r.index ∧ r.index ≤ 8 := by
  refine byte_draws.bind fun v _ => draws_pure ⟨le_add_right _ _, ?_⟩
  have := mod_lt v (show 0 < dataRegs by decide)
  simp only [dataRegs] at this ⊢
  omega

/-- A register to read from exists. -/
theorem sourceReg_draws (within : nesting.loops ≤ maxLoopDepth) : Draws (sourceReg nesting) fun r => r.index < 32 := by
  refine byte_draws.bind fun v _ => ?_
  simp only [maxLoopDepth] at within
  dsimp only
  split
  · exact draws_pure (by decide)
  · split
    · refine draws_pure ?_
      show 10 + nesting.loops - 1 < 32
      omega
    · refine dataReg_draws.mono ?_
      rintro _ r ⟨rfl, few⟩
      exact ⟨rfl, by omega⟩

theorem toNat_ofNat_small {number : Nat} (small : number < 256) : (UInt32.ofNat number).toNat = number :=
  UInt32.toNat_ofNat_of_lt' (lt_of_lt_of_le small (by decide))

/-- An offset into memory is inside it. -/
theorem memoryOffset_draws : Draws memoryOffset fun k => k.toNat < 64 := by
  refine word_draws.bind fun v _ => draws_pure ?_
  have inside : v % memoryWords < 64 := mod_lt v (by decide)
  rw [toNat_ofNat_small (by omega)]
  exact inside

/-- An instruction that writes data registers only is tame if it is executed. -/
theorem tameInst_of_execute (plain : (plain op).isTerminator = false)
    (writes : ∀ r, op.regWrite = some r → 1 ≤ r.index ∧ r.index ≤ 8)
    (executes : ∀ m, Steady m → ∃ after, m.fetch.execute { predCount := count } op = .ok (after, .next)) :
    TameInst { predCount := count } loops (.plain op) where
  plain := plain
  runs m steady := by
    obtain ⟨after, executed⟩ := executes m steady
    have ran : m.perform { predCount := count } (.plain op) = .ok (after, .next) :=
      (perform_of_always steady.constant rfl).trans executed
    refine ⟨after, after_of_execute steady rfl executed, perform_pred_zero ran, ?_, le_of_eq (perform_steps ran)⟩
    intro r reserved
    have isReserved := reserved.index
    refine perform_reg ran (fun isWritten => ?_) fun isInfo => ?_
    · have := writes r isWritten
      omega
    · rw [isInfo] at isReserved
      simp only at isReserved
      omega

/-- An instruction that has a data register as its destination. -/
theorem tameInst_of_write {dst : GReg} (plain : (plain op).isTerminator = false)
    (inside : 1 ≤ dst.index ∧ dst.index ≤ 8) (writes : op.regWrite = some dst)
    (executes : ∀ m, Steady m → ∃ v : UInt32, m.fetch.execute { predCount := count } op =
      do return (← m.fetch.writeReg dst v, .next)) : TameInst { predCount := count } loops (.plain op) := by
  refine tameInst_of_execute plain (fun r isWritten => ?_) fun m steady => ?_
  · obtain rfl := Option.mem_unique writes isWritten
    exact inside
  · obtain ⟨v, executed⟩ := executes m steady
    have written : m.fetch.writeReg dst v = .ok (m.fetch.withReg dst v) := writeReg_eq_ok.mpr ⟨by omega, rfl⟩
    rw [executed, written]
    exact ⟨_, rfl⟩

theorem readReg_fetch (m : Machine) {r : GReg} (inside : r.index < 32) : m.fetch.readReg r = .ok (m.reg r) :=
  readReg_eq_ok.mpr ⟨inside, rfl⟩

theorem address_fetch (steady : Steady m) {k : UInt32} (inside : k.toNat < 64) :
    m.fetch.address GReg.zero k = .ok ⟨k.toNat, inside⟩ := by
  have isZero : m.fetch.readReg GReg.zero = .ok 0 := readReg_eq_ok.mpr ⟨by decide, steady.zero⟩
  unfold address
  rw [isZero, liftM_ok, ok_bind, UInt32.zero_add, dif_pos inside]
  rfl

/-- The machine can make a call. -/
theorem call_total (enough : 4 ≤ count) (few : count ≤ 8) {callee : UInt32} (small : callee.toNat < 256) (m : Machine) :
    ∃ after, m.call { predCount := count } callee = .ok after := by
  obtain ⟨guard, rfl⟩ : ∃ guard, count = guard + 1 := ⟨count - 1, by omega⟩
  have isGuard : m.readPred ⟨guard⟩ = .ok (m.pred ⟨guard⟩) := readPred_eq_ok.mpr ⟨lt_of_succ_le few, rfl⟩
  have below : calleeBase + callee.toNat < 0x100000000 := by
    simp only [calleeBase]
    omega
  unfold call
  simp only [callGuard, ok_bind, isGuard]
  have isWritten : m.writeReg ⟨9⟩ dirty = .ok (m.withReg ⟨9⟩ dirty) := writeReg_eq_ok.mpr ⟨by decide, rfl⟩
  cases m.pred ⟨guard⟩ with
  | true =>
    simp only [if_true, if_pos below]
    exact ⟨_, rfl⟩
  | false =>
    simp only [Bool.false_eq_true, if_false, isWritten, ok_bind, if_pos below]
    exact ⟨_, rfl⟩

/-- A drawn instruction is tame. -/
theorem simpleInst_draws (enough : 4 ≤ count) (few : count ≤ 8) (within : nesting.loops ≤ maxLoopDepth) (loops : Nat) :
    Draws (simpleInst nesting) (TameInst { predCount := count } loops) := by
  have u := sourceReg_draws within
  refine byte_draws.bind fun choice _ => ?_
  split
  · refine dataReg_draws.bind fun dst isData => word_draws.bind fun v _ => draws_pure ?_
    exact tameInst_of_write rfl isData rfl fun m _ => ⟨v.toUInt32, rfl⟩
  · refine dataReg_draws.bind fun dst isData => u.bind fun src srcInside => draws_pure ?_
    refine tameInst_of_write rfl isData rfl fun m _ => ⟨m.reg src, ?_⟩
    simp only [execute, readReg_fetch m srcInside, liftM_ok, ok_bind]
  · refine (pick_draws _ _).bind fun op _ => dataReg_draws.bind fun dst isData => u.bind fun lhs lhsInside =>
      u.bind fun rhs rhsInside => draws_pure ?_
    refine tameInst_of_write rfl isData rfl fun m _ => ⟨op.eval (m.reg lhs) (m.reg rhs), ?_⟩
    simp only [execute, readReg_fetch m lhsInside, readReg_fetch m rhsInside, liftM_ok, ok_bind]
  · refine (pick_draws _ _).bind fun op _ => dataReg_draws.bind fun dst isData => u.bind fun lhs lhsInside =>
      word_draws.bind fun v _ => draws_pure ?_
    refine tameInst_of_write rfl isData rfl fun m _ => ⟨op.eval (m.reg lhs) (UInt32.ofNat (v % 64)), ?_⟩
    simp only [execute, readReg_fetch m lhsInside, liftM_ok, ok_bind]
  · refine u.bind fun src srcInside => draws_pure ?_
    refine tameInst_of_execute rfl (fun _ isReg => by cases isReg) fun m _ => ?_
    simp only [execute, readReg_fetch m srcInside, liftM_ok, ok_bind]
    exact ⟨_, rfl⟩
  · refine memoryOffset_draws.bind fun k inside => u.bind fun src srcInside => draws_pure ?_
    refine tameInst_of_execute rfl (fun _ isReg => by cases isReg) fun m steady => ?_
    simp only [execute, store, readReg_fetch m srcInside, address_fetch steady inside, liftM_ok, ok_bind]
    exact ⟨_, rfl⟩
  · refine dataReg_draws.bind fun dst isData => memoryOffset_draws.bind fun k inside => draws_pure ?_
    refine tameInst_of_write rfl isData rfl fun m steady => ⟨m.memory[k.toNat], ?_⟩
    simp only [execute, load, address_fetch steady inside, ok_bind]
    rfl
  · refine byte_draws.bind fun callee small => draws_pure ?_
    refine tameInst_of_execute rfl (fun _ isReg => by cases isReg) fun m _ => ?_
    have isSmall : (UInt32.ofNat callee).toNat < 256 := by
      rw [toNat_ofNat_small small]
      exact small
    obtain ⟨after, called⟩ := call_total enough few isSmall m.fetch
    simp only [execute, called, liftM_ok, ok_bind]
    exact ⟨_, rfl⟩
  · refine draws_pure (tameInst_of_execute rfl (fun _ isReg => by cases isReg) fun m _ => ?_)
    exact ⟨_, rfl⟩

/-- Drawn instructions are tame, and as many as asked for. -/
theorem simpleInsts_draws (enough : 4 ≤ count) (few : count ≤ 8) (within : nesting.loops ≤ maxLoopDepth)
    (loops length : Nat) :
    Draws (simpleInsts nesting length) fun insts =>
      insts.length = length ∧ ∀ inst ∈ insts, TameInst { predCount := count } loops inst := by
  induction length with
  | zero => exact draws_pure ⟨rfl, nofun⟩
  | succ length ih =>
    refine (simpleInst_draws enough few within loops).bind fun inst tameInst => ih.bind fun insts => ?_
    rintro ⟨isLength, tame⟩
    exact draws_pure ⟨congrArg (· + 1) isLength, List.forall_mem_cons.mpr ⟨tameInst, tame⟩⟩

end

section

variable {inner : Nesting → Draw (List Stmt)}

/-- A drawn test compares registers that exist. -/
theorem test_draws (within : nesting.loops ≤ maxLoopDepth) :
    Draws (test nesting) fun test => test.lhs.index < 32 ∧ test.rhs.index < 32 :=
  (pick_draws _ _).bind fun _ _ => (sourceReg_draws within).bind fun _ lhsInside =>
    (sourceReg_draws within).bind fun _ rhsInside => draws_pure ⟨lhsInside, rhsInside⟩

/-- The drawn bound of a loop is not below its rounds. -/
theorem bound_draws {runs : Nat} (few : runs ≤ maxTrips + 1) :
    Draws (bound runs) fun bound => WithinBound bound runs := by
  refine byte_draws.bind fun choice _ => ?_
  simp only [maxTrips] at few
  split
  · exact draws_pure fun _ isBound => by cases isBound
  · next slack isChoice =>
    refine draws_pure ?_
    rintro _ ⟨⟩
    rw [toNat_ofNat_small (by omega)]
    exact le_add_right _ _

/-- What a statement inside this many loops costs at most for each unit of the budget that is used. -/
def unitCost (loops : Nat) : Nat := 8 * 5 ^ (maxLoopDepth - loops)

/-- Inside these nestings statements are drawn that cost no more than the budget used for them. -/
def Affordable (count : Nat) (inner : Nesting → Draw (List Stmt)) : Prop :=
  ∀ nesting : Nesting, nesting.loops ≤ maxLoopDepth → Yields (inner nesting) fun used ss =>
    Tame { predCount := count } nesting.loops (unitCost nesting.loops * used) ss

theorem unitCost_ge (loops : Nat) : 8 ≤ unitCost loops := by
  have := Nat.pow_pos (n := maxLoopDepth - loops) (show 0 < 5 by decide)
  simp only [unitCost]
  omega

/-- A statement may cost five times as much as one that is a loop further inside. -/
theorem unitCost_inside (within : loops < maxLoopDepth) : unitCost loops = 5 * unitCost (loops + 1) := by
  obtain ⟨left, isLeft⟩ : ∃ left, maxLoopDepth - loops = left + 1 := ⟨maxLoopDepth - loops - 1, by omega⟩
  have isInside : maxLoopDepth - (loops + 1) = left := by omega
  simp only [unitCost, isLeft, isInside, Nat.pow_succ]
  omega

variable (affordable : Affordable count inner)
include affordable

/-- A drawn conditional is tame at the cost of the bytes that it uses. -/
theorem conditional_yields (within : nesting.loops ≤ maxLoopDepth) : Yields (conditional inner nesting) fun used ss =>
      Tame { predCount := count } nesting.loops (unitCost nesting.loops * (used + 1)) ss := by
  refine (test_draws within).bind fun test inside => ?_
  refine Yields.bind (affordable _ within) fun usedThen thenPart thenTame => ?_
  refine Yields.bind (affordable _ within) fun usedElse elsePart elseTame => yields_pure ?_
  refine (thenTame.ifThenElse inside.1 inside.2 elseTame).mono ?_
  have := unitCost_ge nesting.loops
  simp only [Nat.mul_add]
  omega

/-- A drawn loop with its test first is tame at the cost of the bytes that it uses. -/
theorem whileLoop_yields (within : nesting.loops < maxLoopDepth) : Yields (whileLoop inner nesting) fun used ss =>
      Tame { predCount := count } nesting.loops (unitCost nesting.loops * (used + 1)) ss := by
  refine byte_draws.bind fun choice _ => ?_
  have few : choice % (maxTrips + 1) ≤ maxTrips := le_of_lt_succ (mod_lt _ (succ_pos _))
  refine (bound_draws (Nat.add_le_add_right few 1)).bind fun bound covers => ?_
  refine Yields.bind (affordable _ within) fun used body tame => yields_pure ?_
  refine (tame.whileLoop within few covers).mono ?_
  have := unitCost_ge (nesting.loops + 1)
  show 31 + 5 * (unitCost (nesting.loops + 1) * used) ≤ unitCost nesting.loops * (used + 1)
  rw [unitCost_inside within, Nat.mul_assoc, mul_succ]
  omega

omit affordable in
/-- A drawn loop with its test last is tame at the cost of the bytes that it uses. -/
theorem repeatLoop_yields (enough : 4 ≤ count) (few : count ≤ 8) (within : nesting.loops < maxLoopDepth) :
    Yields (repeatLoop nesting) fun used ss =>
      Tame { predCount := count } nesting.loops (unitCost nesting.loops * (used + 1)) ss := by
  refine byte_draws.bind fun choice _ => ?_
  dsimp only
  have fewTrips : choice % maxTrips + 1 ≤ maxTrips := Nat.mod_lt _ (by decide)
  rw [Nat.add_comm 1 (choice % maxTrips)]
  refine (bound_draws (Nat.le_succ_of_le fewTrips)).bind fun bound covers => ?_
  refine byte_draws.bind fun length _ => ?_
  have insts : Draws (simpleInsts { nesting with loops := nesting.loops + 1 } (length % 4)) fun insts =>
      insts.length = length % 4 ∧ ∀ inst ∈ insts, TameInst { predCount := count } (nesting.loops + 1) inst :=
    simpleInsts_draws enough few (Nat.succ_le_of_lt within) (nesting.loops + 1) (length % 4)
  refine insts.bind fun body ⟨isLength, tame⟩ => yields_pure ?_
  have short : body.length ≤ 3 := isLength ▸ Nat.le_of_lt_succ (Nat.mod_lt length (by decide))
  refine (Tame.repeatLoop within fewTrips tame short covers).mono ?_
  have := unitCost_ge (nesting.loops + 1)
  rw [unitCost_inside within]
  omega

/-- A drawn statement is tame at the cost of the bytes that it uses. -/
theorem statement_yields (enough : 4 ≤ count) (few : count ≤ 8) (within : nesting.loops ≤ maxLoopDepth) :
    Yields (statement inner nesting) fun used ss =>
      Tame { predCount := count } nesting.loops (unitCost nesting.loops * (used + 1)) ss := by
  refine byte_draws.bind fun kind _ => ?_
  dsimp only
  split
  · exact conditional_yields affordable within
  split
  · next isWhile => exact whileLoop_yields affordable (by simpa using (Bool.and_eq_true_iff.mp isWhile).2)
  split
  · next isRepeat => exact repeatLoop_yields enough few (by simpa using (Bool.and_eq_true_iff.mp isRepeat).2)
  · refine (simpleInst_draws enough few within nesting.loops).bind fun inst tame => yields_pure (tame.simple.mono ?_)
    have := unitCost_ge nesting.loops
    omega

end

theorem repeated_yields {one : Draw (List Stmt)}
    (yields : Yields one fun used ss => Tame { predCount := count } loops (cost * (used + 1)) ss) (most : Nat) :
    Yields (repeated one most) fun used ss => Tame { predCount := count } loops (cost * used) ss := by
  induction most with
  | zero => exact yields_pure (tame_nil _ _)
  | succ most ih =>
    intro u
    by_cases spent : u.budget = 0
    · have isRun : (repeated one (most + 1)).run u = ([], u) := by
        show (if u.budget = 0 then _ else _ : Draw (List Stmt)).run u = _
        rw [if_pos spent]
        rfl
      rw [isRun]
      exact ⟨0, rfl, tame_nil _ _⟩
    · have isRun : (repeated one (most + 1)).run u =
          (do return (← one) ++ (← repeated one most) : Draw (List Stmt)).run { u with budget := u.budget - 1 } := by
        show (if u.budget = 0 then _ else _ : Draw (List Stmt)).run u = _
        rw [if_neg spent]
        rfl
      have both : Yields (do return (← one) ++ (← repeated one most)) fun used ss =>
          Tame { predCount := count } loops (cost * (used + 1)) ss := by
        refine yields.bind fun used ss tame => ih.bind fun more others tameOthers => yields_pure ?_
        refine (tame.append tameOthers).mono (Nat.le_of_eq ?_)
        rw [← Nat.mul_add]
        congr 1
        omega
      obtain ⟨used, isUsed, tame⟩ := both { u with budget := u.budget - 1 }
      rw [isRun]
      refine ⟨used + 1, ?_, tame⟩
      simp only at isUsed
      omega

/-- Drawn statements are tame at a cost that the bytes limit. -/
theorem statements_affordable (enough : 4 ≤ count) (few : count ≤ 8) (room most : Nat) :
    Affordable count (statements room most) := by
  induction room generalizing most with
  | zero =>
    have none : Affordable count fun _ => pure [] := fun nesting _ => yields_pure (tame_nil _ _)
    exact fun nesting within => byte_draws.bind fun length _ =>
      repeated_yields (statement_yields none enough few within) _
  | succ room ih =>
    exact fun nesting within => byte_draws.bind fun length _ =>
      repeated_yields (statement_yields (ih _) enough few within) _

/-- Whatever the bytes, the statements drawn from them are tame. -/
theorem draw_tame (enough : 4 ≤ count) (few : count ≤ 8) (bytes : List UInt8) :
    Tame { predCount := count } 0 (unitCost 0 * 256) (draw { bytes := bytes }).1.2.1 ∧
      (draw { bytes := bytes }).1.2.2.index < 32 := by
  have rest : Yields (do
      let isRegion := (← byte) % 2 = 1
      let ss ← statements (maxIfDepth + maxLoopDepth) 16 {}
      return (isRegion, ss, ← dataReg) : Draw (Bool × List Stmt × GReg)) fun used made =>
      Tame { predCount := count } 0 (unitCost 0 * used) made.2.1 ∧ made.2.2.index < 32 := by
    refine byte_draws.bind fun _ _ => ?_
    refine Yields.bind (statements_affordable enough few _ _ {} (zero_le _)) fun used ss tame => ?_
    exact dataReg_draws.bind fun result isData => yields_pure ⟨tame, lt_of_le_of_lt isData.2 (by decide)⟩
  obtain ⟨_, _, _, small⟩ := byte_draws { bytes := bytes }
  obtain ⟨used, isUsed, tame, inside⟩ :=
    rest { (byte { bytes := bytes }).2 with budget := 1 + (byte { bytes := bytes }).1 }
  refine ⟨tame.mono (mul_le_mul_left _ ?_), inside⟩
  have isBudget : 1 + (byte { bytes := bytes }).1 = _ + used := isUsed
  have isSmall : (byte { bytes := bytes }).1 < 256 := small
  omega

variable {regs : TargetRegs} {result : GReg}

/-- There is a machine to start from. -/
theorem initial_total (enough : 4 ≤ count) (few : count ≤ 8) :
    ∃ m, initial { predCount := count } = .ok m ∧ Steady m ∧ m.steps = 0 ∧
      m.returnBase = entryBase ∧ m.returnOffset = entryOffset := by
  obtain ⟨guard, rfl⟩ : ∃ guard, count = guard + 1 := ⟨count - 1, by omega⟩
  have returnInfo (m : Machine) (r : PReg) (v : Bool) : (m.withPred r v).returnBase = m.returnBase ∧
        (m.withPred r v).returnOffset = m.returnOffset := by
    unfold withPred
    split <;> exact ⟨rfl, rfl⟩
  have initial : initial { predCount := guard + 1 } = .ok _ := writePred_eq_ok.mpr ⟨lt_of_succ_le few, rfl⟩
  refine ⟨_, initial, ⟨initial_constant initial, ?_⟩, ?_, (returnInfo _ _ _).1, (returnInfo _ _ _).2⟩
  · rw [reg_withPred]
    rfl
  · rw [steps_withPred]

theorem Steady.withReg (steady : Steady m) (r : GReg) (v : UInt32) : Steady (m.fetch.withReg r v) where
  constant := (pred_withReg _ _ _ _).trans steady.constant
  zero := by
    rw [reg_withReg, if_neg fun isWritten => isWritten.2.1 isWritten.1.symm]
    exact steady.zero

/-- The prologue saves where to return to, in three steps. -/
theorem prologue_effect (steady : Steady m) : ∃ started,
    m.afterAll regs (prologue frameWords) = .ok started ∧ Steady started ∧ started.steps = m.steps + 3 ∧
      started.reg returnBaseSave = m.returnBase ∧ started.reg returnOffsetSave = m.returnOffset := by
  have saved {m : Machine} (steady : Steady m) (special : SpecialReg) (r : GReg) (inside : r.index < 32) :
      m.after regs (.setup (.fromSpecial r special)) = .ok (m.fetch.withReg r (m.readSpecial special)) := by
    refine after_of_execute steady rfl ?_
    have written : m.fetch.writeReg r (m.fetch.readSpecial special) =
        .ok (m.fetch.withReg r (m.readSpecial special)) := writeReg_eq_ok.mpr ⟨inside, by cases special <;> rfl⟩
    simp only [setup, execute, written, liftM_ok, ok_bind]
    rfl
  have reserved : m.after regs (.setup (.reserve frameWords)) = .ok m.fetch := after_of_execute steady rfl rfl
  have steadyFetch : Steady m.fetch := ⟨steady.constant, steady.zero⟩
  have savedBase := saved steadyFetch .returnBase returnBaseSave (by decide)
  have steadySaved := steadyFetch.withReg returnBaseSave m.returnBase
  have savedOffset := saved steadySaved .returnOffset returnOffsetSave (by decide)
  have k : (m.fetch.fetch.withReg returnBaseSave m.returnBase).returnOffset = m.returnOffset := by
    unfold withReg
    split <;> rfl
  have ran : m.afterAll regs (prologue frameWords) = .ok _ :=
    bind_ok reserved <| bind_ok savedBase <| bind_ok savedOffset rfl
  refine ⟨_, ran, steadySaved.withReg _ _, ?_, ?_, ?_⟩
  · simp only [steps_withReg, fetch]
  · rw [reg_withReg, if_neg (by decide)]
    exact (reg_withReg _ _ _ _).trans (if_pos (by decide))
  · exact (reg_withReg _ _ _ _).trans ((if_pos (by decide)).trans k)

/-- A machine that returns to where it was entered gives its result. -/
theorem leave_total (isBase : m.returnBase = entryBase) (isOffset : m.returnOffset = entryOffset)
    (inside : result.index < 32) : m.leave result = .ok ⟨m.reg result, m.fetch⟩ := by
  have isResult : m.readReg result = .ok (m.reg result) := readReg_eq_ok.mpr ⟨inside, rfl⟩
  unfold leave
  rw [if_neg (not_or.mpr ⟨not_not.mpr isBase, not_not.mpr isOffset⟩)]
  exact bind_ok (liftM_eq_ok.mpr isResult) rfl

/-- With the saved return information in place the program is left. -/
theorem restoring_effect (steady : Steady m) (isBase : m.reg returnBaseSave = entryBase)
    (isOffset : m.reg returnOffsetSave = entryOffset) (inside : result.index < 32) :
    ∃ last v, m.afterAll regs (restoring frameWords) = .ok last ∧ last.leave result = .ok v ∧
      v.machine.steps = m.steps + 4 := by
  have restored {m : Machine} (steady : Steady m) (special : SpecialReg) (r : GReg) (inside : r.index < 32) :
      m.after regs (.setup (.toSpecial special r)) = .ok (m.fetch.writeSpecial special (m.reg r)) := by
    refine after_of_execute steady rfl ?_
    simp only [setup, execute, readReg_fetch m inside, liftM_ok, ok_bind]
    rfl
  have freed {m : Machine} (steady : Steady m) :
      m.after regs (.setup (.free frameWords)) = .ok m.fetch := after_of_execute steady rfl rfl
  have restoredBase := restored steady .returnBase returnBaseSave (by decide)
  have steadyBase : Steady (m.fetch.writeSpecial .returnBase (m.reg returnBaseSave)) :=
    ⟨steady.constant, steady.zero⟩
  have restoredOffset := restored steadyBase .returnOffset returnOffsetSave (by decide)
  have steadyOffset : Steady ((m.fetch.writeSpecial .returnBase (m.reg returnBaseSave)).fetch.writeSpecial
      .returnOffset (m.reg returnOffsetSave)) := ⟨steady.constant, steady.zero⟩
  have ran : m.afterAll regs (restoring frameWords) = .ok _ :=
    bind_ok restoredBase <| bind_ok restoredOffset <| bind_ok (freed steadyOffset) rfl
  exact ⟨_, _, ran, leave_total isBase isOffset inside, rfl⟩

/-- A program built from tame statements is run to its end within its bounds. -/
theorem Tame.run {p : Program} {ss : List Stmt} {outline : Outline} (enough : 4 ≤ count)
    (few : count ≤ 8) (tame : Tame { predCount := count } 0 cost ss) (built : p.Built ss result outline)
    (inside : result.index < 32) (affordable : cost + 7 ≤ stepLimit) :
    ∃ m v, initial { predCount := count } = .ok m ∧ p.func.run { predCount := count } = .ok v ∧
      p.KeepsBounds { predCount := count } (some stepLimit) m := by
  obtain ⟨m, initial, steady, isFirst, isBase, isOffset⟩ := initial_total enough few
  obtain ⟨started, setup, steadyInside, stepsInside, savedBase, savedOffset⟩ := prologue_effect steady
  obtain ⟨points, middle, traced, passes⟩ :=
    tame.runs.passes built.starts built.spelt le_rfl Nat.one_pos steadyInside
  have steadyAfter := passes.steady steadyInside
  have keptBase := (passes.kept returnBaseSave (.inr (.inl rfl))).trans (savedBase.trans isBase)
  have keptOffset := (passes.kept returnOffsetSave (.inr (.inr (.inl rfl)))).trans (savedOffset.trans isOffset)
  obtain ⟨last, v, restored, leaves, stepsLast⟩ := restoring_effect steadyAfter keptBase keptOffset inside
  obtain ⟨finishes, keeps⟩ := built.keepsBounds setup traced restored
    ((afterAll_constant restored).trans steadyAfter.constant) leaves stepLimit
  refine ⟨m, v, initial, (built.laid tame.plain).run_of_few initial finishes ?_, keeps⟩
  have := passes.steps
  omega

/-- Every generated program is run to its end, with any of these numbers of predicate registers, and the rounds of its
loops do not exceed their bounds. -/
theorem program_bounded (bytes : List UInt8) :
    ∃ program, Generator.program bytes = .ok program ∧
      ∀ count, 4 ≤ count → count ≤ 8 → ∃ machine result, Machine.initial { predCount := count } = .ok machine ∧
        program.func.run { predCount := count } = .ok result ∧
        program.KeepsBounds { predCount := count } (some stepLimit) machine := by
  have tame {count : Nat} (enough : 4 ≤ count) (few : count ≤ 8) := draw_tame enough few bytes
  unfold Generator.program
  generalize draw { bytes := bytes } = drawn at tame ⊢
  obtain ⟨⟨isRegion, stmts, result⟩, left⟩ := drawn
  have opened : (if isRegion then (Builder.start "funk").asRegion else Builder.start "funk").Opened := by
    cases isRegion with
    | true => exact .asRegion (.start "funk")
    | false => exact .start "funk"
  have plain := (tame (Nat.le_refl 4) (by decide)).1.plain
  obtain ⟨program, outline, finished, built, _⟩ := opened.finish_built plain result
  refine ⟨program, finished, fun count enough few => ?_⟩
  exact (tame enough few).1.run enough few built (tame enough few).2 (by decide)

/-- These bytes draw three loops inside each other, with bounds of four, four and two rounds, and four predicate
registers are enough to run the program. -/
theorem program_bounded_four :
    ∃ program machine result,
      Generator.program [20, 0, 5, 8, 3, 1, 4, 8, 2, 2, 3, 9, 1, 1, 2, 0, 1, 2, 3] = .ok program ∧
      program.tree.scopes.map (fun scope => (scope.depth, scope.bound)) =
        [(0, none), (1, some 4), (2, some 4), (3, some 2)] ∧
      Machine.initial { predCount := 4 } = .ok machine ∧ program.func.run { predCount := 4 } = .ok result ∧
      program.KeepsBounds { predCount := 4 } (some stepLimit) machine := by
  obtain ⟨program, isProgram, runs⟩ := program_bounded [20, 0, 5, 8, 3, 1, 4, 8, 2, 2, 3, 9, 1, 1, 2, 0, 1, 2, 3]
  obtain ⟨machine, result, initial, run, keeps⟩ := runs 4 (by decide) (by decide)
  refine ⟨program, machine, result, isProgram, ?_, initial, run, keeps⟩
  have loops : (Generator.program [20, 0, 5, 8, 3, 1, 4, 8, 2, 2, 3, 9, 1, 1, 2, 0, 1, 2, 3]).toOption.map
      (fun program => program.tree.scopes.map fun scope => (scope.depth, scope.bound)) =
        some [(0, none), (1, some 4), (2, some 4), (3, some 2)] := by decide +kernel
  rw [isProgram] at loops
  exact Option.some.inj loops

end Generator

end SinglePath
