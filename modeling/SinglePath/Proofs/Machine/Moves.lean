import SinglePath.Proofs.Program.Meaning

/-!
What the instructions of the reduction do to a machine whose constant is there, as equations, and what an instruction
does whatever a predicate register holds that it does not mention.
-/

namespace SinglePath

open Inst Op

namespace Machine

variable {regs : TargetRegs} {m : Machine} {inst : Inst} {c : CellId} {k : Int} {greg : GReg} {preg : PReg}
  {guard cond : Cond} {v : Bool}

theorem afterAll_append (regs : TargetRegs) (m : Machine) (first second : List Inst) :
    m.afterAll regs (first ++ second) = m.afterAll regs first >>= (·.afterAll regs second) := by
  induction first generalizing m with
  | nil => rfl
  | cons inst rest ih => simp only [List.cons_append, afterAll, bind_assoc, ih]

theorem afterAll_singleton (regs : TargetRegs) (m : Machine) (inst : Inst) :
    m.afterAll regs [inst] = m.after regs inst := by
  simp only [afterAll]
  cases m.after regs inst <;> rfl

theorem readReg_eq (inside : greg.index < 32) : m.readReg greg = .ok (m.reg greg) := readReg_eq_ok.mpr ⟨inside, rfl⟩

theorem readPred_eq (inside : preg.index < 8) : m.readPred preg = .ok (m.pred preg) :=
  readPred_eq_ok.mpr ⟨inside, rfl⟩

theorem cond_eq (inside : cond.reg.index < 8) : m.cond cond = .ok (m.holds cond) := cond_eq_ok.mpr ⟨inside, rfl⟩

theorem writeReg_eq (inside : greg.index < 32) (word : UInt32) : m.writeReg greg word = .ok (m.withReg greg word) :=
  writeReg_eq_ok.mpr ⟨inside, rfl⟩

theorem writePred_eq (inside : preg.index < 8) (v : Bool) : m.writePred preg v = .ok (m.withPred preg v) :=
  writePred_eq_ok.mpr ⟨inside, rfl⟩

theorem holds_holds (m : Machine) (preg : PReg) : m.holds (.holds preg) = m.pred preg := by
  simp [holds, Cond.holds]

theorem after_withGuard (same : m.cond guard = m.cond inst.guard) :
    m.after regs (inst.withGuard guard) = m.after regs inst := by
  simp only [after, perform_eq, withGuard, same]
  rfl

/-- An instruction whose guard holds is executed. -/
theorem after_of_holds (holds : m.cond inst.guard = .ok true) :
    m.after regs inst = (m.fetch.execute regs inst.op).map Prod.fst := by
  rw [after, perform_eq, holds]
  cases m.fetch.execute regs inst.op <;> rfl

/-- An instruction whose guard fails is skipped. -/
theorem after_of_fails (fails : m.cond inst.guard = .ok false) (notCall : inst.isCall = false)
    (notReturn : inst.isReturn = false) : m.after regs inst = .ok m.skip := by
  rw [after, perform_eq, fails]
  simp [notCall, notReturn]
  rfl

section

variable (const : m.pred PReg.zero = true)

include const

theorem after_plain (op : Op) : m.after regs (.plain op) = (m.fetch.execute regs op).map Prod.fst :=
  after_of_holds (cond_of_always const rfl)

theorem after_storeCell (placed : c.offset = .ok k) (inside : greg.index < 32) :
    m.after regs (.storeCell c greg) = .ok (m.fetch.writeStack k (m.reg greg)) := by
  rw [storeCell, after_plain const, execute, readReg_eq inside]
  simp [store, placed]
  rfl

theorem after_loadCell (placed : c.offset = .ok k) (inside : greg.index < 32) :
    m.after regs (.loadCell greg c) = .ok (m.fetch.withReg greg (m.readStack k)) := by
  rw [loadCell, after_plain const, execute]
  simp [load, placed, writeReg_eq inside]
  rfl

theorem after_movePred (inside : preg.index < 8) (known : cond.reg.index < 8) :
    m.after regs (.movePred .always preg cond) = .ok (m.fetch.withPred preg (m.holds cond)) := by
  rw [movePred, show (plain (.predMove preg cond)).withGuard .always = .plain (.predMove preg cond) from rfl,
    after_plain const, execute, show m.fetch.cond cond = .ok (m.holds cond) from cond_eq known]
  simp [writePred_eq inside]
  rfl

theorem after_andPreds (inside : preg.index < 8) (known : guard.reg.index < 8) :
    m.after regs (.andPreds preg guard cond) =
      (if m.holds guard then liftM (m.cond cond) else .ok false) >>= fun v =>
        .ok (m.fetch.withPred preg v) := by
  rw [andPreds, after_plain const, execute, show m.fetch.cond guard = .ok (m.holds guard) from cond_eq known]
  cases m.holds guard with
  | false =>
    simp [writePred_eq inside]
    rfl
  | true =>
    simp [show m.fetch.cond cond = m.cond cond from rfl]
    cases m.cond cond with
    | error fault => rfl
    | ok v => simp [writePred_eq inside]; rfl

theorem after_call {callee : UInt32} (isCall : inst.op = .call callee) (always : inst.guard.isAlways = true)
    (given : callGuard regs = .ok preg) (inside : preg.index < 8) (returns : regs.returnInfo.index < 32)
    (small : calleeBase + callee.toNat < 0x100000000) :
    m.after regs inst = .ok (m.fetch.applied regs (.call callee (m.pred preg))) := by
  rw [after_of_holds (cond_of_always const always), isCall, execute_eq, decide, given, liftM_ok, ok_bind,
    show m.fetch.readPred preg = .ok (m.pred preg) from readPred_eq inside]
  cases m.pred preg with
  | true => simp [apply, small, applied, Except.map, pure, Except.pure]
  | false => simp [apply, small, applied, Except.map, writeReg_eq returns, pure, Except.pure]

end

theorem fetch_withPred (m : Machine) (preg : PReg) (v : Bool) :
    m.fetch.withPred preg v = (m.withPred preg v).fetch := by
  unfold withPred
  split <;> rfl

theorem withPred_withPred (m : Machine) (preg : PReg) (first second : Bool) :
    (m.withPred preg first).withPred preg second = m.withPred preg second := by
  unfold withPred
  split
  · simp
  · rfl

theorem withPred_self (m : Machine) (preg : PReg) : m.withPred preg (m.pred preg) = m := by
  unfold withPred
  split
  · rename_i inside
    simp [pred, inside.2]
  · rfl

theorem readReg_withPred (m : Machine) (preg : PReg) (v : Bool) (greg : GReg) :
    (m.withPred preg v).readReg greg = m.readReg greg := by
  unfold withPred
  split <;> rfl

theorem cond_withPred (ne : cond.reg ≠ preg) : (m.withPred preg v).cond cond = m.cond cond := by
  by_cases inside : cond.reg.index < 8
  · rw [cond_eq inside, cond_eq inside, holds, holds, pred_withPred, if_neg fun same => ne same.1]
  · simp [Machine.cond, readPred, inside]

theorem load_withPred (m : Machine) (preg : PReg) (v : Bool) (addr : Addr) :
    (m.withPred preg v).load addr = m.load addr := by
  unfold withPred
  split <;> cases addr <;> rfl

theorem locate_withPred (m : Machine) (preg : PReg) (v : Bool) (word : UInt32) (addr : Addr) :
    (m.withPred preg v).locate word addr = m.locate word addr := by
  unfold withPred
  split <;> cases addr <;> rfl

variable {op : Op} {update : Update}

theorem decide_withPred (unread : ∀ cond ∈ op.condReads, cond.reg ≠ preg) (notCall : ∀ callee, op ≠ .call callee)
    (general : ∀ dst special, op ≠ .fromSpecial dst special) (notReturn : ∀ r, op ≠ .ret r) :
    (m.withPred preg v).decide regs op = m.decide regs op := by
  cases op with
  | call callee => exact absurd rfl (notCall callee)
  | fromSpecial dst special => exact absurd rfl (general dst special)
  | ret r => exact absurd rfl (notReturn r)
  | predAnd dst a b =>
    simp only [decide, cond_withPred (unread a (by simp [condReads])), cond_withPred (unread b (by simp [condReads]))]
  | predOr dst a b =>
    simp only [decide, cond_withPred (unread a (by simp [condReads])), cond_withPred (unread b (by simp [condReads]))]
  | predMove dst src => simp only [decide, cond_withPred (unread src (by simp [condReads]))]
  | copyBit dst src bit cond =>
    simp only [decide, readReg_withPred, cond_withPred (unread cond (by simp [condReads]))]
  | _ => simp only [decide, readReg_withPred, load_withPred, locate_withPred]

theorem apply_withPred (unwritten : ∀ v, update ≠ .pred preg v)
    (notCall : ∀ callee enabled, update ≠ .call callee enabled)
    (unbanked : ∀ special word, update ≠ .special special word) :
    (m.withPred preg v).apply regs update = (m.apply regs update).map (·.withPred preg v) := by
  by_cases inside : preg ≠ PReg.zero ∧ preg.index < 8
  · have isSet (m : Machine) : m.withPred preg v =
        { m with pregs := m.pregs.set preg.index v inside.2 } := dif_pos inside
    simp only [isSet]
    cases update with
    | call callee enabled => exact absurd rfl (notCall callee enabled)
    | special name word => exact absurd rfl (unbanked name word)
    | reg dst word =>
      simp only [apply, writeReg]
      split
      · rfl
      · split <;> rfl
    | pred dst o =>
      have ne : dst.index ≠ preg.index := fun same => unwritten o (by cases dst; cases preg; simp_all)
      simp only [apply, writePred]
      split
      · rfl
      · split
        · simp [Except.map, Vector.set_comm _ _ ne]
        · rfl
    | _ => rfl
  · have same (m : Machine) : m.withPred preg v = m := dif_neg inside
    simp only [same]
    cases m.apply regs update <;> rfl

/-- An instruction that does not mention a predicate register does the same whatever the register holds. -/
theorem after_withPred (unmentioned : inst.mentionsPred preg = false) (notZero : preg ≠ PReg.zero)
    (notCall : inst.isCall = false) (notReturn : inst.isReturn = false) (notFrom : inst.fromSpecial? = none)
    (notTo : inst.toSpecial? = none) :
    (m.withPred preg v).after regs inst = (m.after regs inst).map (·.withPred preg v) := by
  obtain ⟨unread, unwritten⟩ := Bool.or_eq_false_iff.mp unmentioned
  obtain ⟨unguarded, unread⟩ := Bool.or_eq_false_iff.mp unread
  have sameGuard : (m.withPred preg v).cond inst.guard = m.cond inst.guard := by
    refine cond_withPred fun same => ?_
    simp [Cond.isAlways, same, notZero] at unguarded
  have sameSkip : (m.withPred preg v).skip = m.skip.withPred preg v := by
    unfold withPred
    split <;> rfl
  have decided : (m.fetch.withPred preg v).decide regs inst.op = m.fetch.decide regs inst.op := by
    refine decide_withPred (by simpa using unread) ?_ ?_ ?_
    · rintro callee isCall
      simp [Inst.isCall, isCall] at notCall
    · rintro dst special isFrom
      simp [fromSpecial?, isFrom] at notFrom
    · rintro r isReturn
      simp [Inst.isReturn, isReturn] at notReturn
  simp only [after, perform_eq, sameGuard, notCall, notReturn, Bool.or_false]
  rcases m.cond inst.guard with fault | enabled
  · rfl
  · cases enabled with
    | false => simp [sameSkip]; rfl
    | true =>
      simp only [liftM_ok, ok_bind, if_true, ← fetch_withPred, execute_eq, decided]
      cases made : m.fetch.decide regs inst.op with
      | error cause => rfl
      | ok decision =>
        obtain ⟨update, transfer⟩ := decision
        have kind := decide_of made
        have applied : (m.fetch.withPred preg v).apply regs update =
            (m.fetch.apply regs update).map (·.withPred preg v) := by
          refine apply_withPred ?_ ?_ ?_
          · rintro written rfl
            simp [writesPred, show inst.op.predWrite = some preg from kind] at unwritten
          · rintro callee enabled rfl
            simp [isCall, show inst.op = .call callee from kind] at notCall
          · rintro special word rfl
            obtain ⟨src, isOp⟩ := kind
            simp [toSpecial?, isOp] at notTo
        simp only [ok_bind, applied]
        cases m.fetch.apply regs update <;> rfl

/-- A predicate that is not written is kept. -/
theorem after_pred {next : Machine} (ran : m.after regs inst = .ok next) (unwritten : inst.writesPred preg = false)
    (notTo : inst.toSpecial? = none) : next.pred preg = m.pred preg := by
  obtain ⟨⟨after, transfer⟩, performed, rfl⟩ := bind_pure_inv ran
  rcases perform_applied performed with rfl | ⟨update, kind, rfl⟩
  · rfl
  · refine pred_applied ?_ (.inr ?_)
    · rintro written rfl
      simp [writesPred, show inst.op.predWrite = some preg from kind] at unwritten
    · rintro word rfl
      obtain ⟨src, isOp⟩ := kind
      simp [toSpecial?, isOp] at notTo

end Machine

end SinglePath
