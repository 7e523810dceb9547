import SinglePath.Proofs.Machine.Execution

/-!
Registers and frame words as total functions, and what each kind of update does to them.
-/

namespace SinglePath

open PReg

namespace Machine

variable {m after : Machine} {regs : TargetRegs} {cond : Cond} {k : Int}

def reg (m : Machine) (reg : GReg) : UInt32 := (m.gregs[reg.index]?).getD 0

def pred (m : Machine) (reg : PReg) : Bool := (m.pregs[reg.index]?).getD false

/-- The machine with a new value in a register that it has and can change. -/
def withReg (m : Machine) (reg : GReg) (v : UInt32) : Machine :=
  if inside : reg ≠ GReg.zero ∧ reg.index < 32 then
    { m with gregs := m.gregs.set reg.index v inside.2 }
  else
    m

def withPred (m : Machine) (reg : PReg) (v : Bool) : Machine :=
  if inside : reg ≠ PReg.zero ∧ reg.index < 8 then
    { m with pregs := m.pregs.set reg.index v inside.2 }
  else
    m

/-- The value of a condition on a register that the machine has. -/
def holds (m : Machine) (cond : Cond) : Bool := m.pred cond.reg != cond.negated

section

variable {v : Bool}

theorem readReg_eq_ok {reg : GReg} {v : UInt32} : m.readReg reg = .ok v ↔ reg.index < 32 ∧ m.reg reg = v := by
  simp only [readReg, present_eq_ok, Machine.reg]
  by_cases inside : reg.index < 32 <;> simp [inside]

theorem readPred_eq_ok {reg : PReg} : m.readPred reg = .ok v ↔ reg.index < 8 ∧ m.pred reg = v := by
  simp only [readPred, present_eq_ok, pred]
  by_cases inside : reg.index < 8 <;> simp [inside]

theorem cond_eq_ok : m.cond cond = .ok v ↔ cond.reg.index < 8 ∧ m.holds cond = v := by
  simp only [Machine.cond, bind_eq_ok, readPred_eq_ok, pure_eq_ok, holds]
  constructor
  · rintro ⟨_, ⟨inside, rfl⟩, rfl⟩
    exact ⟨inside, rfl⟩
  · rintro ⟨inside, rfl⟩
    exact ⟨_, ⟨inside, rfl⟩, rfl⟩

theorem writeReg_eq_ok {reg : GReg} {v : UInt32} :
    m.writeReg reg v = .ok after ↔ reg.index < 32 ∧ after = m.withReg reg v := by
  unfold writeReg withReg
  by_cases isZero : reg = GReg.zero
  · simp [isZero, GReg.zero, eq_comm]
  · by_cases inside : reg.index < 32 <;> simp [isZero, inside, eq_comm]

theorem writePred_eq_ok {reg : PReg} : m.writePred reg v = .ok after ↔ reg.index < 8 ∧ after = m.withPred reg v := by
  unfold writePred withPred
  by_cases isZero : reg = zero
  · simp [isZero, zero, eq_comm]
  · by_cases inside : reg.index < 8 <;> simp [isZero, inside, eq_comm]

theorem reg_withReg (m : Machine) (reg o : GReg) (v : UInt32) : (m.withReg reg v).reg o =
      if o = reg ∧ reg ≠ GReg.zero ∧ reg.index < 32 then v else m.reg o := by
  unfold withReg
  split
  · obtain ⟨index⟩ := reg
    obtain ⟨place⟩ := o
    by_cases same : index = place
    · subst same
      simp_all [reg]
    · simp [reg, Vector.getElem?_set_ne _ same, Ne.symm same]
  · rename_i outside
    rw [if_neg fun got => outside got.2]

theorem pred_withPred (m : Machine) (reg o : PReg) (v : Bool) : (m.withPred reg v).pred o =
      if o = reg ∧ reg ≠ zero ∧ reg.index < 8 then v else m.pred o := by
  unfold withPred
  split
  · obtain ⟨index⟩ := reg
    obtain ⟨place⟩ := o
    by_cases same : index = place
    · subst same
      simp_all [pred]
    · simp [pred, Vector.getElem?_set_ne _ same, Ne.symm same]
  · rename_i outside
    rw [if_neg fun got => outside got.2]

theorem withReg_self (m : Machine) (reg : GReg) : m.withReg reg (m.reg reg) = m := by
  unfold withReg
  split
  · rename_i inside
    simp [Machine.reg, inside.2]
  · rfl

end

section

variable (m : Machine) (greg : GReg) (preg : PReg) (word : UInt32) (v : Bool) (k : Int)

@[simp] theorem pred_withReg : (m.withReg greg word).pred preg = m.pred preg := by
  unfold withReg
  split <;> rfl

@[simp] theorem readStack_withReg : (m.withReg greg word).readStack k = m.readStack k := by
  unfold withReg
  split <;> rfl

@[simp] theorem memory_withReg : (m.withReg greg word).memory = m.memory := by
  unfold withReg
  split <;> rfl

@[simp] theorem outputs_withReg : (m.withReg greg word).outputs = m.outputs := by
  unfold withReg
  split <;> rfl

@[simp] theorem steps_withReg : (m.withReg greg word).steps = m.steps := by
  unfold withReg
  split <;> rfl

@[simp] theorem steps_withPred : (m.withPred preg v).steps = m.steps := by
  unfold withPred
  split <;> rfl

@[simp] theorem reg_withPred : (m.withPred preg v).reg greg = m.reg greg := by
  unfold withPred
  split <;> rfl

@[simp] theorem readStack_withPred : (m.withPred preg v).readStack k = m.readStack k := by
  unfold withPred
  split <;> rfl

theorem readStack_writeStack (o : Int) : (m.writeStack k word).readStack o = if o = k then word else m.readStack o := by
  simp only [readStack, writeStack, Table.get?_insert]
  split <;> rfl

theorem pred_setBank : (m.setBank word).pred preg =
    if preg.index = 0 ∨ 8 ≤ preg.index then m.pred preg else (word >>> UInt32.ofNat preg.index) &&& 1 != 0 := by
  obtain ⟨index⟩ := preg
  simp only [pred, setBank]
  by_cases inside : index < 8
  · have within : ¬ 8 ≤ index := Nat.not_le.mpr inside
    by_cases isZero : index = 0 <;> simp [inside, isZero, within]
  · simp [inside, Nat.not_lt.mp inside]

end

/-- The machine after an update that is possible. -/
def applied (regs : TargetRegs) (m : Machine) : Update → Machine
  | .reg dst v => m.withReg dst v
  | .pred dst v => m.withPred dst v
  | .frame k word => m.writeStack k word
  | .memory place word => m.writeMemory place word
  | .special special word => m.writeSpecial special word
  | .output word => m.put (.value word)
  | .call callee enabled =>
    let called := if enabled then m.put (.called callee) else m.withReg regs.returnInfo dirty
    { called with
      returnBase := UInt32.ofNat calleeBase + callee
      returnOffset := UInt32.ofNat called.steps }
  | .nothing => m

section

variable {update : Update}

theorem apply_eq (applies : m.apply regs update = .ok after) : after = m.applied regs update := by
  cases update with
  | reg dst v => exact (writeReg_eq_ok.mp applies).2
  | pred dst v => exact (writePred_eq_ok.mp applies).2
  | call callee enabled =>
    cases enabled with
    | true =>
      obtain ⟨called, isCalled, applies⟩ := bind_inv applies
      obtain rfl := pure_inv isCalled
      split at applies
      · exact (pure_inv applies).symm
      · cases applies
    | false =>
      obtain ⟨called, isCalled, applies⟩ := bind_inv applies
      obtain ⟨_, rfl⟩ := writeReg_eq_ok.mp isCalled
      split at applies
      · exact (pure_inv applies).symm
      · cases applies
  | _ => exact (Except.ok.inj applies).symm

theorem reg_applied {reg : GReg} (unwritten : ∀ v, update ≠ .reg reg v)
    (uncalled : reg = regs.returnInfo → ∀ callee enabled, update ≠ .call callee enabled) :
    (m.applied regs update).reg reg = m.reg reg := by
  cases update with
  | reg dst v =>
    have ne : reg ≠ dst := fun same => unwritten v (by rw [same])
    simp [applied, reg_withReg, ne]
  | pred dst v => simp [applied]
  | special name word => cases name <;> rfl
  | call callee enabled =>
    cases enabled with
    | true => rfl
    | false =>
      have ne : reg ≠ regs.returnInfo := fun same => uncalled same callee false rfl
      change (m.withReg regs.returnInfo dirty).reg reg = m.reg reg
      simp [reg_withReg, ne]
  | _ => rfl

theorem pred_applied {reg : PReg} (unwritten : ∀ v, update ≠ .pred reg v)
    (unbanked : reg = zero ∨ ∀ word, update ≠ .special .bank word) : (m.applied regs update).pred reg = m.pred reg := by
  cases update with
  | pred dst v =>
    have ne : reg ≠ dst := fun same => unwritten v (by rw [same])
    simp [applied, pred_withPred, ne]
  | reg dst v => simp [applied]
  | special name word =>
    cases name with
    | bank =>
      obtain rfl := unbanked.resolve_right fun never => never word rfl
      simp [applied, writeSpecial, pred_setBank, zero]
    | returnBase => rfl
    | returnOffset => rfl
  | call callee enabled =>
    cases enabled with
    | true => rfl
    | false => exact pred_withReg m regs.returnInfo reg dirty
  | _ => rfl

theorem pred_zero_applied : (m.applied regs update).pred zero = m.pred zero := by
  by_cases unwritten : ∀ v, update ≠ .pred zero v
  · exact pred_applied unwritten (.inl rfl)
  · obtain ⟨v, same⟩ : ∃ v, update = .pred zero v :=
      Classical.byContradiction fun none => unwritten fun v isWrite => none ⟨v, isWrite⟩
    rw [same, applied, pred_withPred, if_neg]
    rintro ⟨_, ne, _⟩
    exact ne rfl

theorem steps_applied : (m.applied regs update).steps = m.steps := by
  cases update with
  | reg dst v => simp [applied]
  | pred dst v => simp [applied]
  | special special word => cases special <;> rfl
  | call callee enabled => cases enabled <;> simp [applied, put]
  | _ => rfl

theorem readStack_applied (uncovered : ∀ word, update ≠ .frame k word) :
    (m.applied regs update).readStack k = m.readStack k := by
  cases update with
  | frame place word =>
    have ne : k ≠ place := fun same => uncovered word (by rw [same])
    rw [applied, readStack_writeStack, if_neg ne]
  | reg dst v => simp [applied]
  | pred dst v => simp [applied]
  | special name word => cases name <;> rfl
  | call callee enabled =>
    cases enabled with
    | true => rfl
    | false => exact readStack_withReg m regs.returnInfo dirty k
  | _ => rfl

end

variable {inst : Inst} {transfer : Transfer}

theorem cond_of_always (const : m.pred zero = true) (always : cond.isAlways = true) : m.cond cond = .ok true := by
  obtain ⟨isZero, positive⟩ : cond.reg = zero ∧ cond.negated = false := by
    simpa [Cond.isAlways] using always
  simp only [cond_eq_ok, holds, isZero, positive, const]
  decide

theorem enables_of_always (const : m.pred zero = true) (always : inst.guard.isAlways = true) :
    m.enables inst = true := by
  simp [enables, cond_of_always const always, Except.toOption]

theorem perform_of_always (const : m.pred zero = true) (always : inst.guard.isAlways = true) :
    m.perform regs inst = m.fetch.execute regs inst.op := by
  rw [perform_eq, cond_of_always const always]
  simp

theorem perform_of_disabled (const : m.pred zero = false) (always : inst.guard.isAlways = true)
    (notCall : inst.isCall = false) (notReturn : inst.isReturn = false) :
    m.perform regs inst = .ok (m.skip, .next) := by
  obtain ⟨isZero, positive⟩ : inst.guard.reg = zero ∧ inst.guard.negated = false := by
    simpa [Cond.isAlways] using always
  have disabled : m.cond inst.guard = .ok false := by
    simp only [cond_eq_ok, holds, isZero, positive, const]
    decide
  rw [perform_eq, disabled]
  simp only [liftM_ok, ok_bind, notCall, notReturn, Bool.or_self, Bool.false_eq_true, if_false]
  rfl

variable (ran : m.perform regs inst = .ok (after, transfer))

include ran

theorem perform_applied : after = m.skip ∨ ∃ update, update.Of inst.op ∧ after = m.fetch.applied regs update := by
  obtain ⟨_, effect⟩ := perform_eq_ok.mp ran
  split at effect
  · obtain ⟨update, decided, applies⟩ := effect
    exact .inr ⟨update, decide_of decided, apply_eq applies⟩
  · exact .inl effect.1

theorem perform_reg {reg : GReg} (unwritten : inst.op.regWrite ≠ some reg)
    (uncalled : reg = regs.returnInfo → inst.isCall = false) : after.reg reg = m.reg reg := by
  rcases perform_applied ran with rfl | ⟨update, kind, rfl⟩
  · rfl
  · refine reg_applied ?_ ?_
    · rintro v rfl
      exact unwritten kind
    · rintro same callee enabled rfl
      have notCall := uncalled same
      simp [Inst.isCall, show inst.op = .call callee from kind] at notCall

theorem perform_readStack (unstored : ∀ addr src, inst.op = .store addr src →
      addr ≠ .stack k ∧ ∀ c, addr = .frame c → c.offset ≠ .ok k) : after.readStack k = m.readStack k := by
  rcases perform_applied ran with rfl | ⟨update, kind, rfl⟩
  · rfl
  · refine readStack_applied ?_
    rintro word rfl
    obtain ⟨addr, src, isStore, place⟩ := kind
    obtain ⟨notRaw, notCell⟩ := unstored addr src isStore
    rcases place with isRaw | ⟨c, isCell, offsets⟩
    · exact notRaw isRaw
    · exact notCell c isCell offsets

theorem perform_steps : after.steps = m.steps + 1 := by
  rcases perform_applied ran with rfl | ⟨update, _, rfl⟩
  · rfl
  · exact steps_applied

theorem perform_pred_zero : after.pred zero = m.pred zero := by
  rcases perform_applied ran with rfl | ⟨update, _, rfl⟩
  · rfl
  · exact pred_zero_applied

end Machine

end SinglePath
