import SinglePath.Proofs.Machine.Views

namespace SinglePath

/-- A read of the address sees no hidden word of the frame. -/
def Addr.Visible (hidden : Int → Prop) : Addr → Prop
  | .frame c => ∀ k, c.offset = .ok k → ¬ hidden k
  | .stack k => ¬ hidden k
  | .memory _ _ => True

namespace Update

/-- The word of the frame gets a new value. -/
def Covers (k : Int) : Update → Prop
  | .frame place _ => place = k
  | _ => False

/-- Whether the return offset is that of a call after the update. -/
def staleAfter (stale : Bool) : Update → Bool
  | .call _ _ => true
  | .special .returnOffset _ => false
  | _ => stale

end Update

/-- The instruction gives the word of the frame a new value whatever the machine. -/
def Inst.Overwrites (inst : Inst) (k : Int) : Prop :=
  inst.guard.isAlways = true ∧ ∃ addr src, inst.op = .store addr src ∧
    (addr = .stack k ∨ ∃ c, addr = .frame c ∧ c.offset = .ok k)

namespace Machine

/-- The machines differ at most in their counts, in hidden words and in a stale return offset. -/
structure Agrees (hidden : Int → Prop) (stale : Bool) (first second : Machine) : Prop where
  gregs : first.gregs = second.gregs
  pregs : first.pregs = second.pregs
  returnBase : first.returnBase = second.returnBase
  returnOffset : stale = false → first.returnOffset = second.returnOffset
  stack : ∀ k, ¬ hidden k → first.readStack k = second.readStack k
  memory : first.memory = second.memory
  outputs : first.outputs = second.outputs

variable {hidden : Int → Prop} {stale : Bool} {first second m : Machine} {regs : TargetRegs} {inst : Inst}
  {update : Update} {transfer : Transfer}

namespace Agrees

theorem refl (m : Machine) : Agrees hidden stale m m where
  gregs := rfl
  pregs := rfl
  returnBase := rfl
  returnOffset _ := rfl
  stack _ _ := rfl
  memory := rfl
  outputs := rfl

variable (agrees : Agrees hidden stale first second)

include agrees

/-- Agreement with less hidden is stronger. -/
theorem mono {more : Int → Prop} (grows : ∀ k, hidden k → more k) : Agrees more stale first second :=
  { agrees with stack := fun k shown => agrees.stack k fun isHidden => shown (grows k isHidden) }

theorem printed : first.printed = second.printed := by
  simp only [Machine.printed, agrees.outputs]

theorem readReg (r : GReg) : first.readReg r = second.readReg r := by
  simp only [Machine.readReg, agrees.gregs]

theorem readPred (r : PReg) : first.readPred r = second.readPred r := by
  simp only [Machine.readPred, agrees.pregs]

theorem cond (cond : Cond) : first.cond cond = second.cond cond := by
  simp only [Machine.cond, agrees.readPred]

theorem address (base : GReg) (k : UInt32) : first.address base k = second.address base k := by
  simp only [Machine.address, agrees.readReg]

theorem load {addr : Addr} (visible : addr.Visible hidden) : first.load addr = second.load addr := by
  cases addr with
  | frame c =>
    simp only [Machine.load]
    cases placed : c.offset with
    | error fault => rfl
    | ok k => simp only [liftM_ok, ok_bind, agrees.stack k (visible k placed)]
  | stack k => simp only [Machine.load, agrees.stack k visible]
  | memory base k => simp only [Machine.load, agrees.address, agrees.memory]

theorem locate (word : UInt32) (addr : Addr) : first.locate word addr = second.locate word addr := by
  cases addr <;> simp only [Machine.locate, agrees.address]

theorem readSpecial {special : SpecialReg}
    (fresh : special = .returnOffset → stale = false) : first.readSpecial special = second.readSpecial special := by
  cases special with
  | bank => simp only [Machine.readSpecial, bank, agrees.pregs]
  | returnBase => exact agrees.returnBase
  | returnOffset => exact agrees.returnOffset (fresh rfl)

/-- What the operation decides on depends on nothing in which the machines differ. -/
theorem decide (visible : ∀ dst addr, inst.op = .load dst addr → addr.Visible hidden)
    (fresh : inst.readsOffset = true → stale = false) : first.decide regs inst.op = second.decide regs inst.op := by
  unfold Inst.readsOffset at fresh
  generalize inst.op = op at visible fresh
  cases op with
  | load dst addr => simp only [Machine.decide, agrees.load (visible dst addr rfl)]
  | store addr src => simp only [Machine.decide, agrees.readReg, agrees.locate]
  | fromSpecial dst special =>
    have readable : special = .returnOffset → stale = false := by
      rintro rfl
      exact fresh rfl
    simp only [Machine.decide, agrees.readSpecial readable]
  | ret r => simp only [Machine.decide, agrees.returnBase, agrees.returnOffset (fresh rfl), agrees.readReg]
  | _ => simp only [Machine.decide, agrees.readReg, agrees.readPred, agrees.cond]

theorem fetch : Agrees hidden stale first.fetch second.fetch := { agrees with }

theorem skip : Agrees hidden stale first.skip second.skip := { agrees with }

theorem writeReg (r : GReg) (v : UInt32) : Same (Agrees hidden stale) (first.writeReg r v) (second.writeReg r v) := by
  simp only [Machine.writeReg]
  split
  · exact .ok agrees
  · split
    · exact .ok { agrees with gregs := by simp only [agrees.gregs] }
    · exact .error _

theorem writePred (r : PReg) (v : Bool) : Same (Agrees hidden stale) (first.writePred r v) (second.writePred r v) := by
  simp only [Machine.writePred]
  split
  · exact .ok agrees
  · split
    · exact .ok { agrees with pregs := by simp only [agrees.pregs] }
    · exact .error _

theorem setBank (word : UInt32) : Agrees hidden stale (first.setBank word) (second.setBank word) :=
  { agrees with pregs := by simp only [Machine.setBank, agrees.pregs] }

/-- The same update leaves the machines in agreement, also on a word that it covers. -/
theorem apply (regs : TargetRegs) (update : Update) :
    Same (Agrees (fun k => hidden k ∧ ¬ update.Covers k) (update.staleAfter stale))
      (first.apply regs update) (second.apply regs update) := by
  have shown : ∀ {first second : Machine} {stale : Bool}, Agrees hidden stale first second →
      (∀ k, ¬ update.Covers k) →
      Agrees (fun k => hidden k ∧ ¬ update.Covers k) stale first second :=
    fun agreed nothing => agreed.mono fun k isHidden => ⟨isHidden, nothing k⟩
  cases update with
  | reg dst v => exact (agrees.writeReg dst v).mono fun _ _ agreed => shown agreed fun _ => id
  | pred dst v => exact (agrees.writePred dst v).mono fun _ _ agreed => shown agreed fun _ => id
  | frame place word =>
    refine .ok { agrees with stack := ?_ }
    intro k visible
    rw [readStack_writeStack, readStack_writeStack]
    split
    · rfl
    · rename_i ne
      exact agrees.stack k fun isHidden => visible ⟨isHidden, fun same => ne same.symm⟩
  | memory place word =>
    exact .ok (shown { agrees with memory := by simp only [writeMemory, agrees.memory] } fun _ => id)
  | special special word =>
    cases special with
    | bank => exact .ok (shown (agrees.setBank word) fun _ => id)
    | returnBase => exact .ok (shown { agrees with returnBase := rfl } fun _ => id)
    | returnOffset => exact .ok (shown { agrees with returnOffset := fun _ => rfl } fun _ => id)
  | output word =>
    exact .ok (shown { agrees with outputs := by simp only [put, agrees.outputs] } fun _ => id)
  | call callee enabled =>
    have left : ∀ {one two : Machine}, Agrees hidden stale one two →
        Same (Agrees (fun k => hidden k ∧ ¬ Update.Covers k (.call callee enabled)) true)
          (if calleeBase + callee.toNat < 0x100000000 then
            pure { one with returnBase := UInt32.ofNat calleeBase + callee, returnOffset := UInt32.ofNat one.steps }
          else (throw Fault.overflow : Except Fault Machine))
          (if calleeBase + callee.toNat < 0x100000000 then
            pure { two with returnBase := UInt32.ofNat calleeBase + callee, returnOffset := UInt32.ofNat two.steps }
          else (throw Fault.overflow : Except Fault Machine)) := by
      intro one two agreed
      split
      · exact .ok (shown { agreed with returnBase := rfl, returnOffset := Bool.noConfusion } fun _ => id)
      · exact .error _
    cases enabled with
    | false => exact (agrees.writeReg regs.returnInfo dirty).bind fun _ _ => left
    | true => exact left { agrees with outputs := by simp only [put, agrees.outputs] }
  | nothing => exact .ok (shown agrees fun _ => id)

end Agrees

theorem decide_staleAfter (decided : m.fetch.decide regs inst.op = .ok (update, transfer))
    (enabled : m.enables inst = true) : update.staleAfter stale = m.staleAfter inst stale := by
  have kind := decide_of decided
  simp only [staleAfter, enabled, Inst.isCall, Inst.setsOffset, Bool.and_true]
  generalize inst.op = op at kind
  cases update with
  | call callee enabled => simp only [Update.Of] at kind; simp [kind, Update.staleAfter]
  | special name word =>
    obtain ⟨src, rfl⟩ := kind
    cases name <;> simp [Update.staleAfter]
  | reg dst v => cases op <;> simp_all [Update.Of, Op.regWrite, Update.staleAfter]
  | pred dst v => cases op <;> simp_all [Update.Of, Op.predWrite, Update.staleAfter]
  | frame k word =>
    obtain ⟨addr, src, rfl, _⟩ := kind
    simp [Update.staleAfter]
  | memory place word =>
    obtain ⟨base, k, src, rfl⟩ := kind
    simp [Update.staleAfter]
  | output word =>
    obtain ⟨r, rfl⟩ := kind
    simp [Update.staleAfter]
  | nothing => rcases kind with ⟨words, rfl | rfl⟩ | ⟨t, rfl⟩ | ⟨r, rfl⟩ <;> simp [Update.staleAfter]

theorem decide_covers (decided : m.decide regs inst.op = .ok (update, transfer)) {k : Int}
    (overwrites : inst.Overwrites k) : update.Covers k := by
  obtain ⟨_, addr, src, isStore, place⟩ := overwrites
  rw [isStore] at decided
  obtain ⟨word, _, located, isLocated, decided⟩ := bind_bind_inv decided
  obtain ⟨rfl, _⟩ := Prod.mk.inj (pure_inv decided)
  rcases place with rfl | ⟨c, rfl, placed⟩
  · cases isLocated
    rfl
  · simp only [locate, placed, liftM_ok, ok_bind] at isLocated
    obtain rfl := pure_inv isLocated
    rfl

/-- Machines that agree do the same at the next instruction and agree again. If words are hidden, the constant has to be
there, for a store without a guard to overwrite one of them. -/
theorem Agrees.perform (agrees : Agrees hidden stale first second)
    (const : (∃ k, hidden k) → first.pred PReg.zero = true)
    (visible : ∀ dst addr, inst.op = .load dst addr → addr.Visible hidden) (fresh : ¬ ReadsStale stale inst first) :
    Same (fun one two => one.2 = two.2 ∧
        Agrees (fun k => hidden k ∧ ¬ inst.Overwrites k) (first.staleAfter inst stale) one.1 two.1)
      (first.perform regs inst) (second.perform regs inst) := by
  rw [perform_eq, perform_eq, ← agrees.cond]
  cases guarded : first.cond inst.guard with
  | error fault => exact .error _
  | ok enabled =>
    have enables : first.enables inst = (enabled || inst.isCall || inst.isReturn) := by
      simp [enables, guarded, Except.toOption]
    simp only [liftM_ok, ok_bind]
    rw [← enables]
    cases takesEffect : first.enables inst with
    | false =>
      have same : first.staleAfter inst stale = stale := by
        have notCall : inst.isCall = false := by simp_all
        simp [staleAfter, takesEffect, notCall]
      refine .ok ⟨rfl, ?_⟩
      rw [same]
      refine agrees.skip.mono fun k isHidden => ⟨isHidden, fun overwrites => ?_⟩
      simp [enables_of_always (const ⟨k, isHidden⟩) overwrites.1] at takesEffect
    | true =>
      have readable : inst.readsOffset = true → stale = false := by
        intro reads
        exact Bool.eq_false_iff.mpr fun isStale => fresh ⟨isStale, reads, takesEffect⟩
      have same : first.fetch.decide regs inst.op = second.fetch.decide regs inst.op :=
        agrees.fetch.decide visible readable
      rw [if_pos rfl, if_pos rfl, execute_eq, execute_eq, ← same]
      cases decided : first.fetch.decide regs inst.op with
      | error cause => exact .error _
      | ok decision =>
        refine (agrees.fetch.apply regs decision.1).lift.bind fun one two agreed => .ok ⟨rfl, ?_⟩
        rw [← decide_staleAfter decided takesEffect]
        exact agreed.mono fun k isHidden =>
          ⟨isHidden.1, fun overwrites => isHidden.2 (decide_covers decided overwrites)⟩

end Machine

end SinglePath
