import SinglePath.Machine.Run
import SinglePath.Proofs.Computation

namespace SinglePath

namespace Inst

/-- A return compares the return offset with that of the entry, so it reads it too. -/
def readsOffset (inst : Inst) : Bool :=
  match inst.op with
  | .fromSpecial _ .returnOffset => true
  | .ret _ => true
  | _ => false

def setsOffset (inst : Inst) : Bool :=
  match inst.op with
  | .toSpecial .returnOffset _ => true
  | _ => false

end Inst

/-- The change that one operation makes. -/
inductive Update where
  | reg (dst : GReg) (v : UInt32)
  | pred (dst : PReg) (v : Bool)
  /-- A word of the stack frame. -/
  | frame (k : Int) (word : UInt32)
  /-- A word of data memory. -/
  | memory (place : Fin 64) (word : UInt32)
  | special (name : SpecialReg) (word : UInt32)
  | output (word : UInt32)
  | call (callee : UInt32) (enabled : Bool)
  | nothing

/-- The kind of an update tells the kind of the operation that it comes from. -/
def Update.Of (op : Op) : Update → Prop
  | .reg dst _ => op.regWrite = some dst
  | .pred dst _ => op.predWrite = some dst
  | .frame k _ => ∃ addr src, op = .store addr src ∧
      (addr = .stack k ∨ ∃ c, addr = .frame c ∧ c.offset = .ok k)
  | .memory _ _ => ∃ base k src, op = .store (.memory base k) src
  | .special name _ => ∃ src, op = .toSpecial name src
  | .output _ => ∃ reg, op = .print reg
  | .call callee _ => op = .call callee
  | .nothing => (∃ words, op = .reserve words ∨ op = .free words) ∨ (∃ t, op = .branch t) ∨
      ∃ reg, op = .ret reg

namespace Machine

/-- The word that an address names, as a place to be changed. -/
def locate (m : Machine) (word : UInt32) : Addr → RunOutcome Update
  | .frame c => do return .frame (← c.offset) word
  | .stack k => .ok (.frame k word)
  | .memory base k => do return .memory (← m.address base k) word

/-- What an operation is going to change, and where control goes. -/
def decide (regs : TargetRegs) (m : Machine) : Op → RunOutcome (Update × Transfer)
  | .imm dst v => .ok (.reg dst v, .next)
  | .copy dst src => do return (.reg dst (← m.readReg src), .next)
  | .binary op dst lhs rhs => do return (.reg dst (op.eval (← m.readReg lhs) (← m.readReg rhs)), .next)
  | .binaryImm op dst lhs v => do return (.reg dst (op.eval (← m.readReg lhs) v), .next)
  | .compare op dst lhs rhs => do return (.pred dst (op.eval (← m.readReg lhs) (← m.readReg rhs)), .next)
  | .predAnd dst a b => do
      let left ← m.cond a
      let right ← if left then m.cond b else pure false
      return (.pred dst right, .next)
  | .predOr dst a b => do
      let left ← m.cond a
      let right ← if left then pure true else m.cond b
      return (.pred dst right, .next)
  | .predMove dst src => do return (.pred dst (← m.cond src), .next)
  | .predClear dst => .ok (.pred dst false, .next)
  | .testBit dst src bit => do
      let mask ← wordBit bit
      return (.pred dst ((← m.readReg src) &&& mask != 0), .next)
  | .copyBit dst src bit cond => do
      let mask ← wordBit bit
      let rest := (← m.readReg src) &&& ~~~ mask
      return (.reg dst (if ← m.cond cond then rest ||| mask else rest), .next)
  | .load dst addr => do return (.reg dst (← m.load addr), .next)
  | .store addr src => do return (← m.locate (← m.readReg src) addr, .next)
  | .fromSpecial dst special => .ok (.reg dst (m.readSpecial special), .next)
  | .toSpecial special src => do return (.special special (← m.readReg src), .next)
  | .print reg => do return (.output (← m.readReg reg), .next)
  | .call callee => do return (.call callee (← m.readPred (← callGuard regs)), .next)
  | .reserve _ => .ok (.nothing, .next)
  | .free _ => .ok (.nothing, .next)
  | .branch t => .ok (.nothing, .jump t)
  | .ret reg =>
    if m.returnBase ≠ entryBase ∨ m.returnOffset ≠ entryOffset then
      refuse .clobbered
    else do
      return (.nothing, .leave (← m.readReg reg))

/-- The machine after an update. -/
def apply (regs : TargetRegs) (m : Machine) : Update → Except Fault Machine
  | .reg dst v => m.writeReg dst v
  | .pred dst v => m.writePred dst v
  | .frame k word => .ok (m.writeStack k word)
  | .memory place word => .ok (m.writeMemory place word)
  | .special special word => .ok (m.writeSpecial special word)
  | .output word => .ok (m.put (.value word))
  | .call callee enabled => do
      let m ← if enabled then pure (m.put (.called callee)) else m.writeReg regs.returnInfo dirty
      if calleeBase + callee.toNat < 0x100000000 then
        return { m with
          returnBase := UInt32.ofNat calleeBase + callee
          returnOffset := UInt32.ofNat m.steps }
      else
        throw .overflow
  | .nothing => .ok m

theorem execute_eq (regs : TargetRegs) (m : Machine) (op : Op) :
    m.execute regs op = do
      let (update, transfer) ← m.decide regs op
      return (← m.apply regs update, transfer) := by
  cases op with
  | imm dst v => rfl
  | copy dst src => cases read : m.readReg src <;> simp only [execute, decide, read] <;> rfl
  | binary op dst lhs rhs =>
    cases left : m.readReg lhs <;> cases right : m.readReg rhs <;>
      simp only [execute, decide, left, right] <;> rfl
  | binaryImm op dst lhs v => cases left : m.readReg lhs <;> simp only [execute, decide, left] <;> rfl
  | compare op dst lhs rhs =>
    cases left : m.readReg lhs <;> cases right : m.readReg rhs <;>
      simp only [execute, decide, left, right] <;> rfl
  | predAnd dst a b =>
    rcases left : m.cond a with fault | _ | _ <;> cases right : m.cond b <;>
      simp only [execute, decide, left, right] <;> rfl
  | predOr dst a b =>
    rcases left : m.cond a with fault | _ | _ <;> cases right : m.cond b <;>
      simp only [execute, decide, left, right] <;> rfl
  | predMove dst src => cases read : m.cond src <;> simp only [execute, decide, read] <;> rfl
  | predClear dst => rfl
  | testBit dst src bit =>
    cases mask : wordBit bit <;> cases read : m.readReg src <;> simp only [execute, decide, mask, read] <;> rfl
  | copyBit dst src bit cond =>
    cases mask : wordBit bit <;> cases read : m.readReg src <;> cases holds : m.cond cond <;>
      simp only [execute, decide, mask, read, holds] <;> rfl
  | load dst addr => cases read : m.load addr <;> simp only [execute, decide, read] <;> rfl
  | store addr src =>
    cases addr with
    | frame c =>
      cases read : m.readReg src <;> cases placed : c.offset <;>
        simp only [execute, decide, store, locate, read, placed] <;> rfl
    | stack k => cases read : m.readReg src <;> simp only [execute, decide, store, locate, read] <;> rfl
    | memory base k =>
      cases read : m.readReg src <;> cases placed : m.address base k <;>
        simp only [execute, decide, store, locate, read, placed] <;> rfl
  | fromSpecial dst special => rfl
  | toSpecial special src => cases read : m.readReg src <;> simp only [execute, decide, read] <;> rfl
  | print reg => cases read : m.readReg reg <;> simp only [execute, decide, read] <;> rfl
  | call callee =>
    simp only [execute, decide, call]
    rcases callGuard regs with fault | guard
    · rfl
    · rcases read : m.readPred guard with fault | _ | _ <;> simp only [liftM_ok, ok_bind, read] <;> rfl
  | reserve words => rfl
  | free words => rfl
  | branch t => rfl
  | ret reg =>
    simp only [execute, decide]
    split
    · rfl
    · cases read : m.readReg reg <;> rfl

variable {regs : TargetRegs} {m after : Machine} {update : Update} {transfer : Transfer} {op : Op} {inst : Inst}

theorem decide_of (decided : m.decide regs op = .ok (update, transfer)) : update.Of op := by
  cases op with
  | store addr src =>
    obtain ⟨word, _, place, located, decided⟩ := bind_bind_inv decided
    obtain ⟨rfl, rfl⟩ := Prod.mk.inj (pure_inv decided)
    cases addr with
    | frame c =>
      obtain ⟨k, placed, rfl⟩ := bind_pure_inv located
      exact ⟨.frame c, src, rfl, .inr ⟨c, rfl, liftM_inv placed⟩⟩
    | stack k =>
      cases located
      exact ⟨.stack k, src, rfl, .inl rfl⟩
    | memory base k =>
      obtain ⟨i, _, rfl⟩ := bind_pure_inv located
      exact ⟨base, k, src, rfl⟩
  | ret reg =>
    simp only [decide] at decided
    split at decided
    · simp at decided
    · obtain ⟨v, _, decided⟩ := bind_inv decided
      obtain ⟨rfl, rfl⟩ := Prod.mk.inj (pure_inv decided)
      exact .inr (.inr ⟨reg, rfl⟩)
  | _ => grind [decide, bind_eq_ok, pure_eq_ok, Update.Of, Op.predWrite, Op.regWrite]

/-- Only a branch jumps and only a return leaves; anything else goes on to the next instruction. -/
theorem decide_transfer (decided : m.decide regs op = .ok (update, transfer)) :
    match op with
    | .branch t => transfer = .jump t
    | .ret reg => ∃ v, transfer = .leave v ∧ m.readReg reg = .ok v
    | _ => transfer = .next := by
  cases op with
  | ret reg =>
    simp only [decide] at decided
    split at decided
    · simp at decided
    · obtain ⟨v, read, decided⟩ := bind_inv decided
      obtain ⟨rfl, rfl⟩ := Prod.mk.inj (pure_inv decided)
      exact ⟨v, rfl, liftM_inv read⟩
  | _ => grind [decide, bind_eq_ok, pure_eq_ok]

/-- One more instruction is fetched. -/
def fetch (m : Machine) : Machine := { m with steps := m.steps + 1 }

/-- One more instruction is fetched and does not take effect. -/
def skip (m : Machine) : Machine :=
  { m with steps := m.steps + 1, disabled := m.disabled + 1 }

/-- Fetch and execute one instruction. -/
def perform (regs : TargetRegs) (m : Machine) (inst : Inst) : RunOutcome (Machine × Transfer) :=
  m.fetch.executeGuarded regs inst

/-- The instruction takes effect: its guard holds, or it is a call or a return. -/
def enables (m : Machine) (inst : Inst) : Bool :=
  (m.cond inst.guard).toOption.getD false || inst.isCall || inst.isReturn

/-- Whether the return offset is that of a call after the instruction, given whether it is before. -/
def staleAfter (m : Machine) (inst : Inst) (stale : Bool) : Bool :=
  inst.isCall || stale && !(inst.setsOffset && m.enables inst)

/-- The instruction would read a return offset that a call has left. -/
def ReadsStale (stale : Bool) (inst : Inst) (m : Machine) : Prop :=
  stale = true ∧ inst.readsOffset = true ∧ m.enables inst = true

theorem perform_eq (regs : TargetRegs) (m : Machine) (inst : Inst) :
    m.perform regs inst = do
      let enabled ← m.cond inst.guard
      if enabled || inst.isCall || inst.isReturn then
        m.fetch.execute regs inst.op
      else
        return (m.skip, .next) :=
  rfl

/-- What a step does if it ends well: nothing but counting, or the update that its operation decides on. -/
theorem perform_eq_ok : m.perform regs inst = .ok (after, transfer) ↔ (∃ enabled, m.cond inst.guard = .ok enabled) ∧
        if m.enables inst then
          ∃ update, m.fetch.decide regs inst.op = .ok (update, transfer) ∧ m.fetch.apply regs update = .ok after
        else
          after = m.skip ∧ transfer = .next := by
  rw [perform_eq]
  cases guarded : m.cond inst.guard with
  | error fault => simp
  | ok enabled =>
    have enables : m.enables inst = (enabled || inst.isCall || inst.isReturn) := by
      simp [enables, guarded, Except.toOption]
    simp only [liftM_ok, ok_bind, enables]
    split
    · rw [execute_eq]
      simp only [bind_eq_ok, pure_eq_ok, liftM_eq_ok, Prod.exists, Prod.mk.injEq]
      constructor
      · rintro ⟨update, decision, decided, res, applied, rfl, rfl⟩
        exact ⟨⟨enabled, rfl⟩, update, decided, applied⟩
      · rintro ⟨_, update, decided, applied⟩
        exact ⟨update, transfer, decided, after, applied, rfl, rfl⟩
    · rw [pure_eq_ok, Prod.mk.injEq]
      constructor
      · rintro ⟨rfl, rfl⟩
        exact ⟨⟨enabled, rfl⟩, rfl, rfl⟩
      · rintro ⟨_, rfl, rfl⟩
        exact ⟨rfl, rfl⟩

theorem perform_jump {t : BlockId} (ran : m.perform regs inst = .ok (after, .jump t)) : inst.branchTarget = some t := by
  obtain ⟨_, effect⟩ := perform_eq_ok.mp ran
  split at effect
  · obtain ⟨update, decided, _⟩ := effect
    have transfer := decide_transfer decided
    unfold Inst.branchTarget
    split at transfer <;> simp_all
  · exact nomatch effect.2

end Machine

end SinglePath
