import SinglePath.Proofs.Machine.Moves
import SinglePath.Proofs.Plan.Provided
import SinglePath.Proofs.Straight.Carried

namespace SinglePath

open Bool Cond Inst List PReg

variable {first second : Machine} {regs : TargetRegs} {block : BlockId} {content : Block}

namespace Machine

/-- The machines differ at most in their counts, in one predicate register, in hidden words and in where they return
to. -/
structure EqualBut (temporary : PReg) (hidden : Int → Prop) (first second : Machine) : Prop where
  regs : ∀ r, first.reg r = second.reg r
  preds : ∀ r, r ≠ temporary → first.pred r = second.pred r
  stack : ∀ k, ¬ hidden k → first.readStack k = second.readStack k
  memory : first.memory = second.memory
  outputs : first.outputs = second.outputs

namespace EqualBut

variable {temporary : PReg} {hidden : Int → Prop} {third : Machine}

theorem refl (m : Machine) : EqualBut temporary hidden m m := ⟨fun _ => rfl, fun _ _ => rfl, fun _ _ => rfl, rfl, rfl⟩

theorem fetch (m : Machine) : EqualBut temporary hidden m.fetch m := { refl m with }

theorem skip (m : Machine) : EqualBut temporary hidden m.skip m := { refl m with }

theorem trans (one : EqualBut temporary hidden first second) (two : EqualBut temporary hidden second third) :
    EqualBut temporary hidden first third where
  regs r := (one.regs r).trans (two.regs r)
  preds r ne := (one.preds r ne).trans (two.preds r ne)
  stack k shown := (one.stack k shown).trans (two.stack k shown)
  memory := one.memory.trans two.memory
  outputs := one.outputs.trans two.outputs

theorem withPred (m : Machine) (v : Bool) : EqualBut temporary hidden (m.withPred temporary v) m := by
  refine ⟨fun _ => by simp, fun r ne => by simp [pred_withPred, ne], fun _ _ => by simp, ?_, ?_⟩ <;>
    · unfold Machine.withPred
      split <;> rfl

theorem of_agrees {stale : Bool} {v : Bool} (agrees : Agrees hidden stale (first.withPred temporary v) second) :
    EqualBut temporary hidden first second := by
  have same : EqualBut temporary hidden (first.withPred temporary v) first := .withPred first v
  exact {
    regs := fun r => (same.regs r).symm.trans (by simp only [Machine.reg, agrees.gregs])
    preds := fun r ne => (same.preds r ne).symm.trans (by simp only [pred, agrees.pregs])
    stack := fun k shown => (same.stack k shown).symm.trans (agrees.stack k shown)
    memory := same.memory.symm.trans agrees.memory
    outputs := same.outputs.symm.trans agrees.outputs }

end EqualBut

end Machine

namespace Predication

open Machine

variable {mode : Predication} {m o : Machine} {inst : Inst} {k : Int} {callee : UInt32} {c : CellId}
  {code insts rest : List Inst}

/-- The word of the call cell, in which return information is kept during a call. -/
def Hides (mode : Predication) (k : Int) : Prop :=
  ∃ c, mode.callCell = some c ∧ c.offset = .ok k

/-- The guard and the temporary register are two registers of the machine, and a callee finds its guard in the
latter. -/
structure Usable (mode : Predication) (regs : TargetRegs) : Prop where
  apart : mode.guard ≠ mode.temporary
  notConstant : mode.guard ≠ PReg.zero
  notZero : mode.temporary ≠ PReg.zero
  guardInside : mode.guard.index < 8
  inside : mode.temporary.index < 8
  given : callGuard regs = .ok mode.temporary
  returns : mode.returnInfo = regs.returnInfo
  returnsInside : regs.returnInfo.index < 32

/-- The instruction can be predicated: it is straight-line code outside the frame setup that moves no special register,
mentions neither of the two predicate registers and does not load the call cell. A call has no guard of its own. -/
structure Admits (mode : Predication) (inst : Inst) : Prop where
  notTerminator : inst.isTerminator = false
  notSetup : inst.frameSetup = false
  notFrom : inst.fromSpecial? = none
  notTo : inst.toSpecial? = none
  unguarded : inst.mentionsPred mode.guard = false
  unmentioned : inst.mentionsPred mode.temporary = false
  visible : ∀ dst addr, inst.op = .load dst addr → addr.Visible mode.Hides
  /-- Stack control is not predicated, so its own guard has to be there. -/
  controlled : inst.isStackControl = true → inst.guard.reg.index < 8
  called : ∀ callee, inst.op = .call callee → inst.guard.isAlways = true ∧ calleeBase + callee.toNat < 0x100000000

/-- Predicated code follows the code that it is made from: it does so on a machine on which the temporary register
holds, and its guard holds. -/
structure Follows (mode : Predication) (m o : Machine) : Prop where
  agrees : Agrees mode.Hides true (m.withPred mode.temporary true) o
  constant : m.pred PReg.zero = true
  enabled : m.pred mode.guard = true

/-- The code does nothing if the guard fails, and what the instructions do if it holds. -/
structure Predicates (mode : Predication) (regs : TargetRegs) (code insts : List Inst) : Prop where
  disabled : ∀ m : Machine, m.pred PReg.zero = true → m.pred mode.guard = false →
    ∃ after, m.afterAll regs code = .ok after ∧ after.EqualBut mode.temporary mode.Hides m
  followed : ∀ m o : Machine, mode.Follows m o →
    Same mode.Follows (m.afterAll regs code) (o.afterAll regs insts)

/-- What the code does to every machine whose constant is there. If the guard fails, the code ends well and changes
nothing but the temporary register, the call cell and where the machine returns to. If the guard holds, the code ends as
the instructions do when the caller has enabled them, apart from the temporary register, the call cell and the return
offset. -/
structure Exact (mode : Predication) (regs : TargetRegs) (code insts : List Inst) : Prop where
  disabled : ∀ m : Machine, m.pred PReg.zero = true → m.pred mode.guard = false →
    ∃ after, m.afterAll regs code = .ok after ∧ after.EqualBut mode.temporary mode.Hides m
  enabled : ∀ m : Machine, m.pred PReg.zero = true → m.pred mode.guard = true →
    Same (fun after o => after.EqualBut mode.temporary mode.Hides o ∧
      after.returnBase = o.returnBase)
      (m.afterAll regs code) ((m.withPred mode.temporary true).afterAll regs insts)

theorem Predicates.exact (predicates : mode.Predicates regs code insts) : mode.Exact regs code insts where
  disabled := predicates.disabled
  enabled m const holds := by
    refine (predicates.followed m _ ⟨.refl _, const, holds⟩).mono fun after o follows => ?_
    have sameBase : (after.withPred mode.temporary true).returnBase = after.returnBase := by
      unfold withPred
      split <;> rfl
    exact ⟨.of_agrees follows.agrees, sameBase.symm.trans follows.agrees.returnBase⟩

theorem Predicates.nil : mode.Predicates regs [] [] where
  disabled m _ _ := ⟨m, rfl, .refl m⟩
  followed _ _ follows := .ok follows

/-- Predicated code composes. -/
theorem Predicates.append (usable : mode.Usable regs) {later : List Inst}
    (first : mode.Predicates regs code insts) (second : mode.Predicates regs later rest) :
    mode.Predicates regs (code ++ later) (insts ++ rest) where
  disabled m const fails := by
    obtain ⟨middle, ran, equal⟩ := first.disabled m const fails
    obtain ⟨after, ranOn, equalToo⟩ := second.disabled middle
      (by rw [equal.preds _ usable.notZero.symm, const]) (by rw [equal.preds _ usable.apart, fails])
    exact ⟨after, by rw [afterAll_append, ran, ok_bind, ranOn], equalToo.trans equal⟩
  followed m o follows := by
    rw [afterAll_append, afterAll_append]
    exact (first.followed m o follows).bind second.followed

/-- The machine before a call: the temporary register holds what the guard does, and the register of the return
information is saved in the call cell. -/
def prepared (mode : Predication) (regs : TargetRegs) (k : Int) (m : Machine) : Machine :=
  (m.fetch.withPred mode.temporary (m.pred mode.guard)).fetch.writeStack k
    (m.reg regs.returnInfo)

/-- The prepared machine after the call. -/
def called (mode : Predication) (regs : TargetRegs) (k : Int) (callee : UInt32) (m : Machine) : Machine :=
  (mode.prepared regs k m).fetch.applied regs (.call callee (m.pred mode.guard))

section

variable {o : Int} {r : PReg}

theorem readStack_prepared : (mode.prepared regs k m).readStack o =
    if o = k then m.reg regs.returnInfo else m.readStack o := by
  rw [prepared, readStack_writeStack]
  split
  · rfl
  · exact readStack_withPred ..

theorem pred_prepared (ne : r ≠ mode.temporary) : (mode.prepared regs k m).pred r = m.pred r := by
  change (m.fetch.withPred _ _).pred r = _
  rw [pred_withPred, if_neg fun same => ne same.1]
  rfl

theorem pred_temporary_prepared (usable : mode.Usable regs) :
    (mode.prepared regs k m).pred mode.temporary = m.pred mode.guard := by
  change (m.fetch.withPred _ _).pred mode.temporary = _
  rw [pred_withPred, if_pos ⟨rfl, usable.notZero, usable.inside⟩]

theorem pred_called : (mode.called regs k callee m).pred r = (mode.prepared regs k m).pred r :=
  pred_applied (by simp) (.inr (by simp))

theorem readStack_called : (mode.called regs k callee m).readStack o = (mode.prepared regs k m).readStack o :=
  readStack_applied (by simp)

theorem reg_called (enabled : m.pred mode.guard = true) (greg : GReg) :
    (mode.called regs k callee m).reg greg = m.reg greg := by
  rw [called, enabled]
  exact reg_withPred m.fetch greg ..

end

/-- A machine still follows another one after any write of the temporary register. -/
theorem Follows.withTemporary (usable : mode.Usable regs) (follows : mode.Follows m o) (v : Bool) :
    mode.Follows (m.fetch.withPred mode.temporary v) o where
  agrees := by
    rw [withPred_withPred, fetch_withPred]
    exact { follows.agrees with }
  constant := by
    rw [pred_withPred, if_neg fun same => usable.notZero same.1.symm]
    exact follows.constant
  enabled := by
    rw [pred_withPred, if_neg fun same => usable.apart same.1]
    exact follows.enabled

theorem prepared_equalBut (isCell : mode.callCell = some c) (placed : c.offset = .ok k) (m : Machine) :
    (mode.prepared regs k m).EqualBut mode.temporary mode.Hides m :=
  have moved : (m.fetch.withPred mode.temporary (m.pred mode.guard)).EqualBut
      mode.temporary mode.Hides m := (EqualBut.withPred _ _).trans (.fetch m)
  { moved with
    stack := fun place shown =>
      readStack_prepared.trans (if_neg fun same => shown ⟨c, isCell, by rw [placed, same]⟩) }

namespace Admits

variable (admits : mode.Admits inst)

include admits

theorem notReturn : inst.isReturn = false := (or_eq_false_iff.mp admits.notTerminator).2

/-- An instruction leaves the machines related on which it does the same. -/
theorem follows {after next : Machine} (follows : mode.Follows m o) (ran : m.after regs inst = .ok after)
    (agrees : Agrees mode.Hides true (after.withPred mode.temporary true) next) : mode.Follows after next where
  agrees := agrees
  constant := (after_constant ran).trans follows.constant
  enabled := (after_pred ran (or_eq_false_iff.mp admits.unguarded).2 admits.notTo).trans follows.enabled

/-- Machines that agree do the same at an admitted instruction. -/
theorem agrees (agrees : Agrees mode.Hides true first second) (const : first.pred zero = true) :
    Same (Agrees mode.Hides true) (first.after regs inst) (second.after regs inst) := by
  have notReturn := admits.notReturn
  have notFrom := admits.notFrom
  have notTo := admits.notTo
  have fresh : ¬ ReadsStale true inst first := by
    rintro ⟨_, reads, _⟩
    unfold readsOffset at reads
    split at reads <;> simp_all [fromSpecial?, isReturn]
  have stale : first.staleAfter inst true = true := by
    have unset : inst.setsOffset = false := by
      unfold setsOffset
      split <;> simp_all [toSpecial?]
    simp [staleAfter, unset]
  refine (agrees.perform (fun _ => const) admits.visible fresh).bind ?_
  rintro ⟨after, transfer⟩ ⟨next, _⟩ ⟨_, agreed⟩
  exact .ok (stale ▸ agreed.mono fun _ isHidden => isHidden.1)

variable (usable : mode.Usable regs)

include usable

theorem guard_withPred (m : Machine) (v : Bool) :
    (m.withPred mode.temporary v).cond inst.guard = m.cond inst.guard := by
  refine cond_withPred fun same => ?_
  have unmentioned := admits.unmentioned
  simp [mentionsPred, readsPred, isAlways, same, usable.notZero] at unmentioned

section

variable (notCall : inst.isCall = false)

include notCall

/-- An instruction that is not a call does the same for a machine and for one that it follows. -/
theorem after (follows : mode.Follows m o) : Same mode.Follows (m.after regs inst) (o.after regs inst) := by
  have const : (m.withPred mode.temporary true).pred zero = true := by
    rw [pred_withPred, if_neg fun same => usable.notZero same.1.symm, follows.constant]
  have same : Same _ (_ : RunOutcome Machine) (o.after regs inst) := admits.agrees follows.agrees const
  rw [after_withPred admits.unmentioned usable.notZero notCall admits.notReturn admits.notFrom admits.notTo] at same
  generalize o.after regs inst = res at same
  cases ran : m.after regs inst with
  | error cause =>
    rw [ran] at same
    cases same
    exact .error _
  | ok after =>
    rw [ran] at same
    cases same with
    | ok agrees => exact .ok (admits.follows follows ran agrees)

theorem predicates_control (isControl : inst.isStackControl = true) : mode.Predicates regs [inst] [inst] where
  disabled m const fails := by
    rw [afterAll_singleton]
    have known : m.cond inst.guard = .ok (m.holds inst.guard) := cond_eq (admits.controlled isControl)
    cases holds : m.holds inst.guard with
    | false =>
      rw [holds] at known
      exact ⟨_, after_of_fails known notCall admits.notReturn, .skip m⟩
    | true =>
      rw [holds] at known
      refine ⟨m.fetch, ?_, .fetch m⟩
      rw [after_of_holds known]
      unfold isStackControl at isControl
      split at isControl <;> simp_all [execute] <;> rfl
  followed m o follows := by
    rw [afterAll_singleton, afterAll_singleton]
    exact admits.after usable notCall follows

theorem predicates_unguarded (always : inst.guard.isAlways = true) :
    mode.Predicates regs [inst.withGuard (.holds mode.guard)] [inst] where
  disabled m const fails := by
    rw [afterAll_singleton]
    refine ⟨_, after_of_fails ?_ notCall admits.notReturn, .skip m⟩
    rw [withGuard, cond_eq usable.guardInside, holds_holds, fails]
  followed m o follows := by
    rw [afterAll_singleton, afterAll_singleton, after_withGuard]
    · exact admits.after usable notCall follows
    · rw [cond_of_always follows.constant always, cond_eq usable.guardInside, holds_holds, follows.enabled]

theorem predicates_guarded : mode.Predicates regs [.andPreds mode.temporary (.holds mode.guard) inst.guard,
      inst.withGuard (.holds mode.temporary)] [inst] where
  disabled m const fails := by
    have stays : (m.fetch.withPred mode.temporary false).cond (.holds mode.temporary) = .ok false := by
      rw [cond_eq usable.inside, holds_holds, pred_withPred, if_pos ⟨rfl, usable.notZero, usable.inside⟩]
    have ran : m.after regs (.andPreds mode.temporary (.holds mode.guard) inst.guard) =
        .ok (m.fetch.withPred mode.temporary false) := by
      rw [after_andPreds const usable.inside usable.guardInside, holds_holds, fails]
      rfl
    refine ⟨(m.fetch.withPred mode.temporary false).skip, ?_,
      (EqualBut.skip _).trans ((EqualBut.withPred _ _).trans (.fetch m))⟩
    rw [afterAll, ran, ok_bind, afterAll_singleton]
    exact after_of_fails stays notCall admits.notReturn
  followed m o follows := by
    have sameGuard : o.cond inst.guard = m.cond inst.guard := by
      rw [← follows.agrees.cond, admits.guard_withPred usable]
    rw [afterAll, after_andPreds follows.constant usable.inside usable.guardInside,
      holds_holds, follows.enabled, if_pos rfl, afterAll_singleton]
    cases known : m.cond inst.guard with
    | error fault =>
      rw [known] at sameGuard
      rw [Machine.after, perform_eq, sameGuard]
      exact .error _
    | ok v =>
      have next := follows.withTemporary usable v
      rw [liftM_ok, ok_bind, ok_bind, afterAll_singleton, after_withGuard]
      · exact admits.after usable notCall next
      · rw [admits.guard_withPred usable, cond_eq usable.inside, holds_holds, pred_withPred,
          if_pos ⟨rfl, usable.notZero, usable.inside⟩]
        exact known.symm

/-- The code for a guarded instruction predicates it. -/
theorem predicates_guardCode : mode.Predicates regs (mode.guardCode inst) [inst] := by
  unfold guardCode
  split
  · rename_i exempt
    refine admits.predicates_control usable notCall ?_
    simpa [usable.notConstant, isPredicable, notCall, admits.notReturn] using exempt
  · split
    · rename_i always
      exact admits.predicates_unguarded usable notCall always
    · rename_i guarded
      split
      · rename_i same
        have unguarded := admits.unguarded
        simp only [sameValue, Cond.holds, and_eq_true, beq_iff_eq] at same
        simp [mentionsPred, readsPred, guarded, same.1] at unguarded
      · exact admits.predicates_guarded usable notCall

end

section

variable (isCall : inst.op = .call callee) (placed : c.offset = .ok k)

include isCall placed

/-- What the code of a call does: the call runs on the prepared machine, and the register of the return information is
restored after it. -/
theorem afterAll_callCode (const : m.pred zero = true) :
    (mode.prepared regs k m).after regs inst = .ok (mode.called regs k callee m) ∧
      m.afterAll regs (mode.callCode c inst) =
        .ok ((mode.called regs k callee m).fetch.withReg regs.returnInfo (m.reg regs.returnInfo)) := by
  obtain ⟨always, small⟩ := admits.called callee isCall
  have constantToo : (mode.prepared regs k m).pred zero = true := by
    rw [pred_prepared usable.notZero.symm, const]
  have ran : (mode.prepared regs k m).after regs inst = .ok (mode.called regs k callee m) := by
    rw [after_call constantToo isCall always usable.given usable.inside usable.returnsInside small,
      pred_temporary_prepared usable]
    rfl
  refine ⟨ran, ?_⟩
  have movedConstant : (m.fetch.withPred mode.temporary (m.pred mode.guard)).pred zero = true := constantToo
  have word : (mode.called regs k callee m).readStack k = m.reg regs.returnInfo := by
    rw [readStack_called, readStack_prepared, if_pos rfl]
  have guardKnown : (holds mode.guard).reg.index < 8 := usable.guardInside
  simp only [callCode, usable.returns, afterAll]
  rw [after_movePred const usable.inside guardKnown, holds_holds, ok_bind,
    after_storeCell movedConstant placed usable.returnsInside, ok_bind, reg_withPred]
  change (mode.prepared regs k m).after regs inst >>= _ = _
  rw [ran, ok_bind, after_loadCell ((after_constant ran).trans constantToo) placed usable.returnsInside, word]
  rfl

variable (isCell : mode.callCell = some c)

include isCell

/-- A call under a guard that fails does nothing. -/
theorem disabled_call (const : m.pred zero = true) (fails : m.pred mode.guard = false) :
    ∃ after, m.afterAll regs (mode.callCode c inst) = .ok after ∧
      after.EqualBut mode.temporary mode.Hides m := by
  have called : mode.called regs k callee m =
      (mode.prepared regs k m).fetch.applied regs (.call callee false) := by rw [Predication.called, fails]
  have same : (mode.prepared regs k m).EqualBut mode.temporary mode.Hides m := prepared_equalBut isCell placed m
  refine ⟨_, (admits.afterAll_callCode usable isCall placed const).2, ?_, fun r ne => ?_, fun place shown => ?_,
    ?_, ?_⟩
  · -- the disabled callee writes the register of the return information, and the code writes it back
    intro r
    rw [reg_withReg]
    split
    · rename_i isReturn
      rw [isReturn.1]
    · rename_i others
      rw [called]
      change ((mode.prepared regs k m).fetch.withReg regs.returnInfo dirty).reg r = _
      rw [reg_withReg, if_neg others]
      exact same.regs r
  · rw [pred_withReg]
    exact pred_called.trans (same.preds r ne)
  · rw [readStack_withReg]
    exact readStack_called.trans (same.stack place shown)
  · rw [memory_withReg, called]
    exact (memory_withReg ..).trans same.memory
  · rw [outputs_withReg, called]
    exact (outputs_withReg ..).trans same.outputs

/-- A call under a guard that holds is made. -/
theorem followed_call (follows : mode.Follows m o) :
    Same mode.Follows (m.afterAll regs (mode.callCode c inst)) (o.after regs inst) := by
  obtain ⟨ran, isCode⟩ := admits.afterAll_callCode usable isCall placed follows.constant
  have holds : (mode.prepared regs k m).pred mode.temporary = true := by
    rw [pred_temporary_prepared usable, follows.enabled]
  have agrees : Agrees mode.Hides true (mode.prepared regs k m) o := by
    rw [prepared, follows.enabled, fetch_withPred]
    refine { follows.agrees with stack := fun place shown => ?_ }
    rw [readStack_writeStack, if_neg fun same => shown ⟨c, isCell, by rw [placed, same]⟩]
    exact follows.agrees.stack place shown
  have same : Same (Agrees mode.Hides true) _ (o.after regs inst) := admits.agrees agrees
    (by rw [pred_prepared usable.notZero.symm, follows.constant])
  have unchanged : m.reg regs.returnInfo = (mode.called regs k callee m).fetch.reg regs.returnInfo :=
    (reg_called follows.enabled _).symm
  rw [isCode, unchanged, withReg_self]
  rw [ran] at same
  generalize o.after regs inst = res at same
  cases same with
  | ok agreed =>
    refine .ok ⟨?_, ?_, ?_⟩
    · have self := withPred_self (mode.called regs k callee m).fetch mode.temporary
      rw [show (mode.called regs k callee m).fetch.pred mode.temporary = true from
        pred_called.trans holds] at self
      rw [self]
      exact { agreed with }
    · exact pred_called.trans ((pred_prepared usable.notZero.symm).trans follows.constant)
    · exact pred_called.trans ((pred_prepared usable.apart).trans follows.enabled)

end

/-- Every admitted instruction is predicated, if a call has a cell. -/
theorem predicates (block : BlockId) (saves : inst.isCall = true → ∃ c k, mode.callCell = some c ∧ c.offset = .ok k) :
    ∃ code, mode.instCode block inst = .ok code ∧ mode.Predicates regs code [inst] := by
  unfold instCode
  split
  · rename_i isCall
    obtain ⟨callee, isOp⟩ : ∃ callee, inst.op = .call callee := by
      unfold Inst.isCall at isCall
      split at isCall
      · exact ⟨_, by assumption⟩
      · cases isCall
    obtain ⟨c, k, isCell, placed⟩ := saves isCall
    rw [(admits.called callee isOp).1, isCell]
    refine ⟨_, rfl, fun m const fails => ?_, fun m o follows => ?_⟩
    · exact admits.disabled_call usable isOp placed isCell const fails
    · rw [afterAll_singleton]
      exact admits.followed_call usable isOp placed isCell follows
  · rename_i notCall
    exact ⟨_, rfl, admits.predicates_guardCode usable (eq_false_iff.mpr notCall)⟩

end Admits

variable {returnInfo : NumberSet}

/-- The code of admitted instructions before the terminators, none of which carries return information. -/
theorem codeFrom_predicates (usable : mode.Usable regs) {i : Nat}
    (plain : ∀ place, returnInfo.contains place = false) (admitted : ∀ inst ∈ insts, mode.Admits inst)
    (saves : ∀ inst ∈ insts, inst.isCall = true → ∃ c k, mode.callCell = some c ∧ c.offset = .ok k)
    (early : i + insts.length = content.terminatorStart) :
    ∃ code, mode.codeFrom block content returnInfo i (insts ++ rest) = .ok (code ++ rest) ∧
      mode.Predicates regs code insts := by
  induction insts generalizing i with
  | nil => exact ⟨[], codeFrom_terminators (Nat.le_of_eq early.symm), .nil⟩
  | cons inst insts ih =>
    have admits := admitted inst (.head _)
    rw [length_cons] at early
    have next : i + 1 + insts.length = content.terminatorStart := by omega
    obtain ⟨code, emitted, predicated⟩ := ih (fun later listed => admitted later (.tail _ listed))
      (fun later listed => saves later (.tail _ listed)) next
    obtain ⟨head, isHead, predicatedHead⟩ := admits.predicates usable block (saves inst (.head _))
    have unchanged : inst.isStackControl = true → head = [inst] := by
      intro isControl
      have notCall : inst.isCall = false := by
        unfold isStackControl at isControl
        split at isControl <;> simp_all [isCall]
      rw [instCode, notCall, if_neg Bool.false_ne_true] at isHead
      rw [← Except.ok.inj isHead, guardCode, if_pos (by simp [isPredicable, isControl])]
    have isCode : mode.codeAt block content returnInfo i inst = .ok head := by
      unfold codeAt isExempt
      have within : ¬ content.terminatorStart ≤ i := by omega
      simp only [within, decide_false, admits.notReturn, admits.notSetup, plain, Bool.false_or, Bool.or_false]
      split
      · rename_i isControl
        rw [unchanged isControl]
      · exact isHead
    refine ⟨head ++ code, ?_, .append usable predicatedHead predicated⟩
    rw [cons_append, codeFrom, isCode, ok_bind, emitted, append_assoc]
    rfl

theorem isTerminator_of_mem_drop (listed : inst ∈ content.insts.drop content.terminatorStart) :
    inst.isTerminator = true := by
  have isCode : content.insts = (content.insts.reverse.dropWhile isTerminator).reverse ++
      (content.insts.reverse.takeWhile isTerminator).reverse := by
    rw [← reverse_append, takeWhile_append_dropWhile, reverse_reverse]
  have starts : content.terminatorStart = (content.insts.reverse.dropWhile isTerminator).reverse.length := by
    have total := congrArg length isCode
    simp only [length_append, length_reverse] at total ⊢
    unfold Block.terminatorStart
    omega
  have isDropped : content.insts.drop content.terminatorStart =
      (content.insts.reverse.takeWhile isTerminator).reverse := by
    conv_lhs => rw [isCode, starts]
    exact drop_left
  rw [isDropped] at listed
  exact all_eq_true.mp all_takeWhile inst (mem_reverse.mp listed)

/-- The code of a block whose instructions before the terminators are all admitted. -/
theorem blockCode_predicates (usable : mode.Usable regs)
    (admitted : ∀ inst ∈ content.insts.take content.terminatorStart, mode.Admits inst)
    (saves : ∀ inst ∈ content.insts.take content.terminatorStart, inst.isCall = true →
      ∃ c k, mode.callCell = some c ∧ c.offset = .ok k) :
    ∃ code, mode.blockCode block content = .ok (code ++ content.insts.drop content.terminatorStart) ∧
      mode.Predicates regs code (content.insts.take content.terminatorStart) := by
  have nowhere (inst : Inst) (listed : inst ∈ content.insts) (place : Nat) :
      returnInfoAt content.insts inst place = [] := by
    rw [← take_append_drop content.terminatorStart content.insts] at listed
    unfold returnInfoAt
    rcases mem_append.mp listed with isEarly | isLate
    · simp [(admitted inst isEarly).notSetup]
    · have ends := isTerminator_of_mem_drop isLate
      unfold isTerminator isBranch branchTarget isReturn at ends
      split
      · rfl
      · split <;> simp_all
  have plain (place : Nat) : (returnInfoPositions content.insts).contains place = false := by
    have none : (content.insts.zipIdx.flatMap fun e => returnInfoAt content.insts e.1 e.2) = [] :=
      flatMap_eq_nil_iff.mpr fun e listed => nowhere e.1 (fst_mem_of_mem_zipIdx listed) e.2
    rw [returnInfoPositions, none]
    rfl
  have length : 0 + (content.insts.take content.terminatorStart).length = content.terminatorStart := by
    rw [length_take, Block.terminatorStart]
    omega
  obtain ⟨code, emitted, predicated⟩ := codeFrom_predicates usable plain admitted saves length
  exact ⟨code, by rw [blockCode, ← emitted, take_append_drop], predicated⟩

end Predication

namespace Plan

variable {tree : ScopeTree} {func start : Func} {plan : Plan} {scope : ScopeId} {guard : PReg}

/-- The registers of a plan are different registers of the target. -/
theorem Made.usable {depths : List Nat} (made : plan.Made func start depths) (isGuard : guard ∈ plan.available)
    (given : Machine.callGuard plan.regs = .ok plan.temporary) (within : plan.temporary.index < 8)
    (returns : plan.regs.returnInfo.index < 32) : (plan.predication guard).Usable plan.regs := by
  have once : (plan.available ++ [plan.temporary]).Nodup := by
    rw [← made.free]
    refine Nodup.filter _ (Nodup.map (fun _ _ same => PReg.mk.inj same) nodup_range')
  have own : ∀ r ∈ plan.available ++ [plan.temporary], r ≠ zero := by
    rw [← made.free]
    intro r listed
    obtain ⟨index, inRange, rfl⟩ := mem_map.mp (mem_filter.mp listed).1
    have bounds := mem_range'_1.mp inRange
    simp [zero]
    omega
  have below := made.available_lt isGuard
  have last : plan.regs.predCount = plan.temporary.index + 1 := by
    unfold Machine.callGuard at given
    split at given
    · cases given
    · simp [← Except.ok.inj given, *]
  exact {
    apart := fun same => disjoint_of_nodup_append once isGuard (mem_singleton.mpr same)
    notConstant := own guard (mem_append_left _ isGuard)
    notZero := own plan.temporary (by simp)
    guardInside := by
      change guard.index < 8
      simp only [bankBit] at below
      omega
    inside := within
    given := given
    returns := rfl
    returnsInside := returns }

/-- Predication of a block is exact. -/
theorem blockCode_exact (made : Plan.make tree regs func = .ok (plan, start)) (found : func.block? block = some content)
    (isGuard : plan.blockGuard scope block = .ok guard) (allocatable : guard ≠ PReg.zero)
    (given : Machine.callGuard regs = .ok plan.temporary) (within : plan.temporary.index < 8)
    (returns : regs.returnInfo.index < 32)
    (placed : ∀ cell, plan.frame.callCell = some cell → ∃ offset, cell.offset = .ok offset)
    (admitted : ∀ inst ∈ content.insts.take content.terminatorStart, (plan.predication guard).Admits inst) :
    ∃ code, (plan.predication guard).blockCode block content = .ok (code ++
      content.insts.drop content.terminatorStart) ∧
      (plan.predication guard).Exact regs code (content.insts.take content.terminatorStart) := by
  obtain ⟨rfl, rfl, depths, isMade⟩ := make_ok made
  have usable := isMade.usable ((blockGuard_mem isGuard).resolve_left allocatable) given within returns
  have saves (inst : Inst) (listed : inst ∈ content.insts.take content.terminatorStart) (isCall : inst.isCall = true) :
      ∃ cell offset, plan.frame.callCell = some cell ∧ cell.offset = .ok offset := by
    have calls : func.hasCalls = true := List.any_eq_true.mpr ⟨content, List.mem_of_getElem? found,
      List.any_eq_true.mpr ⟨inst, List.mem_of_mem_take listed, isCall⟩⟩
    have isCell : plan.frame.callCell = some ⟨func.cells⟩ := by rw [isMade.laid.callCell, if_pos calls]
    obtain ⟨offset, isOffset⟩ := placed _ isCell
    exact ⟨_, offset, isCell, isOffset⟩
  obtain ⟨code, emitted, predicated⟩ := Predication.blockCode_predicates usable admitted saves
  exact ⟨code, emitted, predicated.exact⟩

theorem exists_of_any {ε α : Type} {comp : Except ε α} {told : α → Bool} (any : comp.toOption.any told = true) :
    ∃ v, comp = .ok v ∧ told v = true := by
  cases comp with
  | error cause => cases any
  | ok v => exact ⟨v, rfl, any⟩

/-- A block that runs only if a comparison fails. It has a call and an instruction with a guard of its own. -/
def helpingFunc : Func where
  name := "helping"
  blocks := [
    { name := "entry", succs := [⟨2⟩, ⟨1⟩],
      insts := [.plain (.compare .lt ⟨1⟩ ⟨3⟩ ⟨4⟩), (Inst.plain (.branch ⟨2⟩)).withGuard (.holds ⟨1⟩)] },
    { name := "help", succs := [⟨2⟩], preds := [⟨0⟩],
      insts := [.plain (.binaryImm .add ⟨3⟩ ⟨3⟩ 1), (Inst.plain (.copy ⟨4⟩ ⟨3⟩)).withGuard (.fails ⟨1⟩),
        .plain (.call 7), .plain (.branch ⟨2⟩)] },
    { name := "done", insts := [.plain (.ret ⟨4⟩)], preds := [⟨0⟩, ⟨1⟩] }]
  layout := [⟨0⟩, ⟨1⟩, ⟨2⟩]

def helpingTree : ScopeTree where
  scopes := [⟨none, 0, ⟨0⟩, [.block ⟨0⟩, .block ⟨1⟩, .block ⟨2⟩], [⟨⟨1⟩, ⟨0⟩, ⟨0⟩, ⟨1⟩, some (.fails ⟨1⟩)⟩], none⟩]
  blockPreds := ⟨[(⟨0⟩, ⟨0⟩), (⟨1⟩, ⟨1⟩), (⟨2⟩, ⟨0⟩)]⟩
  predCount := 2

theorem helpingFunc_blockCode_exact :
    ∃ plan start content code, Plan.make helpingTree {} helpingFunc = .ok (plan, start) ∧
      helpingFunc.block? ⟨1⟩ = some content ∧ plan.blockGuard ScopeTree.root ⟨1⟩ = .ok ⟨2⟩ ∧ plan.temporary = ⟨7⟩ ∧
      (plan.predication ⟨2⟩).blockCode ⟨1⟩ content = .ok (code ++ [.plain (.branch ⟨2⟩)]) ∧
      (plan.predication ⟨2⟩).Exact {} code (content.insts.take 3) := by
  have told : (Plan.make helpingTree {} helpingFunc).toOption.any (fun made => made.1.temporary = ⟨7⟩ ∧
      made.1.frame.callCell = some ⟨0⟩ ∧ (made.1.blockGuard ScopeTree.root ⟨1⟩).toOption.any (· = ⟨2⟩)) = true := by
    decide +kernel
  obtain ⟨⟨plan, start⟩, planned, isPlan⟩ := exists_of_any told
  obtain ⟨isTemporary, isCell, guarded⟩ := of_decide_eq_true isPlan
  obtain ⟨guard, isGuard, isTwo⟩ := exists_of_any guarded
  obtain rfl := of_decide_eq_true isTwo
  dsimp only at isTemporary isCell isGuard
  have admitted : ∀ inst ∈ [Inst.plain (.binaryImm .add ⟨3⟩ ⟨3⟩ 1), (Inst.plain (.copy ⟨4⟩ ⟨3⟩)).withGuard (.fails ⟨1⟩),
      .plain (.call 7)], (plan.predication ⟨2⟩).Admits inst := by
    rw [predication, isTemporary, isCell]
    simp only [List.forall_mem_cons]
    refine ⟨⟨rfl, rfl, rfl, rfl, rfl, rfl, nofun, nofun, nofun⟩, ⟨rfl, rfl, rfl, rfl, rfl, rfl, nofun, nofun, nofun⟩,
      ⟨rfl, rfl, rfl, rfl, rfl, rfl, nofun, nofun, ?_⟩, nofun⟩
    rintro callee isCall
    obtain rfl := Op.call.inj isCall
    decide
  have found : helpingFunc.block? ⟨1⟩ = some (helpingFunc.blocks.get ⟨1, by decide⟩) := rfl
  obtain ⟨code, emitted, isExact⟩ := blockCode_exact planned found isGuard (by decide) (by rw [isTemporary]; rfl)
    (by rw [isTemporary]; decide) (by decide)
      (fun cell found => ⟨0, by rw [← Option.some.inj (isCell.symm.trans found)]; rfl⟩)
    admitted
  exact ⟨plan, start, _, code, planned, found, isGuard, isTemporary, emitted, isExact⟩

end Plan

end SinglePath
