import SinglePath.Chain
import SinglePath.Definition
import SinglePath.Predication
import SinglePath.Proofs.Computation
import SinglePath.Proofs.Tables

namespace SinglePath

open FrameLayout List

namespace Plan

variable {plan : Plan} {r : PReg} {s : ScopeId} {b : BlockId} {pred : PredId} {c : CellId}
  {depth location : Nat} {code : List Inst} {alloc : ScopeAllocation}

/-- A predicate register that the function leaves to the plan, or the constant. -/
def OwnPred (plan : Plan) (r : PReg) : Prop := r = PReg.zero ∨ r = plan.temporary ∨ r ∈ plan.available

/-- A general register that the plan loads and stores. -/
def OwnReg (plan : Plan) (r : GReg) : Prop := r = plan.guards ∨ r = plan.regs.returnInfo

/-- The operation moves values between registers and frame cells of the plan. -/
def OwnOp (plan : Plan) : Op → Prop
  | .imm dst _ => dst = plan.guards
  | .binaryImm _ dst lhs _ => dst = plan.guards ∧ lhs = plan.guards
  | .compare _ dst lhs rhs => dst = plan.temporary ∧ lhs = plan.regs.zero ∧ rhs = plan.guards
  | .predAnd dst _ _ => plan.OwnPred dst
  | .predMove dst _ => plan.OwnPred dst
  | .predClear dst => plan.OwnPred dst
  | .testBit dst src _ => plan.OwnPred dst ∧ src = plan.guards
  | .copyBit dst src _ _ => dst = plan.guards ∧ src = plan.guards
  | .load dst (.frame c) => plan.OwnReg dst ∧ c ∈ plan.frame.cells
  | .store (.frame c) src => plan.OwnReg src ∧ c ∈ plan.frame.cells
  | .fromSpecial dst special => dst = plan.guards ∧ special = .bank
  | .toSpecial special src => special = .bank ∧ src = plan.guards
  | _ => False

/-- An instruction of the plan, whatever its guard. -/
def Own (plan : Plan) (inst : Inst) : Prop := inst.frameSetup = false ∧ plan.OwnOp inst.op

/-- Code that consists of instructions of the plan. -/
def OwnCode (plan : Plan) (code : List Inst) : Prop := ∀ inst ∈ code, plan.Own inst

section

variable {inst : Inst}

namespace OwnCode

theorem nil : plan.OwnCode [] := by simp [OwnCode]

@[simp] theorem cons_iff : plan.OwnCode (inst :: code) ↔ plan.Own inst ∧ plan.OwnCode code := by
  simp [OwnCode]

@[simp] theorem append_iff {first second : List Inst} :
    plan.OwnCode (first ++ second) ↔ plan.OwnCode first ∧ plan.OwnCode second := by
  simp [OwnCode, or_imp, forall_and]

variable {codes : List (List Inst)}

theorem flatten (each : ∀ code ∈ codes, plan.OwnCode code) : plan.OwnCode codes.flatten := by
  intro inst mem
  obtain ⟨code, isCode, inside⟩ := mem_flatten.mp mem
  exact each code isCode inst inside

/-- Code is the plan's own if all of its pieces are. -/
theorem of_mapM {α ε : Type} {emit : α → Except ε (List Inst)} {items : List α} (emitted : items.mapM emit = .ok codes)
    (each : ∀ x code, emit x = .ok code → plan.OwnCode code) : plan.OwnCode codes.flatten := by
  refine flatten fun code isCode => ?_
  obtain ⟨i, got⟩ := getElem?_of_mem isCode
  obtain ⟨x, _, comp⟩ := mapM_getElem? emitted got
  exact each x code comp

end OwnCode

namespace Own

theorem not_isCall (own : plan.Own inst) : inst.isCall = false := by
  obtain ⟨guard, setup, op⟩ := inst
  cases op with
  | call callee => exact own.2.elim
  | _ => rfl

theorem not_isTerminator (own : plan.Own inst) : inst.isTerminator = false := by
  obtain ⟨guard, setup, op⟩ := inst
  cases op with
  | branch t => exact own.2.elim
  | ret r => exact own.2.elim
  | _ => rfl

theorem not_isBranch (own : plan.Own inst) : inst.isBranch = false := (Bool.or_eq_false_iff.mp own.not_isTerminator).1

end Own

end

theorem guards_own : plan.OwnReg plan.guards := .inl rfl

theorem preg_own {index : Nat} (got : plan.preg index = .ok r) : r ∈ plan.available :=
  mem_of_getElem? (present_eq_ok.mp got)

theorem useReg_mem (got : plan.useReg s b pred = .ok r) : r = PReg.zero ∨ r ∈ plan.available := by
  obtain ⟨alloc, _, got⟩ := bind_inv got
  split at got
  · exact .inr (preg_own (liftM_inv got))
  · split at got
    · exact .inl (pure_inv got).symm
    · exact absurd got refuse_ne_ok

/-- The register that a use is assigned is the plan's own. -/
theorem useReg_own (got : plan.useReg s b pred = .ok r) : plan.OwnPred r := (useReg_mem got).imp_right .inr

theorem headerReg_own (got : plan.headerReg s = .ok r) : plan.OwnPred r := by
  obtain ⟨_, _, _, _, got⟩ := bind_bind_inv got
  exact useReg_own got

theorem blockGuard_mem (got : plan.blockGuard s b = .ok r) : r = PReg.zero ∨ r ∈ plan.available := by
  unfold blockGuard at got
  split at got
  · exact useReg_mem got
  · exact absurd got refuseTree_ne_ok

/-- The register that guards a block is the plan's own. -/
theorem blockGuard_own (got : plan.blockGuard s b = .ok r) : plan.OwnPred r := (blockGuard_mem got).imp_right .inr

theorem loadReg_own (got : plan.loadReg alloc b pred = .ok r) : plan.OwnPred r := by
  unfold loadReg at got
  split at got
  · exact .inr (.inr (preg_own (liftM_inv got)))
  · exact absurd got refuse_ne_ok

theorem stackBit_own {bit : Nat} (got : plan.frame.stackBit location = .ok (c, bit)) : c ∈ plan.frame.cells := by
  obtain ⟨word, isWord, res⟩ := bind_inv got
  obtain ⟨rfl, _⟩ := Prod.mk.inj (pure_inv res)
  have mem := mem_of_getElem? (present_eq_ok.mp isWord)
  simp [cells, mem]

theorem mem_of_atDepth {cells : List CellId} (got : atDepth cells depth = .ok c) : c ∈ cells := by
  cases depth with
  | zero => cases got
  | succ depth => exact mem_of_getElem? (present_eq_ok.mp got)

theorem bankCell_own (got : plan.frame.bankCell depth = .ok c) : c ∈ plan.frame.cells := by
  have mem := mem_of_atDepth got
  simp [cells, mem]

theorem counter_own (got : plan.frame.counter depth = .ok c) : c ∈ plan.frame.cells := by
  have mem := mem_of_atDepth got
  simp [cells, mem]

theorem callCell_own (got : plan.frame.callCell = some c) : c ∈ plan.frame.cells := by
  simp [cells, got]

variable {header : BlockId} {parent : ScopeId} {regs : List PReg} {body : Scope}

theorem loadCode_own (own : plan.OwnPred r) (emitted : plan.loadCode r location = .ok code) : plan.OwnCode code := by
  obtain ⟨⟨c, bit⟩, got, rfl⟩ := bind_pure_inv emitted
  exact OwnCode.cons_iff.mpr ⟨⟨rfl, guards_own, stackBit_own got⟩, OwnCode.cons_iff.mpr ⟨⟨rfl, own, rfl⟩, .nil⟩⟩

theorem change_own {change : Inst} (own : c ∈ plan.frame.cells) (changes : plan.Own change) :
    plan.OwnCode [.loadCell plan.guards c, change, .storeCell c plan.guards] := by
  simp only [OwnCode.cons_iff]
  exact ⟨⟨rfl, guards_own, own⟩, changes, ⟨rfl, guards_own, own⟩, .nil⟩

theorem spillCode_own (emitted : plan.spillCode r location = .ok code) : plan.OwnCode code := by
  obtain ⟨⟨c, bit⟩, got, rfl⟩ := bind_pure_inv emitted
  exact change_own (stackBit_own got) ⟨rfl, rfl, rfl⟩

theorem bitDefCode_own (own : c ∈ plan.frame.cells) (bit : Nat) (guard : PReg) (cond : Cond) :
    plan.OwnCode (plan.bitDefCode c bit guard cond) :=
  change_own own ⟨rfl, rfl, rfl⟩

theorem clearBitsCode_own (own : c ∈ plan.frame.cells) (mask : UInt32) : plan.OwnCode (plan.clearBitsCode c mask) :=
  change_own own ⟨rfl, rfl, rfl⟩

theorem saveCode_own (emitted : plan.saveCode alloc b pred r = .ok code) : plan.OwnCode code := by
  unfold saveCode at emitted
  split at emitted
  · exact spillCode_own emitted
  · cases emitted
    exact .nil

/-- The code for the uses of a block is the plan's own. -/
theorem useCode_own (emitted : plan.useCode alloc b = .ok code) : plan.OwnCode code := by
  obtain ⟨_, _, codes, mapped, rfl⟩ := bind_bind_pure_inv emitted
  refine OwnCode.of_mapM mapped ?_
  intro e code comp
  obtain ⟨r, isReg, spill, spilled, comp⟩ := bind_bind_inv comp
  obtain ⟨load, loaded, rfl⟩ := bind_pure_inv comp
  exact OwnCode.append_iff.mpr
    ⟨saveCode_own (liftM_inv spilled), loadCode_own (loadReg_own isReg) (liftM_inv loaded)⟩

theorem reloadCode_own (emitted : plan.reloadCode alloc header = .ok code) : plan.OwnCode code := by
  obtain ⟨codes, mapped, rfl⟩ := bind_pure_inv emitted
  refine OwnCode.of_mapM mapped ?_
  intro e code comp
  obtain ⟨r, isReg, loaded⟩ := bind_inv comp
  exact loadCode_own (loadReg_own isReg) (liftM_inv loaded)

theorem saveBankCode_own (emitted : plan.saveBankCode alloc depth = .ok code) : plan.OwnCode code := by
  unfold saveBankCode at emitted
  split at emitted
  · obtain ⟨c, got, rfl⟩ := bind_pure_inv emitted
    simp only [OwnCode.cons_iff]
    exact ⟨⟨rfl, rfl, rfl⟩, ⟨rfl, guards_own, bankCell_own got⟩, .nil⟩
  · obtain rfl := pure_inv emitted
    exact .nil

theorem enterPredCode_own (emitted : plan.enterPredCode parent s header pred = .ok code) : plan.OwnCode code := by
  obtain ⟨inner, isInner, alloc, _, emitted⟩ := bind_bind_inv emitted
  split at emitted
  · exact loadCode_own (headerReg_own isInner) (liftM_inv emitted)
  · obtain ⟨outer, _, rfl⟩ := bind_pure_inv emitted
    split
    · exact .nil
    · exact OwnCode.cons_iff.mpr ⟨⟨rfl, headerReg_own isInner⟩, .nil⟩

theorem exitRegs_own (got : plan.exitRegs parent header = .ok regs) : ∀ r ∈ regs, r ∈ plan.available := by
  obtain ⟨alloc, _, body, _, got⟩ := bind_bind_inv got
  refine foldlM_invariant (fun regs => ∀ r ∈ regs, r ∈ plan.available) got (by simp) ?_
  rintro regs ⟨defn, index⟩ next _ own res
  dsimp only at res
  split at res
  · obtain rfl := pure_inv res
    exact own
  · split at res
    · obtain ⟨r, isReg, rfl⟩ := bind_pure_inv res
      split
      · exact own
      · intro o mem
        obtain old | new := mem_append.mp mem
        · exact own o old
        · exact mem_singleton.mp new ▸ preg_own isReg
    · obtain rfl := pure_inv res
      exact own

theorem clearExitsCode_own (own : ∀ r ∈ regs, r ∈ plan.available)
    (emitted : plan.clearExitsCode alloc depth regs = .ok code) : plan.OwnCode code := by
  unfold clearExitsCode at emitted
  split at emitted
  · obtain rfl := pure_inv emitted
    exact .nil
  · split at emitted
    · obtain ⟨mask, _, c, got, rfl⟩ := bind_bind_pure_inv emitted
      exact clearBitsCode_own (bankCell_own got) _
    · obtain rfl := pure_inv emitted
      intro inst mem
      obtain ⟨r, isReg, rfl⟩ := mem_map.mp mem
      exact ⟨rfl, .inr (.inr (own r isReg))⟩

theorem setCounterCode_own (emitted : plan.setCounterCode body = .ok code) : plan.OwnCode code := by
  unfold setCounterCode at emitted
  split at emitted
  · obtain ⟨c, got, rfl⟩ := bind_pure_inv emitted
    simp only [OwnCode.cons_iff]
    exact ⟨⟨rfl, rfl⟩, ⟨rfl, guards_own, counter_own got⟩, .nil⟩
  · cases emitted
    exact .nil

/-- The code of a branch block is the plan's own but for the branch to the header. -/
theorem branchCode_eq (emitted : plan.branchCode s body = .ok code) :
    ∃ moves r, code = moves ++ [.branchIf (.holds r) body.header] ∧ plan.OwnCode moves := by
  unfold branchCode at emitted
  split at emitted
  · obtain ⟨c, got, rfl⟩ := bind_pure_inv emitted
    have own := counter_own (liftM_inv got)
    refine ⟨[.loadCell plan.guards c, .subImm plan.guards plan.guards 1,
      .less plan.temporary plan.regs.zero plan.guards, .storeCell c plan.guards], plan.temporary, rfl, ?_⟩
    simp only [OwnCode.cons_iff]
    exact ⟨⟨rfl, guards_own, own⟩, ⟨rfl, rfl, rfl⟩, ⟨rfl, rfl, rfl, rfl⟩, ⟨rfl, guards_own, own⟩, .nil⟩
  · obtain ⟨r, _, rfl⟩ := bind_pure_inv emitted
    exact ⟨[], r, rfl, .nil⟩

theorem restoreBank_own (own : c ∈ plan.frame.cells) (live : List PReg) : plan.OwnCode ([.loadCell plan.guards c] ++
      (live.map fun r => .copyBit .always plan.guards plan.guards r.bankBit (.holds r)) ++
      [.writeBank plan.guards]) := by
  simp only [OwnCode.append_iff, OwnCode.cons_iff]
  refine ⟨⟨⟨⟨rfl, guards_own, own⟩, .nil⟩, fun inst mem => ?_⟩, ⟨rfl, rfl, rfl⟩, .nil⟩
  obtain ⟨r, _, rfl⟩ := mem_map.mp mem
  exact ⟨rfl, rfl, rfl⟩

end Plan

end SinglePath
