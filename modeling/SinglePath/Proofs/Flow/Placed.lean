import SinglePath.Proofs.Flow.Endings
import SinglePath.Proofs.Func.Recoded

/-!
Two views of the code of a function: every frame cell stands for its byte offset, or for its place even if that is too
far away for the machine.
-/

namespace SinglePath

open Addr CellId Inst Option

/-- The operation names no word of the frame but by its cell. -/
def Op.Framed : Op → Prop
  | .load _ (.stack _) => False
  | .store (.stack _) _ => False
  | _ => True

instance (op : Op) : Decidable op.Framed := by
  unfold Op.Framed
  split <;> infer_instance

def Inst.Framed (inst : Inst) : Prop := inst.op.Framed

instance (inst : Inst) : Decidable inst.Framed := inferInstanceAs (Decidable inst.op.Framed)

/-- The instruction in one of the views. -/
def Inst.viewed (placed : Bool) (inst : Inst) : Inst := if placed then inst.placed else inst

/-- Where a cell is in one of the views. -/
def CellId.reached (placed : Bool) (c : CellId) : Except Fault Int := if placed then .ok c.place else c.offset

/-- The address leads to the cell. -/
def CellId.ReachedBy (placed : Bool) (c : CellId) (addr : Addr) : Prop :=
  addr = .frame c ∧ c.reached placed = c.offset ∨ addr = .stack c.place ∧ c.reached placed = .ok c.place

section

variable {placed : Bool} {inst : Inst} {c : CellId} {addr : Addr}

@[simp] theorem Inst.guard_viewed : (inst.viewed placed).guard = inst.guard := by cases placed <;> rfl

@[simp] theorem Inst.isCall_viewed : (inst.viewed placed).isCall = inst.isCall := by cases placed <;> simp [viewed]

@[simp] theorem Inst.branchTarget_viewed : (inst.viewed placed).branchTarget = inst.branchTarget := by
  cases placed <;> simp [viewed]

@[simp] theorem Inst.regWrite_viewed : (inst.viewed placed).op.regWrite = inst.op.regWrite := by
  cases placed <;> simp [viewed, placed]

theorem CellId.place_of_reached {k : Int} (isReached : c.reached placed = .ok k) : c.place = k := by
  cases placed with
  | false => exact place_of_offset isReached
  | true => exact Except.ok.inj isReached

theorem Inst.viewed_load {dst : GReg} (isLoad : inst.op = .load dst (.frame c)) :
    ∃ addr, (inst.viewed placed).op = .load dst addr ∧ c.ReachedBy placed addr := by
  cases placed with
  | false => exact ⟨_, isLoad, .inl ⟨rfl, rfl⟩⟩
  | true => exact ⟨_, by simp [viewed, placed, isLoad, Op.placed], .inr ⟨rfl, rfl⟩⟩

theorem Inst.viewed_store {src : GReg} (isStore : inst.op = .store (.frame c) src) :
    ∃ addr, (inst.viewed placed).op = .store addr src ∧ c.ReachedBy placed addr := by
  cases placed with
  | false => exact ⟨_, isStore, .inl ⟨rfl, rfl⟩⟩
  | true => exact ⟨_, by simp [viewed, placed, isStore, Op.placed], .inr ⟨rfl, rfl⟩⟩

@[simp] theorem Inst.placed_placed (inst : Inst) : inst.placed.placed = inst.placed := by
  simp only [placed]
  rcases inst.op.placed_cases with ⟨dst, c, _, same⟩ | ⟨c, src, _, same⟩ | same <;> rw [same]
  · rfl
  · rfl
  · rw [same]

theorem Inst.viewed_cases (placed : Bool) (inst : Inst) :
    (∃ dst c, inst.op = .load dst (.frame c)) ∨ (∃ c src, inst.op = .store (.frame c) src) ∨
      (inst.viewed placed).op = inst.op := by
  rcases inst.op.placed_cases with ⟨dst, c, isLoad, _⟩ | ⟨c, src, isStore, _⟩ | same
  · exact .inl ⟨dst, c, isLoad⟩
  · exact .inr (.inl ⟨c, src, isStore⟩)
  · cases placed with
    | false => exact .inr (.inr rfl)
    | true => exact .inr (.inr same)

theorem CellId.ReachedBy.load (reached : c.ReachedBy placed addr) (m : Machine) :
    m.load addr = (do return m.readStack (← c.reached placed)) := by
  rcases reached with ⟨rfl, same⟩ | ⟨rfl, same⟩
  · rw [same]
    rfl
  · rw [same]
    rfl

theorem CellId.ReachedBy.store (reached : c.ReachedBy placed addr) (m : Machine) (word : UInt32) :
    m.store word addr = (do return m.writeStack (← c.reached placed) word) := by
  rcases reached with ⟨rfl, same⟩ | ⟨rfl, same⟩
  · rw [same]
    rfl
  · rw [same]
    rfl

/-- An instruction sees no hidden word if the place of the cell that it loads is not hidden. -/
theorem Inst.Framed.visible {hidden : Int → Prop} (framed : inst.Framed)
    (shown : ∀ dst c, inst.op = .load dst (.frame c) → ¬ hidden c.place) (dst : GReg) (addr : Addr)
    (isLoad : (inst.viewed placed).op = .load dst addr) : addr.Visible hidden := by
  rcases inst.viewed_cases placed with ⟨t, c, isOp⟩ | ⟨c, src, isOp⟩ | same
  · obtain ⟨o, isViewed, reached⟩ := viewed_load isOp
    obtain ⟨_, rfl⟩ := Op.load.inj (isViewed.symm.trans isLoad)
    rcases reached with ⟨rfl, _⟩ | ⟨rfl, _⟩
    · exact fun k isOffset => place_of_offset isOffset ▸ shown t c isOp
    · exact shown t c isOp
  · obtain ⟨o, isViewed, _⟩ := viewed_store isOp
    exact nomatch isViewed.symm.trans isLoad
  · have isOp := same.symm.trans isLoad
    cases addr with
    | frame c => exact fun k isOffset => place_of_offset isOffset ▸ shown dst c isOp
    | stack k =>
      rw [Framed, isOp] at framed
      exact framed.elim
    | memory base k => trivial

/-- An instruction leaves the word of a cell alone that it does not write. -/
theorem Inst.Framed.readStack {regs : TargetRegs} {m after : Machine} {control : Transfer} (framed : inst.Framed)
    (ran : m.perform regs (inst.viewed placed) = .ok (after, control)) (unwritten : inst.writesCell ≠ some c) :
    after.readStack c.place = m.readStack c.place := by
  refine Machine.perform_readStack ran fun addr src isStore => ?_
  have apart : ∀ o, inst.op = .store (.frame o) src → o.place ≠ c.place := fun o isOp same =>
    unwritten (by simp [writesCell, isOp, place_injective same])
  rcases inst.viewed_cases placed with ⟨t, loaded, isOp⟩ | ⟨stored, u, isOp⟩ | same
  · obtain ⟨o, isViewed, _⟩ := viewed_load isOp
    exact nomatch isViewed.symm.trans isStore
  · obtain ⟨o, isViewed, reached⟩ := viewed_store isOp
    obtain ⟨rfl, rfl⟩ := Op.store.inj (isViewed.symm.trans isStore)
    rcases reached with ⟨rfl, _⟩ | ⟨rfl, _⟩
    · refine ⟨Addr.noConfusion, fun got isFrame isOffset => apart stored isOp ?_⟩
      obtain rfl := frame.inj isFrame
      exact place_of_offset isOffset
    · exact ⟨fun same => apart stored isOp (stack.inj same), fun _ isFrame => nomatch isFrame⟩
  · have isOp := same.symm.trans isStore
    cases addr with
    | frame stored =>
      refine ⟨Addr.noConfusion, fun got isFrame isOffset => apart stored isOp ?_⟩
      obtain rfl := frame.inj isFrame
      exact place_of_offset isOffset
    | stack k =>
      rw [Framed, isOp] at framed
      exact framed.elim
    | memory base k => exact ⟨Addr.noConfusion, fun _ isFrame => nomatch isFrame⟩

end

namespace Func

variable {f next : Func} {placed : Bool}

/-- All code of the function in one of the views. -/
def viewed (placed : Bool) (f : Func) : Func :=
  { f with blocks := f.blocks.map fun body => { body with insts := body.insts.map (Inst.viewed placed) } }

@[simp] theorem viewed_false (f : Func) : f.viewed false = f := by
  have same : Inst.viewed false = id := rfl
  simp [viewed, same]

@[simp] theorem block?_viewed (b : BlockId) : (f.viewed placed).block? b =
    (f.block? b).map fun body => { body with insts := body.insts.map (Inst.viewed placed) } := by
  simp [viewed, block?]

@[simp] theorem succsOf_viewed (b : BlockId) : (f.viewed placed).succsOf b = f.succsOf b := by
  simp only [succsOf, block?_viewed, map_map]
  rfl

@[simp] theorem predsOf_viewed (b : BlockId) : (f.viewed placed).predsOf b = f.predsOf b := by
  simp only [predsOf, block?_viewed, map_map]
  rfl

theorem codeOf_viewed (b : BlockId) : (f.viewed placed).codeOf b = (f.codeOf b).map (Inst.viewed placed) := by
  simp only [codeOf, block?_viewed, map_map]
  cases f.block? b <;> rfl

theorem startOf_viewed {b : BlockId} {body : Block} (got : f.block? b = some body) :
    (f.viewed placed).startOf b = .ok ⟨b, body.insts.map (Inst.viewed placed)⟩ := by
  have foundViewed := @block?_viewed f placed b
  rw [got] at foundViewed
  rw [startOf, get_eq_ok.mpr foundViewed]
  rfl

theorem Laid.viewed (laid : f.Laid) (placed : Bool) : (f.viewed placed).Laid := by
  refine ⟨laid.once, fun b inside => ?_, fun b inside inst isInst t isTarget => ?_, laid.entered⟩
  · obtain ⟨body, got⟩ := laid.found b inside
    exact ⟨_, by rw [block?_viewed, got]; rfl⟩
  · rw [codeOf_viewed] at isInst
    obtain ⟨origin, isOrigin, rfl⟩ := List.mem_map.mp isInst
    exact laid.targets b inside origin isOrigin t (by simpa using isTarget)

theorem isEdge_viewed (u t : BlockId) : (f.viewed placed).IsEdge u t ↔ f.IsEdge u t := by
  simp [IsEdge]

/-- Control stays on the edges of a chain. -/
theorem Chained.followsEdges (chained : f.Chained) (placed : Bool) (regs : TargetRegs) (words : Nat → UInt32)
    (m : Machine) : (f.viewed placed).FollowsEdges regs words m := by
  have edge : ∀ {b o}, o ∈ f.succsOf b → (f.viewed placed).IsEdge b o ∧ o ∈ f.layout :=
    fun isSucc => ⟨(isEdge_viewed _ _).mpr ⟨isSucc, (chained.linked.ends _ _).mp isSucc⟩, chained.succ_mem isSucc⟩
  refine @followsEdges_of_inside (f.viewed placed) (· ∈ f.layout) chained.laid.entered
    (fun b body inside got t isTarget => ?_)
    (fun b inside next falls => ?_) regs words m
  · refine edge ((chained.edges b inside t).mpr (.inr ?_))
    have isCode := codeOf_eq got
    rw [codeOf_viewed] at isCode
    rw [Block.branchTargets, ← isCode, List.filterMap_map] at isTarget
    simpa [targetsOf, Function.comp_def] using isTarget
  · refine edge ((chained.edges b inside next).mpr (.inl ?_))
    rwa [← nextAfterLast_eq]

/-- A chain of blocks that end in their branches, and whose code names frame words by their cells. -/
structure Tidy (f : Func) : Prop where
  chained : f.Chained
  last : ∀ b ∈ f.layout, BranchesLast (f.codeOf b)
  framed : ∀ b ∈ f.layout, ∀ inst ∈ f.codeOf b, inst.Framed

end Func

end SinglePath
