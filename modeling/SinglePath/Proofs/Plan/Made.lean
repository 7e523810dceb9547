import Mathlib.Data.List.Basic
import SinglePath.Plan
import SinglePath.Proofs.Allocation.Recorded

namespace SinglePath

open List ScopeTree

variable {f start : Func} {tree : ScopeTree} {depths : List Nat} {id : ScopeId}

namespace ScopeTree.Valid

variable {entered : List ScopeId} {members : Table BlockId ScopeId} {s : Scope}
  (valid : Valid tree f entered members) (got : tree.get id = .ok s) (isLoop : s.isTopLevel = false)

include valid got isLoop

theorem parent_ok : ∃ outer, tree.get (s.parent.getD root) = .ok outer ∧ id ∈ outer.subscopes := by
  rcases valid.nested (valid.covered got) with rfl | ⟨parent, outer, outerFound, mem⟩
  · obtain ⟨top, topFound, noParent, _⟩ := valid.top
    obtain rfl := ok_unique topFound got
    simp [Scope.isTopLevel, noParent] at isLoop
  · obtain ⟨inner, innerFound, isParent, _⟩ := (valid.checked outerFound).children id mem
    obtain rfl := ok_unique innerFound got
    exact ⟨outer, by simpa [isParent] using outerFound, mem⟩

/-- A loop is below the root. -/
theorem depth_pos : 0 < s.depth := by
  obtain ⟨outer, outerFound, mem⟩ := valid.parent_ok got isLoop
  obtain ⟨inner, innerFound, _, below⟩ := (valid.checked outerFound).children id mem
  obtain rfl := ok_unique innerFound got
  omega

end ScopeTree.Valid

namespace FrameLayout

theorem le_largest {numbers : List Nat} {number : Nat} (mem : number ∈ numbers) : number ≤ largest numbers := by
  have general : ∀ (numbers : List Nat) (start : Nat), start ≤ numbers.foldl max start ∧
      ∀ number ∈ numbers, number ≤ numbers.foldl max start := by
    intro numbers
    induction numbers with
    | nil => simp
    | cons first rest ih =>
      intro start
      obtain ⟨kept, below⟩ := ih (max start first)
      refine ⟨Nat.le_trans (Nat.le_max_left _ _) kept, fun number isListed => ?_⟩
      rcases mem_cons.mp isListed with rfl | later
      · exact Nat.le_trans (Nat.le_max_right _ _) kept
      · exact below number later
  exact (general numbers 0).2 number mem

theorem getElem?_cellRange {first n k : Nat} (inRange : k < n) : (cellRange first n)[k]? = some ⟨first + k⟩ := by
  simp [cellRange, inRange]

theorem atDepth_ok {cells : List CellId} {depth : Nat} (positive : 0 < depth) (inRange : depth ≤ cells.length) :
    ∃ c, atDepth cells depth = .ok c := by
  cases depth with
  | zero => omega
  | succ depth =>
    exact ⟨cells[depth], by simp [atDepth, getElem?_eq_getElem (show depth < cells.length by omega)]⟩

@[simp] theorem length_cellRange (first n : Nat) : (cellRange first n).length = n := by simp [cellRange]

theorem cellRange_append (first n more : Nat) :
    cellRange first (n + more) = cellRange first n ++ cellRange (first + n) more := by
  simp [cellRange, range_add, Nat.add_assoc]

theorem mem_cellRange {first n : Nat} {c : CellId} : c ∈ cellRange first n ↔ first ≤ c.index ∧ c.index < first + n := by
  simp only [cellRange, mem_map, mem_range]
  constructor
  · rintro ⟨k, inRange, rfl⟩
    exact ⟨Nat.le_add_right _ _, Nat.add_lt_add_left inRange _⟩
  · rintro ⟨above, below⟩
    exact ⟨c.index - first, by omega, by rw [Nat.add_sub_of_le above]⟩

/-- How the frame of an allocation is laid out. -/
structure Laid (layout : FrameLayout) (f start : Func) (tree : ScopeTree) (allocs : List ScopeAllocation)
    (depths : List Nat) : Prop where
  saving : (allocs.filter (·.savesBank)).mapM (fun alloc => do return (← tree.get alloc.scope).depth) = .ok depths
  callCell : layout.callCell = if f.hasCalls then some ⟨f.cells⟩ else none
  predWords : layout.predWords = cellRange (f.cells + if f.hasCalls then 1 else 0)
    ((stackBits allocs + wordBits - 1) / wordBits)
  bankCells : layout.bankCells = cellRange (f.cells + (if f.hasCalls then 1 else 0) +
    (stackBits allocs + wordBits - 1) / wordBits) (largest depths)
  counters : layout.counters = cellRange (f.cells + (if f.hasCalls then 1 else 0) +
    (stackBits allocs + wordBits - 1) / wordBits + largest depths) (counterDepth tree)
  start : start = { f with cells := f.cells + (if f.hasCalls then 1 else 0) +
    (stackBits allocs + wordBits - 1) / wordBits + largest depths + counterDepth tree }

variable {layout : FrameLayout} {allocs : List ScopeAllocation}

/-- A created frame lays out its cells one after another. -/
theorem laid_of_create (created : create f tree allocs = .ok (layout, start)) :
    ∃ depths, Laid layout f start tree allocs depths := by
  obtain ⟨banks, isBanks, res⟩ := bind_inv created
  obtain ⟨depths, saving, rfl⟩ := bind_pure_inv isBanks
  obtain ⟨cells, isCells, res⟩ := bind_inv res
  obtain ⟨_, rfl⟩ := inWord_eq_ok.mp isCells
  obtain ⟨rfl, rfl⟩ := Prod.mk.inj (pure_inv res)
  refine ⟨depths, saving, ?_, rfl, rfl, rfl, rfl⟩
  cases f.hasCalls <;> simp [cellRange]

namespace Laid

variable (laid : Laid layout f start tree allocs depths) {alloc : ScopeAllocation} {body : Scope}

include laid

theorem words_eq : layout.callCell.toList ++ layout.predWords = cellRange f.cells
    ((if f.hasCalls then 1 else 0) + (stackBits allocs + wordBits - 1) / wordBits) := by
  rw [cellRange_append, laid.predWords, laid.callCell]
  cases f.hasCalls <;> rfl

/-- The cells of a frame follow the ones that the function uses. -/
theorem cells_eq : layout.cells = cellRange f.cells (start.cells - f.cells) := by
  have added : start.cells - f.cells = (if f.hasCalls then 1 else 0) +
      (stackBits allocs + wordBits - 1) / wordBits + largest depths + counterDepth tree := by
    rw [laid.start]
    simp only [Nat.add_assoc, Nat.add_sub_cancel_left]
  rw [cells, laid.words_eq, laid.bankCells, laid.counters, added]
  simp only [cellRange_append, append_assoc, Nat.add_assoc]

/-- The cells of a frame are those that the function gets. -/
theorem mem_cells {c : CellId} : c ∈ layout.cells ↔ f.cells ≤ c.index ∧ c.index < start.cells := by
  rw [laid.cells_eq, mem_cellRange, laid.start]
  omega

/-- Every stack bit of an allocation has a place in the frame. -/
theorem stackBit_ok (mem : alloc ∈ allocs) {location : Nat} (inRange : location < alloc.stackEnd) :
    ∃ c, layout.stackBit location = .ok (c, location % wordBits) := by
  have below : location < stackBits allocs := Nat.lt_of_lt_of_le inRange (le_largest (mem_map_of_mem mem))
  have word : location / wordBits < (stackBits allocs + wordBits - 1) / wordBits := by
    unfold wordBits
    omega
  refine ⟨⟨f.cells + (if f.hasCalls then 1 else 0) + location / wordBits⟩, ?_⟩
  unfold stackBit
  rw [laid.predWords, getElem?_cellRange word]
  rfl

/-- A loop that saves the bank has a cell for it. -/
theorem bankCell_ok (mem : alloc ∈ allocs) (saves : alloc.savesBank = true) (got : tree.get alloc.scope = .ok body)
    (positive : 0 < body.depth) : ∃ c, layout.bankCell body.depth = .ok c := by
  obtain ⟨depth, isDepth, comp⟩ := mapM_result laid.saving (mem_filter.mpr ⟨mem, saves⟩)
  rw [got, ok_bind] at comp
  obtain rfl := pure_inv comp
  exact atDepth_ok positive (by simpa [laid.bankCells] using le_largest isDepth)

/-- A loop with a bound has a counter. -/
theorem counter_ok (got : tree.get id = .ok body) (bounded : body.usableBound.isSome)
    (positive : 0 < body.depth) : ∃ c, layout.counter body.depth = .ok c := by
  refine atDepth_ok positive ?_
  rw [laid.counters, length_cellRange]
  refine le_largest (mem_map_of_mem (mem_filter.mpr ⟨?_, bounded⟩))
  exact mem_of_getElem? (get_eq_ok.mp got)

end Laid

end FrameLayout

namespace Plan

variable {plan : Plan}

/-- How a plan was made for a function. -/
structure Made (plan : Plan) (f start : Func) (depths : List Nat) : Prop where
  validated : plan.tree.validate f = .ok plan.facts
  free : (candidates plan.regs).filter (fun r => !f.mentionsPred r) = plan.available ++ [plan.temporary]
  used : plan.unavailable = (candidates plan.regs).filter fun r => f.mentionsPred r
  allocated : plan.tree.allocate plan.available.length = .ok plan.allocs
  laid : plan.frame.Laid f start plan.tree plan.allocs depths
  ordered : plan.tree.scopesInOrder = .ok plan.scopes

/-- What a plan is made of. -/
theorem make_ok {regs : TargetRegs} (made : make tree regs f = .ok (plan, start)) :
    plan.tree = tree ∧ plan.regs = regs ∧ ∃ depths, plan.Made f start depths := by
  obtain ⟨facts, validated, made⟩ := bind_inv made
  dsimp only at made
  split at made
  · next temporary isLast =>
      obtain ⟨chosen, isChosen, made⟩ := bind_inv made
      obtain rfl := pure_inv isChosen
      obtain ⟨allocs, allocated, ⟨frame, framed⟩, created, made⟩ := bind_bind_inv made
      obtain ⟨scopes, ordered, res⟩ := bind_inv made
      obtain ⟨rfl, rfl⟩ := Prod.mk.inj (pure_inv res)
      obtain ⟨depths, laid⟩ := FrameLayout.laid_of_create (liftM_inv created)
      exact ⟨rfl, rfl, depths, validated, (dropLast_append_getLast? _ isLast).symm, rfl, allocated, laid,
        liftM_inv ordered⟩
  · obtain ⟨_, refused, _⟩ := bind_inv made
    exact absurd refused refuse_ne_ok

namespace Made

variable {s : Scope}

/-- The tree of a plan is valid. -/
theorem valid (made : plan.Made f start depths) : plan.tree.Valid f plan.scopes plan.facts.blockScope := by
  obtain ⟨entered, valid⟩ := validate_valid made.validated
  obtain rfl := ok_unique valid.order made.ordered
  exact valid

/-- Every scope has an allocation that is recorded for it. -/
theorem alloc_ok (made : plan.Made f start depths) (got : plan.tree.get id = .ok s) :
    ∃ alloc, plan.alloc id = .ok alloc ∧ alloc ∈ plan.allocs ∧ alloc.scope = id ∧
      (alloc.savesBank = true → s.isTopLevel = false) ∧
      Recorded plan.tree plan.available.length s alloc := by
  obtain ⟨alloc, ctx, es, res, mem, assigned⟩ := allocate_assigned made.allocated got
  obtain ⟨again, placed, locs, firstFree, states, comp⟩ := assigned.computed made.valid
  have coll := comp.collected
  obtain rfl := ok_unique got coll.found
  refine ⟨alloc, by simp [Plan.alloc, mem], mem_of_getElem? mem, comp.named.trans coll.named, ?_,
    recorded_of_allocate made.valid made.allocated got mem⟩
  intro saves
  rw [comp.saves, coll.placedTop] at saves
  simpa using (Bool.and_eq_true_iff.mp saves).1

theorem preg_ok {index : Nat} (inRange : index < plan.available.length) :
    ∃ r ∈ plan.available, plan.preg index = .ok r :=
  ⟨plan.available[index], getElem_mem inRange, by simp [preg, getElem?_eq_getElem inRange]⟩

end Made

end Plan

variable {allocs : List ScopeAllocation} {registers : Nat} {entered : List ScopeId}
  {members : Table BlockId ScopeId}

namespace ScopeTree

theorem gather_length {got : Table ScopeId ScopeAllocation} {indices : List Nat}
    (gathered : gather got indices = .ok allocs) : allocs.length = indices.length := by
  induction indices generalizing allocs with
  | nil =>
    cases gathered
    rfl
  | cons index rest ih =>
    rw [gather] at gathered
    split at gathered
    · exact absurd gathered refuseTree_ne_ok
    · obtain ⟨later, gatheredLater, rfl⟩ := bind_pure_inv gathered
      simp [ih gatheredLater]

theorem allocate_length (allocated : tree.allocate registers = .ok allocs) : allocs.length = tree.scopes.length := by
  obtain ⟨_, _, _, _, gathered⟩ := bind_bind_inv allocated
  simpa using gather_length gathered

theorem scope_of_alloc (valid : Valid tree f entered members) (allocated : tree.allocate registers = .ok allocs)
    {alloc : ScopeAllocation} (mem : alloc ∈ allocs) : ∃ body, tree.get alloc.scope = .ok body := by
  obtain ⟨index, isAlloc⟩ := mem_iff_getElem?.mp mem
  have inside : index < tree.scopes.length := by
    rw [← allocate_length allocated]
    exact lt_length isAlloc
  have got : tree.get ⟨index⟩ = .ok tree.scopes[index] := get_eq_ok.mpr (by simp)
  obtain ⟨o, ctx, es, res, isOther, assigned⟩ := allocate_assigned allocated got
  obtain rfl := Option.mem_unique isOther isAlloc
  obtain ⟨_, _, _, _, _, comp⟩ := assigned.computed valid
  rw [comp.named, comp.collected.named]
  exact ⟨_, got⟩

end ScopeTree

namespace FrameLayout

/-- The number of cells that an allocation takes. -/
def size (f : Func) (tree : ScopeTree) (allocs : List ScopeAllocation) : Except Fault Nat := do
  let banks ← bankDepth tree allocs
  return (if f.hasCalls then 1 else 0) + (stackBits allocs + wordBits - 1) / wordBits + banks + counterDepth tree

/-- The frame of an allocated tree is created if its cells have numbers. -/
theorem create_cases (valid : Valid tree f entered members) (allocated : tree.allocate registers = .ok allocs) :
    ∃ n, size f tree allocs = .ok n ∧ ((∃ layout start, create f tree allocs = .ok (layout, start)) ∨
        create f tree allocs = .error .overflow ∧ 0x100000000 ≤ f.cells + n) := by
  obtain ⟨depths, isDepths⟩ : ∃ depths, (allocs.filter (·.savesBank)).mapM
      (fun alloc => do return (← tree.get alloc.scope).depth) = .ok depths := by
    refine mapM_ok fun alloc mem => ?_
    obtain ⟨body, got⟩ := ScopeTree.scope_of_alloc valid allocated (mem_filter.mp mem).1
    exact ⟨body.depth, by rw [got]; rfl⟩
  have isBanks : bankDepth tree allocs = .ok (largest depths) := by
    rw [bankDepth, isDepths]
    rfl
  refine ⟨_, by rw [size, isBanks]; rfl, ?_⟩
  rw [create, isBanks]
  simp only [ok_bind, ← Nat.add_assoc]
  by_cases inside : f.cells + (if f.hasCalls then 1 else 0) + (stackBits allocs + wordBits - 1) / wordBits +
      largest depths + counterDepth tree < 0x100000000
  · rw [inWord, if_pos inside]
    exact .inl ⟨_, _, rfl⟩
  · rw [inWord, if_neg inside]
    exact .inr ⟨rfl, Nat.le_of_not_lt inside⟩

end FrameLayout

/-- A plan is made if the tree is valid, a temporary register is left, the predicates are allocated and the cells of the
frame have numbers. -/
theorem Plan.make_cases {facts : ScopeFacts} {regs : TargetRegs} {temporary : PReg}
    (validated : tree.validate f = .ok facts)
    (isLast : ((candidates regs).filter fun r => !f.mentionsPred r).getLast? = some temporary)
    (allocated : tree.allocate ((candidates regs).filter fun r => !f.mentionsPred r).dropLast.length = .ok allocs) :
    (∃ plan start, make tree regs f = .ok (plan, start)) ∨ make tree regs f = .error (.fault .overflow) ∧
      ∃ n, FrameLayout.size f tree allocs = .ok n ∧ 0x100000000 ≤ f.cells + n := by
  obtain ⟨entered, valid⟩ := ScopeTree.validate_valid validated
  obtain ⟨n, isSize, ⟨layout, start, created⟩ | ⟨created, far⟩⟩ := FrameLayout.create_cases valid allocated
  · unfold make
    simp only [validated, ok_bind, isLast, pure_bind, allocated, created, liftM_ok, valid.order]
    exact .inl ⟨_, _, rfl⟩
  · refine .inr ⟨?_, n, isSize, far⟩
    unfold make
    simp only [validated, ok_bind, isLast, pure_bind, allocated, created, liftM_error, error_bind]

end SinglePath
