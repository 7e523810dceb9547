import SinglePath.Proofs.Func.Chained

namespace SinglePath

open Finset List Relation

namespace Func

variable {func : Func} {visited : List BlockId} {steps : Nat}

/-- The entry and the end of every edge are blocks of the function. -/
structure Closed (func : Func) : Prop where
  entered : ∃ body, func.block? func.entry = some body
  ends : ∀ b, ∀ succ ∈ func.succsOf b, ∃ body, func.block? succ = some body

theorem Closed.of_numbers (entered : func.entry.index < func.blocks.length)
    (ends : ∀ body ∈ func.blocks, ∀ succ ∈ body.succs, succ.index < func.blocks.length) : func.Closed where
  entered := ⟨_, getElem?_eq_getElem entered⟩
  ends b succ isSucc := by
    unfold succsOf at isSucc
    cases got : func.block? b with
    | none => simp [got] at isSucc
    | some body =>
      rw [got] at isSucc
      exact ⟨_, getElem?_eq_getElem (ends body (mem_of_getElem? got) succ isSucc)⟩

theorem ahead_nil (func : Func) (weight : Block → Nat) : func.ahead weight [] = (func.blocks.map weight).sum := by
  simp only [ahead, block?, not_mem_nil, not_false_eq_true, Finset.filter_true]
  induction func.blocks with
  | nil => rfl
  | cons first rest ih =>
    rw [length_cons, Finset.sum_range_succ']
    simp only [getElem?_cons_succ, getElem?_cons_zero, ih]
    simp [Nat.add_comm]

theorem preorderFrom_ok (ends : ∀ b, ∀ succ ∈ func.succsOf b, ∃ body, func.block? succ = some body)
    {stack : List BlockId} (known : ∀ b ∈ stack, ∃ body, func.block? b = some body)
    (enough : stack.length + func.ahead (·.succs.length) visited ≤ steps) :
    ∃ order, func.preorderFrom steps stack visited = .ok order := by
  induction steps, stack, visited using preorderFrom.induct with
  | case1 steps visited => exact ⟨_, by rw [preorderFrom]⟩
  | case2 b stack visited => simp at enough
  | case3 steps b stack visited isMet ih =>
    rw [preorderFrom, if_pos isMet]
    refine ih (forall_mem_cons.mp known).2 ?_
    simp only [length_cons] at enough
    omega
  | case4 steps b stack visited unmet ih =>
    obtain ⟨body, got⟩ := known b (.head _)
    rw [preorderFrom, if_neg unmet, get_eq_ok.mpr got, ok_bind]
    refine ih body (fun o isOpen => ?_) ?_
    · rcases mem_append.mp isOpen with isSucc | isOpen
      · exact ends b o (succsOf_eq got ▸ (mem_filter.mp isSucc).1)
      · exact known o (.tail _ isOpen)
    · have less := ahead_cons (·.succs.length) unmet got
      have fewer := length_filter_le (fun succ => decide (succ ∉ b :: visited)) body.succs
      simp only [length_cons, length_append] at enough ⊢
      omega

theorem Closed.preorder_ok (closed : func.Closed) : ∃ order, func.preorder = .ok order := by
  refine preorderFrom_ok closed.ends (fun b isOpen => ?_) ?_
  · rw [List.mem_singleton.mp isOpen]
    exact closed.entered
  · rw [ahead_nil, edgeCount, length_flatMap, length_singleton, Nat.add_comm]

/-- An open block counts for itself and for each successor that is still to be looked at. -/
def openWork (stack : List (BlockId × List BlockId)) : Nat := (stack.map fun e => e.2.length + 1).sum

theorem reversePostorderFrom_ok (ends : ∀ b, ∀ succ ∈ func.succsOf b, ∃ body, func.block? succ = some body)
    {stack : List (BlockId × List BlockId)} {done : List BlockId}
    (known : ∀ e ∈ stack, ∀ succ ∈ e.2, ∃ body, func.block? succ = some body)
    (enough : openWork stack + func.ahead (·.succs.length + 1) visited ≤ steps) :
    ∃ order, func.reversePostorderFrom steps stack visited done = .ok order := by
  induction steps, stack, visited, done using reversePostorderFrom.induct with
  | case1 steps visited done => exact ⟨_, by rw [reversePostorderFrom]⟩
  | case2 e stack visited done => simp [openWork] at enough
  | case3 steps b stack visited done ih =>
    refine ih (forall_mem_cons.mp known).2 ?_
    simp only [openWork, List.map_cons, List.sum_cons, length_nil] at enough ⊢
    omega
  | case4 steps b succ rest stack visited done isMet ih =>
    rw [reversePostorderFrom, if_pos isMet]
    refine ih (fun e isOpen => ?_) ?_
    · rcases mem_cons.mp isOpen with rfl | isOpen
      · exact fun o isAhead => known _ (.head _) o (.tail _ isAhead)
      · exact known e (.tail _ isOpen)
    · simp only [openWork, List.map_cons, List.sum_cons, length_cons] at enough ⊢
      omega
  | case5 steps b succ rest stack visited done unmet ih =>
    obtain ⟨body, got⟩ := known _ (.head _) succ (.head _)
    rw [reversePostorderFrom, if_neg unmet, get_eq_ok.mpr got, ok_bind]
    refine ih body (fun e isOpen => ?_) ?_
    · rcases mem_cons.mp isOpen with rfl | isOpen
      · exact fun o isAhead => ends succ o (succsOf_eq got ▸ isAhead)
      · rcases mem_cons.mp isOpen with rfl | isOpen
        · exact fun o isAhead => known _ (.head _) o (.tail _ isAhead)
        · exact known e (.tail _ isOpen)
    · have less := ahead_cons (·.succs.length + 1) unmet got
      simp only [openWork, List.map_cons, List.sum_cons, length_cons] at enough ⊢
      omega

theorem Closed.reversePostorder_ok (closed : func.Closed) : ∃ order, func.reversePostorder = .ok order := by
  obtain ⟨body, got⟩ := closed.entered
  rw [reversePostorder, get_eq_ok.mpr got, ok_bind]
  refine reversePostorderFrom_ok closed.ends (fun e isOpen succ isAhead => ?_) ?_
  · obtain rfl := List.mem_singleton.mp isOpen
    exact closed.ends func.entry succ (succsOf_eq got ▸ isAhead)
  · have less := ahead_cons (·.succs.length + 1) not_mem_nil got
    have all := func.ahead_nil (·.succs.length + 1)
    simp only [sum_map_add, map_const', sum_replicate_nat, Nat.mul_one] at all
    simp only [openWork, edgeCount, length_flatMap, List.map_cons, map_nil, List.sum_cons, sum_nil]
    omega

/-- The traversal only meets blocks that the function has. -/
theorem Closed.known (closed : func.Closed) {order : List BlockId} (res : func.reversePostorder = .ok order) :
    ∀ b ∈ order, ∃ body, func.block? b = some body := by
  intro b isMet
  rcases ((mem_reversePostorder res b).mp isMet).cases_tail with rfl | ⟨u, _, edge⟩
  · exact closed.entered
  · exact closed.ends u b edge

/-- Both traversals list the trees of the depth-first search from the entry, and all that edges lead to stands there
once. In reverse postorder every edge leads onward, unless it leads to its own source or to a block above it. -/
structure DepthFirst (func : Func) : Prop where
  preorder : func.preorder = (func.get func.entry).map fun _ => func.searched.preorder
  reversePostorder : func.reversePostorder = (func.get func.entry).map fun _ => func.searched.postorder.reverse
  onceMet : func.searched.preorder.Nodup
  onceDone : func.searched.postorder.reverse.Nodup
  met : ∀ b, b ∈ func.searched.preorder ↔ ReflTransGen func.Edge func.entry b
  done : ∀ b, b ∈ func.searched.postorder.reverse ↔ ReflTransGen func.Edge func.entry b
  onward : ∀ u ∈ func.searched.postorder.reverse, ∀ t ∈ func.searched.postorder.reverse,
    func.Edge u t →
      [u, t] <+ func.searched.postorder.reverse ∨ func.searched.Above t u ∨ t = u
  acyclic : (∀ b ∈ func.searched.postorder.reverse, ¬ TransGen func.Edge b b) →
    ∀ u ∈ func.searched.postorder.reverse, ∀ t, func.Edge u t →
      [u, t] <+ func.searched.postorder.reverse

theorem depthFirst_of_ends (ends : ∀ content ∈ func.blocks, ∀ succ ∈ content.succs, succ.index < func.blocks.length) :
    func.DepthFirst := by
  have facts := func.search_searched [] [func.entry]
  have done (block : BlockId) : block ∈ func.searched.postorder.reverse ↔ block ∈ func.searched.preorder := by
    rw [mem_reverse, (Forest.postorder_perm _).mem_iff]
  have onward : ∀ source ∈ func.searched.postorder.reverse, ∀ target ∈ func.searched.postorder.reverse,
      func.Edge source target →
        [source, target] <+ func.searched.postorder.reverse ∨ func.searched.Above target source ∨ target = source := by
    intro source isSource target isTarget edge
    rcases facts.finished source ((done source).mp isSource) target ((done target).mp isTarget) edge with
      same | isAbove | isBefore
    · exact .inr (.inr same)
    · exact .inr (.inl isAbove)
    · exact .inl isBefore.reverse
  have listed : func.preorder = (func.get func.entry).map (fun _ => func.searched.preorder) ∧
      func.reversePostorder = (func.get func.entry).map (fun _ => func.searched.postorder.reverse) := by
    cases entered : func.get func.entry with
    | error cause => simp [preorder, preorderFrom, reversePostorder, entered, bind, Except.bind, Except.map]
    | ok content =>
      have closed := Closed.of_numbers (lt_length (get_eq_ok.mp entered)) ends
      obtain ⟨met, isMet⟩ := closed.preorder_ok
      obtain ⟨order, isOrder⟩ := closed.reversePostorder_ok
      rw [isMet, isOrder, preorder_searched isMet, reversePostorder_searched isOrder]
      exact ⟨rfl, rfl⟩
  refine ⟨listed.1, listed.2, func.preorder_once, func.postorder_once, mem_searched, ?_, onward, ?_⟩
  · exact fun block => (done block).trans (mem_searched block)
  · intro acyclic source isSource target edge
    have isTarget : target ∈ func.searched.postorder.reverse := by
      rw [done, mem_searched] at isSource ⊢
      exact isSource.tail edge
    rcases onward source isSource target isTarget edge with isBefore | isAbove | rfl
    · exact isBefore
    · exact absurd ((facts.beneath target source isAbove).tail edge) (acyclic target isTarget)
    · exact absurd (.single edge) (acyclic target isTarget)

/-- A function with a join, loops, and a block that nothing leads to. -/
def joiningFunc : Func where
  name := "joining"
  blocks := [[1, 2], [3, 1], [3], [0], [0]].map fun succs => { name := "", succs := succs.map BlockId.mk }

theorem depthFirst_of_ends_joining :
    (∀ content ∈ joiningFunc.blocks, ∀ succ ∈ content.succs, succ.index < joiningFunc.blocks.length) ∧
      joiningFunc.preorder = .ok [⟨0⟩, ⟨1⟩, ⟨3⟩, ⟨2⟩] ∧ joiningFunc.reversePostorder = .ok [⟨0⟩, ⟨2⟩, ⟨1⟩, ⟨3⟩] ∧
      joiningFunc.DepthFirst :=
  ⟨by decide, by decide, by decide, depthFirst_of_ends (by decide)⟩

end Func

end SinglePath
