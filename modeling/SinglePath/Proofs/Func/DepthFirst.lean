import Mathlib.Algebra.BigOperators.Group.Finset.Basic
import Mathlib.Algebra.Order.BigOperators.Group.Finset
import SinglePath.Func.Traversal
import SinglePath.Proofs.Func.Edges

/-!
Depth-first search as a recursion, the trees that it grows, and the two traversals as listings of these trees.
-/

namespace SinglePath

open List Relation

/-- The trees of a depth-first search: the first root, the trees below it, and the trees beside it. -/
inductive Forest where
  | none
  | grow (block : BlockId) (inner later : Forest)

namespace Forest

variable {above below : BlockId}

def preorder : Forest → List BlockId
  | .none => []
  | .grow block inner later => block :: (inner.preorder ++ later.preorder)

def postorder : Forest → List BlockId
  | .none => []
  | .grow block inner later => inner.postorder ++ block :: later.postorder

/-- The second block stands in the trees below the first one. -/
def Above (above below : BlockId) : Forest → Prop
  | .none => False
  | .grow block inner later =>
    above = block ∧ below ∈ inner.preorder ∨ inner.Above above below ∨ later.Above above below

theorem postorder_perm (forest : Forest) : forest.postorder.Perm forest.preorder := by
  induction forest with
  | none => exact .refl _
  | grow block inner later innerPerm laterPerm => exact perm_middle.trans ((innerPerm.append laterPerm).cons block)

end Forest

namespace Func

variable {f : Func} {met done order pending : List BlockId} {steps : Nat}

/-- The weights of all blocks that were not met, summed up. -/
def ahead (f : Func) (weight : Block → Nat) (met : List BlockId) : Nat :=
  ∑ index ∈ (Finset.range f.blocks.length).filter (⟨·⟩ ∉ met), ((f.block? ⟨index⟩).map weight).getD 0

theorem ahead_cons (weight : Block → Nat) {block : BlockId} {body : Block}
    (unmet : block ∉ met) (got : f.block? block = some body) :
    f.ahead weight (block :: met) + weight body = f.ahead weight met := by
  have inside : block.index ∈ (Finset.range f.blocks.length).filter (⟨·⟩ ∉ met) := by
    have isIndex := lt_length got
    simp [isIndex, unmet]
  have erased : (Finset.range f.blocks.length).filter (⟨·⟩ ∉ block :: met) =
      ((Finset.range f.blocks.length).filter (⟨·⟩ ∉ met)).erase block.index := by
    ext index
    simp only [Finset.mem_filter, Finset.mem_erase, List.mem_cons]
    tauto
  rw [ahead, ahead, erased, ← Finset.sum_erase_add _ _ inside]
  simp [got]

theorem ahead_append (weight : Block → Nat) (more met : List BlockId) :
    f.ahead weight (more ++ met) ≤ f.ahead weight met := by
  refine Finset.sum_le_sum_of_subset fun index => ?_
  simp +contextual

theorem succs_shorter {block : BlockId} {rest : List BlockId} (unmet : block ∉ met) :
    Prod.Lex (· < ·) (· < ·) (f.ahead (fun _ => 1) (block :: met), (f.succsOf block).length)
      (f.ahead (fun _ => 1) met, (block :: rest).length) := by
  cases got : f.block? block with
  | none =>
    refine Prod.lex_def.mpr ((Nat.lt_or_eq_of_le (ahead_append _ [block] met)).imp_right fun same => ⟨same, ?_⟩)
    simp [succsOf, got]
  | some body =>
    have fewer := ahead_cons (fun _ => 1) unmet got
    exact .left _ _ (by omega)

/-- A block that was not met before is met, then all that its successors lead to, and then the next block of the
list. -/
def search (f : Func) (met : List BlockId) : List BlockId → Forest
  | [] => .none
  | block :: rest =>
    if _ : block ∈ met then
      f.search met rest
    else
      let inner := f.search (block :: met) (f.succsOf block)
      .grow block inner (f.search (inner.preorder.reverse ++ block :: met) rest)
termination_by pending => (f.ahead (fun _ => 1) met, pending.length)
decreasing_by
  · exact .right _ (Nat.lt_succ_self _)
  · exact succs_shorter ‹_›
  · rw [← concat_append]
    refine Prod.lex_def.mpr ((Nat.lt_or_eq_of_le (ahead_append ..)).imp_right fun same => ⟨same, Nat.lt_succ_self _⟩)

@[simp] theorem search_nil (f : Func) (met : List BlockId) : f.search met [] = .none := by rw [search]

theorem search_met {block : BlockId} (isMet : block ∈ met) (rest : List BlockId) :
    f.search met (block :: rest) = f.search met rest := by
  rw [search, dif_pos isMet]

theorem search_unmet {block : BlockId} (unmet : block ∉ met) (rest : List BlockId) :
    f.search met (block :: rest) = .grow block (f.search (block :: met) (f.succsOf block))
      (f.search ((f.search (block :: met) (f.succsOf block)).preorder.reverse ++ block :: met) rest) := by
  rw [search, dif_neg unmet]

theorem preorder_search_append (first second : List BlockId) :
    (f.search met (first ++ second)).preorder = (f.search met first).preorder ++
      (f.search ((f.search met first).preorder.reverse ++ met) second).preorder := by
  induction first generalizing met with
  | nil => simp [Forest.preorder]
  | cons block rest ih =>
    by_cases isMet : block ∈ met
    · rw [cons_append, search_met isMet, search_met isMet, ih]
    · rw [cons_append, search_unmet isMet, search_unmet isMet]
      simp [Forest.preorder, ih]

theorem search_skip (f : Func) {first second : List BlockId} (known : ∀ block ∈ first, block ∈ met) :
    f.search met (first ++ second) = f.search met second := by
  induction first with
  | nil => rfl
  | cons block rest ih =>
    obtain ⟨isMet, known⟩ := forall_mem_cons.mp known
    rw [cons_append, search_met isMet, ih known]

theorem search_known (f : Func) (known : ∀ block ∈ pending, block ∈ met) : f.search met pending = .none := by
  rw [← append_nil pending, f.search_skip known, search_nil]

theorem search_filter {seen : List BlockId} (known : ∀ block ∈ seen, block ∈ met) (pending : List BlockId) :
    f.search met (pending.filter (· ∉ seen)) = f.search met pending := by
  induction pending generalizing met with
  | nil => rfl
  | cons block rest ih =>
    by_cases isMet : block ∈ met
    · rw [search_met isMet, filter_cons]
      split
      · rw [search_met isMet, ih known]
      · exact ih known
    · have unseen : block ∉ seen := fun isSeen => isMet (known block isSeen)
      rw [filter_cons_of_pos (by simpa using unseen), search_unmet isMet, search_unmet isMet, ih]
      exact fun o isSeen => by simp [known o isSeen]

/-- The loop lists the blocks in the order in which the recursion meets them. -/
theorem preorderFrom_search {stack : List BlockId} (res : f.preorderFrom steps stack met = .ok order) :
    order = met.reverse ++ (f.search met stack).preorder := by
  induction steps, stack, met using preorderFrom.induct with
  | case1 steps met => cases steps <;> simpa [preorderFrom, Forest.preorder, eq_comm] using res
  | case2 block stack met => cases res
  | case3 steps block stack met isMet ih =>
    rw [preorderFrom, if_pos isMet] at res
    rw [search_met isMet, ih res]
  | case4 steps block stack met unmet ih =>
    rw [preorderFrom, if_neg unmet] at res
    obtain ⟨body, got, res⟩ := bind_inv res
    rw [ih body res, preorder_search_append, search_filter fun _ => id, search_unmet unmet,
      succsOf_eq (get_eq_ok.mp got)]
    simp [Forest.preorder]

/-- What is done once all open blocks are done. -/
def unwind (f : Func) (met done : List BlockId) : List (BlockId × List BlockId) → List BlockId
  | [] => done
  | (block, pending) :: stack =>
    let inner := f.search met pending
    f.unwind (inner.preorder.reverse ++ met) (block :: (inner.postorder.reverse ++ done)) stack

theorem reversePostorderFrom_unwind {stack : List (BlockId × List BlockId)}
    (res : f.reversePostorderFrom steps stack met done = .ok order) : order = f.unwind met done stack := by
  induction steps, stack, met, done using reversePostorderFrom.induct with
  | case1 steps met done => cases steps <;> simpa [reversePostorderFrom, unwind, eq_comm] using res
  | case2 e stack met done => cases res
  | case3 steps block stack met done ih => simpa [unwind, Forest.preorder, Forest.postorder] using ih res
  | case4 steps block succ rest stack met done isMet ih =>
    rw [reversePostorderFrom, if_pos isMet] at res
    simpa only [unwind, search_met isMet] using ih res
  | case5 steps block succ rest stack met done unmet ih =>
    rw [reversePostorderFrom, if_neg unmet] at res
    obtain ⟨body, got, res⟩ := bind_inv res
    rw [ih body res]
    simp [unwind, search_unmet unmet, succsOf_eq (get_eq_ok.mp got), Forest.preorder, Forest.postorder]

/-- The trees of the search from the entry. -/
def searched (f : Func) : Forest := f.search [] [f.entry]

theorem preorder_searched (res : f.preorder = .ok order) : order = f.searched.preorder := preorderFrom_search res

theorem reversePostorder_searched (res : f.reversePostorder = .ok order) : order = f.searched.postorder.reverse := by
  obtain ⟨body, got, res⟩ := bind_inv res
  rw [reversePostorderFrom_unwind res, searched, search_unmet not_mem_nil, succsOf_eq (get_eq_ok.mp got)]
  simp [unwind, Forest.postorder]

/-- An edge of the function. -/
def Edge (f : Func) (u t : BlockId) : Prop := t ∈ f.succsOf u

/-- What a search has found: no block twice, all that edges lead to from the given blocks, and each block after the ends
of its edges, unless these are above it. -/
structure Searched (f : Func) (met pending : List BlockId) (forest : Forest) : Prop where
  once : forest.preorder.Nodup
  fresh : ∀ block ∈ forest.preorder, block ∉ met
  started : ∀ block ∈ pending, block ∈ met ∨ block ∈ forest.preorder
  onward : ∀ block ∈ forest.preorder, ∀ succ, f.Edge block succ → succ ∈ met ∨ succ ∈ forest.preorder
  reached : ∀ block ∈ forest.preorder, ∃ root ∈ pending, ReflTransGen f.Edge root block
  beneath : ∀ above below, forest.Above above below → TransGen f.Edge above below
  finished : ∀ u ∈ forest.preorder, ∀ t ∈ forest.preorder, f.Edge u t →
    t = u ∨ forest.Above t u ∨ [t, u] <+ forest.postorder

theorem Searched.grow {block : BlockId} {rest : List BlockId} {inner later : Forest} (unmet : block ∉ met)
    (innerFacts : f.Searched (block :: met) (f.succsOf block) inner)
    (laterFacts : f.Searched (inner.preorder.reverse ++ block :: met) rest later) :
    f.Searched met (block :: rest) (.grow block inner later) := by
  obtain ⟨innerOnce, innerFresh, innerStarted, innerOnward, innerReached, innerBeneath, innerFinished⟩ := innerFacts
  obtain ⟨laterOnce, laterFresh, laterStarted, laterOnward, laterReached, laterBeneath, laterFinished⟩ := laterFacts
  simp only [mem_append, mem_reverse, mem_cons] at *
  refine ⟨?_, ?_, ?_, ?_, ?_, ?_, ?_⟩
  · grind [Forest.preorder, nodup_append]
  · grind [Forest.preorder]
  · grind [Forest.preorder]
  · grind [Forest.preorder, Edge]
  · rintro o isOther
    rcases mem_cons.mp isOther with rfl | isOther
    · exact ⟨o, .head _, .refl⟩
    rcases mem_append.mp isOther with isInner | isLater
    · obtain ⟨root, edge, path⟩ := innerReached o isInner
      exact ⟨block, .head _, .head edge path⟩
    · obtain ⟨root, isRoot, path⟩ := laterReached o isLater
      exact ⟨root, .tail _ isRoot, path⟩
  · rintro above below (⟨rfl, isInner⟩ | isAbove | isAbove)
    · obtain ⟨root, edge, path⟩ := innerReached below isInner
      exact .head' edge path
    · exact innerBeneath above below isAbove
    · exact laterBeneath above below isAbove
  · intro u isSource t isTarget edge
    simp only [Forest.preorder, Forest.postorder, Forest.Above, mem_cons, mem_append] at isSource isTarget ⊢
    have inPost {forest : Forest} {block : BlockId} (isMember : block ∈ forest.preorder) :
      [block] <+ forest.postorder :=
      singleton_sublist.mpr (forest.postorder_perm.mem_iff.mpr isMember)
    -- no edge leads from the tree of the root to the trees that are grown after it
    have closed : u = block ∨ u ∈ inner.preorder → t ∉ later.preorder := by grind [Edge]
    rcases isSource with rfl | isInner | isLater
    · rcases isTarget with rfl | isInner | isLater
      · exact .inl rfl
      · exact .inr (.inr ((inPost isInner).append (singleton_sublist.mpr (.head _))))
      · exact absurd isLater (closed (.inl rfl))
    · rcases isTarget with rfl | isTarget | isLater
      · exact .inr (.inl (.inl ⟨rfl, isInner⟩))
      · rcases innerFinished u isInner t isTarget edge with same | isAbove | isBefore
        · exact .inl same
        · exact .inr (.inl (.inr (.inl isAbove)))
        · exact .inr (.inr (isBefore.trans (sublist_append_left ..)))
      · exact absurd isLater (closed (.inr isInner))
    · rcases isTarget with rfl | isInner | isTarget
      · exact .inr (.inr (((inPost isLater).cons_cons _).trans (sublist_append_right ..)))
      · exact .inr (.inr ((inPost isInner).append ((inPost isLater).cons _)))
      · rcases laterFinished u isLater t isTarget edge with same | isAbove | isBefore
        · exact .inl same
        · exact .inr (.inl (.inr (.inr isAbove)))
        · exact .inr (.inr ((isBefore.cons _).trans (sublist_append_right ..)))

theorem search_searched (f : Func) (met pending : List BlockId) : f.Searched met pending (f.search met pending) := by
  fun_induction f.search met pending with
  | case1 met => constructor <;> simp [Forest.preorder, Forest.Above]
  | case2 met block rest isMet ih =>
    exact { ih with
      started := by simpa [isMet] using ih.started
      reached := fun o isOther => by
        obtain ⟨root, isRoot, path⟩ := ih.reached o isOther
        exact ⟨root, .tail _ isRoot, path⟩ }
  | case3 met block rest unmet inner innerFacts laterFacts =>
    exact innerFacts.grow unmet laterFacts

/-- A block that was given before changes nothing. -/
theorem preorder_search_again (f : Func) {first second : List BlockId}
    (known : ∀ block ∈ second, block ∈ met ∨ block ∈ first) :
    (f.search met (first ++ second)).preorder = (f.search met first).preorder := by
  have started := (f.search_searched met first).started
  have later : ∀ block ∈ second, block ∈ (f.search met first).preorder.reverse ++ met := by grind
  rw [preorder_search_append, f.search_known later, Forest.preorder, append_nil]

/-- Depth-first search from the entry meets each block that edges lead to, and no other, once. -/
theorem mem_searched (block : BlockId) : block ∈ f.searched.preorder ↔ ReflTransGen f.Edge f.entry block := by
  have facts := f.search_searched [] [f.entry]
  constructor
  · intro isMember
    obtain ⟨root, isRoot, path⟩ := facts.reached block isMember
    exact mem_singleton.mp isRoot ▸ path
  · intro path
    induction path with
    | refl => exact (facts.started _ (.head _)).resolve_left not_mem_nil
    | tail _ edge ih => exact (facts.onward _ ih _ edge).resolve_left not_mem_nil

theorem preorder_once (f : Func) : f.searched.preorder.Nodup := (f.search_searched [] [f.entry]).once

theorem postorder_once (f : Func) : f.searched.postorder.reverse.Nodup :=
  nodup_reverse.mpr ((Forest.postorder_perm _).nodup_iff.mpr f.preorder_once)

end Func

end SinglePath
