import SinglePath.Proofs.Func.DepthFirst
import SinglePath.Proofs.Func.Layout

namespace SinglePath

open List Relation

namespace Func

structure Chained (f : Func) : Prop where
  laid : f.Laid
  linked : f.Linked
  edges : ∀ b ∈ f.layout, ∀ o, o ∈ f.succsOf b ↔
    (following b f.layout).head? = some o ∨ o ∈ f.targetsOf b
  sourced : ∀ b o, o ∈ f.succsOf b → b ∈ f.layout
  back : ∀ b ∈ f.layout, ∀ t ∈ f.targetsOf b, t ∉ following b f.layout
  starts : f.layout.head? = some f.entry
  entryFree : ∀ b ∈ f.layout, f.entry ∉ f.targetsOf b

/-- From each block of the layout control can go to the next one, and otherwise to no later one. -/
structure Strung (f : Func) : Prop where
  once : f.layout.Nodup
  found : ∀ b ∈ f.layout, ∃ body, f.block? b = some body
  next : ∀ b ∈ f.layout, ∀ o, (following b f.layout).head? = some o → o ∈ f.succsOf b
  back : ∀ b ∈ f.layout, ∀ o ∈ f.succsOf b, (following b f.layout).head? = some o ∨
    o ∈ f.layout ∧ o ∉ following b f.layout
  starts : f.layout.head? = some f.entry

variable {order blocks : List BlockId} {f : Func} {b : BlockId}

namespace Strung

variable {before after : List BlockId} (strung : f.Strung)

include strung

/-- From a block control can go to the next one and otherwise only back. -/
theorem succ_cases (split : f.layout = before ++ b :: after) : (∀ o, after.head? = some o → o ∈ f.succsOf b) ∧
      ∀ o ∈ f.succsOf b, after.head? = some o ∨ o ∈ b :: before.reverse := by
  have once := strung.once
  have inside : b ∈ f.layout := by simp [split]
  have follows := following_split once split
  refine ⟨fun o isNext => strung.next b inside o (follows ▸ isNext), fun o isSucc => ?_⟩
  rcases strung.back b inside o isSucc with isNext | ⟨laidOut, earlier⟩
  · exact .inl (follows ▸ isNext)
  · grind

theorem search_eq (split : f.layout = before ++ b :: after) : (f.search before.reverse [b]).preorder = b :: after := by
  induction after generalizing before b with
  | nil =>
    have unmet : b ∉ before.reverse := by grind [strung.once]
    have back := fun o isSucc => ((strung.succ_cases split).2 o isSucc).resolve_left (by simp)
    simp [search_unmet unmet, f.search_known back, Forest.preorder]
  | cons next more ih =>
    have unmet : b ∉ before.reverse := by grind [strung.once]
    obtain ⟨isNext, cases⟩ := strung.succ_cases split
    obtain ⟨earlier, later, succs, first⟩ := eq_append_cons_of_mem (isNext next rfl)
    rw [succs] at cases
    have nextSplit : f.layout = (before ++ [b]) ++ next :: more := by simp [split]
    have inner : (f.search (b :: before.reverse) (f.succsOf b)).preorder = next :: more := calc
      _ = (f.search (b :: before.reverse) ([next] ++ later)).preorder := by
        rw [succs, f.search_skip (by grind), singleton_append]
      _ = (f.search (b :: before.reverse) [next]).preorder := f.preorder_search_again (by grind)
      _ = next :: more := by simpa using ih nextSplit
    simp [search_unmet unmet, Forest.preorder, inner]

theorem preorder_eq (visited : f.preorder = .ok order) : order = f.layout := by
  obtain ⟨after, split⟩ := head?_eq_some_iff.mp strung.starts
  have fromStart : f.layout = [] ++ f.entry :: after := split
  rw [preorder_searched visited, split]
  exact strung.search_eq fromStart

end Strung

namespace Chained

variable {t : BlockId}

theorem mem_layout_of_target (chained : f.Chained) (inside : b ∈ f.layout)
    (branches : t ∈ f.targetsOf b) : t ∈ f.layout := by
  obtain ⟨inst, inCode, isTarget⟩ := mem_filterMap.mp branches
  exact chained.laid.targets b inside inst inCode t isTarget

theorem succ_mem (chained : f.Chained) {u : BlockId} (isSucc : t ∈ f.succsOf u) : t ∈ f.layout := by
  have inside := chained.sourced u t isSucc
  rcases (chained.edges u inside t).mp isSucc with isNext | isTarget
  · exact following_subset (mem_of_mem_head? isNext)
  · exact chained.mem_layout_of_target inside isTarget

theorem entry_not_succ (chained : f.Chained) (b : BlockId) : f.entry ∉ f.succsOf b := by
  intro edge
  have inside := chained.sourced b f.entry edge
  rcases (chained.edges b inside f.entry).mp edge with isNext | branches
  · obtain ⟨before, split⟩ := layout_split chained.laid.once inside
    obtain ⟨more, follows⟩ := head?_eq_some_iff.mp isNext
    have once := chained.laid.once
    have starts := chained.starts
    rw [follows] at split
    cases before <;> simp_all
  · exact chained.entryFree b inside branches

theorem strung (chained : f.Chained) : f.Strung where
  once := chained.laid.once
  found := chained.laid.found
  next b inside o isNext := (chained.edges b inside o).mpr (.inl isNext)
  back b inside o isSucc := by
    rcases (chained.edges b inside o).mp isSucc with isNext | branches
    · exact .inl isNext
    · exact .inr ⟨chained.mem_layout_of_target inside branches, chained.back b inside o branches⟩
  starts := chained.starts

end Chained

theorem mem_reversePostorder (res : f.reversePostorder = .ok order) (b : BlockId) :
    b ∈ order ↔ ReflTransGen f.Edge f.entry b := by
  rw [reversePostorder_searched res, mem_reverse, (Forest.postorder_perm _).mem_iff, mem_searched]

theorem reversePostorder_closed (res : f.reversePostorder = .ok order) :
    f.entry ∈ order ∧ ∀ b ∈ order, ∀ succ ∈ f.succsOf b, succ ∈ order := by
  simp only [mem_reversePostorder res]
  exact ⟨.refl, fun b path succ isSucc => path.tail isSucc⟩

/-- No edge leads out of the blocks. -/
def ClosedOn (f : Func) (blocks : List BlockId) : Prop :=
  ∀ b ∈ blocks, ∀ o ∈ f.succsOf b, o ∈ blocks

/-- A depth-first traversal meets each block once, and only blocks that edges lead to. -/
theorem reversePostorder_explored (closed : f.ClosedOn blocks) (entered : f.entry ∈ blocks)
    (res : f.reversePostorder = .ok order) : order.Nodup ∧ ∀ b ∈ order, b ∈ blocks := by
  refine ⟨reversePostorder_searched res ▸ f.postorder_once, fun b isMet => ?_⟩
  have path := (mem_reversePostorder res b).mp isMet
  clear isMet
  induction path with
  | refl => exact entered
  | tail _ edge ih => exact closed _ ih _ edge

end Func

end SinglePath
