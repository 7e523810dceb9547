import Mathlib.Algebra.BigOperators.Group.Finset.Basic
import SinglePath.Proofs.Func.Edges
import SinglePath.Proofs.Func.Layout

/-!
The code of a function, how much of it there is, and code with other code woven into it.
-/

namespace SinglePath

open Finset List

/-- The old instructions are kept in their order, and all instructions between them are made. -/
inductive Woven (Kept : Inst → Inst → Prop) (Made : Inst → Prop) : List Inst → List Inst → Prop where
  | nil : Woven Kept Made [] []
  | keep {old new : Inst} {olds news : List Inst} (kept : Kept old new) (later : Woven Kept Made olds news) :
      Woven Kept Made (old :: olds) (new :: news)
  | made {new : Inst} {olds news : List Inst} (isMade : Made new) (later : Woven Kept Made olds news) :
      Woven Kept Made olds (new :: news)

namespace Woven

variable {Kept : Inst → Inst → Prop} {Made : Inst → Prop} {olds news : List Inst}

theorem append (first : Woven Kept Made olds news) {moreOlds moreNews : List Inst}
    (second : Woven Kept Made moreOlds moreNews) : Woven Kept Made (olds ++ moreOlds) (news ++ moreNews) := by
  induction first with
  | nil => exact second
  | keep kept _ ih => exact .keep kept ih
  | made isMade _ ih => exact .made isMade ih

theorem of_made {code : List Inst} (each : ∀ inst ∈ code, Made inst) : Woven Kept Made [] code := by
  induction code with
  | nil => exact .nil
  | cons inst rest ih =>
    exact .made (each inst (.head _)) (ih fun o mem => each o (.tail _ mem))

theorem refl (each : ∀ inst, Kept inst inst) (code : List Inst) : Woven Kept Made code code := by
  induction code with
  | nil => exact .nil
  | cons inst rest ih => exact .keep (each inst) ih

theorem length_le (woven : Woven Kept Made olds news) : olds.length ≤ news.length := by
  induction woven with
  | nil => exact Nat.le_refl 0
  | keep _ _ ih => exact Nat.succ_le_succ ih
  | made _ _ ih => exact Nat.le_succ_of_le ih

/-- Two weavings make one, if what is made stays so. -/
theorem trans (first : Woven Kept Made olds news) {last : List Inst} (second : Woven Kept Made news last)
    (both : ∀ a b c, Kept a b → Kept b c → Kept a c) (stays : ∀ a b, Made a → Kept a b → Made b) :
    Woven Kept Made olds last := by
  induction second generalizing olds with
  | nil =>
    cases first
    exact .nil
  | keep kept _ ih =>
    cases first with
    | keep keptBefore later => exact .keep (both _ _ _ keptBefore kept) (ih later)
    | made isMade later => exact .made (stays _ _ isMade kept) (ih later)
  | made isMade _ ih => exact .made isMade (ih first)

section

variable (woven : Woven Kept Made olds news) {Made' : Inst → Prop}

include woven

/-- Every new instruction is changed in the same way. -/
theorem map {Kept' : Inst → Inst → Prop} (change : Inst → Inst) (kept : ∀ old new, Kept old new →
    Kept' old (change new))
    (made : ∀ new, Made new → Made' (change new)) : Woven Kept' Made' olds (news.map change) := by
  induction woven with
  | nil => exact .nil
  | keep isKept _ ih => exact .keep (kept _ _ isKept) ih
  | made isMade _ ih => exact .made (made _ isMade) ih

theorem mono (weakens : ∀ inst, Made inst → Made' inst) : Woven Kept Made' olds news := by
  induction woven with
  | nil => exact .nil
  | keep kept _ ih => exact .keep kept ih
  | made isMade _ ih => exact .made (weakens _ isMade) ih

theorem forall_new {Holds : Inst → Prop} (kept : ∀ old ∈ olds, ∀ new, Kept old new → Holds new)
    (made : ∀ new, Made new → Holds new) : ∀ new ∈ news, Holds new := by
  induction woven with
  | nil => exact nofun
  | keep isKept _ ih =>
    exact forall_mem_cons.mpr ⟨kept _ (.head _) _ isKept, ih (forall_mem_cons.mp kept).2⟩
  | made isMade _ ih => exact forall_mem_cons.mpr ⟨made _ isMade, ih kept⟩

theorem filterMap_eq {α : Type} {pick : Inst → Option α} (kept : ∀ old new, Kept old new → pick new = pick old)
    (made : ∀ new, Made new → pick new = none) : news.filterMap pick = olds.filterMap pick := by
  induction woven with
  | nil => rfl
  | keep isKept _ ih =>
    rw [filterMap_cons, filterMap_cons, kept _ _ isKept, ih]
  | made isMade _ ih => rw [filterMap_cons_none (made _ isMade), ih]

end

theorem sublist (woven : Woven Eq Made olds news) : olds.Sublist news := by
  induction woven with
  | nil => exact .slnil
  | keep kept _ ih => exact kept ▸ ih.cons_cons _
  | made _ _ ih => exact ih.cons _

/-- Dropping instructions that are no old ones leaves the rest woven. -/
theorem drop (woven : Woven Kept Made olds news) {Dropped : Inst → Prop} {fewer : List Inst}
    (drops : Woven Eq Dropped fewer news) (spared : ∀ old ∈ olds, ∀ new, Kept old new → ¬ Dropped new) :
    Woven Kept Made olds fewer := by
  induction woven generalizing fewer with
  | nil =>
    cases drops
    exact .nil
  | keep kept _ ih =>
    have sparedLater := (forall_mem_cons.mp spared).2
    cases drops with
    | keep same later => exact same ▸ .keep kept (ih later sparedLater)
    | made isDropped _ => exact absurd isDropped (spared _ (.head _) _ kept)
  | made isMade _ ih =>
    cases drops with
    | keep same later => exact same ▸ .made isMade (ih later spared)
    | made _ later => exact ih later spared

end Woven

namespace Func

/-- The code of all blocks in layout order. -/
def code (f : Func) : List Inst := f.layout.flatMap f.codeOf

/-- The number of instructions in all blocks. -/
def size (f : Func) : Nat := (f.blocks.map (·.insts.length)).sum

theorem sum_modify {α : Type} (measure : α → Nat) (change : α → α) {items : List α} {i : Nat} {x : α}
    (got : items[i]? = some x) :
    ((items.modify i change).map measure).sum + measure x = (items.map measure).sum + measure (change x) := by
  induction items generalizing i with
  | nil => simp at got
  | cons first rest ih =>
    cases i with
    | zero =>
      obtain rfl : first = x := by simpa using got
      simp only [modify_zero_cons, List.map_cons, List.sum_cons]
      omega
    | succ i =>
      have later := ih (show rest[i]? = some x by simpa using got)
      simp only [modify_succ_cons, List.map_cons, List.sum_cons]
      omega

theorem size_modify {f : Func} {block : BlockId} {body : Block} (got : f.block? block = some body)
    (change : Block → Block) : (f.modify block change).size + body.insts.length = f.size + (change body).insts.length :=
  sum_modify (·.insts.length) change got

theorem size_eq (f : Func) : f.size = ∑ index ∈ range f.blocks.length, (f.codeOf ⟨index⟩).length := by
  have counted : ∀ blocks : List Block, (blocks.map (·.insts.length)).sum =
      ∑ index ∈ range blocks.length, ((blocks[index]?.map (·.insts)).getD []).length := by
    intro blocks
    induction blocks with
    | nil => rfl
    | cons first rest ih =>
      rw [List.map_cons, List.sum_cons, ih, length_cons, Finset.sum_range_succ', Nat.add_comm]
      rfl
  exact counted f.blocks

theorem size_addBlock (f : Func) (name : String) (insts : List Inst) :
    (f.addBlock name insts).2.size = f.size + insts.length := by
  simp [size, addBlock]

theorem size_clearEdges (f : Func) : f.clearEdges.size = f.size := by
  simp [size, clearEdges, Function.comp_def]

theorem SameButEdges.size {f o : Func} (same : f.SameButEdges o) : o.size = f.size := by
  rw [← size_clearEdges, ← same, size_clearEdges]

theorem size_split (f : Func) {blocks : List BlockId} (once : blocks.Nodup)
    (inside : ∀ block ∈ blocks, block.index < f.blocks.length) :
    f.size = (blocks.flatMap f.codeOf).length +
      ∑ index ∈ range f.blocks.length with (⟨index⟩ : BlockId) ∉ blocks, (f.codeOf ⟨index⟩).length := by
  have indices : (blocks.map BlockId.index).Nodup := once.map fun first second same => by
    exact congrArg BlockId.mk same
  have mem : (Finset.range f.blocks.length).filter (fun index => (⟨index⟩ : BlockId) ∈ blocks) =
      (blocks.map BlockId.index).toFinset := by
    ext index
    simp only [Finset.mem_filter, Finset.mem_range, mem_toFinset, List.mem_map]
    constructor
    · exact fun member => ⟨⟨index⟩, member.2, rfl⟩
    · rintro ⟨block, member, rfl⟩
      exact ⟨inside block member, member⟩
  rw [size_eq, ← sum_filter_add_sum_filter_not _ fun index => (⟨index⟩ : BlockId) ∈ blocks, mem,
    sum_toFinset _ indices, List.map_map, length_flatMap]
  rfl

end Func

end SinglePath
