import SinglePath.Proofs.CellFlow.Facts
import SinglePath.Proofs.Func.Joined
import SinglePath.Proofs.Func.Recoded

/-!
What dropping loads and stores takes from a function: unguarded loads and stores of the tracked cells and nothing else,
each of them counted.
-/

namespace SinglePath

open CellSet Inst List

variable {cells : List CellId} {inst : Inst} {guards : GReg}

/-- A load or a store of one of the cells. -/
def Inst.Touches (cells : List CellId) (inst : Inst) : Prop :=
  ∃ c ∈ cells, inst.readsCell = some c ∨ inst.writesCell = some c

theorem Inst.writesCell_of_cellStore {c : CellId} {src : GReg}
    (isStore : inst.cellStore = some (c, src)) : inst.writesCell = some c := by
  simp [writesCell, (cellStore_eq_some.mp isStore).1]

namespace CellFlow

theorem touches_of_isRedundantLoad {available : CellSet}
    (redundant : isRedundantLoad guards (ofList cells) available inst = true) : inst.Touches cells := by
  unfold isRedundantLoad at redundant
  split at redundant
  · rename_i dst c isLoad
    refine ⟨c, ?_, .inl (by simp [readsCell, (cellLoad_eq_some.mp isLoad).1])⟩
    simpa using (Bool.and_eq_true_iff.mp (Bool.and_eq_true_iff.mp redundant).1).2
  · cases redundant

theorem touches_of_isDeadStore {live : CellSet}
    (dead : isDeadStore (ofList cells) live inst = true) : inst.Touches cells := by
  unfold isDeadStore at dead
  split at dead
  · rename_i c src isStore
    exact ⟨c, by simpa using (Bool.and_eq_true_iff.mp dead).1, .inr (writesCell_of_cellStore isStore)⟩
  · cases dead

theorem keepLoads_woven (guards : GReg) (cells : List CellId) (available : CellSet) (code : List Inst) :
    Woven Eq (Touches cells) (keepLoads guards (ofList cells) available code) code := by
  induction code generalizing available with
  | nil => exact .nil
  | cons inst rest ih =>
    rw [keepLoads]
    split
    · exact .made (touches_of_isRedundantLoad ‹_›) (ih _)
    · exact .keep rfl (ih _)

theorem keepStores_woven (cells : List CellId) (live : CellSet) (code : List Inst) :
    Woven Eq (Touches cells) (keepStores (ofList cells) live code).1 code := by
  induction code with
  | nil => exact .nil
  | cons inst rest ih =>
    rw [keepStores]
    dsimp only
    split
    · exact .made (touches_of_isDeadStore ‹_›) ih
    · exact .keep rfl ih

end CellFlow

namespace Func

variable {f next last : Func} {Dropped : Inst → Prop} {keep : Block → List Inst} {blocks : List (BlockId × Block)}
  {n : Nat} {order : List BlockId}

theorem blocksOf_keys (res : f.blocksOf order = .ok blocks) : blocks.map (·.1) = order := by
  refine ext_getElem? fun i => ?_
  rw [getElem?_map]
  cases got : blocks[i]? with
  | none =>
    have length := mapM_length res
    rw [getElem?_eq_none_iff, length] at got
    rw [getElem?_eq_none got]
    rfl
  | some e =>
    obtain ⟨b, isBlock, gathered⟩ := mapM_getElem? res got
    obtain ⟨body, _, rfl⟩ := bind_pure_inv gathered
    rw [isBlock]
    rfl

/-- Instructions are dropped from the code of the blocks, and all else stays. -/
structure Thinned (Dropped : Inst → Prop) (f next : Func) : Prop where
  recoded : Recoded f next next.codeOf
  codes : ∀ b ∈ f.layout, Woven Eq Dropped (next.codeOf b) (f.codeOf b)

namespace Thinned

theorem refl (f : Func) : Thinned Dropped f f := ⟨.refl f, fun _ _ => .refl (fun _ => rfl) _⟩

theorem trans (first : Thinned Dropped f next) (second : Thinned Dropped next last) : Thinned Dropped f last where
  recoded := {
    layout := second.recoded.layout.trans first.recoded.layout
    entry := second.recoded.entry.trans first.recoded.entry
    succsOf := fun b => (second.recoded.succsOf b).trans (first.recoded.succsOf b)
    predsOf := fun b => (second.recoded.predsOf b).trans (first.recoded.predsOf b)
    standing := fun b => (second.recoded.standing b).trans (first.recoded.standing b)
    found := fun b got => second.recoded.found b (first.recoded.found b got)
    codeOf := fun _ _ => rfl }
  codes b inside :=
    (second.codes b (first.recoded.layout ▸ inside)).trans (first.codes b inside) (fun _ _ _ => Eq.trans)
      fun _ _ isDropped same => same ▸ isDropped

end Thinned

theorem Trimmed.codes (trimmed : Trimmed keep order f next)
    (keeps : ∀ body, Woven Eq Dropped (keep body) body.insts) (b : BlockId) :
    Woven Eq Dropped (next.codeOf b) (f.codeOf b) := by
  rw [codeOf, codeOf, trimmed.block?]
  cases f.block? b with
  | none => exact .nil
  | some body =>
    dsimp only [Option.map_some, Option.getD_some]
    split
    · exact keeps body
    · exact .refl (fun _ => rfl) _

/-- Instructions are dropped from the blocks that the traversal meets, and counted. -/
inductive Swept (Dropped : Inst → Prop) (f next : Func) (n : Nat) : Prop
  | intro {order : List BlockId} {keep : Block → List Inst} (traversed : f.reversePostorder = .ok order)
      (trimmed : Trimmed keep order f next) (keeps : ∀ body, Woven Eq Dropped (keep body) body.insts)
      (size : order.Nodup → next.size + n = f.size)

theorem Swept.thinned (swept : Swept Dropped f next n) : Thinned Dropped f next := by
  obtain ⟨_, trimmed, keeps, _⟩ := swept
  exact ⟨trimmed.recoded, fun b _ => trimmed.codes keeps b⟩

theorem shrink_swept {mem : List BlockId} (traversed : f.reversePostorder = .ok order) (same : mem.Perm order)
    (gathered : f.blocksOf mem = .ok blocks) (keeps : ∀ body, Woven Eq Dropped (keep body) body.insts)
    (res : f.shrink blocks keep = (n, next)) : Swept Dropped f next n := by
  obtain ⟨trimmed, size⟩ := shrink_trimmed keep gathered
  rw [res] at trimmed size
  exact ⟨traversed, trimmed.of_mem fun _ => same.mem_iff, keeps,
    fun once => size (same.nodup_iff.mpr once) fun body => (keeps body).length_le⟩

theorem dropRedundantLoads_swept (res : f.dropRedundantLoads guards cells = .ok (n, next)) :
    Swept (Touches cells) f next n := by
  obtain ⟨order, traversed, blocks, gathered, res⟩ := bind_bind_inv res
  exact shrink_swept traversed (.refl _) gathered
    (fun body => CellFlow.keepLoads_woven guards cells _ body.insts) (pure_inv res)

theorem dropDeadStores_swept (res : f.dropDeadStores cells = .ok (n, next)) : Swept (Touches cells) f next n := by
  obtain ⟨order, traversed, blocks, gathered, res⟩ := bind_bind_inv res
  exact shrink_swept traversed (reverse_perm _) gathered
    (fun body => CellFlow.keepStores_woven cells _ body.insts) (pure_inv res)

/-- All code of the function is in the layout, and the blocks that control can reach are known. -/
structure Compact (f : Func) (blocks : List BlockId) : Prop where
  once : f.layout.Nodup
  inside : ∀ b ∈ f.layout, b.index < f.blocks.length
  entered : f.entry ∈ blocks
  closed : f.ClosedOn blocks
  empty : ∀ b ∈ blocks, b ∉ f.layout → f.codeOf b = []

namespace Compact

variable {blocks : List BlockId}

/-- What is dropped from blocks that control can reach is dropped from the code. -/
theorem swept (compact : f.Compact blocks) (swept : Swept Dropped f next n) :
    next.Compact blocks ∧ Woven Eq Dropped next.code f.code ∧ next.code.length + n = f.code.length := by
  obtain @⟨order, _, traversed, trimmed, keeps, counted⟩ := swept
  obtain ⟨met, within⟩ := reversePostorder_explored compact.closed compact.entered traversed
  have empty : ∀ b ∈ blocks, b ∉ f.layout → next.codeOf b = [] := by
    intro b isReached outside
    have shorter := (trimmed.codes keeps b).length_le
    rw [compact.empty b isReached outside] at shorter
    exact eq_nil_of_length_eq_zero (Nat.le_zero.mp shorter)
  have inside : ∀ b ∈ next.layout, b.index < next.blocks.length := by
    rw [trimmed.layout, trimmed.length]
    exact compact.inside
  have once : next.layout.Nodup := trimmed.layout ▸ compact.once
  refine ⟨⟨once, inside, trimmed.entry ▸ compact.entered, fun b isReached o edge => ?_, ?_⟩, ?_, ?_⟩
  · exact compact.closed b isReached o (trimmed.recoded.succsOf b ▸ edge)
  · rw [trimmed.layout]
    exact empty
  · rw [code, code, trimmed.layout]
    induction f.layout with
    | nil => exact .nil
    | cons b rest ih => exact (trimmed.codes keeps b).append ih
  · have isFunc := f.size_split compact.once compact.inside
    have isNext := next.size_split once inside
    have sameRest : ∑ index ∈ Finset.range next.blocks.length with (⟨index⟩ : BlockId) ∉ next.layout,
        (next.codeOf ⟨index⟩).length = ∑ index ∈ Finset.range f.blocks.length with (⟨index⟩ : BlockId) ∉ f.layout,
        (f.codeOf ⟨index⟩).length := by
      rw [trimmed.layout, trimmed.length]
      refine Finset.sum_congr rfl fun index isOutside => ?_
      have outside := (Finset.mem_filter.mp isOutside).2
      by_cases mem : (⟨index⟩ : BlockId) ∈ order
      · rw [empty _ (within _ mem) outside, compact.empty _ (within _ mem) outside]
      · simp [codeOf, trimmed.block?, mem]
    have size := counted met
    rw [code, code]
    omega

end Compact

end Func

end SinglePath
