import SinglePath.Proofs.CellFlow.Trimmed
import SinglePath.Proofs.Func.Renumbered

namespace SinglePath

open List Op Option

variable {f : Func} {inst : Inst} {fault : Fault}

namespace Func

variable {b base u t : BlockId}

theorem index_lt_of_succ (isSucc : t ∈ f.succsOf u) : u.index < f.blocks.length := by
  by_contra outside
  simp [succsOf, block?, getElem?_eq_none (Nat.le_of_not_lt outside)] at isSucc

theorem index_lt_of_pred (isPred : u ∈ f.predsOf t) : t.index < f.blocks.length := by
  by_contra outside
  simp [predsOf, block?, getElem?_eq_none (Nat.le_of_not_lt outside)] at isPred

theorem Linked.succ_lt (linked : f.Linked) (isSucc : t ∈ f.succsOf u) : t.index < f.blocks.length :=
  index_lt_of_pred ((linked.ends u t).mp isSucc)

theorem Linked.pred_lt (linked : f.Linked) (isPred : u ∈ f.predsOf t) : u.index < f.blocks.length :=
  index_lt_of_succ ((linked.ends u t).mpr isPred)

theorem removeEdge_total (fromInside : u.index < f.blocks.length) (toInside : t.index < f.blocks.length) :
    ∃ next, f.removeEdge u t = .ok next := by
  obtain ⟨body, got⟩ := get_total fromInside
  obtain ⟨o, gotOther⟩ := get_total toInside
  simp only [removeEdge, got, gotOther, ok_bind]
  exact ⟨_, rfl⟩

theorem removeEdges_total {others : List BlockId} (edge : BlockId → BlockId × BlockId)
    (each : ∀ o ∈ others, (edge o).1.index < f.blocks.length ∧ (edge o).2.index < f.blocks.length) :
    ∃ next, others.foldlM (fun f o => f.removeEdge (edge o).1 (edge o).2) f = .ok next := by
  obtain ⟨next, removed, _⟩ : ∃ next, others.foldlM (fun f o => f.removeEdge (edge o).1 (edge o).2) f =
      .ok next ∧ next.blocks.length = f.blocks.length := by
    refine foldlM_ok (fun s : Func => s.blocks.length = f.blocks.length) rfl fun s same o mem => ?_
    obtain ⟨next, removed⟩ := removeEdge_total (same.symm ▸ (each o mem).1) (same.symm ▸ (each o mem).2)
    exact ⟨next, removed, (removeEdge_sameButEdges removed).blocks.symm.trans same⟩
  exact ⟨next, removed⟩

/-- The edges that leave a block can be removed. -/
theorem removeSuccs_total (linked : f.Linked) (inside : b.index < f.blocks.length) :
    ∃ next, f.removeSuccs b = .ok next := by
  obtain ⟨body, got⟩ := get_total inside
  obtain ⟨next, removed⟩ := removeEdges_total (fun succ => (b, succ)) fun succ (isSucc : succ ∈ body.succs) =>
    ⟨inside, linked.succ_lt (succsOf_eq (get_eq_ok.mp got) ▸ isSucc)⟩
  exact ⟨next, bind_ok got removed⟩

theorem removePreds_total (linked : f.Linked) (inside : b.index < f.blocks.length) :
    ∃ next, f.removePreds b = .ok next := by
  obtain ⟨body, got⟩ := get_total inside
  obtain ⟨next, removed⟩ := removeEdges_total (fun pred => (pred, b)) fun pred (isPred : pred ∈ body.preds) =>
    ⟨linked.pred_lt (predsOf_eq (get_eq_ok.mp got) ▸ isPred), inside⟩
  exact ⟨next, bind_ok got removed⟩

theorem moveSuccs_total {succs : List BlockId} (inside : b.index < f.blocks.length)
    (baseInside : base.index < f.blocks.length) (each : ∀ succ ∈ succs, succ.index < f.blocks.length) :
    ∃ next, f.moveSuccs b base succs = .ok next := by
  induction succs generalizing f with
  | nil => exact ⟨f, rfl⟩
  | cons succ rest ih =>
    have succInside := each succ (.head _)
    obtain ⟨cut, removed⟩ := removeEdge_total inside succInside
    have sameCut := (removeEdge_sameButEdges removed).blocks
    obtain ⟨joined, added⟩ := addEdge_total (sameCut ▸ baseInside) (sameCut ▸ succInside)
    have same := sameCut.trans (addEdge_sameButEdges added).blocks
    obtain ⟨next, moved⟩ := ih (same ▸ inside) (same ▸ baseInside) fun o mem => same ▸ each o (.tail _ mem)
    exact ⟨next, bind_ok removed <| bind_ok added moved⟩

/-- A block can be erased if the lists of edges are in step. -/
theorem erase_total (linked : f.Linked) (inside : b.index < f.blocks.length) : ∃ next, f.erase b = .ok next := by
  obtain ⟨unsourced, removing⟩ := removeSuccs_total linked inside
  obtain ⟨relinked, _⟩ := removeSuccs_ok removing
  obtain ⟨isolated, removingPreds⟩ := removePreds_total (relinked.linked linked) (relinked.same.blocks ▸ inside)
  exact ⟨_, bind_ok removing <| bind_ok removingPreds rfl⟩

/-- A block can be spliced if the lists of edges are in step. -/
theorem splice_total (linked : f.Linked) (baseInside : base.index < f.blocks.length)
    (inside : b.index < f.blocks.length) : ∃ next, f.splice base b = .ok next := by
  obtain ⟨body, got⟩ := get_total inside
  obtain ⟨baseContent, gotBase⟩ := get_total baseInside
  have updated : f.update base (·.append body.insts) = .ok (f.modify base (·.append body.insts)) :=
    bind_ok gotBase rfl
  have linkedAppended := linked.modify base (·.append body.insts) (fun _ => rfl) fun _ => rfl
  have sameAppended : (f.modify base (·.append body.insts)).blocks.length = f.blocks.length := length_modify ..
  obtain ⟨cut, removing⟩ := removeEdge_total (sameAppended.symm ▸ baseInside) (sameAppended.symm ▸ inside)
  have linkedCut := linkedAppended.removeEdge removing
  have sameCut : cut.blocks.length = f.blocks.length :=
    (removeEdge_sameButEdges removing).blocks.symm.trans sameAppended
  obtain ⟨rest, gotRest⟩ := get_total (sameCut.symm ▸ inside)
  obtain ⟨moved, moving⟩ := moveSuccs_total (sameCut.symm ▸ inside) (sameCut.symm ▸ baseInside)
    fun succ (isSucc : succ ∈ rest.succs) =>
    linkedCut.succ_lt (succsOf_eq (get_eq_ok.mp gotRest) ▸ isSucc)
  obtain ⟨relinked, _⟩ := moveSuccs_ok moving
  obtain ⟨next, erased⟩ := erase_total (relinked.linked linkedCut) (relinked.same.blocks ▸ sameCut.symm ▸ inside)
  exact ⟨next, bind_ok got <| bind_ok updated <| bind_ok removing <| bind_ok gotRest <| bind_ok moving erased⟩

/-- The loop of merging never fails. -/
theorem mergeFrom_total {rest : List BlockId} (linked : f.Linked)
    (inside : ∀ b ∈ base :: rest, b.index < f.blocks.length) : ∃ merged, mergeFrom base rest f = .ok merged := by
  induction size : rest.length using Nat.strongRecOn generalizing base rest f with
  | ind size ih =>
    subst size
    cases rest with
    | nil => exact ⟨f, rfl⟩
    | cons b rest =>
      have blockInside := inside b (by simp)
      have baseInside := inside base (by simp)
      obtain ⟨body, got⟩ := get_total blockInside
      rw [mergeFrom, got, ok_bind]
      split
      · obtain ⟨next, spliced⟩ := splice_total linked baseInside blockInside
        have step := splice_ok spliced
        obtain ⟨baseContent, gotBase⟩ := get_total (step.length.symm ▸ baseInside)
        simp only [spliced, gotBase, ok_bind]
        split
        · cases rest with
          | nil => exact ⟨next, rfl⟩
          | cons fresh later =>
            refine ih _ ?_ (step.linked linked) (fun o mem => ?_) rfl
            · simp only [length_cons]
              omega
            · rw [step.length]
              exact inside o (by tauto)
        · refine ih _ (by simp) (step.linked linked) (fun o mem => ?_) rfl
          rw [step.length]
          exact inside o (by simp at mem ⊢; tauto)
      · exact ih _ (by simp) linked (forall_mem_cons.mp inside).2 rfl

theorem Laid.index_lt (laid : f.Laid) (inside : b ∈ f.layout) : b.index < f.blocks.length := by
  obtain ⟨body, found⟩ := laid.found b inside
  exact lt_length found

theorem Chained.pred_mem (chained : f.Chained) (isPred : u ∈ f.predsOf t) : u ∈ f.layout :=
  chained.sourced u t ((chained.linked.ends u t).mpr isPred)

/-- In a chain every edge leads to a block. -/
theorem Chained.closed (chained : f.Chained) : f.Closed where
  entered := chained.laid.found _ chained.laid.entered
  ends _ succ isSucc := chained.laid.found succ (chained.succ_mem isSucc)

/-- A chain can be merged. -/
theorem Chained.merge_total (chained : f.Chained) : ∃ merged, f.merge = .ok merged := by
  obtain ⟨order, visited⟩ := chained.closed.preorder_ok
  obtain rfl := chained.strung.preorder_eq visited
  cases isLayout : f.layout with
  | nil => exact ⟨f, by simp only [merge, visited, ok_bind, isLayout]; rfl⟩
  | cons base rest =>
    rw [merge, visited, ok_bind, isLayout]
    refine mergeFrom_total chained.linked fun b mem => ?_
    exact chained.laid.index_lt (isLayout ▸ mem)

theorem Closed.gather_ok (closed : f.Closed) : ∃ order, f.reversePostorder = .ok order ∧
    (∃ blocks, f.blocksOf order = .ok blocks) ∧ ∃ blocks, f.blocksOf order.reverse = .ok blocks := by
  obtain ⟨order, traversed⟩ := closed.reversePostorder_ok
  have known := closed.known traversed
  exact ⟨order, traversed, blocksOf_ok known, blocksOf_ok fun b mem => known b (mem_reverse.mp mem)⟩

/-- Redundant loads can be dropped if every edge leads to a block. -/
theorem Closed.dropRedundantLoads_total (closed : f.Closed) (guards : GReg) (cells : List CellId) :
    ∃ dropped, f.dropRedundantLoads guards cells = .ok dropped := by
  obtain ⟨order, traversed, ⟨blocks, gathered⟩, _⟩ := closed.gather_ok
  rw [dropRedundantLoads, traversed, ok_bind, gathered]
  exact ⟨_, rfl⟩

/-- Dead stores can be dropped if every edge leads to a block. -/
theorem Closed.dropDeadStores_total (closed : f.Closed) (cells : List CellId) :
    ∃ dropped, f.dropDeadStores cells = .ok dropped := by
  obtain ⟨order, traversed, _, blocks, gathered⟩ := closed.gather_ok
  rw [dropDeadStores, traversed, ok_bind, gathered]
  exact ⟨_, rfl⟩

end Func

/-- Every frame cell that the instruction names has a byte offset. -/
def Inst.Addressable (inst : Inst) : Prop :=
  ∀ c, inst.readsCell = some c ∨ inst.writesCell = some c → ∃ offset, c.offset = .ok offset

theorem Inst.addressable_iff : inst.Addressable ↔
    ∀ c ∈ inst.readsCell.toList ++ inst.writesCell.toList, c.offset.toOption.isSome = true := by
  simp only [Addressable, mem_append, mem_toList]
  refine forall_congr' fun c => imp_congr_right fun _ => ?_
  cases c.offset <;> simp [Except.toOption]

instance (inst : Inst) : Decidable inst.Addressable := decidable_of_iff' _ Inst.addressable_iff

/-- A cell has a byte offset, or the offset leaves its word. -/
theorem CellId.offset_cases (c : CellId) : (∃ offset, c.offset = .ok offset) ∨ c.offset = .error .overflow := by
  unfold offset
  dsimp only
  split
  · exact .inl ⟨_, rfl⟩
  · exact .inr rfl

namespace Inst

theorem resolve_cases (inst : Inst) : inst.resolve = .ok inst ∨
    ∃ (c : CellId) (make : Int → Inst), (inst.readsCell = some c ∨ inst.writesCell = some c) ∧
      (∀ offset, (make offset).Addressable) ∧ inst.resolve = do return make (← c.offset) := by
  obtain ⟨guard, frameSetup, op⟩ := inst
  cases op with
  | load dst addr =>
    cases addr with
    | frame c =>
      exact .inr ⟨c, fun offset => ⟨guard, frameSetup, .load dst (.stack offset)⟩, .inl rfl,
        by simp [Addressable, readsCell, writesCell], by simp [resolve, Op.resolve]⟩
    | _ => exact .inl rfl
  | store addr src =>
    cases addr with
    | frame c =>
      exact .inr ⟨c, fun offset => ⟨guard, frameSetup, .store (.stack offset) src⟩, .inr rfl,
        by simp [Addressable, readsCell, writesCell], by simp [resolve, Op.resolve]⟩
    | _ => exact .inl rfl
  | _ => exact .inl rfl

/-- An instruction whose cells have offsets can be resolved. -/
theorem Addressable.resolve_total (addressable : inst.Addressable) :
    ∃ resolved, inst.resolve = .ok resolved ∧ resolved.Addressable := by
  rcases inst.resolve_cases with same | ⟨c, make, named, made, resolves⟩
  · exact ⟨inst, same, addressable⟩
  · obtain ⟨offset, isOffset⟩ := addressable c named
    exact ⟨make offset, by rw [resolves, isOffset]; rfl, made offset⟩

theorem resolve_error (failed : inst.resolve = .error fault) : fault = .overflow := by
  rcases inst.resolve_cases with same | ⟨c, make, _, _, resolves⟩
  · cases same.symm.trans failed
  · rw [resolves] at failed
    rcases c.offset_cases with ⟨offset, isOffset⟩ | far
    · rw [isOffset] at failed
      cases failed
    · rw [far] at failed
      cases failed
      rfl

end Inst

namespace Func

theorem resolveCells_total (found : ∀ b ∈ f.layout, b.index < f.blocks.length)
    (addressable : ∀ b ∈ f.layout, ∀ inst ∈ f.codeOf b, inst.Addressable) : ∃ next, f.resolveCells = .ok next := by
  obtain ⟨next, resolved, _⟩ : ∃ next, f.resolveCells = .ok next ∧ next.blocks.length = f.blocks.length ∧
      ∀ b ∈ f.layout, ∀ inst ∈ next.codeOf b, inst.Addressable := by
    refine foldlM_ok (fun s : Func => s.blocks.length = f.blocks.length ∧
      ∀ b ∈ f.layout, ∀ inst ∈ s.codeOf b, inst.Addressable) ⟨rfl, addressable⟩ ?_
    rintro s ⟨sameLength, each⟩ b mem
    obtain ⟨body, got⟩ := get_total (sameLength.symm ▸ found b mem)
    have addressed : ∀ inst ∈ body.insts, inst.Addressable := codeOf_eq (get_eq_ok.mp got) ▸ each b mem
    obtain ⟨insts, mapped⟩ : ∃ insts, body.insts.mapM Inst.resolve = .ok insts := mapM_ok fun inst isInst =>
      (addressed inst isInst).resolve_total.imp fun _ both => both.1
    refine ⟨_, by rw [got, ok_bind, mapped]; rfl, (length_modify ..).trans sameLength, fun o otherListed inst => ?_⟩
    rw [codeOf_modify]
    split
    · next isBlock =>
        rw [isBlock, get_eq_ok.mp got, map_some, getD_some]
        intro isInst
        obtain ⟨i, isAt⟩ := mem_iff_getElem?.mp isInst
        obtain ⟨old, isOld, isResolved⟩ := mapM_getElem? mapped isAt
        obtain ⟨same, isSame, addressable⟩ := (addressed old (mem_of_getElem? isOld)).resolve_total
        exact ok_unique isSame isResolved ▸ addressable
    · exact each o otherListed inst
  exact ⟨next, resolved⟩

/-- Resolving cells fails only for an offset that leaves its word. -/
theorem resolveCells_error (found : ∀ b ∈ f.layout, b.index < f.blocks.length)
    (failed : f.resolveCells = .error fault) : fault = .overflow := by
  obtain ⟨s, sameLength, b, mem, stopped⟩ := foldlM_error
    (fun s : Func => s.blocks.length = f.blocks.length) rfl (fun s b next _ same stepped => by
      obtain ⟨body, _, insts, _, rfl⟩ := bind_bind_pure_inv stepped
      exact (length_modify ..).trans same) failed
  obtain ⟨body, got⟩ := get_total (sameLength.symm ▸ found b mem)
  rw [got, ok_bind] at stopped
  cases mapped : body.insts.mapM Inst.resolve with
  | ok insts =>
    rw [mapped] at stopped
    cases stopped
  | error cause =>
    rw [mapped, error_bind] at stopped
    obtain rfl := Except.error.inj stopped
    obtain ⟨inst, _, isError⟩ := mapM_error mapped
    exact Inst.resolve_error isError

theorem Laid.renumber_total (laid : f.Laid) (succs : ∀ b ∈ f.layout, ∀ succ ∈ f.succsOf b, succ ∈ f.layout)
    (preds : ∀ b ∈ f.layout, ∀ pred ∈ f.predsOf b, pred ∈ f.layout) : ∃ renumbered, f.renumber = .ok renumbered := by
  have placed : ∀ b ∈ f.layout, ∃ place, f.placement.get? b = some place := by
    intro b inside
    obtain ⟨i, isBlock⟩ := getElem?_of_mem inside
    exact ⟨⟨i⟩, placement_get? laid.once isBlock⟩
  have number : ∀ b ∈ f.layout, ∃ place, present (f.placement.get? b) = .ok place := fun b inside =>
    (placed b inside).imp fun _ => present_eq_ok.mpr
  have each : ∀ b ∈ f.layout, ∃ o, (do renumberBlock f.placement (← f.get b)) = .ok o := by
    intro b inside
    obtain ⟨body, found⟩ := laid.found b inside
    obtain ⟨insts, mapped⟩ : ∃ insts, body.insts.mapM (renumberInst f.placement) = .ok insts := by
      refine mapM_ok fun inst isInst => ?_
      unfold renumberInst
      split
      · next t isTarget =>
          obtain ⟨place, isPlace⟩ := number t (laid.targets b inside inst (codeOf_eq found ▸ isInst) t isTarget)
          exact ⟨_, by rw [isPlace]; rfl⟩
      · exact ⟨inst, rfl⟩
    obtain ⟨_, mappedSuccs⟩ : ∃ others, body.succs.mapM (fun succ => present (f.placement.get? succ)) = .ok others :=
      mapM_ok fun succ isSucc => number succ (succs b inside succ (succsOf_eq found ▸ isSucc))
    obtain ⟨_, mappedPreds⟩ : ∃ others, body.preds.mapM (fun pred => present (f.placement.get? pred)) = .ok others :=
      mapM_ok fun pred isPred => number pred (preds b inside pred (predsOf_eq found ▸ isPred))
    rw [get_eq_ok.mpr found, ok_bind, renumberBlock, mapped, ok_bind, mappedSuccs, ok_bind, mappedPreds]
    exact ⟨_, rfl⟩
  obtain ⟨blocks, mapped⟩ := mapM_ok each
  obtain ⟨e, isEntry⟩ := number f.entry laid.entered
  exact ⟨_, bind_ok mapped <| bind_ok isEntry rfl⟩

/-- A chain can be renumbered. -/
theorem Chained.renumber_total (chained : f.Chained) : ∃ renumbered, f.renumber = .ok renumbered :=
  chained.laid.renumber_total (fun _ _ _ => chained.succ_mem) fun _ _ _ => chained.pred_mem

end Func

end SinglePath
