import Mathlib.Data.List.Nodup
import SinglePath.Proofs.Func.Recoded
import SinglePath.Proofs.Tables

namespace SinglePath

open BlockId Inst List Table

namespace Func

variable {f next : Func} {placement : BlockMap} {i : Nat} {b : BlockId}

/-- A block gets its position in the layout. -/
theorem placement_get? (once : f.layout.Nodup) (isBlock : f.layout[i]? = some b) : f.placement.get? b = some ⟨i⟩ := by
  have keys : (f.layout.zipIdx.map fun e => (e.1, (⟨e.2⟩ : BlockId))).map (·.1) = f.layout := by
    rw [map_map]
    exact zipIdx_map_fst ..
  refine get?_ofList (by rw [keys]; exact once) ?_
  refine mem_map.mpr ⟨(b, i), ?_, rfl⟩
  exact mk_mem_zipIdx_iff_getElem?.mpr isBlock

/-- The instruction with the new number of its target. -/
def renamed (placement : BlockMap) (inst : Inst) : Inst :=
  match inst.branchTarget with
  | some t => inst.withTarget ((placement.get? t).getD t)
  | none => inst

theorem renumberInst_ok {inst o : Inst} (res : renumberInst placement inst = .ok o) : o = renamed placement inst := by
  unfold renumberInst at res
  unfold renamed
  cases isTarget : inst.branchTarget with
  | none =>
    rw [isTarget] at res
    exact (Except.ok.inj res).symm
  | some t =>
    rw [isTarget] at res
    obtain ⟨place, found, res⟩ := bind_inv res
    simp only [present_eq_ok.mp found]
    exact (pure_inv res).symm

/-- What renumbering does: the block at each place of the layout gets that place as its number. -/
structure Renumbered (f next : Func) : Prop where
  layout : next.layout = (List.range f.layout.length).map BlockId.mk
  codeOf : ∀ i b, f.layout[i]? = some b →
    next.codeOf ⟨i⟩ = (f.codeOf b).map (renamed f.placement)
  succsOf : ∀ i b, f.layout[i]? = some b →
    (next.succsOf ⟨i⟩).map some = (f.succsOf b).map f.placement.get?
  predsOf : ∀ i b, f.layout[i]? = some b →
    (next.predsOf ⟨i⟩).map some = (f.predsOf b).map f.placement.get?
  named : ∀ i b, f.layout[i]? = some b →
    (next.block? ⟨i⟩).map (·.name) = (f.block? b).map (·.name)
  entry : ∃ i, f.layout[i]? = some f.entry ∧ next.entry = ⟨i⟩
  found : ∀ i, i < f.layout.length → ∃ body, next.block? ⟨i⟩ = some body

theorem mem_layout_of_placed {place : BlockId} (placed : f.placement.get? b = some place) : b ∈ f.layout := by
  by_contra outside
  have unnamed : b ∉ (f.layout.zipIdx.map fun e => (e.1, (⟨e.2⟩ : BlockId))).map (·.1) := by
    exact fun mem => outside (by simpa [Function.comp_def] using mem)
  rw [placement, ofList, get?_foldl_insert_of_not_mem _ _ unnamed] at placed
  cases placed

/-- Only a function with its entry in the layout is renumbered. -/
theorem renumber_entered (res : f.renumber = .ok (placement, next)) : f.entry ∈ f.layout := by
  obtain ⟨blocks, _, e, isEntry, _⟩ := bind_bind_inv res
  exact mem_layout_of_placed (present_eq_ok.mp isEntry)

theorem renumberBlock_ok {b o : Block} (res : renumberBlock placement b = .ok o) :
    o.insts = b.insts.map (renamed placement) ∧ o.succs.map some = b.succs.map placement.get? ∧
      o.preds.map some = b.preds.map placement.get? ∧ o.name = b.name := by
  have found : ∀ {blocks others : List BlockId}, blocks.mapM (fun b => present (placement.get? b)) = .ok others →
      others.map some = blocks.map placement.get? := by
    intro blocks others mapped
    exact mapM_map_eq mapped fun _ _ isPlace => (present_eq_ok.mp isPlace).symm
  obtain ⟨insts, isInsts, succs, isSuccs, res⟩ := bind_bind_inv res
  obtain ⟨preds, isPreds, rfl⟩ := bind_pure_inv res
  exact ⟨mapM_eq_map isInsts fun _ _ => renumberInst_ok, found isSuccs, found isPreds, rfl⟩

/-- Renumbering names blocks by their positions. -/
theorem renumber_renumbered (once : f.layout.Nodup) (res : f.renumber = .ok (placement, next)) :
    placement = f.placement ∧ Renumbered f next := by
  have entered := renumber_entered res
  obtain ⟨blocks, mapped, e, isEntry, res⟩ := bind_bind_inv res
  obtain ⟨rfl, isNext⟩ := Prod.mk.inj (pure_inv res)
  have length := mapM_length mapped
  have moved : ∀ i b, f.layout[i]? = some b → ∃ body o, f.block? b = some body ∧ next.block? ⟨i⟩ = some o ∧
        renumberBlock f.placement body = .ok o := by
    intro i b isBlock
    have inside : i < blocks.length := by
      rw [length]
      exact lt_length isBlock
    obtain ⟨origin, isOrigin, transformed⟩ := mapM_getElem? mapped (getElem?_eq_getElem inside)
    obtain rfl := Option.mem_unique isBlock isOrigin
    obtain ⟨body, got, transformed⟩ := bind_inv transformed
    refine ⟨body, blocks[i], get_eq_ok.mp got, ?_, transformed⟩
    rw [← isNext]
    exact getElem?_eq_getElem inside
  refine ⟨rfl, ⟨by rw [← length, ← isNext], ?_, ?_, ?_, ?_, ?_, fun i inside => ?_⟩⟩
  · intro i b isBlock
    obtain ⟨body, o, found, foundNext, renumbered⟩ := moved i b isBlock
    rw [codeOf_eq foundNext, codeOf_eq found]
    exact (renumberBlock_ok renumbered).1
  · intro i b isBlock
    obtain ⟨body, o, found, foundNext, renumbered⟩ := moved i b isBlock
    rw [succsOf_eq foundNext, succsOf_eq found]
    exact (renumberBlock_ok renumbered).2.1
  · intro i b isBlock
    obtain ⟨body, o, found, foundNext, renumbered⟩ := moved i b isBlock
    rw [predsOf_eq foundNext, predsOf_eq found]
    exact (renumberBlock_ok renumbered).2.2.1
  · intro i b isBlock
    obtain ⟨body, o, found, foundNext, renumbered⟩ := moved i b isBlock
    rw [foundNext, found, Option.map_some, Option.map_some, (renumberBlock_ok renumbered).2.2.2]
  · obtain ⟨i, isPosition⟩ := getElem?_of_mem entered
    refine ⟨i, isPosition, ?_⟩
    have same := present_eq_ok.mp isEntry
    rw [placement_get? once isPosition] at same
    rw [← isNext]
    exact (Option.some.inj same).symm
  · obtain ⟨body, o, _, foundNext, _⟩ := moved i _ (getElem?_eq_getElem inside)
    exact ⟨o, foundNext⟩

namespace Renumbered

variable (renumbered : Renumbered f next)

include renumbered

theorem flatMap_codeOf (after : List BlockId) (start : Nat)
    (isPart : ∀ i b, after[i]? = some b → f.layout[start + i]? = some b) :
    ((range' start after.length).map BlockId.mk).flatMap next.codeOf =
      (after.flatMap f.codeOf).map (renamed f.placement) := by
  induction after generalizing start with
  | nil => rfl
  | cons b rest ih =>
    have head := renumbered.codeOf start b (isPart 0 b rfl)
    have tail := ih (start + 1) fun i o isOther => by
      rw [Nat.add_assoc, Nat.add_comm 1]
      exact isPart (i + 1) o isOther
    rw [length_cons, range'_succ, map_cons, flatMap_cons, flatMap_cons, map_append, head, tail]

theorem mem_layout : (⟨i⟩ : BlockId) ∈ next.layout ↔ i < f.layout.length := by
  simp [renumbered.layout]

theorem once : next.layout.Nodup := by
  rw [renumbered.layout]
  exact nodup_range.map fun _ _ => BlockId.mk.inj

theorem following_eq (inside : i < f.layout.length) : following ⟨i⟩ next.layout =
      (range' (i + 1) (f.layout.drop (i + 1)).length).map BlockId.mk := by
  have isBlock : next.layout[i]? = some ⟨i⟩ := by
    rw [renumbered.layout, getElem?_map, getElem?_range inside]
    rfl
  rw [following_at renumbered.once isBlock, renumbered.layout, ← map_drop, range_eq_range', drop_range',
    length_drop]
  simp

/-- From each block the code to the end is the same, with the new names. -/
theorem code (once : f.layout.Nodup) (isBlock : f.layout[i]? = some b) :
    next.codeOf ⟨i⟩ ++ next.codeAfter ⟨i⟩ = (f.codeOf b ++ f.codeAfter b).map (renamed f.placement) := by
  have inside := lt_length isBlock
  rw [codeAfter, renumbered.following_eq inside, codeAfter, following_at once isBlock, map_append,
    renumbered.codeOf i b isBlock,
    renumbered.flatMap_codeOf _ _ fun k o isOther => by rwa [getElem?_drop] at isOther]

end Renumbered

theorem branchTarget_renamed (placement : BlockMap) (inst : Inst) :
    (renamed placement inst).branchTarget = inst.branchTarget.map fun t => (placement.get? t).getD t := by
  unfold renamed
  cases isTarget : inst.branchTarget with
  | none => exact isTarget
  | some t =>
    obtain ⟨guard, frameSetup, op⟩ := inst
    cases op <;> simp_all [branchTarget, withTarget]

theorem renamed_cases (placement : BlockMap) (inst : Inst) :
    renamed placement inst = inst ∨ ∃ t label, inst.op = .branch t ∧
      renamed placement inst = { inst with op := .branch label } := by
  unfold renamed
  cases isTarget : inst.branchTarget with
  | none => exact .inl rfl
  | some t =>
    obtain ⟨guard, frameSetup, op⟩ := inst
    cases op <;> simp_all [branchTarget, withTarget]

end Func

end SinglePath
