import SinglePath.CellFlow.Available
import SinglePath.Func.Renumbering
import SinglePath.Proofs.Func.Code
import SinglePath.Proofs.Func.Merged

/-!
Functions whose blocks get other code while the layout and all edges stay.
-/

namespace SinglePath

open CellId Inst List Op

/-- The byte offset of a cell, also of one that is too far away for the machine. -/
def CellId.place (c : CellId) : Int :=
  if 0x80000000 ≤ c.index ∧ c.index < 0x100000000 then (c.index - 0x100000000) * cellBytes else c.index * cellBytes

theorem CellId.place_of_offset {c : CellId} {k : Int} (placed : c.offset = .ok k) : c.place = k := by
  simp only [CellId.offset] at placed
  split at placed
  · rename_i inRange
    obtain rfl := Except.ok.inj placed
    rw [Int.bmod_def]
    unfold place
    obtain ⟨index⟩ := c
    simp only at inRange ⊢
    simp only [cellBytes]
    split <;> split <;> omega
  · cases placed

theorem CellId.place_injective {first second : CellId} (same : first.place = second.place) : first = second := by
  simp only [place, cellBytes] at same
  rw [mk.injEq]
  split at same <;> split at same <;> omega

/-- The frame cell operand of an operation becomes the place of the cell. -/
def Op.placed : Op → Op
  | .load dst (.frame c) => .load dst (.stack c.place)
  | .store (.frame c) src => .store (.stack c.place) src
  | op => op

def Inst.placed (inst : Inst) : Inst := { inst with op := inst.op.placed }

theorem Op.placed_of_resolve {op resolved : Op} (res : op.resolve = .ok resolved) : resolved = op.placed := by
  unfold resolve at res
  split at res
  · obtain ⟨k, placed, rfl⟩ := bind_pure_inv res
    rw [Op.placed, place_of_offset placed]
  · obtain ⟨k, placed, rfl⟩ := bind_pure_inv res
    rw [Op.placed, place_of_offset placed]
  · rename_i notLoad notStore
    cases res
    unfold placed
    split
    · exact absurd rfl (notLoad _ _)
    · exact absurd rfl (notStore _ _)
    · rfl

theorem Inst.placed_of_resolve {inst resolved : Inst} (res : inst.resolve = .ok resolved) : resolved = inst.placed := by
  obtain ⟨op, resolvedOp, rfl⟩ := bind_pure_inv res
  rw [placed, Op.placed_of_resolve resolvedOp]

section

variable (inst : Inst)

@[simp] theorem Inst.guard_placed : inst.placed.guard = inst.guard := rfl

theorem Op.placed_cases (op : Op) : (∃ dst c, op = .load dst (.frame c) ∧ op.placed = .load dst (.stack c.place)) ∨
      (∃ c src, op = .store (.frame c) src ∧ op.placed = .store (.stack c.place) src) ∨
      op.placed = op := by
  unfold placed
  split
  · exact .inl ⟨_, _, rfl, rfl⟩
  · exact .inr (.inl ⟨_, _, rfl, rfl⟩)
  · exact .inr (.inr rfl)

@[simp] theorem Inst.branchTarget_placed : inst.placed.branchTarget = inst.branchTarget := by
  rcases inst.op.placed_cases with ⟨dst, c, same, placed⟩ | ⟨c, src, same, placed⟩ | same <;>
    simp_all [Inst.placed, branchTarget]

@[simp] theorem Inst.isCall_placed : inst.placed.isCall = inst.isCall := by
  rcases inst.op.placed_cases with ⟨dst, c, same, placed⟩ | ⟨c, src, same, placed⟩ | same <;>
    simp_all [Inst.placed, isCall]

@[simp] theorem Op.regWrite_placed (op : Op) : op.placed.regWrite = op.regWrite := by
  rcases op.placed_cases with ⟨dst, c, same, placed⟩ | ⟨c, src, same, placed⟩ | same <;>
    simp_all [regWrite]

end

namespace Func

variable {f next : Func} {code : BlockId → List Inst}

/-- The function has other code in its blocks and is otherwise the same. -/
structure Recoded (f next : Func) (code : BlockId → List Inst) : Prop where
  layout : next.layout = f.layout
  entry : next.entry = f.entry
  succsOf : ∀ b, next.succsOf b = f.succsOf b
  predsOf : ∀ b, next.predsOf b = f.predsOf b
  standing : ∀ b, next.Standing b ↔ f.Standing b
  found : ∀ b, (∃ body, f.block? b = some body) → ∃ body, next.block? b = some body
  codeOf : ∀ b ∈ f.layout, next.codeOf b = code b

namespace Recoded

theorem refl (f : Func) : Recoded f f f.codeOf where
  layout := rfl
  entry := rfl
  succsOf _ := rfl
  predsOf _ := rfl
  standing _ := Iff.rfl
  found _ := id
  codeOf _ _ := rfl

/-- New code that branches where the old code did leaves a chain a chain. -/
theorem chained (recoded : Recoded f next code) (chained : f.Chained)
    (targets : ∀ b ∈ f.layout, (code b).filterMap branchTarget = f.targetsOf b) : next.Chained := by
  have same : ∀ b ∈ f.layout, next.targetsOf b = f.targetsOf b := by
    intro b inside
    rw [targetsOf, recoded.codeOf b inside, targets b inside]
  refine {
    laid := {
      once := recoded.layout ▸ chained.laid.once
      found := fun b inside => recoded.found b (chained.laid.found b (recoded.layout ▸ inside))
      targets := ?_
      entered := by
        rw [recoded.layout, recoded.entry]
        exact chained.laid.entered }
    linked := {
      ends := fun u t => by rw [recoded.succsOf, recoded.predsOf, chained.linked.ends]
      succsOnce := fun b => recoded.succsOf b ▸ chained.linked.succsOnce b
      predsOnce := fun b => recoded.predsOf b ▸ chained.linked.predsOnce b }
    edges := ?_
    sourced := ?_
    back := ?_
    starts := by
      rw [recoded.layout, recoded.entry]
      exact chained.starts
    entryFree := ?_ }
  · intro b inside inst inCode t isTarget
    rw [recoded.layout] at inside ⊢
    refine chained.mem_layout_of_target inside ?_
    rw [← same b inside]
    exact mem_filterMap.mpr ⟨inst, inCode, isTarget⟩
  · intro b inside o
    rw [recoded.layout] at inside ⊢
    rw [recoded.succsOf, chained.edges b inside, same b inside]
  · intro b o isSucc
    rw [recoded.succsOf] at isSucc
    exact recoded.layout ▸ chained.sourced b o isSucc
  · intro b inside t isTarget
    rw [recoded.layout] at inside ⊢
    exact chained.back b inside t (same b inside ▸ isTarget)
  · intro b inside
    rw [recoded.layout] at inside
    rw [recoded.entry, same b inside]
    exact chained.entryFree b inside

theorem codeAfter (recoded : Recoded f next code) (b : BlockId) :
    next.codeAfter b = (following b f.layout).flatMap code := by
  rw [Func.codeAfter, recoded.layout, flatMap_def, flatMap_def]
  congr 1
  exact map_congr_left fun o follows => recoded.codeOf o (following_subset follows)

end Recoded

/-- The function with new instructions in one block. -/
theorem recoded_modify (recoded : Recoded f next code) {b : BlockId}
    (found : ∃ body, f.block? b = some body) (insts : List Inst) :
    Recoded f (next.modify b fun body => { body with insts := insts })
      (fun o => if o = b then insts else code o) where
  layout := recoded.layout
  entry := recoded.entry
  succsOf o := (succsOf_modify next b o _ (by exact fun _ => rfl)).trans (recoded.succsOf o)
  predsOf o := (predsOf_modify next b o _ (by exact fun _ => rfl)).trans (recoded.predsOf o)
  standing o := (standing_modify next b o _ (by exact fun _ => rfl)).trans (recoded.standing o)
  found o isFound := found_modify _ _ _ (recoded.found o isFound)
  codeOf o inside := by
    rw [codeOf_modify]
    split
    · rename_i same
      obtain ⟨body, isContent⟩ := recoded.found b found
      rw [same, isContent]
      rfl
    · exact recoded.codeOf o inside

/-- The named blocks are left with what is kept of them. -/
structure Trimmed (keep : Block → List Inst) (order : List BlockId) (f next : Func) : Prop where
  layout : next.layout = f.layout
  entry : next.entry = f.entry
  length : next.blocks.length = f.blocks.length
  block? : ∀ b, next.block? b = (f.block? b).map fun body =>
    if b ∈ order then { body with insts := keep body } else body

section

variable {keep : Block → List Inst} {order : List BlockId}

theorem Trimmed.map_eq {α : Type} {field : Block → α} (trimmed : Trimmed keep order f next)
    (same : ∀ body insts, field { body with insts := insts } = field body) (b : BlockId) :
    (next.block? b).map field = (f.block? b).map field := by
  rw [trimmed.block?, Option.map_map]
  refine congrArg (Option.map · _) (funext fun body => ?_)
  rw [Function.comp_apply]
  split
  · exact same body _
  · rfl

theorem Trimmed.of_mem (trimmed : Trimmed keep order f next) {blocks : List BlockId}
    (same : ∀ b, b ∈ order ↔ b ∈ blocks) : Trimmed keep blocks f next :=
  { trimmed with block? := by simpa only [same] using trimmed.block? }

theorem Trimmed.recoded (trimmed : Trimmed keep order f next) : Recoded f next next.codeOf where
  layout := trimmed.layout
  entry := trimmed.entry
  succsOf b := by rw [succsOf, succsOf, trimmed.map_eq fun _ _ => rfl]
  predsOf b := by rw [predsOf, predsOf, trimmed.map_eq fun _ _ => rfl]
  standing b := by rw [Standing, Standing, trimmed.map_eq fun _ _ => rfl]
  found b := by
    rintro ⟨body, found⟩
    exact ⟨_, by rw [trimmed.block?, found]; rfl⟩
  codeOf _ _ := rfl

/-- Shrinking leaves each gathered block with what is kept of it, and counts the rest. -/
theorem shrink_trimmed (keep : Block → List Inst) {blocks : List (BlockId × Block)}
    (gathered : f.blocksOf order = .ok blocks) :
    Trimmed keep order f (f.shrink blocks keep).2 ∧
      (order.Nodup → (∀ body, (keep body).length ≤ body.insts.length) →
        (f.shrink blocks keep).2.size + (f.shrink blocks keep).1 = f.size) := by
  -- the blocks that are done are trimmed, the others are as they were
  have folded : ∀ (rest done : List BlockId) (entries : List (BlockId × Block)) (s : Nat × Func),
      f.blocksOf rest = .ok entries → Trimmed keep done f s.2 →
      ∃ final, entries.foldl (fun s e =>
          let kept := keep e.2
          (s.1 + (e.2.insts.length - kept.length),
            s.2.modify e.1 fun body => { body with insts := kept })) s = final ∧
        Trimmed keep (done ++ rest) f final.2 ∧
        ((done ++ rest).Nodup → (∀ body, (keep body).length ≤ body.insts.length) →
          final.2.size + final.1 = s.2.size + s.1) := by
    intro rest
    induction rest with
    | nil =>
      intro done entries s named trimmed
      obtain rfl := pure_inv named
      exact ⟨s, rfl, by rwa [append_nil], fun _ _ => rfl⟩
    | cons b rest ih =>
      intro done entries s named trimmed
      rw [blocksOf, mapM_cons] at named
      obtain ⟨e, isEntry, named⟩ := bind_inv named
      obtain ⟨body, got, rfl⟩ := bind_pure_inv isEntry
      obtain ⟨others, namedRest, rfl⟩ := bind_pure_inv named
      have found := trimmed.block? b
      rw [get_eq_ok.mp got] at found
      have step : Trimmed keep (done ++ [b]) f (s.2.modify b fun old => { old with insts := keep body }) := by
        refine ⟨trimmed.layout, trimmed.entry, (length_modify ..).trans trimmed.length, fun o => ?_⟩
        rw [block?_modify]
        split
        · rename_i isBlock
          obtain rfl := isBlock
          rw [get_eq_ok.mp got, found]
          by_cases isDone : o ∈ done <;> simp [isDone]
        · rename_i ne
          simp [trimmed.block?, show o ≠ b from ne]
      obtain ⟨final, folds, isTrimmed, counts⟩ :=
        ih _ others (s.1 + (body.insts.length - (keep body).length), _) namedRest step
      rw [append_assoc, singleton_append] at isTrimmed counts
      refine ⟨final, folds, isTrimmed, fun once shorter => (counts once shorter).trans ?_⟩
      have unmet : b ∉ done := fun isDone => (nodup_append.mp once).2.2 b isDone b (.head _) rfl
      rw [Option.map_some, if_neg unmet] at found
      have size := size_modify found fun old => { old with insts := keep body }
      have := shorter body
      rw [modify] at size
      dsimp only at size ⊢
      omega
  obtain ⟨final, folds, trimmed, counts⟩ := folded order [] blocks (0, f) gathered ⟨rfl, rfl, rfl, fun b => by simp⟩
  rw [shrink, folds]
  exact ⟨trimmed, counts⟩

end

theorem targetsOf_placed (f : Func) (b : BlockId) :
    ((f.codeOf b).map Inst.placed).filterMap branchTarget = f.targetsOf b := by
  rw [filterMap_map, targetsOf]
  exact congrArg (filterMap · (f.codeOf b)) (funext branchTarget_placed)

theorem resolveCells_recoded (once : f.layout.Nodup)
    (found : ∀ b ∈ f.layout, ∃ body, f.block? b = some body) (res : f.resolveCells = .ok next) :
    Recoded f next fun b => (f.codeOf b).map placed := by
  have folded : ∀ (rest done : List BlockId) (s : Func), f.layout = done ++ rest →
      Recoded f s (fun b => if b ∈ done then (f.codeOf b).map placed else f.codeOf b) →
      rest.foldlM (fun f b => do
        let body ← f.get b
        let insts ← body.insts.mapM Inst.resolve
        return f.modify b fun body => { body with insts := insts }) s = .ok next →
      Recoded f next fun b => (f.codeOf b).map placed := by
    intro rest
    induction rest with
    | nil =>
      intro done s split recoded folded
      obtain rfl := pure_inv folded
      refine { recoded with codeOf := fun b inside => (recoded.codeOf b inside).trans (if_pos ?_) }
      rw [split, append_nil] at inside
      exact inside
    | cons b rest ih =>
      intro done s split recoded folded
      obtain ⟨after, ran, folded⟩ := bind_inv folded
      obtain ⟨body, got, ran⟩ := bind_inv ran
      obtain ⟨insts, mapped, rfl⟩ := bind_pure_inv ran
      have inside : b ∈ f.layout := by rw [split]; simp
      have unmet : b ∉ done := by
        grind
      have isCode := recoded.codeOf b inside
      rw [if_neg unmet, codeOf_eq (get_eq_ok.mp got)] at isCode
      refine ih (done ++ [b]) _ (by rw [split]; simp) ?_ folded
      have step := recoded_modify recoded (found b inside) insts
      refine { step with codeOf := fun o isInside => (step.codeOf o isInside).trans ?_ }
      split
      · rename_i same
        rw [same, mapM_eq_map mapped fun _ _ => placed_of_resolve, isCode]
        simp
      · rename_i ne
        simp [ne]
  exact folded f.layout [] f rfl (by simpa using Recoded.refl f) res

end Func

end SinglePath
