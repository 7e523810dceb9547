import SinglePath.Merging
import SinglePath.Proofs.Flow.Runs
import SinglePath.Proofs.Func.Chained

namespace SinglePath

open List

namespace Func

variable {f next : Func} {base b o : BlockId} {rest : List BlockId}

/-- Successors of a block that are moved become those of its base. -/
theorem moveSuccs_ok {succs : List BlockId} (moved : f.moveSuccs b base succs = .ok next) :
    f.Relinked next ∧ ∀ u o, o ∈ next.succsOf u ↔
      (o ∈ f.succsOf u ∧ ¬ (u = b ∧ o ∈ succs)) ∨ (u = base ∧ o ∈ succs) := by
  induction succs generalizing f with
  | nil =>
    obtain rfl := Except.ok.inj moved
    exact ⟨.refl f, by simp⟩
  | cons succ rest ih =>
    obtain ⟨removed, removing, added, adding, moved⟩ := bind_bind_inv moved
    obtain ⟨relinked, edges⟩ := ih moved
    refine ⟨.trans ⟨removeEdge_sameButEdges removing, fun linked => linked.removeEdge removing⟩
      (.trans ⟨addEdge_sameButEdges adding, fun linked => linked.addEdge adding⟩ relinked), ?_⟩
    intro u o
    rw [edges, mem_succsOf_addEdge adding, mem_succsOf_removeEdge removing]
    grind

/-- Edges do not matter to code. -/
theorem codeOf_of_sameButEdges (same : f.SameButEdges next) (b : BlockId) : next.codeOf b = f.codeOf b := by
  have mapped := same.block? b
  simp only [codeOf]
  cases got : f.block? b <;> cases foundNext : next.block? b <;> simp_all

theorem found_of_sameButEdges (same : f.SameButEdges next)
    (got : ∃ body, f.block? b = some body) : ∃ body, next.block? b = some body := by
  obtain ⟨body, got⟩ := got
  obtain ⟨counterpart, foundNext, _⟩ := same.found got
  exact ⟨counterpart, foundNext⟩

theorem codeOf_modify (f : Func) (b o : BlockId) (change : Block → Block) : (f.modify b change).codeOf o =
      if o = b then ((f.block? o).map fun body => (change body).insts).getD []
      else f.codeOf o := by
  simp only [codeOf, block?_modify]
  split <;> simp [Function.comp_def]

theorem found_modify (f : Func) (b : BlockId) (change : Block → Block) (got : ∃ body, f.block? o = some body) :
    ∃ body, (f.modify b change).block? o = some body := by
  obtain ⟨body, got⟩ := got
  rw [block?_modify, got]
  split <;> simp

theorem succsOf_modify (f : Func) (b o : BlockId) (change : Block → Block)
    (keeps : ∀ body, (change body).succs = body.succs) : (f.modify b change).succsOf o = f.succsOf o := by
  simp only [succsOf, block?_modify]
  split <;> simp [Function.comp_def, keeps]

theorem predsOf_modify (f : Func) (b o : BlockId) (change : Block → Block)
    (keeps : ∀ body, (change body).preds = body.preds) : (f.modify b change).predsOf o = f.predsOf o := by
  simp only [predsOf, block?_modify]
  split <;> simp [Function.comp_def, keeps]

theorem standing_modify (f : Func) (b o : BlockId) (change : Block → Block)
    (keeps : ∀ body, (change body).erased = body.erased) : (f.modify b change).Standing o ↔ f.Standing o := by
  simp only [Standing, block?_modify]
  split <;> simp [Function.comp_def, keeps]

/-- A change that leaves the edges of a block leaves the lists in step. -/
theorem Linked.modify (linked : f.Linked) (b : BlockId) (change : Block → Block)
    (succs : ∀ body, (change body).succs = body.succs)
    (preds : ∀ body, (change body).preds = body.preds) : (f.modify b change).Linked where
  ends u t := by
    rw [succsOf_modify f b u change succs, predsOf_modify f b t change preds, linked.ends]
  succsOnce o := by
    rw [succsOf_modify f b o change succs]
    exact linked.succsOnce o
  predsOnce o := by
    rw [predsOf_modify f b o change preds]
    exact linked.predsOnce o

/-- The block has left the layout. -/
structure Unlisted (f next : Func) (b : BlockId) : Prop where
  layout : next.layout = f.layout.filter (· ≠ b)
  entry : next.entry = f.entry
  found : ∀ o, (∃ body, f.block? o = some body) → ∃ body, next.block? o = some body
  length : next.blocks.length = f.blocks.length
  linked : f.Linked → next.Linked

/-- An erased block has no code, no edges and no place in the layout. -/
structure Erased (f next : Func) (b : BlockId) : Prop extends Unlisted f next b where
  codeOf : ∀ o, next.codeOf o = if o = b then [] else f.codeOf o
  within : ∀ u o, o ∈ next.succsOf u → o ∈ f.succsOf u
  edges : f.Linked → ∀ u o, o ∈ next.succsOf u ↔
    o ∈ f.succsOf u ∧ u ≠ b ∧ o ≠ b

/-- An erased block loses its edges and its place in the layout. -/
theorem erase_ok (erased : f.erase b = .ok next) : Erased f next b := by
  obtain ⟨unsourced, removing, isolated, removingPreds, rfl⟩ := bind_bind_pure_inv erased
  obtain ⟨relinked, edges⟩ := removeSuccs_ok removing
  obtain ⟨sources, _, removingEach⟩ := bind_inv removingPreds
  obtain ⟨relinkedPreds, fewer⟩ := @removeEdges_fold _ _ _ id (fun _ => b) removingEach
  have both := relinked.trans relinkedPreds
  have succs : ∀ u, (isolated.modify b fun body => { body with insts := [], erased := true }).succsOf
      u = isolated.succsOf u := fun u => succsOf_modify isolated b u _ fun _ => rfl
  refine ⟨⟨?_, both.same.entry.symm, ?_, ?_, ?_⟩, ?_, ?_, ?_⟩
  · simp only [modify, both.same.layout]
  · exact fun o got => found_modify isolated b _ (found_of_sameButEdges both.same got)
  · exact (length_modify ..).trans both.same.blocks.symm
  · intro linked
    have cleared := (both.linked linked).modify b (fun body => { body with insts := [], erased := true })
      (fun _ => rfl) fun _ => rfl
    exact ⟨cleared.ends, cleared.succsOnce, cleared.predsOnce⟩
  · intro o
    have code := codeOf_modify isolated b o fun body => { body with insts := [], erased := true }
    refine code.trans ?_
    rw [codeOf_of_sameButEdges both.same]
    split
    · cases isolated.block? o <;> rfl
    · rfl
  · intro u o edge
    have kept := ((fewer u o).mp ((succs u) ▸ edge)).1
    exact ((edges u o).mp kept).1
  · intro linked u o
    obtain ⟨_, edgesPreds⟩ := removePreds_ok (relinked.linked linked) removingPreds
    rw [← and_assoc, ← edges, ← edgesPreds, ← succs]
    rfl

/-- A spliced block has given its code and its edges to the base. -/
structure Spliced (f next : Func) (base b : BlockId) : Prop extends Unlisted f next b where
  codeOf : ∀ o, next.codeOf o =
    if o = b then [] else if o = base then f.codeOf base ++ f.codeOf b else f.codeOf o
  within : ∀ u o, o ∈ next.succsOf u → o ∈ f.succsOf u ∨ o ∈ f.succsOf b
  edges : f.Linked → ∀ u o, o ∈ next.succsOf u ↔ u ≠ b ∧ o ≠ b ∧
    (o ∈ f.succsOf u ∨ (u = base ∧ o ∈ f.succsOf b))

/-- Splicing appends the block to its base and erases it. -/
theorem splice_ok (spliced : f.splice base b = .ok next) : Spliced f next base b := by
  obtain ⟨body, got, appended, updating, spliced⟩ := bind_bind_inv spliced
  obtain ⟨cut, removing, rest, foundCut, spliced⟩ := bind_bind_inv spliced
  obtain ⟨moved, moving, erasing⟩ := bind_inv spliced
  obtain ⟨baseContent, foundBase, rfl⟩ := bind_pure_inv updating
  have got := get_eq_ok.mp got
  have foundBase := get_eq_ok.mp foundBase
  have succs : ∀ u, (f.modify base (·.append body.insts)).succsOf u = f.succsOf u :=
    fun u => succsOf_modify f base u _ fun _ => rfl
  obtain ⟨relinked, movedEdges⟩ := moveSuccs_ok moving
  have linkedMoved (linked : f.Linked) : moved.Linked :=
    relinked.linked ((linked.modify base (·.append body.insts) (fun _ => rfl) fun _ => rfl).removeEdge removing)
  have same := (removeEdge_sameButEdges removing).trans relinked.same
  have erased := erase_ok erasing
  have restSuccs : ∀ o, o ∈ rest.succs ↔ o ∈ f.succsOf b ∧ ¬ (b = base ∧ o = b) := by
    intro o
    rw [← succsOf_eq (get_eq_ok.mp foundCut), mem_succsOf_removeEdge removing, succs]
  refine ⟨⟨?_, erased.entry.trans same.entry.symm, ?_, ?_, fun linked => erased.linked (linkedMoved linked)⟩,
    ?_, ?_, ?_⟩
  · rw [erased.layout, ← same.layout]
    rfl
  · exact fun o exists_ => erased.found o (found_of_sameButEdges same (found_modify f base _ exists_))
  · exact (erased.length.trans same.blocks.symm).trans (length_modify ..)
  · intro o
    rw [erased.codeOf, codeOf_of_sameButEdges same, codeOf_modify, codeOf_eq got, codeOf_eq foundBase]
    split
    · rfl
    · split
      · rename_i isBase
        simp [isBase, foundBase, Block.append]
      · rfl
  · intro u o edge
    have kept := erased.within u o edge
    rw [movedEdges, mem_succsOf_removeEdge removing, succs, restSuccs] at kept
    grind
  · intro linked u o
    rw [erased.edges (linkedMoved linked), movedEdges, mem_succsOf_removeEdge removing, succs, restSuccs]
    grind

/-- The base gets the branches of the block that is spliced into it. -/
theorem Spliced.targetsOf (spliced : Spliced f next base b) (ne : o ≠ b) (t : BlockId) : t ∈ next.targetsOf o ↔
      t ∈ f.targetsOf o ∨ (o = base ∧ t ∈ f.targetsOf b) := by
  simp only [Func.targetsOf, spliced.codeOf, if_neg ne]
  by_cases isBase : o = base
  · rw [if_pos isBase, filterMap_append, mem_append, isBase]
    simp
  · simp [isBase]

/-- A merged function has the code of the original from each block that it keeps. -/
structure Merged (f merged : Func) : Prop where
  chained : merged.Chained
  entry : merged.entry = f.entry
  subset : ∀ b ∈ merged.layout, b ∈ f.layout
  code : ∀ b ∈ merged.layout,
    merged.codeOf b ++ merged.codeAfter b = f.codeOf b ++ f.codeAfter b

theorem Merged.refl (chained : f.Chained) : Merged f f := ⟨chained, rfl, fun _ => id, fun _ _ => rfl⟩

theorem Merged.trans {last : Func} (first : Merged f next) (second : Merged next last) : Merged f last where
  chained := second.chained
  entry := second.entry.trans first.entry
  subset b inside := first.subset b (second.subset b inside)
  code b inside := (second.code b inside).trans (first.code b (second.subset b inside))

/-- The code after a block is that of the later blocks of the layout. -/
theorem codeAfter_split {before after : List BlockId} (once : f.layout.Nodup)
    (split : f.layout = before ++ b :: after) : f.codeAfter b = after.flatMap f.codeOf := by
  rw [codeAfter, following_split once split]

/-- One splice of a merge: the block stands right after the base. -/
structure SpliceStep (f next : Func) (before : List BlockId) (base b : BlockId) (rest : List BlockId) : Prop
    extends Spliced f next base b where
  once : f.layout.Nodup
  split : f.layout = before ++ base :: b :: rest
  onceNext : next.layout.Nodup
  splitNext : next.layout = before ++ base :: rest

/-- Splicing the block after its base is a step of merging. -/
theorem spliceStep {before : List BlockId} (once : f.layout.Nodup)
    (split : f.layout = before ++ base :: b :: rest) (res : f.splice base b = .ok next) :
    SpliceStep f next before base b rest := by
  have spliced := splice_ok res
  refine ⟨spliced, once, split, spliced.layout ▸ once.filter _, ?_⟩
  have apart : base ≠ b := by grind
  have keepsBefore : before.filter (· ≠ b) = before := filter_eq_self.mpr (by grind)
  have keepsRest : rest.filter (· ≠ b) = rest := filter_eq_self.mpr (by grind)
  rw [spliced.layout, split, filter_append, keepsBefore, filter_cons_of_pos (by simpa using apart),
    filter_cons_of_neg (by simp), keepsRest]

namespace SpliceStep

variable {before : List BlockId} (step : SpliceStep f next before base b rest)

include step

theorem codeOf_kept (kept : o ∈ before ∨ o ∈ rest) : next.codeOf o = f.codeOf o := by
  have once := step.once
  rw [step.split] at once
  rw [step.codeOf, if_neg (by grind), if_neg (by grind)]

/-- The base ends with the code of the block. -/
theorem codeOf_base : next.codeOf base = f.codeOf base ++ f.codeOf b := by
  have once := step.once
  rw [step.split] at once
  rw [step.codeOf, if_neg (by grind), if_pos rfl]

/-- The other blocks keep their code. -/
theorem flatMap_kept {blocks : List BlockId} (kept : ∀ o ∈ blocks, o ∈ before ∨ o ∈ rest) :
    blocks.flatMap next.codeOf = blocks.flatMap f.codeOf :=
  flatMap_congr fun o mem => step.codeOf_kept (kept o mem)

/-- From any block that is left, the code to the end of the layout is the same. -/
theorem code (inside : o ∈ next.layout) : next.codeOf o ++ next.codeAfter o = f.codeOf o ++ f.codeAfter o := by
  have split := step.split
  have splitNext := step.splitNext
  have restKept : rest.flatMap next.codeOf = rest.flatMap f.codeOf := step.flatMap_kept fun _ => .inr
  rw [splitNext, mem_append, mem_cons] at inside
  rcases inside with earlier | rfl | later
  · obtain ⟨first, second, rfl⟩ := append_of_mem earlier
    have secondKept : second.flatMap next.codeOf = second.flatMap f.codeOf :=
      step.flatMap_kept fun _ mem => .inl (by simp [mem])
    rw [append_assoc, cons_append] at split splitNext
    rw [codeAfter_split step.once split, codeAfter_split step.onceNext splitNext, step.codeOf_kept (.inl earlier),
      flatMap_append, flatMap_append, secondKept, flatMap_cons, restKept, step.codeOf_base]
    simp
  · rw [codeAfter_split step.once split, codeAfter_split step.onceNext splitNext, restKept, step.codeOf_base]
    simp
  · obtain ⟨first, second, rfl⟩ := append_of_mem later
    have secondKept : second.flatMap next.codeOf = second.flatMap f.codeOf :=
      step.flatMap_kept fun _ mem => .inr (by simp [mem])
    rw [← cons_append, ← append_assoc] at splitNext
    rw [← cons_append, ← cons_append, ← append_assoc] at split
    rw [codeAfter_split step.once split, codeAfter_split step.onceNext splitNext,
      step.codeOf_kept (.inr later), secondKept]

/-- The blocks after a spliced one are as before. -/
theorem later (inRest : o ∈ rest) : following o next.layout = following o f.layout ∧
    ∀ last ∈ following o f.layout, last ∈ rest := by
  have split := step.split
  have splitNext := step.splitNext
  obtain ⟨first, second, rfl⟩ := append_of_mem inRest
  rw [← cons_append, ← append_assoc] at splitNext
  rw [← cons_append, ← cons_append, ← append_assoc] at split
  rw [following_split step.once split, following_split step.onceNext splitNext]
  exact ⟨rfl, fun last present => by simp [present]⟩

variable (chained : f.Chained) (alone : f.predsOf b = [base])

include chained alone

/-- No branch leads to the block that is spliced. -/
theorem not_target {u : BlockId} (inside : u ∈ f.layout) : b ∉ f.targetsOf u := by
  intro branches
  have edge : b ∈ f.succsOf u := (chained.edges u inside b).mpr (.inr branches)
  have isBase : u = base := by
    have isPred := (chained.linked.ends u b).mp edge
    rwa [alone, mem_singleton] at isPred
  have earlier := chained.back u inside b branches
  simp [isBase, following_split step.once step.split] at earlier

theorem strings : next.Chained := by
  have once := step.once
  have inside : base ∈ f.layout := by simp [step.split]
  have follows := following_split once step.split
  obtain ⟨blockInside, blockFollows⟩ := following_next once inside follows
  obtain ⟨others, entryFirst⟩ := head?_eq_some_iff.mp chained.starts
  have split := step.split
  have unrepeated : rest.head? ≠ some b := fun isHead => absurd (mem_of_mem_head? isHead) (by grind)
  have entryApart : f.entry ≠ b := by
    intro same
    rw [entryFirst, same] at split
    cases before <;> simp_all
  have free : ∀ {u : BlockId}, u ∈ f.layout → b ∉ f.targetsOf u := step.not_target chained alone
  have mem_next : ∀ {o : BlockId}, o ∈ next.layout ↔ o ∈ f.layout ∧ o ≠ b := by
    simp [step.layout]
  have targets : ∀ {o t : BlockId}, o ∈ next.layout → t ∈ next.targetsOf o →
      t ∈ f.layout ∧ t ≠ b ∧ t ∉ following o next.layout := by
    intro o t otherInside branches
    obtain ⟨laidOut, ne⟩ := mem_next.mp otherInside
    rw [step.layout, following_filter once laidOut ne]
    obtain branches | ⟨rfl, branches⟩ := (step.targetsOf ne t).mp branches
    · refine ⟨chained.mem_layout_of_target laidOut branches, fun same => free laidOut (same ▸ branches), ?_⟩
      exact fun later => chained.back o laidOut t branches (mem_filter.mp later).1
    · refine ⟨chained.mem_layout_of_target blockInside branches, fun same => free blockInside (same ▸ branches), ?_⟩
      have earlier := chained.back b blockInside t branches
      rw [blockFollows] at earlier
      grind
  refine ⟨⟨step.onceNext, ?_, ?_, ?_⟩, step.linked chained.linked, ?_, ?_, ?_, ?_, ?_⟩
  · exact fun o otherInside => step.found o (chained.laid.found o (mem_next.mp otherInside).1)
  · intro o otherInside inst inCode t isTarget
    obtain ⟨laidOut, ne, _⟩ := targets otherInside (mem_filterMap.mpr ⟨inst, inCode, isTarget⟩)
    exact mem_next.mpr ⟨laidOut, ne⟩
  · rw [step.entry]
    exact mem_next.mpr ⟨chained.laid.entered, entryApart⟩
  · intro o otherInside t
    obtain ⟨laidOut, ne⟩ := mem_next.mp otherInside
    rw [step.edges chained.linked, step.targetsOf ne, chained.edges o laidOut, chained.edges b blockInside,
      blockFollows]
    by_cases isBase : o = base
    · rw [isBase, follows, following_split step.onceNext step.splitNext]
      grind
    · have unheaded : (following o f.layout).head? ≠ some b := by
        intro isNext
        exact isBase (following_injective once laidOut inside isNext (by rw [follows]; rfl))
      have sameHead : (following o next.layout).head? = (following o f.layout).head? := by
        rw [step.layout, following_filter once laidOut ne]
        cases otherFollows : following o f.layout with
        | nil => rfl
        | cons first more =>
          have ne : first ≠ b := fun same => unheaded (by rw [otherFollows, same]; rfl)
          rw [filter_cons_of_pos (by simpa using ne)]
          rfl
      grind
  · intro u o edge
    obtain ⟨ne, _, edge | ⟨rfl, _⟩⟩ := (step.edges chained.linked u o).mp edge
    · exact mem_next.mpr ⟨chained.sourced u o edge, ne⟩
    · exact mem_next.mpr ⟨inside, ne⟩
  · exact fun o otherInside t branches => (targets otherInside branches).2.2
  · rw [step.layout, step.entry, entryFirst, filter_cons_of_pos (by simpa using entryApart)]
    rfl
  · intro o otherInside
    obtain ⟨laidOut, ne⟩ := mem_next.mp otherInside
    rw [step.entry, step.targetsOf ne]
    rintro (branches | ⟨_, branches⟩)
    · exact chained.entryFree o laidOut branches
    · exact chained.entryFree b blockInside branches

/-- One step of merging is a merge. -/
theorem merged : Merged f next where
  chained := step.strings chained alone
  entry := step.entry
  subset o inside := by
    rw [step.layout] at inside
    exact (mem_filter.mp inside).1
  code _ := step.code

end SpliceStep

/-- The way of a merge over the blocks after the base. -/
inductive MergeRun : BlockId → List BlockId → Func → Func → Prop where
  | done {base : BlockId} {f : Func} : MergeRun base [] f f
  | splice {base b : BlockId} {rest : List BlockId} {f next merged : Func} (alone : f.predsOf b = [base])
      (spliced : f.splice base b = .ok next) (single : (next.succsOf base).length ≤ 1)
      (run : MergeRun base rest next merged) : MergeRun base (b :: rest) f merged
  | close {base b fresh : BlockId} {later : List BlockId} {f next merged : Func}
      (alone : f.predsOf b = [base]) (spliced : f.splice base b = .ok next)
      (several : 1 < (next.succsOf base).length) (run : MergeRun fresh later next merged) :
      MergeRun base (b :: fresh :: later) f merged
  | last {base b : BlockId} {f next : Func} (alone : f.predsOf b = [base])
      (spliced : f.splice base b = .ok next) : MergeRun base [b] f next
  | skip {base b : BlockId} {rest : List BlockId} {f merged : Func} (shared : f.predsOf b ≠ [base])
      (run : MergeRun b rest f merged) : MergeRun base (b :: rest) f merged

/-- The loop over the layout is a run of steps. -/
theorem mergeFrom_run {merged : Func} (res : mergeFrom base rest f = .ok merged) : MergeRun base rest f merged := by
  induction size : rest.length using Nat.strongRecOn generalizing base rest f with
  | ind size ih =>
    subst size
    cases rest with
    | nil =>
      cases res
      exact .done
    | cons b rest =>
      rw [mergeFrom] at res
      obtain ⟨body, got, res⟩ := bind_inv res
      rw [← predsOf_eq (get_eq_ok.mp got)] at res
      split at res
      · rename_i alone
        obtain ⟨next, spliced, baseContent, foundBase, res⟩ := bind_bind_inv res
        rw [← succsOf_eq (get_eq_ok.mp foundBase)] at res
        split at res
        · rename_i several
          split at res
          · obtain rfl := pure_inv res
            exact .last alone spliced
          · exact .close alone spliced several (ih _ (by simp only [length_cons]; omega) res rfl)
        · exact .splice alone spliced (by omega) (ih _ (by simp) res rfl)
      · rename_i shared
        exact .skip shared (ih _ (by simp) res rfl)

section

variable {merged : Func} {holds : Func → Prop} (start : holds f)
  (step : ∀ {f next : Func} {base b : BlockId}, f.predsOf b = [base] →
    f.splice base b = .ok next → holds f → holds next)

include start step

/-- What a splice keeps is kept by the whole merge. -/
theorem MergeRun.preserves (run : MergeRun base rest f merged) : holds merged := by
  induction run with
  | done => exact start
  | splice alone spliced _ _ ih => exact ih (step alone spliced start)
  | close alone spliced _ _ ih => exact ih (step alone spliced start)
  | last alone spliced => exact step alone spliced start
  | skip _ _ ih => exact ih start

/-- What a splice keeps, the whole merge keeps. -/
theorem merge_preserves (res : f.merge = .ok merged) : holds merged := by
  obtain ⟨order, _, res⟩ := bind_inv res
  cases order with
  | nil => exact pure_inv res ▸ start
  | cons base rest => exact (mergeFrom_run res).preserves start step

end

/-- The blocks that a merge splices stand next to each other. -/
theorem MergeRun.preserves_split {merged : Func} {holds : Func → Prop} {before : List BlockId}
    (run : MergeRun base rest f merged) (once : f.layout.Nodup) (split : f.layout = before ++ base :: rest)
    (start : holds f) (keeps : ∀ {f next : Func} {before rest : List BlockId} {base b : BlockId},
      SpliceStep f next before base b rest → f.predsOf b = [base] → holds f → holds next) : holds merged := by
  induction run generalizing before with
  | done => exact start
  | splice alone res _ _ ih =>
    have step := spliceStep once split res
    exact ih step.onceNext step.splitNext (keeps step alone start)
  | close alone res _ _ ih =>
    have step := spliceStep once split res
    exact ih step.onceNext (step.splitNext.trans (append_cons ..)) (keeps step alone start)
  | last alone res => exact keeps (spliceStep once split res) alone start
  | skip _ _ ih => exact ih once (split.trans (append_cons ..)) start

/-- Merging a function that is strung on its layout is a run from its entry. -/
theorem merge_run {merged : Func} (strung : f.Strung) (res : f.merge = .ok merged) :
    ∃ rest, f.layout = [] ++ f.entry :: rest ∧ MergeRun f.entry rest f merged := by
  obtain ⟨order, visited, res⟩ := bind_inv res
  obtain ⟨rest, split⟩ := head?_eq_some_iff.mp strung.starts
  rw [strung.preorder_eq visited, split] at res
  exact ⟨rest, split, mergeFrom_run res⟩

/-- Merging keeps the code from each block that is left, and the blocks in a chain. -/
theorem merge_merged {merged : Func} (chained : f.Chained) (res : f.merge = .ok merged) : Merged f merged := by
  obtain ⟨rest, split, run⟩ := merge_run chained.strung res
  exact run.preserves_split chained.laid.once split (.refl chained)
    fun step alone merged => merged.trans (step.merged merged.chained alone)

/-- No block with branches comes right after another one or is the target of a branch. -/
structure Spaced (f : Func) : Prop where
  ends : ∀ b ∈ f.layout, BranchEnds (f.codeOf b)
  apart : ∀ b ∈ f.layout, ∀ next, (following b f.layout).head? = some next →
    f.targetsOf b ≠ [] → f.targetsOf next = []
  heads : ∀ b ∈ f.layout, ∀ t ∈ f.targetsOf b, f.targetsOf t = []
  first : f.targetsOf f.entry = []

/-- What a merge keeps about the blocks that it has not met yet. -/
structure SpacedFrom (f : Func) (base : BlockId) (rest : List BlockId) : Prop where
  ends : ∀ b ∈ f.layout, BranchEnds (f.codeOf b)
  apart : ∀ b ∈ rest, ∀ next, (following b f.layout).head? = some next →
    f.targetsOf b ≠ [] → f.targetsOf next = []
  heads : ∀ b ∈ f.layout, ∀ t ∈ f.targetsOf b, t ∈ rest → f.targetsOf t = []
  opened : rest ≠ [] → f.targetsOf base = []

theorem eq_singleton_of_nodup {α : Type} {items : List α} {x : α} (once : items.Nodup)
    (members : ∀ o, o ∈ items ↔ o = x) : items = [x] := by
  cases items with
  | nil => simp at members
  | cons first rest =>
    obtain rfl := (members first).mp (by simp)
    cases rest with
    | nil => rfl
    | cons second more =>
      obtain rfl := (members second).mp (by simp)
      simp at once

theorem two_le_length {α : Type} {items : List α} {first second : α} (firstInside : first ∈ items)
    (secondInside : second ∈ items) (ne : first ≠ second) : 2 ≤ items.length := by
  match items with
  | [] => simp at firstInside
  | [only] => simp_all
  | _ :: _ :: _ => simp

/-- A block that branches and is not the last has two successors. -/
theorem Chained.two_succs (chained : f.Chained) {before : List BlockId} (split : f.layout = before ++ base :: rest)
    (more : rest ≠ []) (branches : f.targetsOf base ≠ []) : 2 ≤ (f.succsOf base).length := by
  obtain ⟨next, others, rfl⟩ := exists_cons_of_ne_nil more
  obtain ⟨t, isTarget⟩ := exists_mem_of_ne_nil _ branches
  have inside : base ∈ f.layout := by simp [split]
  have follows := following_split chained.laid.once split
  have earlier := chained.back base inside t isTarget
  rw [follows] at earlier
  refine two_le_length ((chained.edges base inside t).mpr (.inr isTarget))
    ((chained.edges base inside next).mpr (.inl (by rw [follows]; rfl))) ?_
  rintro rfl
  simp at earlier

/-- A block without a branch has at most one successor. -/
theorem Chained.single_succ (chained : f.Chained) (inside : base ∈ f.layout)
    (noBranch : f.targetsOf base = []) : (f.succsOf base).length ≤ 1 := by
  have members := chained.edges base inside
  have once := chained.linked.succsOnce base
  match succs : f.succsOf base with
  | [] => simp
  | [only] => simp
  | first :: second :: others =>
    rw [succs] at members once
    have firstNext := (members first).mp (by simp)
    have secondNext := (members second).mp (by simp)
    grind

/-- A splice into a block without a branch leaves the rest of the blocks spaced. -/
theorem SpliceStep.spacedFrom {before : List BlockId} (step : SpliceStep f next before base b rest)
    (spaced : f.SpacedFrom base (b :: rest)) {newBase : BlockId} {newRest : List BlockId}
    (part : ∀ o ∈ newRest, o ∈ rest) (opened : newRest ≠ [] → next.targetsOf newBase = []) :
    next.SpacedFrom newBase newRest := by
  have sameTargets : ∀ {o : BlockId}, o ∈ rest → next.targetsOf o = f.targetsOf o := by
    intro o inRest
    rw [targetsOf, step.codeOf_kept (.inr inRest), targetsOf]
  have noBranch : f.targetsOf base = [] := spaced.opened (by simp)
  have blockInside : b ∈ f.layout := by simp [step.split]
  refine ⟨?_, ?_, ?_, opened⟩
  · intro o otherInside
    obtain ⟨laidOut, ne⟩ : o ∈ f.layout ∧ o ≠ b := by
      simpa [step.layout] using otherInside
    by_cases isBase : o = base
    · rw [step.codeOf, if_neg ne, if_pos isBase]
      exact (spaced.ends b blockInside).prepend (filterMap_eq_nil_iff.mp noBranch)
    · rw [step.codeOf, if_neg ne, if_neg isBase]
      exact spaced.ends o laidOut
  · intro o inNewRest last isNext branches
    have inRest := part o inNewRest
    obtain ⟨sameFollowing, later⟩ := step.later inRest
    rw [sameFollowing] at isNext
    rw [sameTargets inRest] at branches
    rw [sameTargets (later last (mem_of_mem_head? isNext))]
    exact spaced.apart o (mem_cons_of_mem b inRest) last isNext branches
  · intro o otherInside t branches inNewRest
    have inRest := part t inNewRest
    obtain ⟨laidOut, ne⟩ : o ∈ f.layout ∧ o ≠ b := by
      simpa [step.layout] using otherInside
    rw [sameTargets inRest]
    obtain branches | ⟨_, branches⟩ := (step.targetsOf ne t).mp branches
    · exact spaced.heads o laidOut t branches (mem_cons_of_mem b inRest)
    · exact spaced.heads b blockInside t branches (mem_cons_of_mem b inRest)

/-- A block with another predecessor than the one before it is the target of a branch. -/
theorem Chained.target_of_shared (chained : f.Chained) {before : List BlockId}
    (split : f.layout = before ++ base :: b :: rest) (shared : f.predsOf b ≠ [base]) :
    ∃ o ∈ f.layout, b ∈ f.targetsOf o := by
  have inside : base ∈ f.layout := by simp [split]
  have isNext : (following base f.layout).head? = some b := by rw [following_split chained.laid.once split]; rfl
  have basePred : base ∈ f.predsOf b :=
    (chained.linked.ends base b).mp ((chained.edges base inside b).mpr (.inl isNext))
  obtain ⟨o, otherPred, ne⟩ : ∃ o ∈ f.predsOf b, o ≠ base := by
    refine Decidable.not_not.mp fun onlyBase => shared (eq_singleton_of_nodup (chained.linked.predsOnce b) ?_)
    intro o
    constructor
    · intro otherPred
      exact Decidable.not_not.mp fun ne => onlyBase ⟨o, otherPred, ne⟩
    · rintro rfl
      exact basePred
  have edge := (chained.linked.ends o b).mpr otherPred
  have otherInside := chained.sourced o b edge
  obtain otherNext | branches := (chained.edges o otherInside b).mp edge
  · exact absurd (following_injective chained.laid.once otherInside inside otherNext isNext) ne
  · exact ⟨o, otherInside, branches⟩

/-- If branches are apart, a run of merging leaves them at the ends of blocks. -/
theorem MergeRun.branchEnds {merged : Func} (run : MergeRun base rest f merged) (chained : f.Chained)
    {before : List BlockId} (split : f.layout = before ++ base :: rest) (spaced : f.SpacedFrom base rest) :
    ∀ b ∈ merged.layout, BranchEnds (merged.codeOf b) := by
  have once := chained.laid.once
  induction run generalizing before with
  | done => exact spaced.ends
  | splice alone res single _ ih =>
    have step := spliceStep once split res
    have chainedNext := step.strings chained alone
    refine ih chainedNext step.splitNext (step.spacedFrom spaced (fun _ => id) fun more => ?_) step.onceNext
    refine Decidable.not_not.mp fun branches => ?_
    have two := chainedNext.two_succs step.splitNext more branches
    omega
  | @close base b fresh later f next merged alone res several _ ih =>
    have step := spliceStep once split res
    have chainedNext := step.strings chained alone
    refine ih chainedNext (step.splitNext.trans (append_cons ..))
      (step.spacedFrom spaced (fun _ => mem_cons_of_mem fresh) fun _ => ?_) step.onceNext
    -- The base has two successors, so the spliced block has a branch and the one after it has none.
    have branches : f.targetsOf b ≠ [] := by
      intro noBranch
      have baseOpen : f.targetsOf base = [] := spaced.opened (by simp)
      have none : next.targetsOf base = [] := by
        rw [targetsOf, step.codeOf_base, filterMap_append]
        exact append_eq_nil_iff.mpr ⟨baseOpen, noBranch⟩
      have one := chainedNext.single_succ (by simp [step.splitNext]) none
      omega
    have isNext := following_split once (split.trans (append_cons ..))
    have freshOpen := spaced.apart b (by simp) fresh (by rw [isNext]; rfl) branches
    rw [← freshOpen, targetsOf, step.codeOf_kept (.inr (mem_cons_self ..)), targetsOf]
  | @last base b f next alone res =>
    have after : next.SpacedFrom base [] :=
      (spliceStep once split res).spacedFrom spaced (fun _ => id) fun more => absurd rfl more
    exact after.ends
  | @skip base b rest f merged shared _ ih =>
    refine ih chained (split.trans (append_cons ..)) ⟨spaced.ends, ?_, ?_, ?_⟩ once
    · exact fun o inRest => spaced.apart o (mem_cons_of_mem b inRest)
    · exact fun o otherInside t branches inRest =>
        spaced.heads o otherInside t branches (mem_cons_of_mem b inRest)
    · intro _
      obtain ⟨o, otherInside, branches⟩ := chained.target_of_shared split shared
      exact spaced.heads o otherInside b branches (by simp)

/-- If branches are apart, merging leaves them at the ends of blocks. -/
theorem merge_branchEnds {merged : Func} (chained : f.Chained) (spaced : f.Spaced)
    (res : f.merge = .ok merged) : ∀ b ∈ merged.layout, BranchEnds (merged.codeOf b) := by
  obtain ⟨rest, split, run⟩ := merge_run chained.strung res
  refine run.branchEnds chained split ⟨spaced.ends, ?_, ?_, fun _ => spaced.first⟩
  · exact fun b inRest => spaced.apart b (by simp [split, inRest])
  · exact fun b inside t branches _ => spaced.heads b inside t branches

end Func

end SinglePath
