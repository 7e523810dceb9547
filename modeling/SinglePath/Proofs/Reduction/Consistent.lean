import SinglePath.Proofs.Flow.Relabelled
import SinglePath.Proofs.Func.Derivation
import SinglePath.Proofs.Reduction.Instructions

/-!
The edges, the layout and the erased blocks of a function stay in step under every operation and in every phase.
-/

namespace SinglePath

open List Relation Work

namespace Func

variable {func next : Func} {base b o u t : BlockId} {name : String} {insts : List Inst}

/-- Every edge stands once at each of its ends, the layout holds the blocks that are not erased, each once, and an
erased block has no edges. -/
structure Consistent (func : Func) : Prop where
  linked : func.Linked
  once : func.layout.Nodup
  laid : ∀ b, b ∈ func.layout ↔ func.Standing b
  isolated : ∀ b, ¬ func.Standing b → func.succsOf b = [] ∧ func.predsOf b = []

theorem Standing.lt_length (standing : func.Standing b) : b.index < func.blocks.length := by
  obtain ⟨body, got, _⟩ := Option.map_eq_some_iff.mp standing
  exact SinglePath.lt_length got

/-- A list of blocks and the list of their new numbers. -/
theorem mem_placed (once : func.layout.Nodup) {olds news : List BlockId}
    (placed : news.map some = olds.map func.placement.get?) :
    (∀ b, b ∈ news ↔ ∃ old ∈ olds, func.layout[b.index]? = some old) ∧ (olds.Nodup → news.Nodup) := by
  have members (b : BlockId) : b ∈ news ↔ ∃ old ∈ olds, func.layout[b.index]? = some old := by
    simp only [← placement_eq_some once, ← mem_map, ← placed]
    simp
  refine ⟨members, fun oldOnce => Nodup.of_map some ?_⟩
  rw [placed]
  refine oldOnce.map_on fun first isFirst second isSecond same => ?_
  have mem := mem_map_of_mem (f := func.placement.get?) isFirst
  rw [← placed] at mem
  obtain ⟨b, _, isPlace⟩ := mem_map.mp mem
  exact Option.mem_unique ((placement_eq_some once).mp isPlace.symm) ((placement_eq_some once).mp (same ▸ isPlace.symm))

namespace Consistent

/-- A function is consistent if its edges are in step and between blocks that stand. -/
theorem of_edges (linked : func.Linked) (once : func.layout.Nodup) (laid : ∀ b, b ∈ func.layout ↔ func.Standing b)
    (edges : ∀ u t, t ∈ func.succsOf u → func.Standing u ∧ func.Standing t) : func.Consistent where
  linked := linked
  once := once
  laid := laid
  isolated b gone := by
    refine ⟨eq_nil_iff_forall_not_mem.mpr fun t edge => gone (edges b t edge).1,
      eq_nil_iff_forall_not_mem.mpr fun u edge => gone (edges u b ?_).2⟩
    exact (linked.ends u b).mpr edge

theorem of_empty (name : String) : ({ name := name } : Func).Consistent := by
  refine .of_edges ⟨?_, ?_, ?_⟩ nodup_nil ?_ ?_ <;> simp [succsOf, predsOf, Func.block?, Standing]

variable (consistent : func.Consistent)

include consistent

theorem edge (edge : t ∈ func.succsOf u) : func.Standing u ∧ func.Standing t := by
  have back := (consistent.linked.ends u t).mp edge
  refine ⟨by_contra fun gone => ?_, by_contra fun gone => ?_⟩
  · simp [(consistent.isolated u gone).1] at edge
  · simp [(consistent.isolated t gone).2] at back

/-- A change of edges is consistent if every new edge is between blocks that are not erased. -/
theorem relink (relinked : func.Relinked next) (edges : ∀ u t, t ∈ next.succsOf u →
    t ∈ func.succsOf u ∨ func.Standing u ∧ func.Standing t) : next.Consistent := by
  have standing := standing_of_sameButEdges relinked.same
  refine .of_edges (relinked.linked consistent.linked) (relinked.same.layout ▸ consistent.once) ?_ ?_
  · exact fun b => by rw [← relinked.same.layout, consistent.laid, standing]
  · intro u t edge
    rw [standing, standing]
    exact (edges u t edge).elim consistent.edge id

theorem unchanged (layout : next.layout = func.layout) (succs : ∀ b, next.succsOf b = func.succsOf b)
    (preds : ∀ b, next.predsOf b = func.predsOf b)
    (standing : ∀ b, next.Standing b ↔ func.Standing b) : next.Consistent where
  linked := {
    ends := fun u t => by rw [succs, preds, consistent.linked.ends]
    succsOnce := fun b => succs b ▸ consistent.linked.succsOnce b
    predsOnce := fun b => preds b ▸ consistent.linked.predsOnce b }
  once := layout ▸ consistent.once
  laid b := by rw [layout, consistent.laid, standing]
  isolated b gone := by
    rw [succs, preds]
    exact consistent.isolated b fun stands => gone ((standing b).mpr stands)

theorem recode (same : func.SameButCode next) : next.Consistent :=
  consistent.unchanged same.layout same.succsOf same.predsOf same.standing

theorem recoded {code : BlockId → List Inst} (recoded : Recoded func next code) : next.Consistent :=
  consistent.unchanged recoded.layout recoded.succsOf recoded.predsOf recoded.standing

/-- Any layout of the blocks that stand is consistent. -/
theorem relayout {layout : List BlockId} (once : layout.Nodup) (laid : ∀ b, b ∈ layout ↔ func.Standing b)
    (cells : Nat) : { func with layout := layout, cells := cells }.Consistent :=
  of_edges ⟨consistent.linked.ends, consistent.linked.succsOnce, consistent.linked.predsOnce⟩ once laid
    fun _ _ => consistent.edge

theorem addBlock (name : String) (insts : List Inst) : (func.addBlock name insts).2.Consistent := by
  refine .of_edges (consistent.linked.addBlock name insts) ?_ (fun b => ?_) fun u t edge => ?_
  · refine nodup_append.mpr ⟨consistent.once, nodup_singleton _, fun b inside o isNew => ?_⟩
    obtain rfl := mem_singleton.mp isNew
    rintro rfl
    exact Nat.lt_irrefl _ ((consistent.laid _).mp inside).lt_length
  · rw [standing_addBlock, ← consistent.laid]
    exact mem_append.trans (or_congr_right (mem_singleton.trans ⟨congrArg BlockId.index, congrArg BlockId.mk⟩))
  · rw [standing_addBlock, standing_addBlock]
    exact (consistent.edge (succsOf_addBlock .. ▸ edge)).imp .inl .inl

theorem addEdge (isSource : func.Standing u) (isTarget : func.Standing t)
    (added : func.addEdge u t = .ok next) : next.Consistent := by
  refine consistent.relink ⟨addEdge_sameButEdges added, (·.addEdge added)⟩ fun b o edge => ?_
  refine ((mem_succsOf_addEdge added b o).mp edge).imp_right ?_
  rintro ⟨rfl, rfl⟩
  exact ⟨isSource, isTarget⟩

theorem removeEdge (removed : func.removeEdge u t = .ok next) : next.Consistent :=
  consistent.relink ⟨removeEdge_sameButEdges removed, (·.removeEdge removed)⟩
    fun b o edge => .inl ((mem_succsOf_removeEdge removed b o).mp edge).1

theorem removeSuccs (removed : func.removeSuccs b = .ok next) : next.Consistent := by
  obtain ⟨relinked, edges⟩ := removeSuccs_ok removed
  exact consistent.relink relinked fun u t edge => .inl ((edges u t).mp edge).1

theorem moveAfter (standing : func.Standing b) (after : BlockId) : (func.moveAfter b after).Consistent := by
  have perm : (insertAfter b after (func.layout.filter (· ≠ b))).Perm (b :: func.layout.filter (· ≠ b)) := by
    generalize func.layout.filter (· ≠ b) = layout
    induction layout with
    | nil => exact .refl _
    | cons first rest ih =>
      rw [insertAfter]
      split
      · exact .swap b first rest
      · exact (ih.cons first).trans (.swap b first rest)
  refine consistent.relayout (perm.nodup_iff.mpr (nodup_cons.mpr ⟨by simp, consistent.once.filter _⟩)) ?_ func.cells
  intro o
  rw [perm.mem_iff, mem_cons, mem_filter, consistent.laid, decide_eq_true_eq]
  by_cases same : o = b
  · simp [same, standing]
  · simp [same]

theorem erase (erased : func.erase b = .ok next) : next.Consistent := by
  have facts := erase_ok erased
  obtain ⟨unsourced, removing, isolated, removingPreds, isNext⟩ := bind_bind_pure_inv erased
  obtain ⟨relinked, _⟩ := removeSuccs_ok removing
  obtain ⟨relinkedPreds, _⟩ := removePreds_ok (relinked.linked consistent.linked) removingPreds
  have standing (o : BlockId) : next.Standing o ↔ func.Standing o ∧ o ≠ b := by
    rw [← standing_of_sameButEdges (relinked.trans relinkedPreds).same, ← isNext]
    show ((isolated.modify b _).block? o).map _ = _ ↔ _
    rw [block?_modify, Standing]
    split
    · next same => cases isolated.block? o <;> simp [same]
    · next ne => simp [ne]
  refine .of_edges (facts.linked consistent.linked) (facts.layout ▸ consistent.once.filter _) ?_ ?_
  · intro o
    rw [facts.layout, mem_filter, standing, consistent.laid, decide_eq_true_eq]
  · intro u t edge
    obtain ⟨kept, notSource, notTarget⟩ := (facts.edges consistent.linked u t).mp edge
    obtain ⟨isSource, isTarget⟩ := consistent.edge kept
    exact ⟨(standing u).mpr ⟨isSource, notSource⟩, (standing t).mpr ⟨isTarget, notTarget⟩⟩

/-- Splicing keeps a function consistent. -/
theorem splice (follows : b ∈ func.succsOf base) (spliced : func.splice base b = .ok next) : next.Consistent := by
  obtain ⟨body, _, longer, appended, spliced⟩ := bind_bind_inv spliced
  obtain ⟨apart, removed, contentApart, isApart, spliced⟩ := bind_bind_inv spliced
  obtain ⟨moved, moving, erasing⟩ := bind_inv spliced
  obtain ⟨_, _, rfl⟩ := bind_pure_inv appended
  have sameCode : func.SameButCode (func.modify base (·.append body.insts)) :=
    sameButCode_modify func base fun _ => rfl
  have consistentApart := (consistent.recode sameCode).removeEdge removed
  have isBase : apart.Standing base := by
    rw [standing_of_sameButEdges (removeEdge_sameButEdges removed), sameCode.standing]
    exact (consistent.edge follows).1
  obtain ⟨relinked, edges⟩ := moveSuccs_ok moving
  refine (consistentApart.relink relinked fun u t edge => ?_).erase erasing
  refine ((edges u t).mp edge).imp And.left ?_
  rintro ⟨rfl, isSucc⟩
  rw [← succsOf_eq (get_eq_ok.mp isApart)] at isSucc
  exact ⟨isBase, (consistentApart.edge isSucc).2⟩

/-- Merging keeps a function consistent. -/
theorem merge (merged : func.merge = .ok next) : next.Consistent := by
  refine merge_preserves consistent (fun {func _ base b} alone spliced consistent => ?_) merged
  have follows : b ∈ func.succsOf base := by
    rw [consistent.linked.ends, alone]
    exact .head _
  exact consistent.splice follows spliced

/-- Derived edges are consistent, if branches go to blocks that stand. -/
theorem deriveEdges (targets : ∀ b ∈ func.layout, ∀ t ∈ func.targetsOf b, func.Standing t)
    (derived : func.deriveEdges = .ok next) : next.Consistent := by
  obtain ⟨same, linked, edges⟩ := deriveEdges_exits derived
  have laid (b : BlockId) : b ∈ next.layout ↔ next.Standing b := by
    rw [← same.layout, consistent.laid, standing_of_sameButEdges same]
  refine .of_edges linked (same.layout ▸ consistent.once) laid fun u t edge => ?_
  obtain ⟨inside, body, following, got, exits, within⟩ := ((edges u t).mp edge).place
  refine ⟨(laid u).mp inside, ?_⟩
  rcases mem_append.mp exits with isTarget | isNext
  · rw [← targetsOf_eq got, targetsOf_of_sameButEdges same] at isTarget
    exact (standing_of_sameButEdges same t).mpr (targets u (same.layout ▸ inside) t isTarget)
  · split at isNext
    · exact (laid t).mp (within t (Option.mem_toList.mp isNext))
    · simp at isNext

/-- Renumbering leaves a consistent function. -/
theorem renumber {placement : BlockMap} (res : func.renumber = .ok (placement, next)) : next.Consistent := by
  obtain ⟨rfl, renumbered⟩ := renumber_renumbered consistent.once res
  obtain ⟨blocks, mapped, e, _, isNext⟩ := bind_bind_inv res
  obtain ⟨_, isNext⟩ := Prod.mk.inj (pure_inv isNext)
  have length := mapM_length mapped
  have standing (b : BlockId) : next.Standing b ↔ b.index < func.layout.length := by
    rw [← length, ← isNext]
    refine ⟨(·.lt_length), fun inside => ?_⟩
    obtain ⟨_, _, transformed⟩ := mapM_getElem? mapped (getElem?_eq_getElem inside)
    obtain ⟨body, _, insts, _, transformed⟩ := bind_bind_inv transformed
    obtain ⟨succs, _, preds, _, isBlock⟩ := bind_bind_pure_inv transformed
    show (blocks[b.index]?).map _ = _
    rw [getElem?_eq_getElem inside, ← isBlock]
    rfl
  have absent (b : BlockId) (outside : func.layout[b.index]? = none) :
      next.succsOf b = [] ∧ next.predsOf b = [] := by
    have missing : next.block? b = none := by
      rw [← isNext]
      exact getElem?_eq_none (length ▸ getElem?_eq_none_iff.mp outside)
    simp [succsOf, predsOf, missing]
  have succs (b : BlockId) {old : BlockId} (isBlock : func.layout[b.index]? = some old) :=
    mem_placed consistent.once (renumbered.succsOf b.index old isBlock)
  have preds (b : BlockId) {old : BlockId} (isBlock : func.layout[b.index]? = some old) :=
    mem_placed consistent.once (renumbered.predsOf b.index old isBlock)
  refine ⟨⟨fun u t => ?_, fun b => ?_, fun b => ?_⟩, renumbered.once, fun b => ?_, fun b gone => ?_⟩
  · cases isSource : func.layout[u.index]? <;> cases isTarget : func.layout[t.index]?
    · simp [absent, isSource, isTarget]
    · simp [absent, isSource, (preds t isTarget).1]
    · simp [absent, isTarget, (succs u isSource).1]
    · simp [(succs u isSource).1, (preds t isTarget).1, isSource, isTarget, consistent.linked.ends]
  · cases isBlock : func.layout[b.index]? with
    | none => simp [absent, isBlock]
    | some old => exact (succs b isBlock).2 (consistent.linked.succsOnce old)
  · cases isBlock : func.layout[b.index]? with
    | none => simp [absent, isBlock]
    | some old => exact (preds b isBlock).2 (consistent.linked.predsOnce old)
  · exact renumbered.mem_layout.trans (standing b).symm
  · exact absent b (getElem?_eq_none (Nat.not_lt.mp fun inside => gone ((standing b).mpr inside)))

end Consistent

/-- One change of a function, by an operation that is given what it asks for. -/
inductive Edit : Func → Func → Prop where
  | addBlock (func : Func) (name : String) (insts : List Inst) : Edit func (func.addBlock name insts).2
  | addEdge {func next : Func} {u t : BlockId} (isSource : func.Standing u)
      (isTarget : func.Standing t) (added : func.addEdge u t = .ok next) : Edit func next
  | removeEdge {func next : Func} {u t : BlockId} (removed : func.removeEdge u t = .ok next) :
      Edit func next
  | removeSuccs {func next : Func} {b : BlockId} (removed : func.removeSuccs b = .ok next) : Edit func next
  | moveAfter {func : Func} {b : BlockId} (standing : func.Standing b) (after : BlockId) :
      Edit func (func.moveAfter b after)
  | erase {func next : Func} {b : BlockId} (erased : func.erase b = .ok next) : Edit func next
  | deriveEdges {func next : Func}
      (targets : ∀ b ∈ func.layout, ∀ t ∈ func.targetsOf b, func.Standing t)
      (derived : func.deriveEdges = .ok next) : Edit func next
  | merge {func next : Func} (merged : func.merge = .ok next) : Edit func next
  | renumber {func next : Func} {placement : BlockMap} (renumbered : func.renumber = .ok (placement, next)) :
      Edit func next
  | recode {func next : Func} (same : func.SameButCode next) : Edit func next
  | newCell {func next : Func} {c : CellId} (added : func.newCell = .ok (c, next)) : Edit func next
  | enterAt (func : Func) (b : BlockId) : Edit func { func with entry := b }
  | declare (func : Func) (b : BlockId) (regs : List PReg) :
      Edit func (func.modify b fun body => { body with liveIns := regs })

/-- Every operation keeps a function consistent. -/
theorem Edit.consistent (edit : Edit func next) (consistent : func.Consistent) : next.Consistent := by
  cases edit with
  | addBlock name insts => exact consistent.addBlock name insts
  | addEdge isSource isTarget added => exact consistent.addEdge isSource isTarget added
  | removeEdge removed => exact consistent.removeEdge removed
  | removeSuccs removed => exact consistent.removeSuccs removed
  | moveAfter standing after => exact consistent.moveAfter standing after
  | erase erased => exact consistent.erase erased
  | deriveEdges targets derived => exact consistent.deriveEdges targets derived
  | merge merged => exact consistent.merge merged
  | renumber renumbered => exact consistent.renumber renumbered
  | recode same => exact consistent.recode same
  | newCell added =>
    obtain ⟨cells, _, added⟩ := bind_inv added
    obtain ⟨_, rfl⟩ := Prod.mk.inj (pure_inv added)
    exact consistent.relayout consistent.once consistent.laid _
  | enterAt b => exact consistent.unchanged rfl (fun _ => rfl) (fun _ => rfl) fun _ => .rfl
  | declare b regs =>
    exact consistent.unchanged rfl (succsOf_modify _ _ · _ fun _ => rfl) (predsOf_modify _ _ · _ fun _ => rfl)
      (standing_modify _ _ · _ fun _ => rfl)

end Func

open Func

namespace Plan

variable {plan : Plan} {func : Func} {work next : Work}

/-- The blocks of the chain are all the blocks that are not erased, and its edges are between them. -/
theorem linearize_consistent {entered : List ScopeId} {members : Table BlockId ScopeId}
    (valid : plan.tree.Valid func entered members) (consistent : work.func.Consistent)
    (sameLayout : work.func.layout = func.layout) (sameLength : work.func.blocks.length = func.blocks.length)
    (sameEntry : work.func.entry = func.entry) (same : ∀ b, work.func.Standing b ↔ func.Standing b)
    (res : plan.linearize work = .ok next) :
    next.func.Consistent := by
  have usable {id : ScopeId} {s : Scope} (got : plan.tree.get id = .ok s) {b : BlockId}
      (mem : b ∈ s.blocks) : work.func.Standing b := by
    obtain ⟨⟨body, isBlock, kept⟩, _⟩ := (valid.checked got).usable b mem
    rw [same, Standing, isBlock, Option.map_some, kept]
  obtain ⟨top, foundTop, _, isHeader⟩ := valid.top
  have entryLaid := (consistent.laid _).mpr (usable foundTop (valid.header_mem_blocks foundTop))
  rw [sameLayout, isHeader] at entryLaid
  obtain ⟨es, links, linearized, _⟩ :=
    linearize_ok valid sameLayout sameLength sameEntry (sameLayout ▸ consistent.once) entryLaid res
  have linking := linearized.linking
  obtain ⟨walked, isWalk, isEntered, walks⟩ := valid.walked
  obtain rfl := ok_unique linearized.walked isWalk
  have laid (b : BlockId) : b ∈ next.func.layout ↔ next.func.Standing b := by
    rw [linking.standing]
    constructor
    · intro inside
      rcases linearized.threads.blocks (linearized.layout ▸ inside) with isMet | new
      · obtain ⟨id, s, got, mem⟩ := (valid.mem_met isEntered walks).mp isMet
        exact .inl (usable got mem)
      · exact .inr ⟨new, linking.inside b inside⟩
    · rintro (standing | ⟨new, inside⟩)
      · exact linearized.placing.kept b ((consistent.laid b).mpr standing)
      · rw [linearized.layout]
        exact (linking.fresh b new inside).resolve_right (by simp)
  refine .of_edges (linking.linked consistent.linked) linearized.placing.once laid fun u t edge => ?_
  rw [← laid, ← laid]
  -- A block that has an edge and no link would be laid out, and so linked.
  have linked : u ∈ links.map (·.block) := by_contra fun unlinked =>
    unlinked (linearized.layout ▸ linearized.placing.kept u ((consistent.laid u).mpr
      (consistent.edge (linking.rest u t edge unlinked)).1))
  refine ⟨linearized.layout ▸ linked, ?_⟩
  obtain ⟨link, mem, rfl⟩ := mem_map.mp linked
  obtain ⟨before, after, rfl⟩ := append_of_mem mem
  rw [linearized.layout]
  rcases (linking.succs before link after rfl t).mp edge with isNext | isBack
  · obtain ⟨following, isHead, rfl⟩ := Option.map_eq_some_iff.mp isNext
    exact mem_map_of_mem (by simp [mem_of_mem_head? isHead])
  · simp [mem_map.mp (linking.backs before link after rfl t isBack)]

end Plan

namespace Func

variable {func : Func}

theorem Consistent.resolveCells {next : Func} (consistent : func.Consistent) (res : func.resolveCells = .ok next) :
    next.Consistent :=
  consistent.recoded (resolveCells_recoded consistent.once (fun b inside =>
    (Option.map_eq_some_iff.mp ((consistent.laid b).mp inside)).imp fun _ => And.left) res)

/-- A function that is made by operations is consistent, and so is what each phase of the reduction of a consistent
function leaves. -/
theorem edits_consistent :
    (∀ {name : String} {func : Func}, ReflTransGen Edit { name := name } func → func.Consistent) ∧
    ∀ {func : Func} {tree : ScopeTree} {regs : TargetRegs} {options : ReduceOptions} {plan : Plan} {start : Func},
      func.Consistent → Plan.make tree regs func = .ok (plan, start) → start.Consistent ∧
      ∀ predicated, plan.predicate { func := start } = .ok predicated → predicated.func.Consistent ∧
      ∀ defined, plan.define predicated = .ok defined → defined.func.Consistent ∧
      ∀ straight, plan.linearize defined = .ok straight → straight.func.Consistent ∧
      ∀ merged, straight.func.merge = .ok merged → merged.Consistent ∧
      ∀ cleaned, plan.clean options { straight with func := merged } = .ok cleaned → cleaned.func.Consistent ∧
      ∀ resolved, cleaned.func.resolveCells = .ok resolved → resolved.Consistent ∧
      ∀ placement final, resolved.renumber = .ok (placement, final) → final.Consistent := by
  refine ⟨fun {name func} edited => ?_, fun {func _ _ _ _ start} consistent planned => ?_⟩
  · induction edited with
    | refl => exact .of_empty name
    | tail _ edit ih => exact edit.consistent ih
  obtain ⟨_, _, depths, made⟩ := Plan.make_ok planned
  have isStart := made.laid.start
  have begun : start.Consistent := isStart ▸ consistent.relayout consistent.once consistent.laid _
  refine ⟨begun, fun predicated predicating => ?_⟩
  have samePredicated := (Plan.predicate_rewritten made.members_once predicating).same
  refine ⟨begun.recode samePredicated, fun defined defining => ?_⟩
  obtain ⟨_, _, sameDefined, _⟩ := Plan.define_ok made.headers_once defining
  have same := samePredicated.trans sameDefined
  have isDefined := begun.recode same
  refine ⟨isDefined, fun straight linearizing => ?_⟩
  have isStraight := Plan.linearize_consistent made.valid isDefined (by rw [same.layout, isStart])
    (by rw [same.length, isStart]) (by rw [same.entry, isStart]) (fun block => by rw [same.standing, isStart]; rfl)
    linearizing
  refine ⟨isStraight, fun merged merging => ⟨isStraight.merge merging, fun cleaned cleaning => ?_⟩⟩
  have isClean := (isStraight.merge merging).recoded (Plan.clean_thinned cleaning).recoded
  exact ⟨isClean, fun resolved resolving => ⟨isClean.resolveCells resolving,
    fun _ _ renumbering => (isClean.resolveCells resolving).renumber renumbering⟩⟩

/-- A loop that is built block by block and carried through all phases. -/
theorem edits_consistent_countdown : ∃ plan start straight merged cleaned resolved final reduction,
    ReflTransGen Edit { name := "countdown" } countdownFunc ∧ countdownFunc.Consistent ∧
    Plan.make countdownTree {} countdownFunc = .ok (plan, start) ∧ start.Consistent ∧
    plan.Phases {} start straight merged cleaned resolved final reduction ∧ straight.func.Consistent ∧
    merged.Consistent ∧ cleaned.func.Consistent ∧ resolved.Consistent ∧ final.Consistent := by
  have edited : ReflTransGen Edit { name := "countdown" } countdownFunc :=
    (((ReflTransGen.single (.addBlock _ "entry" (countdownFunc.codeOf ⟨0⟩))).tail
      (.addBlock _ "body" (countdownFunc.codeOf ⟨1⟩))).tail (.addBlock _ "done" (countdownFunc.codeOf ⟨2⟩))).tail
      (.deriveEdges (by unfold Standing; decide) rfl)
  obtain ⟨reduction, final, reduced, _⟩ := exists_of_reducesTo
    (show countdownFunc.reducesTo countdownTree {} {} (fun _ _ => true) = true by decide +kernel)
  obtain ⟨plan, start, straight, merged, cleaned, resolved, planned, phases⟩ := reduce_ok rfl reduced
  obtain ⟨predicated, predicating, defined, defining, linearizing⟩ := bind_bind_inv phases.straightened
  have consistent := edits_consistent.1 edited
  obtain ⟨begun, later⟩ := edits_consistent.2 consistent planned
  obtain ⟨isStraight, later⟩ := ((later predicated predicating).2 defined defining).2 straight linearizing
  obtain ⟨isMerged, later⟩ := later merged phases.merging
  obtain ⟨isCleaned, later⟩ := later cleaned phases.cleaning
  obtain ⟨isResolved, later⟩ := later resolved phases.resolving
  exact ⟨plan, start, straight, merged, cleaned, resolved, final, reduction, edited, consistent, planned, begun, phases,
    isStraight, isMerged, isCleaned, isResolved, later _ final phases.renumbering⟩

end Func

end SinglePath
