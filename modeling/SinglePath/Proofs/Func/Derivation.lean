import SinglePath.Proofs.Func.Merged

/-!
Edges of functions in which control never falls from the end of a block.
-/

namespace SinglePath

namespace Func

variable {f next : Func} {u : BlockId}

/-- The laid out blocks are there, branches lead to blocks that are there, and control does not fall through. -/
structure Explicit (f : Func) : Prop where
  found : ∀ b ∈ f.layout, ∃ body, f.block? b = some body
  targets : ∀ b ∈ f.layout, ∀ t ∈ f.targetsOf b, ∃ body, f.block? t = some body
  ends : ∀ b ∈ f.layout, ∀ body, f.block? b = some body → body.fallsThrough = false

theorem targetsOf_eq {b : BlockId} {body : Block} (got : f.block? b = some body) :
    f.targetsOf b = body.branchTargets := by
  rw [targetsOf, codeOf_eq got, Block.branchTargets]

theorem targetsOf_of_sameButEdges (same : f.SameButEdges next) (b : BlockId) : next.targetsOf b = f.targetsOf b := by
  rw [targetsOf, targetsOf, codeOf_of_sameButEdges same]

theorem addEdges_of_known {targets : List BlockId} (inside : u.index < f.blocks.length)
    (known : ∀ t ∈ targets, t.index < f.blocks.length) :
    ∃ next, targets.foldlM (fun f t => f.addEdge u t) f = .ok next := by
  induction targets generalizing f with
  | nil => exact ⟨f, rfl⟩
  | cons t rest ih =>
    obtain ⟨isTarget, known⟩ := List.forall_mem_cons.mp known
    obtain ⟨middle, added⟩ := addEdge_total inside isTarget
    have size := (addEdge_sameButEdges added).blocks
    obtain ⟨last, isLast⟩ := ih (size ▸ inside) (size ▸ known)
    exact ⟨last, by rw [List.foldlM_cons, added]; exact isLast⟩

theorem linkLayout_of_known {sources : List BlockId} (known : ∀ u ∈ sources, u.index < f.blocks.length ∧
    ∀ t ∈ f.targetsOf u, t.index < f.blocks.length) : ∃ next, f.linkLayout sources = .ok next := by
  induction sources generalizing f with
  | nil => exact ⟨f, rfl⟩
  | cons u rest ih =>
    obtain ⟨inside, targets⟩ := known u (.head _)
    have got : f.block? u = some _ := List.getElem?_eq_getElem inside
    obtain ⟨middle, linked⟩ : ∃ middle, f.linkBlock u rest.head? = .ok middle := by
      rw [linkBlock_eq, get_eq_ok.mpr got, ok_bind]
      refine addEdges_of_known inside fun t exits => ?_
      rcases List.mem_append.mp exits with isTarget | isNext
      · exact targets t (targetsOf_eq got ▸ isTarget)
      · split at isNext
        · exact (known t (.tail _ (List.mem_of_mem_head? (Option.mem_toList.mp isNext)))).1
        · simp at isNext
    obtain ⟨_, _, relinked, _⟩ := linkBlock_ok linked
    obtain ⟨next, isNext⟩ := @ih middle fun o isLater => by
      rw [← relinked.same.blocks, targetsOf_of_sameButEdges relinked.same]
      exact known o (.tail _ isLater)
    exact ⟨next, by rw [linkLayout, linked, ok_bind, isNext]⟩

/-- Edges can be derived if the laid out blocks and the targets of their branches are there. -/
theorem deriveEdges_of_known (known : ∀ b ∈ f.layout, b.index < f.blocks.length ∧
    ∀ t ∈ f.targetsOf b, t.index < f.blocks.length) : ∃ next, f.deriveEdges = .ok next := by
  refine linkLayout_of_known fun u inside => ?_
  rw [← f.clearEdges_same.blocks, targetsOf_of_sameButEdges f.clearEdges_same]
  exact known u inside

/-- The edges are those from each block to the targets of its branches. -/
theorem Explicit.deriveEdges (explicit : f.Explicit) : ∃ next, f.deriveEdges = .ok next ∧
    ∀ b o, o ∈ next.succsOf b ↔ b ∈ f.layout ∧ o ∈ f.targetsOf b := by
  have size {b : BlockId} : (∃ body, f.block? b = some body) → b.index < f.blocks.length := by
    rintro ⟨_, got⟩
    exact lt_length got
  obtain ⟨next, derived⟩ := deriveEdges_of_known fun b inside => ⟨size (explicit.found b inside),
    fun t isTarget => size (explicit.targets b inside t isTarget)⟩
  obtain ⟨same, _, edges⟩ := deriveEdges_exits derived
  refine ⟨next, derived, fun b o => ?_⟩
  rw [edges, exits_of_sameButEdges same, ← same.layout]
  constructor
  · intro exits
    obtain ⟨inside, body, _, got, exits, _⟩ := exits.place
    rw [Block.exits, explicit.ends b inside body got] at exits
    exact ⟨inside, by simpa [targetsOf_eq got] using exits⟩
  · rintro ⟨inside, isTarget⟩
    obtain ⟨body, got⟩ := explicit.found b inside
    exact exits_of_target inside got (targetsOf_eq got ▸ isTarget)

end Func

end SinglePath
