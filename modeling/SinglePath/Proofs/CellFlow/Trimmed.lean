import SinglePath.Proofs.CellFlow.Facts
import SinglePath.Proofs.Flow.Placed
import SinglePath.Proofs.Func.Traversal

namespace SinglePath

open List Setting

namespace Func

variable {f next : Func} {keep : Block → List Inst} {order : List BlockId} {b : BlockId}

/-- Every branch and return of a block is among its last instructions, and no instruction names a word of the frame but
by its cell. -/
structure Orderly (f : Func) : Prop where
  closed : f.Closed
  last : ∀ body ∈ f.blocks,
    body.insts.Pairwise fun first second => first.isTerminator = true → second.isTerminator = true
  framed : ∀ body ∈ f.blocks, ∀ inst ∈ body.insts, inst.Framed

theorem mem_blocks {body : Block} (got : f.block? b = some body) : body ∈ f.blocks := mem_of_getElem? got

theorem blocksOf_ok (known : ∀ b ∈ order, ∃ body, f.block? b = some body) :
    ∃ blocks, f.blocksOf order = .ok blocks := by
  refine mapM_ok fun b isNamed => ?_
  obtain ⟨body, got⟩ := known b isNamed
  exact ⟨(b, body), by rw [get_eq_ok.mpr got]; rfl⟩

/-- The traversal from the entry meets the blocks of the order. They hold nothing after a branch but branches and
returns, and name words of the frame by their cells. -/
structure Met (f : Func) (order : List BlockId) : Prop where
  traversed : f.reversePostorder = .ok order
  known : ∀ b ∈ order, ∃ body, f.block? b = some body
  last : ∀ b ∈ order, (f.codeOf b).Pairwise fun first second =>
    ∀ t, first.branchTarget = some t → second.isTerminator = true
  framed : ∀ b ∈ order, ∀ inst ∈ f.codeOf b, inst.Framed

theorem Orderly.met (orderly : f.Orderly) : ∃ order, f.Met order := by
  obtain ⟨order, traversed⟩ := orderly.closed.reversePostorder_ok
  have known := orderly.closed.known traversed
  refine ⟨order, traversed, known, fun b isMet => ?_, fun b isMet => ?_⟩
  · obtain ⟨body, got⟩ := known b isMet
    rw [codeOf_eq got]
    exact (orderly.last body (mem_blocks got)).imp fun ends t branches => ends (Inst.isTerminator_of_branch branches)
  · obtain ⟨body, got⟩ := known b isMet
    rw [codeOf_eq got]
    exact orderly.framed body (mem_blocks got)

theorem Chained.mem_layout_of_met (chained : f.Chained) (traversed : f.reversePostorder = .ok order)
    (isMet : b ∈ order) : b ∈ f.layout :=
  (reversePostorder_explored (fun _ _ _ => chained.succ_mem) chained.laid.entered traversed).2 b isMet

/-- No block comes before the entry of a chain. -/
theorem Chained.unentered (chained : f.Chained) : f.predsOf f.entry = [] :=
  eq_nil_iff_forall_not_mem.mpr fun pred isPred =>
    chained.entry_not_succ pred ((chained.linked.ends pred f.entry).mpr isPred)

theorem Tidy.met (tidy : f.Tidy) (traversed : f.reversePostorder = .ok order) : f.Met order := by
  have inside : ∀ b ∈ order, b ∈ f.layout := fun _ => tidy.chained.mem_layout_of_met traversed
  exact ⟨traversed, fun b isMet => tidy.chained.laid.found b (inside b isMet),
    fun b isMet => (tidy.last b (inside b isMet)).pairwise, fun b isMet =>
      tidy.framed b (inside b isMet)⟩

/-- The blocks that the traversal meets are trimmed. -/
structure Trimming (keep : Block → List Inst) (order : List BlockId) (f next : Func) : Prop
    extends Trimmed keep order f next, Met f order

/-- The blocks can be gathered in the order of the traversal or against it, and shrunk. -/
theorem Met.trimming (met : f.Met order) {mem : List BlockId} (same : ∀ b, b ∈ mem ↔ b ∈ order) :
    ∃ blocks, f.blocksOf mem = .ok blocks ∧ ∀ keep, Trimming keep order f (f.shrink blocks keep).2 := by
  obtain ⟨blocks, gathered⟩ := blocksOf_ok fun b isListed => met.known b ((same b).mp isListed)
  exact ⟨blocks, gathered, fun keep => { (shrink_trimmed keep gathered).1.of_mem same, met with }⟩

theorem Met.entered (met : f.Met order) : f.entry ∈ order := (reversePostorder_closed met.traversed).1

theorem Met.onward (met : f.Met order) : f.ClosedOn order := (reversePostorder_closed met.traversed).2

namespace Trimming

variable {placed : Bool}

/-- Both functions have the block, each with its own instructions. -/
theorem startOf (trimming : Trimming keep order f next) {b : BlockId} {body : Block}
    (got : f.block? b = some body) (isMet : b ∈ order) :
    (f.viewed placed).startOf b = .ok ⟨b, body.insts.map (Inst.viewed placed)⟩ ∧
      (next.viewed placed).startOf b = .ok ⟨b, (keep body).map (Inst.viewed placed)⟩ := by
  have foundNext := trimming.block? b
  rw [got, Option.map_some, if_pos isMet] at foundNext
  exact ⟨startOf_viewed got, startOf_viewed foundNext⟩

/-- Runs at the end of a block both fall to the next block, or off the end of the function. -/
theorem advance_end (trimming : Trimming keep order f next) {regs : TargetRegs} {lossy : Prop}
    {Related : Point → Machine → Point → Machine → Prop} (isMet : b ∈ order) {one two : Machine}
    (lands : ∀ t, f.layoutNext b = some t → Lands (f.viewed placed) (next.viewed placed) Related t one two) :
    Advance ⟨f.viewed placed, regs, none⟩ ⟨next.viewed placed, regs, none⟩ lossy Related ⟨b, []⟩ one
      ⟨b, []⟩ two := by
  obtain ⟨body, got⟩ := trimming.known b isMet
  have foundNext := trimming.block? b
  rw [got, Option.map_some, if_pos isMet] at foundNext
  have isContent := @block?_viewed f placed b
  have isKept := @block?_viewed next placed b
  rw [got] at isContent
  rw [foundNext] at isKept
  exact .both rfl (alike_of_fall trimming.layout isContent isKept rfl lands)

end Trimming

end Func

end SinglePath
