import SinglePath.Shape
import SinglePath.Proofs.CellFlow.Dropped

namespace SinglePath

open Inst List Table

variable {f : Func} {headers : List BlockId} {i : Nat} {b : BlockId}

namespace Func

/-- What the check of the shape demands of a function, given the headers of the loops: every branch goes back to a
header, no two go to the same one, every edge leads to the next block or to a header, and only the last block
returns. -/
structure Conforms (f : Func) (headers : List BlockId) : Prop where
  found : ∀ b ∈ f.layout, ∃ body, f.block? b = some body
  back : ∀ i b, f.layout[i]? = some b → ∀ t ∈ f.targetsOf b,
    t ∈ headers ∧ ∃ place : Nat, f.layout[place]? = some t ∧ place ≤ i
  single : ∀ header ∈ headers, (f.code.filterMap branchTarget).count header ≤ 1
  succs : ∀ b ∈ f.layout, ∀ succ ∈ f.succsOf b,
    (following b f.layout).head? = some succ ∨ succ ∈ headers
  returns : ∀ b ∈ f.layout, following b f.layout ≠ [] → ∀ inst ∈ f.codeOf b, inst.isReturn = false

/-- The shape as it is documented: besides, every block but the last has an edge to the next one. -/
structure Documented (f : Func) (headers : List BlockId) : Prop extends f.Conforms headers where
  falls : ∀ b ∈ f.layout, ∀ next, (following b f.layout).head? = some next → next ∈ f.succsOf b

theorem layoutPosition_eq_some (once : f.layout.Nodup) : f.layoutPosition b = some i ↔ f.layout[i]? = some b := by
  have isEntry {e : BlockId × Nat} (got : f.layout.zipIdx.reverse.find? (·.1 = b) = some e) :
      f.layout[e.2]? = some b := by
    obtain ⟨o, place⟩ := e
    obtain rfl : o = b := by simpa using find?_some got
    simpa [mk_mem_zipIdx_iff_getElem?] using mem_of_find?_eq_some got
  rw [layoutPosition, Option.map_eq_some_iff]
  refine ⟨fun ⟨e, got, isPlace⟩ => isPlace ▸ isEntry got, fun isBlock => ?_⟩
  cases got : f.layout.zipIdx.reverse.find? (·.1 = b) with
  | none =>
    have mem : (b, i) ∈ f.layout.zipIdx.reverse := by simpa [mk_mem_zipIdx_iff_getElem?] using isBlock
    simpa using find?_eq_none.mp got _ mem
  | some e =>
    have isPlace := isEntry got
    exact ⟨e, rfl, (getElem?_inj (lt_length isPlace) once).mp (isPlace.trans isBlock.symm)⟩

end Func

namespace Shape

variable {blocks : List (BlockId × Block)}

/-- How often each target was counted, and that no entry counts more. -/
theorem counted (rest seen : List BlockId) (counts : Table BlockId Nat)
    (known : ∀ t, (counts.get? t).getD 0 = seen.count t) (few : ∀ e ∈ counts.entries, e.2 ≤ seen.count e.1) :
    let final := rest.foldl (fun counts t => counts.alter t fun n => n.getD 0 + 1) counts
    (∀ t, (final.get? t).getD 0 = (seen ++ rest).count t) ∧
      ∀ e ∈ final.entries, e.2 ≤ (seen ++ rest).count e.1 := by
  induction rest generalizing seen counts with
  | nil =>
    rw [append_nil]
    exact ⟨known, few⟩
  | cons t rest ih =>
    rw [append_cons]
    refine ih (seen ++ [t]) _ (fun o => ?_) fun e mem => ?_
    · rw [get?_alter]
      split
      · next same => simp [same, known]
      · next ne => simp [known, Ne.symm ne]
    · rcases mem_place mem with rfl | old
      · simp [known]
      · exact le_trans (few e old) (by simp)

theorem repeatedTargets_nil {targets : List BlockId} : repeatedTargets targets = [] ↔ targets.Nodup := by
  obtain ⟨known, few⟩ := counted targets [] empty (fun _ => rfl) (by simp [empty])
  rw [repeatedTargets, map_eq_nil_iff, filter_eq_nil_iff, nodup_iff_count_le_one]
  refine ⟨fun none t => ?_, fun once e mem => ?_⟩
  · rw [← nil_append targets, ← known t]
    cases got : Table.get? _ t with
    | none => exact Nat.zero_le 1
    | some n => simpa using none _ (mem_of_find got)
  · simpa using le_trans (few e mem) (once e.1)

theorem edgeErrorsFrom_nil : edgeErrorsFrom headers blocks = [] ↔
    ∀ e after, e :: after <:+ blocks → edgeErrors headers e.1 e.2 (after.head?.map (·.1)) = [] := by
  induction blocks with
  | nil => simp [edgeErrorsFrom]
  | cons e rest ih => simp [edgeErrorsFrom, ih, suffix_cons_iff, or_imp, forall_and]

theorem edgeErrors_nil {body : Block} {next : Option BlockId} :
    edgeErrors headers b body next = [] ↔ (∀ succ ∈ body.succs, next = some succ ∨ succ ∈ headers) ∧
      (next ≠ none → ∀ inst ∈ body.insts, inst.isReturn = false) := by
  rw [edgeErrors, append_eq_nil_iff, map_eq_nil_iff, filter_eq_nil_iff]
  refine and_congr (forall₂_congr fun succ _ => ?_) ?_
  · grind
  · cases next <;> simp

theorem branchErrors_nil (once : f.layout.Nodup) {t : BlockId} : branchErrors f headers b i t = [] ↔
      t ∈ headers ∧ ∃ place : Nat, f.layout[place]? = some t ∧ place ≤ i := by
  simp only [← Func.layoutPosition_eq_some once]
  rw [branchErrors]
  cases f.layoutPosition t <;> simp [and_comm]

section

variable (once : f.layout.Nodup) (gathered : f.blocksOf f.layout = .ok blocks)

include once gathered

theorem branches_nil : (blocks.zipIdx.flatMap fun e =>
      e.1.2.branchTargets.flatMap (branchErrors f headers e.1.1 e.2)) = [] ↔
    ∀ i b, f.layout[i]? = some b → ∀ t ∈ f.targetsOf b,
      t ∈ headers ∧ ∃ place : Nat, f.layout[place]? = some t ∧ place ≤ i := by
  have keys (i : Nat) : f.layout[i]? = blocks[i]?.map (·.1) := by
    rw [← Func.blocksOf_keys gathered, getElem?_map]
  have targets (e : BlockId × Block) (isEntry : e ∈ blocks) : e.2.branchTargets = f.targetsOf e.1 := by
    rw [Func.targetsOf, Func.codeOf_eq (Func.blocksOf_listed gathered e isEntry), Block.branchTargets]
  rw [flatMap_eq_nil_iff]
  refine ⟨fun none i b isBlock t isTarget => ?_, fun all e isEntry => ?_⟩
  · rw [keys] at isBlock
    obtain ⟨e, isEntry, rfl⟩ := Option.map_eq_some_iff.mp isBlock
    have nothing := none (e, i) (mem_zipIdx_iff_getElem?.mpr isEntry)
    exact (branchErrors_nil once).mp
      (flatMap_eq_nil_iff.mp nothing t (targets e (mem_of_getElem? isEntry) ▸ isTarget))
  · have isAt := mem_zipIdx_iff_getElem?.mp isEntry
    refine flatMap_eq_nil_iff.mpr fun t isTarget => (branchErrors_nil once).mpr ?_
    exact all e.2 e.1.1 (by rw [keys, isAt]; rfl) t (targets _ (mem_of_getElem? isAt) ▸ isTarget)

theorem edges_nil : edgeErrorsFrom headers blocks = [] ↔ (∀ b ∈ f.layout, ∀ succ ∈ f.succsOf b,
        (Func.following b f.layout).head? = some succ ∨ succ ∈ headers) ∧
      ∀ b ∈ f.layout, Func.following b f.layout ≠ [] → ∀ inst ∈ f.codeOf b, inst.isReturn = false := by
  have keys := Func.blocksOf_keys gathered
  -- The entries after a block are those of the blocks that follow it.
  have follows {e : BlockId × Block} {after : List (BlockId × Block)} (part : e :: after <:+ blocks) :
      Func.following e.1 f.layout = after.map (·.1) := by
    obtain ⟨before, rfl⟩ := part
    exact Func.following_split once (keys.symm.trans map_append)
  have atEntry {e : BlockId × Block} {after : List (BlockId × Block)} (part : e :: after <:+ blocks) :
      edgeErrors headers e.1 e.2 (after.head?.map (·.1)) = [] ↔
        (∀ succ ∈ f.succsOf e.1, (Func.following e.1 f.layout).head? = some succ ∨ succ ∈ headers) ∧
          (Func.following e.1 f.layout ≠ [] → ∀ inst ∈ f.codeOf e.1, inst.isReturn = false) := by
    have got := Func.blocksOf_listed gathered e (part.subset (mem_cons_self ..))
    rw [edgeErrors_nil, Func.succsOf_eq got, Func.codeOf_eq got, follows part, ← head?_map]
    simp
  rw [edgeErrorsFrom_nil, ← forall₂_and]
  refine ⟨fun none b inside => ?_, fun all e after part => (atEntry part).mpr (all e.1 ?_)⟩
  · rw [← keys] at inside
    obtain ⟨e, isEntry, rfl⟩ := mem_map.mp inside
    obtain ⟨before, after, split⟩ := append_of_mem isEntry
    exact (atEntry ⟨before, split.symm⟩).mp (none e after ⟨before, split.symm⟩)
  · exact keys ▸ mem_map_of_mem (part.subset (mem_cons_self ..))

end

theorem errors_eq_nil {tree : ScopeTree} (once : f.layout.Nodup) :
    errors f tree = .ok [] ↔ f.Conforms (loopHeaders tree) := by
  have taken {blocks : List (BlockId × Block)} (gathered : f.blocksOf f.layout = .ok blocks) :
      errors f tree = .ok [] ↔ f.Conforms (loopHeaders tree) := by
    have mem := Func.blocksOf_listed gathered
    have keys := Func.blocksOf_keys gathered
    have targets : blocks.flatMap (·.2.branchTargets) = f.code.filterMap branchTarget := by
      rw [Func.code, filterMap_flatMap, ← keys, flatMap_map]
      exact flatMap_congr fun e isEntry => by rw [Func.codeOf_eq (mem e isEntry), Block.branchTargets]
    have comp : errors f tree = .ok _ := bind_ok gathered rfl
    rw [comp, Except.ok.injEq, append_eq_nil_iff, append_eq_nil_iff, branches_nil once gathered, targets,
      repeatedTargets_nil, edges_nil once gathered]
    constructor
    · rintro ⟨⟨back, single⟩, succs, returns⟩
      refine ⟨fun b inside => ?_, back, fun header _ => nodup_iff_count_le_one.mp single header, succs, returns⟩
      rw [← keys] at inside
      obtain ⟨e, isEntry, rfl⟩ := mem_map.mp inside
      exact ⟨e.2, mem e isEntry⟩
    · intro conforms
      refine ⟨⟨conforms.back, nodup_iff_count_le_one.mpr fun t => ?_⟩, conforms.succs, conforms.returns⟩
      by_cases isTarget : t ∈ f.code.filterMap branchTarget
      · rw [Func.code, filterMap_flatMap] at isTarget
        obtain ⟨b, inside, isBlock⟩ := mem_flatMap.mp isTarget
        obtain ⟨i, isAt⟩ := getElem?_of_mem inside
        exact conforms.single t (conforms.back i b isAt t isBlock).1
      · rw [count_eq_zero.mpr isTarget]
        exact Nat.zero_le 1
  refine ⟨fun none => ?_, fun conforms => ?_⟩
  · obtain ⟨blocks, gathered, _⟩ := bind_inv none
    exact (taken gathered).mp none
  · obtain ⟨blocks, gathered⟩ : ∃ blocks, f.blocksOf f.layout = .ok blocks := by
      refine mapM_ok fun b inside => ?_
      obtain ⟨body, got⟩ := conforms.found b inside
      exact ⟨(b, body), by rw [Func.get_eq_ok.mpr got]; rfl⟩
    exact (taken gathered).mpr conforms

/-- The check accepts the functions that conform, and these have the documented shape if each block has an edge to the
next one. -/
theorem check_ok_iff (func : Func) (tree : ScopeTree) (once : func.layout.Nodup) :
    (check func tree = .ok () ↔ func.Conforms (loopHeaders tree)) ∧
      (func.Documented (loopHeaders tree) ↔ check func tree = .ok () ∧
        ∀ block ∈ func.layout, ∀ next, (Func.following block func.layout).head? = some next →
          next ∈ func.succsOf block) := by
  have accepts : check func tree = .ok () ↔ func.Conforms (loopHeaders tree) := by
    rw [← errors_eq_nil once, check]
    cases errors func tree with
    | error fault => simp
    | ok wrong => cases wrong <;> simp [pure_eq_ok]
  refine ⟨accepts, fun documented => ⟨accepts.mpr documented.toConforms, documented.falls⟩, ?_⟩
  rintro ⟨accepted, falls⟩
  exact ⟨accepts.mp accepted, falls⟩

/-- A block that loops for ever, with the return laid out behind it. -/
def endlessFunc : Func where
  name := "endless"
  blocks := [{ name := "entry", succs := [⟨1⟩] },
    { name := "loop", insts := [.plain (.branch ⟨1⟩)], succs := [⟨1⟩], preds := [⟨0⟩, ⟨1⟩] },
    { name := "last", insts := [.plain (.ret ⟨1⟩)] }]
  layout := [⟨0⟩, ⟨1⟩, ⟨2⟩]

def endlessTree : ScopeTree where
  scopes := [⟨none, 0, ⟨0⟩, [.block ⟨0⟩, .subscope ⟨1⟩, .block ⟨2⟩], [], none⟩,
    ⟨some ⟨0⟩, 1, ⟨1⟩, [.block ⟨1⟩], [], none⟩]
  blockPreds := Table.ofList [(⟨0⟩, ⟨0⟩), (⟨1⟩, ⟨0⟩), (⟨2⟩, ⟨0⟩)]
  predCount := 1

theorem check_ok_iff_endless : endlessFunc.layout.Nodup ∧ endlessFunc.Conforms (loopHeaders endlessTree) := by
  have once : endlessFunc.layout.Nodup := by decide
  exact ⟨once, (check_ok_iff endlessFunc endlessTree once).1.mp (by decide)⟩

/-- The check accepts a function in which the block before the last one does not go on to the last. -/
theorem check_undocumented :
    check endlessFunc endlessTree = .ok () ∧ ¬ endlessFunc.Documented (loopHeaders endlessTree) := by
  refine ⟨by decide, fun documented => ?_⟩
  have falls := documented.falls ⟨1⟩ (by decide) ⟨2⟩ (by decide)
  revert falls
  decide

end Shape

end SinglePath
