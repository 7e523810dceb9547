import SinglePath.Proofs.Allocation.SafeReplay

/-!
What the allocation of a scope records for the code of the scope.
-/

namespace SinglePath

open BlockLocs List Nat Scope ScopeAllocation

variable {pos r registers firstFree : Nat} {b : BlockId} {pred : PredId} {scope : ScopeEvents}
  {ctx : ScopeContext} {locs : Table PredId Location} {holders : List Holder} {tree : ScopeTree} {f : Func}
  {entered : List ScopeId} {members : Table BlockId ScopeId} {id : ScopeId} {alloc : ScopeAllocation}

namespace Replay

variable {ν : Type}

theorem Action.exists_moves (action : Action) (s : State ν) : ∃ next, action.Moves s next := by
  cases action with
  | spill bit r => exact ⟨_, rfl⟩
  | load r bit => exact ⟨_, rfl⟩
  | readReg r pred => exact ⟨_, rfl⟩
  | readBit bit pred => exact ⟨_, rfl⟩
  | inner preserve stackEnd => exact ⟨s, fun _ _ => rfl, fun _ _ => rfl, rfl⟩
  | define location pred => exact ⟨_, s.current pred, rfl⟩
  | merge location pred => exact ⟨_, s.current pred, rfl⟩
  | unplaced b pred => exact ⟨_, rfl⟩

/-- Every action of a safe replay finds what it expects in some state. -/
theorem Safe.met {actions : List Action} {s : State ν} {post : State ν → Prop} (safe : Safe actions s post)
    {action : Action} (mem : action ∈ actions) : ∃ reached : State ν, action.Met reached := by
  induction actions generalizing s with
  | nil => simp at mem
  | cons first rest ih =>
    rcases mem_cons.mp mem with rfl | later
    · exact ⟨s, safe.1⟩
    · obtain ⟨next, moves⟩ := first.exists_moves s
      exact ih (safe.2 next moves) later

end Replay

namespace Placement

variable {s : State}

/-- The registers, stack bits and spills that are recorded while the nodes of a scope are placed. -/
structure Bounded (pool : List Nat) (s : State) : Prop where
  uses : ∀ b entry, entry ∈ s.useLocs.entriesAt b → entry.2 ∈ pool
  loads : ∀ b entry, entry ∈ s.loadLocs.entriesAt b → entry.2 < s.nextStack
  spills : ∀ b entry, entry ∈ s.spillLocs.entriesAt b → entry.2 < s.nextStack ∧
    entry.1 ∈ (s.loadLocs.entriesAt b).map (·.1)
  borrowed : ∀ r ∈ s.borrowed, r ∈ pool

namespace Bounded

variable {pool : List Nat} {bit : Nat}

theorem initial (pool : List Nat) (nextStack : Nat) : Bounded pool { nextStack := nextStack } where
  uses _ _ mem := by simp [entriesAt] at mem
  loads _ _ mem := by simp [entriesAt] at mem
  spills _ _ mem := by simp [entriesAt] at mem
  borrowed _ mem := by simp at mem

variable (bounded : Bounded pool s)

include bounded

theorem recordUse (inPool : r ∈ pool) : Bounded pool { s with useLocs := s.useLocs.record b pred r } where
  uses o entry mem := by
    rcases mem_of_mem_record mem with old | ⟨_, rfl⟩
    · exact bounded.uses o entry old
    · exact inPool
  loads := bounded.loads
  spills := bounded.spills
  borrowed := bounded.borrowed

theorem recordLoad (inRange : bit < s.nextStack) :
    Bounded pool { s with loadLocs := s.loadLocs.record b pred bit } where
  uses := bounded.uses
  loads o entry mem := by
    rcases mem_of_mem_record mem with old | ⟨_, rfl⟩
    · exact bounded.loads o entry old
    · exact inRange
  spills o entry mem := by
    obtain ⟨below, loaded⟩ := bounded.spills o entry mem
    obtain ⟨load, isLoad, same⟩ := mem_map.mp loaded
    exact ⟨below, mem_map.mpr ⟨load, mem_entriesAt_record isLoad, same⟩⟩
  borrowed := bounded.borrowed

/-- A spill is recorded where its predicate is loaded. -/
theorem recordSpill (inRange : bit < s.nextStack) (loaded : pred ∈ (s.loadLocs.entriesAt b).map (·.1)) :
    Bounded pool { s with spillLocs := s.spillLocs.record b pred bit } where
  uses := bounded.uses
  loads := bounded.loads
  spills o entry mem := by
    rcases mem_of_mem_record mem with old | ⟨rfl, rfl⟩
    · exact bounded.spills o entry old
    · exact ⟨inRange, loaded⟩
  borrowed := bounded.borrowed

theorem borrow (inPool : r ∈ pool) : Bounded pool { s with borrowed := s.borrowed ++ [r] } where
  uses := bounded.uses
  loads := bounded.loads
  spills := bounded.spills
  borrowed o mem := by
    rcases mem_append.mp mem with old | new
    · exact bounded.borrowed o old
    · exact mem_singleton.mp new ▸ inPool

theorem grow {slots : Table PredId Nat} {nextStack : Nat}
    (grows : s.nextStack ≤ nextStack) : Bounded pool { s with slots := slots, nextStack := nextStack } where
  uses := bounded.uses
  loads o entry mem := Nat.lt_of_lt_of_le (bounded.loads o entry mem) grows
  spills o entry mem := ⟨Nat.lt_of_lt_of_le (bounded.spills o entry mem).1 grows, (bounded.spills o entry mem).2⟩
  borrowed := bounded.borrowed

theorem withEvictions (evictions : List Eviction) : Bounded pool { s with evictions := evictions } :=
  ⟨bounded.uses, bounded.loads, bounded.spills, bounded.borrowed⟩

/-- The slot of an evicted predicate is in range once it is handed out. -/
theorem withSlot (pred : PredId) (slots : ∀ slot, s.slots.get? pred = some slot → slot < s.nextStack) :
    Bounded pool (slotFor s pred).2 ∧ (slotFor s pred).1 < (slotFor s pred).2.nextStack := by
  unfold slotFor
  cases known : s.slots.get? pred with
  | some slot => exact ⟨bounded, slots slot known⟩
  | none => exact ⟨bounded.grow (le_succ _), lt_succ_self _⟩

theorem recordEviction (victim : Candidate)
    (slots : ∀ slot, s.slots.get? victim.holder.pred = some slot → slot < s.nextStack)
    (loaded : pred ∈ (s.loadLocs.entriesAt b).map (·.1)) : Bounded pool (recordEviction s b pred victim) := by
  unfold Placement.recordEviction
  cases victim.reload with
  | never => exact bounded.withEvictions _
  | before back =>
    obtain ⟨withSlot, inRange⟩ := bounded.withSlot victim.holder.pred slots
    have sameLoads : (slotFor s victim.holder.pred).2.loadLocs = s.loadLocs := by
      unfold slotFor
      split <;> rfl
    have spilled := withSlot.recordSpill inRange (sameLoads ▸ loaded)
    exact (spilled.recordLoad inRange).withEvictions _

end Bounded

/-- Placing one node keeps the records in range. -/
theorem NodeStep.bounded {site : NodeSite} {firstStackLoc : Nat} {next : State}
    (step : NodeStep scope ctx locs holders site pos s next)
    (located : Located scope locs holders firstStackLoc firstFree) (placing : Placing scope locs firstFree pos s)
    (pooled : ∀ pred r, locs.get? pred = some (.register r) → r ∈ ctx.pool)
    (bounded : Bounded ctx.pool s) : Bounded ctx.pool next := by
  have here : Bounded ctx.pool (s.at pos) := bounded.withEvictions _
  have inRange {pred : PredId} {bit : Nat} (held : locs.get? pred = some (.stack bit)) : bit < s.nextStack :=
    Nat.lt_of_lt_of_le (located.stack held).2 placing.bound
  cases step with
  | idle unread => exact here
  | register pred r reads held => exact here.recordUse (pooled pred r held)
  | borrow pred bit b r reads held isBlock inPool free =>
    exact ((here.recordUse inPool).recordLoad (inRange held)).borrow inPool
  | evict pred bit b victim holder reads held isBlock mem chosen =>
    obtain ⟨e, evictable⟩ := candidate_evictable chosen
    have inPool : victim.holder.reg ∈ ctx.pool := by
      rw [evictable.same]
      exact pooled _ _ (located.held.mp mem).1
    refine ((here.recordUse inPool).recordLoad (inRange held)).recordEviction victim ?_ ?_
    · exact fun slot known => (placing.slots _ slot known).2
    · exact mem_keys_record _ _ _ _
  | bit pred bit loop reads held isLoop => exact here.recordLoad (inRange held)

end Placement

theorem Computed.bounded {body : Scope} {placed : List PlacedDef} {states : Nat → Placement.State}
    (comp : Computed tree id body placed scope ctx locs holders firstFree states alloc)
    (inRange : pos ≤ scope.sites.length) : Placement.Bounded ctx.pool (states pos) := by
  induction pos with
  | zero =>
    rw [comp.initial]
    exact .initial _ _
  | succ pos ih =>
    have got : scope.sites[pos]? = some scope.sites[pos] := getElem?_eq_getElem inRange
    exact (comp.steps got).bounded comp.located (comp.placing (Nat.le_of_lt inRange)) comp.pooled
      (ih (Nat.le_of_lt inRange))

namespace ScopeTree

theorem Inherits.pool_lt (inherits : Inherits tree registers id ctx) (inPool : r ∈ ctx.pool) : r < registers := by
  cases inherits with
  | outermost => exact mem_range.mp inPool
  | inner inherits got coll allocated mem =>
    rcases mem_append.mp inPool with free | kept
    · exact mem_range.mp (mem_filter.mp free).1
    · exact mem_range.mp (mem_filter.mp kept).1

end ScopeTree

/-- What the allocation of a scope records, as the code of the scope asks for it. -/
structure Recorded (tree : ScopeTree) (registers : Nat) (scope : Scope) (alloc : ScopeAllocation) : Prop where
  blockUse : ∀ {b : BlockId} {pred : PredId}, b ∈ scope.blocks → tree.blockPred b = some pred →
    tree.isConstant scope pred = false → ∃ r, alloc.useReg b pred = some r
  loopUse : ∀ {loop : ScopeId} {inner : Scope} {pred : PredId}, loop ∈ scope.subscopes → tree.get loop = .ok inner →
    tree.blockPred inner.header = some pred → tree.isConstant scope pred = false →
    (∃ bit, alloc.loadLoc inner.header pred = some bit) ∨ ∃ r, alloc.useReg inner.header pred = some r
  loadUse : ∀ {b : BlockId} {entry : PredId × Nat}, b ∈ scope.blocks →
    (b = scope.header → scope.isTopLevel = false) → entry ∈ alloc.loadsAt b →
    ∃ r, alloc.useReg b entry.1 = some r
  located : ∀ {defn : PredDef}, defn ∈ scope.defs → alloc.defLoc defn.pred ≠ .always
  constant : ∀ {pred : PredId}, tree.isConstant scope pred = true → alloc.defLoc pred = .always
  paired : ∀ {b : BlockId} {entry : PredId × Nat}, entry ∈ alloc.spillsAt b →
    entry.1 ∈ (alloc.loadsAt b).map (·.1)
  useRange : ∀ {b : BlockId} {pred : PredId} {r : Nat}, alloc.useReg b pred = some r → r < registers
  defRange : ∀ {pred : PredId} {r : Nat}, alloc.defLoc pred = .register r → r < registers
  stackRange : ∀ {pred : PredId} {bit : Nat}, alloc.defLoc pred = .stack bit → bit < alloc.stackEnd
  loadRange : ∀ {b : BlockId} {entry : PredId × Nat}, entry ∈ alloc.loadsAt b → entry.2 < alloc.stackEnd
  spillRange : ∀ {b : BlockId} {entry : PredId × Nat}, entry ∈ alloc.spillsAt b → entry.2 < alloc.stackEnd

namespace ScopeTree

open Replay (Action)

variable {allocs : List ScopeAllocation} {scope : Scope}

/-- The nodes of a scope and its edge back have actions, and each of these actions finds what it expects in some
state. -/
theorem exists_met (valid : Valid tree f entered members) (allocated : tree.allocate registers = .ok allocs)
    (got : tree.get id = .ok scope) (mem : allocs[id.index]? = some alloc) :
    (∀ node ∈ scope.nodes, ∃ actions, tree.nodeActions allocs alloc scope node = .ok actions ∧
        ∀ action ∈ actions, ∃ reached : Replay.State Unit, action.Met reached) ∧
      ∀ headerPred, tree.blockPred scope.header = some headerPred →
        ∀ action ∈ backActions alloc scope headerPred, ∃ reached : Replay.State Unit, action.Met reached := by
  obtain ⟨actions, replayed, safe⟩ := scopeActions_ok valid allocated got
  have met : ∀ action ∈ actions, ∃ reached : Replay.State Unit, action.Met reached := by
    intro action isAction
    refine (safe ⟨fun _ => (), fun _ => (), fun _ => ()⟩ ?_).met isAction
    intro _ _ _ _ _ _ _ _
    rfl
  simp only [scopeActions, got, ok_bind, mem, present_some] at replayed
  obtain ⟨headerPred, guards, nodes, mapped, res⟩ := bind_bind_inv replayed
  have whole : nodes.flatten ++ backActions alloc scope headerPred = actions := pure_inv res
  constructor
  · intro node inNodes
    obtain ⟨ofNode, isResult, comp⟩ := mapM_result mapped inNodes
    refine ⟨ofNode, comp, fun action isAction => met action ?_⟩
    rw [← whole]
    exact mem_append_left _ (mem_flatten.mpr ⟨ofNode, isResult, isAction⟩)
  · intro o otherGuards action isAction
    obtain rfl := Option.mem_unique (present_eq_ok.mp guards) otherGuards
    refine met action ?_
    rw [← whole]
    exact mem_append_right _ isAction

theorem useReg_of_met {reached : Replay.State Unit} (met : (alloc.readAction b pred).Met reached) :
    ∃ r, alloc.useReg b pred = some r := by
  cases use : alloc.useReg b pred with
  | some r => exact ⟨r, rfl⟩
  | none => simp [readAction, use, Action.Met] at met

theorem useReg_of_loads {entry : PredId × Nat}
    (loads : ∀ action ∈ (alloc.loadsAt b).flatMap (alloc.loadActions b), ∃ reached : Replay.State Unit,
      action.Met reached) (mem : entry ∈ alloc.loadsAt b) : ∃ r, alloc.useReg b entry.1 = some r := by
  cases use : alloc.useReg b entry.1 with
  | some r => exact ⟨r, rfl⟩
  | none =>
    have isAction : Action.unplaced b entry.1 ∈ (alloc.loadsAt b).flatMap (alloc.loadActions b) :=
      mem_flatMap.mpr ⟨entry, mem, by simp [loadActions, use]⟩
    obtain ⟨_, met⟩ := loads _ isAction
    exact met.elim

theorem nodeActions_block (guards : tree.blockPred b = some pred) : tree.nodeActions allocs alloc scope (.block b) =
      .ok (alloc.entryActions scope.header b ++
        (if tree.isConstant scope pred then [] else [alloc.readAction b pred]) ++
        alloc.defActions scope.defs b) := by
  simp only [nodeActions, guards, present_some, ok_bind]
  rfl

theorem nodeActions_subscope {loop : ScopeId} {inner : Scope} {innerAlloc : ScopeAllocation}
    (got : tree.get loop = .ok inner) (guards : tree.blockPred inner.header = some pred)
    (mem : allocs[loop.index]? = some innerAlloc) :
    tree.nodeActions allocs alloc scope (.subscope loop) =
      .ok ((if tree.isConstant scope pred then [] else [alloc.loopReadAction inner.header pred]) ++
        [.inner innerAlloc.preserve alloc.stackEnd] ++ alloc.defActions scope.defs inner.header) := by
  simp only [nodeActions, got, guards, mem, present_some, ok_bind]
  rfl

theorem defLoc_of_met {defn : PredDef} (inDefs : defn ∈ scope.defs)
    (met : ∀ action ∈ alloc.defActions scope.defs defn.source,
      ∃ reached : Replay.State Unit, action.Met reached) : alloc.defLoc defn.pred ≠ .always := by
  intro always
  obtain ⟨index, got⟩ := getElem?_of_mem inDefs
  have entry : (defn, index) ∈ scope.defs.zipIdx := mem_of_getElem? (i := index) (by simp [getElem?_zipIdx, got])
  obtain ⟨reached, isMet⟩ := met _ (mem_map.mpr ⟨(defn, index), mem_filter.mpr ⟨entry, by simp⟩, rfl⟩)
  rw [always] at isMet
  split at isMet
  · exact isMet rfl
  · exact isMet

theorem recorded_of_allocate (valid : Valid tree f entered members)
    (allocated : tree.allocate registers = .ok allocs) (got : tree.get id = .ok scope)
    (mem : allocs[id.index]? = some alloc) : Recorded tree registers scope alloc := by
  obtain ⟨met, backMet⟩ := exists_met valid allocated got mem
  obtain ⟨same, ctx, es, res, sameListed, assigned⟩ := allocate_assigned allocated got
  obtain rfl := Option.mem_unique sameListed mem
  obtain ⟨again, placed, locs, firstFree, states, comp⟩ := assigned.computed valid
  have coll := comp.collected
  obtain rfl := ok_unique got coll.found
  have bounded := comp.bounded le.refl
  have defLoc_of_held {pred : PredId} {location : Location} (isAt : same.defLoc pred = location)
      (somewhere : location ≠ .always) : locs.get? pred = some location := by
    by_cases const : some pred = es.alwaysTrue
    · exact absurd (isAt.symm.trans (comp.constant pred const)) somewhere
    · rw [comp.defLoc pred const] at isAt
      cases known : locs.get? pred with
      | none => simp [known, somewhere.symm] at isAt
      | some place => simpa [known] using isAt
  refine ⟨?_, ?_, ?_, ?_, ?_, ?_, ?_, ?_, ?_, ?_, ?_⟩
  · intro b pred inBlocks guards notConstant
    obtain ⟨actions, computedActions, each⟩ := met _ (mem_blocks.mp inBlocks)
    rw [nodeActions_block guards] at computedActions
    cases computedActions
    obtain ⟨reached, isMet⟩ := each (same.readAction b pred) (by simp [notConstant])
    exact useReg_of_met isMet
  · intro loop inner pred inLoops innerFound guards notConstant
    obtain ⟨innerAlloc, _, _, _, innerListed, _⟩ := allocate_assigned allocated innerFound
    obtain ⟨actions, computedActions, each⟩ := met _ (mem_subscopes.mp inLoops)
    rw [nodeActions_subscope innerFound guards innerListed] at computedActions
    cases computedActions
    obtain ⟨reached, isMet⟩ := each (same.loopReadAction inner.header pred) (by simp [notConstant])
    cases load : same.loadLoc inner.header pred with
    | some bit => exact .inl ⟨bit, rfl⟩
    | none =>
      simp only [loopReadAction, load] at isMet
      exact .inr (useReg_of_met isMet)
  · intro b entry inBlocks notTop isLoad
    by_cases isHeader : b = scope.header
    · subst isHeader
      refine useReg_of_loads (fun action isAction => backMet es.headerPred coll.guarded action ?_) isLoad
      simp only [backActions, notTop rfl, Bool.false_eq_true, if_false]
      exact mem_append_left _ isAction
    · obtain ⟨pred, guards⟩ := ((valid.checked got).usable b inBlocks).2
      obtain ⟨actions, computedActions, each⟩ := met _ (mem_blocks.mp inBlocks)
      rw [nodeActions_block guards] at computedActions
      cases computedActions
      refine useReg_of_loads (fun action isAction => each action ?_) isLoad
      simp only [entryActions, isHeader, if_false]
      exact mem_append_left _ (mem_append_left _ isAction)
  · intro defn inDefs
    obtain ⟨exited, exits⟩ := valid.childWithHeader_ok got defn.source
    have u := valid.source_mem got inDefs exits
    have guards := (valid.defs got inDefs).guarded
    cases exited with
    | none =>
      obtain ⟨actions, computedActions, each⟩ := met _ (mem_blocks.mp u)
      rw [nodeActions_block guards] at computedActions
      cases computedActions
      exact defLoc_of_met inDefs fun action isAction => each action (mem_append_right _ isAction)
    | some loop =>
      obtain ⟨inLoops, inner, innerFound, heads⟩ := u
      obtain ⟨innerAlloc, _, _, _, innerListed, _⟩ := allocate_assigned allocated innerFound
      obtain ⟨actions, computedActions, each⟩ := met _ (mem_subscopes.mp inLoops)
      rw [nodeActions_subscope innerFound (heads ▸ guards) innerListed] at computedActions
      cases computedActions
      refine defLoc_of_met inDefs fun action isAction => each action (mem_append_right _ ?_)
      rwa [heads]
  · intro pred const
    exact comp.constant pred (comp.isConstant_iff.mp const)
  · intro b entry isSpill
    rw [spillsAt, comp.spillLocs] at isSpill
    rw [loadsAt, comp.loadLocs]
    exact (bounded.spills b entry isSpill).2
  · intro b pred r isUse
    rw [useReg, comp.useLocs] at isUse
    exact assigned.inherits.pool_lt (bounded.uses b (pred, r) (Table.mem_of_find isUse))
  · intro pred r isAt
    exact assigned.inherits.pool_lt (comp.pooled pred r (defLoc_of_held isAt (by simp)))
  · intro pred bit isAt
    exact comp.stack_lt_stackEnd (defLoc_of_held isAt (by simp))
  · intro b entry isLoad
    rw [loadsAt, comp.loadLocs] at isLoad
    rw [comp.stackEnd]
    exact bounded.loads b entry isLoad
  · intro b entry isSpill
    rw [spillsAt, comp.spillLocs] at isSpill
    rw [comp.stackEnd]
    exact (bounded.spills b entry isSpill).1

end ScopeTree

end SinglePath
