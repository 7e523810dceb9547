import SinglePath.Proofs.Allocation.Recorded

namespace SinglePath

open BlockLocs LinearScan List Nat NumberSet ScopeResult

variable {scope : ScopeEvents} {context : ScopeContext} {locs : Table PredId Location} {holders : List Holder}
  {firstStackLoc firstFree r registers : Nat} {pred : PredId} {tree : ScopeTree} {id : ScopeId} {content : Scope}

theorem Located.holder (located : Located scope locs holders firstStackLoc firstFree)
    (held : locs.get? pred = some (.register r)) : ∃ holder ∈ holders, holder.reg = r :=
  ⟨⟨pred, r, scope.start pred, scope.finish pred⟩, located.held.mpr ⟨held, rfl, rfl⟩, rfl⟩

namespace Placement

variable {pool : List Nat} {i : Nat} {s next : State} {site : NodeSite} {b : BlockId}

/-- The registers that blocks read are those of holders or borrowed, and the bits that they load and spill to are those
of stack predicates or slots. -/
structure Booking (pool : List Nat) (locs : Table PredId Location) (holders : List Holder) (firstFree : Nat)
    (s : State) : Prop extends Slotted firstFree s.slots s.nextStack where
  uses : ∀ b entry, entry ∈ s.useLocs.entriesAt b →
    (∃ holder ∈ holders, holder.reg = entry.2) ∨ entry.2 ∈ s.borrowed
  borrowed : ∀ r ∈ s.borrowed, r ∈ pool
  loads : ∀ b entry, entry ∈ s.loadLocs.entriesAt b →
    locs.get? entry.1 = some (.stack entry.2) ∨ s.slots.get? entry.1 = some entry.2
  spills : ∀ b entry, entry ∈ s.spillLocs.entriesAt b → ∃ pred, s.slots.get? pred = some entry.2

namespace Booking

theorem initial (firstFree : Nat) : Booking pool locs holders firstFree { nextStack := firstFree } where
  uses := by simp [entriesAt]
  borrowed := by simp
  loads := by simp [entriesAt]
  spills := by simp [entriesAt]
  toSlotted := .initial firstFree

variable (booking : Booking pool locs holders firstFree s) {bit : Nat}

include booking

theorem recordUse (has : (∃ holder ∈ holders, holder.reg = r) ∨ r ∈ s.borrowed) :
    Booking pool locs holders firstFree { s with useLocs := s.useLocs.record b pred r } := by
  refine { booking with uses := fun o entry listed => ?_ }
  rcases mem_of_mem_record listed with old | ⟨_, rfl⟩
  · exact booking.uses o entry old
  · exact has

theorem recordLoad (has : locs.get? pred = some (.stack bit) ∨ s.slots.get? pred = some bit) :
    Booking pool locs holders firstFree { s with loadLocs := s.loadLocs.record b pred bit } := by
  refine { booking with loads := fun o entry listed => ?_ }
  rcases mem_of_mem_record listed with old | ⟨_, rfl⟩
  · exact booking.loads o entry old
  · exact has

theorem recordSpill {victim : PredId} (has : s.slots.get? victim = some bit) :
    Booking pool locs holders firstFree { s with spillLocs := s.spillLocs.record b pred bit } := by
  refine { booking with spills := fun o entry listed => ?_ }
  rcases mem_of_mem_record listed with old | ⟨_, rfl⟩
  · exact booking.spills o entry old
  · exact ⟨victim, has⟩

theorem borrow (inPool : r ∈ pool) : Booking pool locs holders firstFree { s with borrowed := s.borrowed ++ [r] } :=
  { booking with
    uses := fun o entry listed => (booking.uses o entry listed).imp_right (mem_append_left _)
    borrowed := fun o listed => (mem_append.mp listed).elim (booking.borrowed o) fun isNew =>
      mem_singleton.mp isNew ▸ inPool }

theorem withEvictions (evictions : List Eviction) :
    Booking pool locs holders firstFree { s with evictions := evictions } :=
  { booking with }

/-- An evicted predicate keeps its slot or gets the next free bit. -/
theorem withSlot (pred : PredId) : Booking pool locs holders firstFree (slotFor s pred).2 := by
  have slotted := booking.toSlotted.withSlot pred
  have loads b entry (listed : entry ∈ s.loadLocs.entriesAt b) :=
    (booking.loads b entry listed).imp_right (slotFor_grows pred)
  have spills b entry (listed : entry ∈ s.spillLocs.entriesAt b) :=
    (booking.spills b entry listed).imp fun _ => slotFor_grows pred
  cases known : s.slots.get? pred with
  | some slot =>
    simp only [slotFor, known] at *
    exact booking
  | none =>
    simp only [slotFor, known] at *
    exact { booking with loads, spills, toSlotted := slotted }

theorem recordEviction (b : BlockId) (pred : PredId) (victim : Candidate) :
    Booking pool locs holders firstFree (recordEviction s b pred victim) := by
  unfold Placement.recordEviction
  cases victim.reload with
  | never => exact booking.withEvictions _
  | before back =>
    have own := slotFor_own s victim.holder.pred
    exact (((booking.withSlot victim.holder.pred).recordSpill own).recordLoad (.inr own)).withEvictions _

end Booking

/-- Placing one node keeps the books. -/
theorem NodeStep.booking (step : NodeStep scope context locs holders site i s next)
    (located : Located scope locs holders firstStackLoc firstFree)
    (booking : Booking context.pool locs holders firstFree s) : Booking context.pool locs holders firstFree next := by
  have here : Booking context.pool locs holders firstFree (s.at i) := booking.withEvictions _
  cases step with
  | idle unread => exact here
  | register pred r reads held =>
    exact here.recordUse (.inl (located.holder held))
  | borrow pred bit b r reads held isBlock inPool free =>
    exact ((here.borrow inPool).recordUse (.inr (by simp))).recordLoad (.inl held)
  | evict pred bit b victim holder reads held isBlock listed chosen =>
    obtain ⟨e, evictable⟩ := candidate_evictable chosen
    have has : ∃ holder ∈ holders, holder.reg = victim.holder.reg := ⟨holder, listed, by rw [evictable.same]⟩
    exact ((here.recordUse (.inl has)).recordLoad (.inl held)).recordEviction b pred victim
  | bit pred bit loop reads held => exact here.recordLoad (.inl held)

end Placement

/-- How the registers and stack bits of a scope are handed out. -/
structure ScopeAllocation.Booked (alloc : ScopeAllocation) (es : ScopeEvents) (registers : Nat)
    (slots : Table PredId Nat) : Prop where
  /-- Predicates whose intervals overlap have different registers. -/
  apart : ∀ {first second : PredId} {r o : Nat}, alloc.defLoc first = .register r →
    alloc.defLoc second = .register o → first ≠ second → es.start first < es.finish second →
    es.start second < es.finish first → r ≠ o
  defs : ∀ {pred : PredId} {r : Nat}, alloc.defLoc pred = .register r → r ∈ alloc.usedRegs.members
  uses : ∀ {b : BlockId} {entry : PredId × Nat}, entry ∈ alloc.useLocs.entriesAt b →
    entry.2 ∈ alloc.usedRegs.members
  used : ∀ r ∈ alloc.usedRegs.members, r < registers
  preserved : ∀ r ∈ alloc.preserve.members, r < registers
  stack : ∀ {pred : PredId} {bit : Nat}, alloc.defLoc pred = .stack bit → alloc.firstStackLoc ≤ bit ∧
    bit < alloc.stackEnd
  stackApart : ∀ {first second : PredId} {bit : Nat}, alloc.defLoc first = .stack bit →
    alloc.defLoc second = .stack bit →
    first = second
  /-- The slots are the bits of evicted predicates. -/
  spills : ∀ {b : BlockId} {entry : PredId × Nat}, entry ∈ alloc.spillsAt b →
    ∃ pred, slots.get? pred = some entry.2
  loads : ∀ {b : BlockId} {entry : PredId × Nat}, entry ∈ alloc.loadsAt b →
    alloc.defLoc entry.1 = .stack entry.2 ∨ slots.get? entry.1 = some entry.2
  slotRange : ∀ {pred : PredId} {slot : Nat}, slots.get? pred = some slot →
    alloc.firstStackLoc ≤ slot ∧ slot < alloc.stackEnd
  slotsApart : ∀ {first second : PredId} {slot : Nat}, slots.get? first = some slot → slots.get? second = some slot →
    first = second
  slotsFree : ∀ {pred o : PredId} {slot : Nat}, slots.get? pred = some slot → alloc.defLoc o ≠ .stack slot

section

open ScopeEvents (Collected)

variable {placed : List PlacedDef} {reserve : Bool} {result : ScopeResult}

/-- A scope is booked if the registers that it is given are in range. -/
theorem booked_of_compute (coll : Collected tree id content placed scope)
    (pool : ∀ r ∈ context.pool, r < registers) (preserve : ∀ r ∈ context.preserve.members, r < registers)
    (allocated : compute scope context reserve = .ok result) :
    (∀ holder ∈ result.holders, holder.reg < registers) ∧
      (scope.alwaysTrue = some scope.headerPred → result.alloc.defLoc scope.headerPred = .always) ∧
      (scope.alwaysTrue ≠ some scope.headerPred → ∃ r, result.alloc.defLoc scope.headerPred = .register r) ∧
      ∃ slots, result.alloc.Booked scope registers slots := by
  unfold compute at allocated
  obtain ⟨regs, scanned, final, placedAll, made⟩ := bind_bind_pure_inv allocated
  have separated := run_separated (nodup_keys coll) scanned
  have located := located_of_run coll scanned
  have booking := foldlM_invariant (Placement.Booking context.pool _ _ _) placedAll (.initial _)
    fun _ _ _ _ holds step =>
    (Placement.placeNode_step step).booking located holds
  have pooled : ∀ holder ∈ holders scope regs, holder.reg < registers := fun holder listed =>
    pool _ (mem_of_mem_poolFor (separated.pooled _ _ (find_numberStack_register.mp (located.held.mp listed).1)))
  have bound := booking.bound
  have lowest := le_add_right context.firstStackLoc (stackCount regs)
  generalize context.firstStackLoc + stackCount regs = firstFree at *
  generalize (⟨numberStack context.firstStackLoc regs.entries⟩ : Table PredId Location) = locs at *
  have defLoc (pred : PredId) : result.alloc.defLoc pred =
      if scope.alwaysTrue = some pred then .always else (locs.get? pred).getD .always := by
    rw [← made, ScopeAllocation.defLoc]
    cases scope.alwaysTrue with
    | none => rfl
    | some always => by_cases same : pred = always <;> simp [same, eq_comm]
  -- The always true predicate has no events, so the scan gives it no place.
  have places {pred : PredId} {location : Location} (placed : location ≠ .always) :
      result.alloc.defLoc pred = location ↔ locs.get? pred = some location := by
    rw [defLoc]
    refine ⟨fun isPlace => ?_, fun isPlace => ?_⟩
    · split at isPlace
      · exact absurd isPlace.symm placed
      · cases got : locs.get? pred <;> simp_all
    · obtain ⟨e, listed⟩ := located.active isPlace
      rw [if_neg (coll.mem_eventsOf.mp listed).1.symm, isPlace, Option.getD_some]
  have inRegister {pred : PredId} {r : Nat} : result.alloc.defLoc pred = .register r ↔ _ := places (by simp)
  have onStack {pred : PredId} {bit : Nat} : result.alloc.defLoc pred = .stack bit ↔ _ := places (by simp)
  have used (r : Nat) : r ∈ result.alloc.usedRegs.members ↔
      (∃ holder ∈ holders scope regs, holder.reg = r) ∨ r ∈ final.borrowed := by
    rw [← made, mem_ofList, mem_append, mem_map]
  have stackEnd : result.alloc.stackEnd = final.nextStack := by
    rw [← made]
    exact add_sub_of_le (Nat.le_trans lowest bound)
  have starts : result.alloc.firstStackLoc = context.firstStackLoc := by rw [← made]
  refine ⟨by rw [← made]; exact pooled, fun isConstant => by rw [defLoc, if_pos isConstant], fun isVariable => ?_,
    final.slots, {
    apart := fun held heldToo ne before after same => ?_
    defs := fun held => ?_
    uses := fun listed => ?_
    used := fun r isUsed => ?_
    preserved := by rw [← made]; exact preserve
    stack := fun held => ?_
    stackApart := fun held heldToo => located.separate (onStack.mp held) (onStack.mp heldToo)
    spills := fun listed => booking.spills _ _ (by rwa [← made] at listed)
    loads := fun listed => (booking.loads _ _ (by rwa [← made] at listed)).imp_left onStack.mpr
    slotRange := fun known => ?_
    slotsApart := booking.slotsApart _ _ _
    slotsFree := fun known held => ?_ }⟩
  · obtain ⟨r, held⟩ := located.header isVariable.symm
    exact ⟨r, inRegister.mpr held⟩
  · subst same
    have := located.disjoint (inRegister.mp held) (inRegister.mp heldToo) ne
    omega
  · exact (used _).mpr (.inl (located.holder (inRegister.mp held)))
  · exact (used _).mpr (booking.uses _ _ (by rwa [← made] at listed))
  · rcases (used r).mp isUsed with ⟨holder, listed, rfl⟩ | isBorrowed
    · exact pooled holder listed
    · exact pool r (booking.borrowed r isBorrowed)
  · have := located.stack (onStack.mp held)
    omega
  · have := booking.slots _ _ known
    omega
  · have := booking.slots _ _ known
    have := located.stack (onStack.mp held)
    omega

end

namespace ScopeTree

theorem Inherits.preserve_lt (inherits : Inherits tree registers id context) :
    ∀ r ∈ context.preserve.members, r < registers := by
  induction inherits with
  | outermost => simp [rootContext, empty]
  | @inner parent child content context es result inherits got coll allocated listed ih =>
    obtain ⟨_, _, coll⟩ := ScopeEvents.ofScope_collected coll
    obtain ⟨_, comp⟩ := compute_of_allocate allocated
    have pooled := (booked_of_compute coll (fun _ => inherits.pool_lt) ih comp).1
    intro r isPreserved
    rw [childContext, mem_ofList, mem_append, mem_map] at isPreserved
    rcases isPreserved with ⟨holder, listed, rfl⟩ | inherited
    · exact pooled holder (mem_filter.mp listed).1
    · split at inherited
      · cases inherited
      · exact ih r inherited

/-- In every scope of an allocated tree nothing is handed out twice: predicates that are live together have different
registers, all in range and all counted as used; the header's predicate has a register, unless it is the whole
function's; and stack predicates and evicted predicates have different bits, all between the ends of the scope's own. -/
theorem allocate_booked {allocs : List ScopeAllocation} (allocated : tree.allocate registers = .ok allocs)
    (found : tree.get id = .ok content) :
    ∃ alloc events, allocs[id.index]? = some alloc ∧ ScopeEvents.ofScope tree id = .ok events ∧
      tree.blockPred content.header = some events.headerPred ∧
      (content.isTopLevel = true ∧ tree.wholeFunction = true → alloc.defLoc events.headerPred = .always) ∧
      (¬ (content.isTopLevel = true ∧ tree.wholeFunction = true) →
        ∃ reg, alloc.defLoc events.headerPred = .register reg) ∧
      ∃ slots, alloc.Booked events registers slots := by
  obtain ⟨alloc, context, events, result, listed, assigned⟩ := allocate_assigned allocated found
  obtain ⟨scope, _, collected⟩ := ScopeEvents.ofScope_collected assigned.collected
  obtain rfl : scope = content := ok_unique collected.found found
  obtain ⟨_, computed⟩ := compute_of_allocate assigned.allocated
  obtain ⟨_, isAlways, hasRegister, booked⟩ :=
    booked_of_compute collected (fun _ => assigned.inherits.pool_lt) assigned.inherits.preserve_lt computed
  rw [assigned.same] at isAlways hasRegister booked
  refine ⟨alloc, events, listed, assigned.collected, collected.guarded, fun isWhole => isAlways ?_,
    fun isPart => hasRegister ?_, booked⟩
  · rw [collected.constant, isWhole.1, isWhole.2]
    rfl
  · rw [collected.constant, if_neg (by simpa using isPart)]
    nofun

/-- Two predicates that take turns in one register: one of them lives on the stack, the other is evicted to a slot. -/
theorem turnsTree_booked : ∃ alloc events, turnsTree.allocate 1 = .ok [alloc] ∧ alloc.defLoc ⟨1⟩ = .register 0 ∧
    alloc.defLoc ⟨2⟩ = .stack 0 ∧ (⟨2⟩, 1) ∈ alloc.spillsAt ⟨2⟩ ∧ ScopeEvents.ofScope turnsTree root = .ok events ∧
    alloc.defLoc events.headerPred = .always ∧ ∃ slots, alloc.Booked events 1 slots := by
  obtain ⟨alloc, allocated, held, onStack, spilled⟩ : ∃ alloc, turnsTree.allocate 1 = .ok [alloc] ∧
      alloc.defLoc ⟨1⟩ = .register 0 ∧ alloc.defLoc ⟨2⟩ = .stack 0 ∧ (⟨2⟩, 1) ∈ alloc.spillsAt ⟨2⟩ :=
    ⟨_, rfl, rfl, rfl, by decide⟩
  obtain ⟨content, found, isWhole⟩ : ∃ content, turnsTree.get root = .ok content ∧
      (content.isTopLevel = true ∧ turnsTree.wholeFunction = true) := ⟨_, rfl, rfl, rfl⟩
  obtain ⟨same, events, listed, collected, _, isAlways, _, booked⟩ := allocate_booked allocated found
  obtain rfl : same = alloc := Option.some.inj listed.symm
  exact ⟨same, events, allocated, held, onStack, spilled, collected, isAlways isWhole, booked⟩

end ScopeTree

end SinglePath
