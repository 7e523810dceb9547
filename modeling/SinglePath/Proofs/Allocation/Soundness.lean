import SinglePath.Proofs.Allocation.Placing
import SinglePath.Proofs.Allocation.Replay

/-!
The allocation of one scope is sound: in every replay of the scope, each place that is read holds the current value of
its predicate.
-/

namespace SinglePath

open BlockLocs Bool List Nat NodeSite Option Placement Replay ScopeAllocation ScopeEvents State Table

open ScopeEvents (Collected IsFirst)
open Placement (NodeStep Placing)

/-- One scope with its events, the places of its predicates, and the states in which its nodes were placed. -/
structure Computed (tree : ScopeTree) (id : ScopeId) (body : Scope) (placed : List PlacedDef)
    (scope : ScopeEvents) (ctx : ScopeContext) (locs : Table PredId Location) (holders : List Holder)
    (firstFree : Nat) (states : Nat → Placement.State) (alloc : ScopeAllocation) : Prop where
  collected : Collected tree id body placed scope
  sited : Sited scope placed
  located : Located scope locs holders ctx.firstStackLoc firstFree
  initial : states 0 = { nextStack := firstFree }
  steps : ∀ {i : Nat} {site : NodeSite}, scope.sites[i]? = some site →
    NodeStep scope ctx locs holders site i (states i) (states (i + 1))
  useLocs : alloc.useLocs = (states scope.sites.length).useLocs
  loadLocs : alloc.loadLocs = (states scope.sites.length).loadLocs
  spillLocs : alloc.spillLocs = (states scope.sites.length).spillLocs
  defLoc : ∀ pred, some pred ≠ scope.alwaysTrue → alloc.defLoc pred = (locs.get? pred).getD .always
  firstDefs : alloc.firstDefs = scope.firstDefs
  stackEnd : alloc.stackEnd = (states scope.sites.length).nextStack
  pooled : ∀ pred r, locs.get? pred = some (.register r) → r ∈ ctx.pool
  constant : ∀ pred, some pred = scope.alwaysTrue → alloc.defLoc pred = .always
  used : ∀ r, r ∈ alloc.usedRegs.members ↔
    (∃ holder ∈ holders, holder.reg = r) ∨ r ∈ (states scope.sites.length).borrowed
  saves : alloc.savesBank = (!scope.isTopLevel && alloc.usedRegs.members.any ctx.preserve.contains)
  named : alloc.scope = scope.scope

namespace Computed

variable {tree : ScopeTree} {id : ScopeId} {body : Scope} {placed : List PlacedDef} {scope : ScopeEvents}
  {ctx : ScopeContext} {locs : Table PredId Location} {holders : List Holder} {firstFree r p : Nat}
  {states : Nat → Placement.State} {alloc : ScopeAllocation} {i : Nat} {site : NodeSite} {pred o : PredId}
  {location : Location} {e : Event} {x : PlacedDef}

section

variable {later : Nat} (computed : Computed tree id body placed scope ctx locs holders firstFree states alloc)

include computed

theorem placing (inRange : i ≤ scope.sites.length) : Placing scope locs firstFree i (states i) := by
  induction i with
  | zero =>
    rw [computed.initial]
    exact Placing.initial firstFree
  | succ earlier ih =>
    have got : scope.sites[earlier]? = some (scope.sites[earlier]) := getElem?_eq_getElem (by omega)
    exact (ih (by omega)).step computed.collected computed.sited computed.located got (computed.steps got)

section

variable (got : scope.sites[i]? = some site)

include got

theorem placing_at : Placing scope locs firstFree i (states i) := computed.placing (Nat.le_of_lt (lt_length got))

/-- What was recorded for a node when it was placed is what is recorded in the end. -/
theorem recorded (after : i < later) (inRange : later ≤ scope.sites.length) :
    (states later).useLocs.entriesAt site.block = (states (i + 1)).useLocs.entriesAt site.block ∧
      (states later).spillLocs.entriesAt site.block = (states (i + 1)).spillLocs.entriesAt site.block ∧
      (i ≠ 0 → (states later).loadLocs.entriesAt site.block = (states (i + 1)).loadLocs.entriesAt site.block) := by
  induction later with
  | zero => omega
  | succ previous ih =>
    by_cases here : previous = i
    · subst here
      exact ⟨rfl, rfl, fun _ => rfl⟩
    · have foundPrevious : scope.sites[previous]? = some (scope.sites[previous]) := getElem?_eq_getElem (by omega)
      obtain ⟨uses, spills, loads⟩ := (computed.steps foundPrevious).keeps computed.collected computed.sited
        foundPrevious got (by omega)
      obtain ⟨usesBefore, spillsBefore, loadsBefore⟩ := ih (by omega) (by omega)
      exact ⟨uses.trans usesBefore, spills.trans spillsBefore,
        fun notHeader => (loads notHeader).trans (loadsBefore notHeader)⟩

theorem useReg_eq (pred : PredId) :
    alloc.useReg site.block pred = find pred ((states (i + 1)).useLocs.entriesAt site.block) := by
  have inRange := lt_length got
  rw [useReg, BlockLocs.lookup, computed.useLocs, (computed.recorded got inRange (Nat.le_refl _)).1]

theorem spillLoc_eq (pred : PredId) :
    alloc.spillLoc site.block pred = find pred ((states (i + 1)).spillLocs.entriesAt site.block) := by
  have inRange := lt_length got
  rw [spillLoc, BlockLocs.lookup, computed.spillLocs, (computed.recorded got inRange (Nat.le_refl _)).2.1]

theorem useReg_of_record (uses : (states (i + 1)).useLocs = (states i).useLocs.record site.block pred r) :
    alloc.useReg site.block pred = some r := by
  have fresh := (computed.placing_at got).fresh i site (Nat.le_refl _) got
  rw [computed.useReg_eq got, uses, entriesAt_record_first _ fresh.1]
  simp [find]

theorem spillLoc_of_unspilled (pred : PredId) (spills : (states (i + 1)).spillLocs = (states i).spillLocs) :
    alloc.spillLoc site.block pred = none := by
  have fresh := (computed.placing_at got).fresh i site (Nat.le_refl _) got
  rw [computed.spillLoc_eq got, spills, fresh.2]
  rfl

theorem loadsAt_eq (notHeader : i ≠ 0) : alloc.loadsAt site.block = (states (i + 1)).loadLocs.entriesAt site.block := by
  have inRange := lt_length got
  rw [loadsAt, computed.loadLocs, (computed.recorded got inRange (Nat.le_refl _)).2.2 notHeader]

end

theorem loads_once (inRange : i ≤ scope.sites.length) : Once (states i).loadLocs := by
  induction i with
  | zero =>
    rw [computed.initial]
    exact fun _ => nodup_nil
  | succ earlier ih =>
    have got : scope.sites[earlier]? = some (scope.sites[earlier]) := getElem?_eq_getElem (by omega)
    exact (computed.steps got).once (ih (by omega))

theorem nextStack_le (after : i ≤ later) (inRange : later ≤ scope.sites.length) :
    (states i).nextStack ≤ (states later).nextStack := by
  induction later with
  | zero =>
    obtain rfl : i = 0 := by omega
    exact Nat.le_refl _
  | succ previous ih =>
    by_cases here : i = previous + 1
    · exact Nat.le_of_eq (by rw [here])
    · have got : scope.sites[previous]? = some (scope.sites[previous]) := getElem?_eq_getElem (by omega)
      exact Nat.le_trans (ih (by omega) (by omega)) (computed.steps got).nextStack_le

end

/-- The next event of the predicate depends on its value. -/
def Needed (scope : ScopeEvents) (pred : PredId) (p : Nat) : Prop :=
  ∃ e, scope.nextFrom pred p = some e ∧ e.kind ≠ .define true ∧
    (e.kind = .use .backEdge → scope.isTopLevel = false)

/-- The register of the predicate is in other use. -/
def Evicted (s : Placement.State) (i : Nat) (pred : PredId) : Prop :=
  ∃ eviction ∈ s.evictions, 2 * i ≤ eviction.till ∧ eviction.pred = pred

/-- The place of the predicate holds its value; while the predicate is evicted, its slot does. -/
structure Kept {ν : Type} (locs : Table PredId Location) (s : Placement.State) (i : Nat)
    (replay : Replay.State ν) (pred : PredId) : Prop where
  stack : ∀ bit, locs.get? pred = some (.stack bit) → replay.bits bit = replay.current pred
  slot : ∀ r slot, locs.get? pred = some (.register r) → Evicted s i pred →
    s.slots.get? pred = some slot → replay.bits slot = replay.current pred
  register : ∀ r, locs.get? pred = some (.register r) → ¬ Evicted s i pred →
    replay.regs r = replay.current pred

/-- Before a node, every live predicate that is needed is kept. -/
def Ready {ν : Type} (scope : ScopeEvents) (locs : Table PredId Location) (states : Nat → Placement.State)
    (i : Nat) (replay : Replay.State ν) : Prop :=
  ∀ pred, scope.start pred ≤ 2 * i → Needed scope pred (2 * i) →
    Kept locs (states i) i replay pred

/-- A predicate whose value still matters while some definitions that leave the node are to come. -/
structure Wanted (scope : ScopeEvents) (i : Nat) (todo : List PlacedDef) (pred : PredId) : Prop where
  started : scope.start pred ≤ 2 * i + 1
  notFirst : ∀ x ∈ todo, x.definition.pred = pred → ¬ IsFirst scope x
  used : (∃ x ∈ todo, x.definition.pred = pred) ∨ Needed scope pred (2 * (i + 1))

/-- While some definitions that leave the node are to come, every predicate that is wanted is kept. -/
def Defining {ν : Type} (scope : ScopeEvents) (locs : Table PredId Location) (states : Nat → Placement.State)
    (i : Nat) (todo : List PlacedDef) (replay : Replay.State ν) : Prop :=
  ∀ pred, Wanted scope i todo pred → Kept locs (states (i + 1)) (i + 1) replay pred

theorem not_needed_of_never (next : scope.nextFrom pred p = some e)
    (comes : reloadFor scope pred e = some .never) : ¬ Needed scope pred p := by
  rintro ⟨o, otherNext, notFull, notTop⟩
  obtain rfl := mem_unique next otherNext
  cases kind : e.kind with
  | define full => cases full <;> simp [reloadFor, kind] at comes notFull
  | use useSite =>
    cases useSite with
    | block b => simp [reloadFor, kind] at comes
    | loop header => simp [reloadFor, kind] at comes
    | backEdge => simp [reloadFor, kind, notTop kind] at comes

section

variable (computed : Computed tree id body placed scope ctx locs holders firstFree states alloc)

include computed

theorem not_alwaysTrue (known : locs.get? pred = some location) : some pred ≠ scope.alwaysTrue := by
  obtain ⟨e, mem⟩ := computed.located.active known
  exact (computed.collected.mem_eventsOf.mp mem).1

/-- Two predicates that are live at one point have different registers. -/
theorem apart (held : locs.get? pred = some (.register r))
    (heldToo : locs.get? o = some (.register r)) (live : scope.start pred ≤ p ∧ p < scope.finish pred)
    (liveToo : scope.start o ≤ p ∧ p < scope.finish o) : pred = o := by
  refine Decidable.byContradiction fun ne => ?_
  have := computed.located.disjoint held heldToo ne
  omega

/-- A definition that leaves the node is an event of its predicate. -/
theorem event_here (got : scope.sites[i]? = some site) (mem : x ∈ placed)
    (here : x.position = i) (notAlways : some x.definition.pred ≠ scope.alwaysTrue) :
    ∃ e ∈ scope.eventsOf x.definition.pred, e.point = 2 * i + 1 := by
  subst here
  exact ⟨_, event_of_def computed.collected got mem notAlways, rfl⟩

theorem not_full_of_wanted (got : scope.sites[i]? = some site)
    (wanted : Wanted scope i (defsAt placed i) pred) (mem : e ∈ scope.eventsOf pred)
    (here : e.point = 2 * i + 1) : e.kind ≠ .define true := by
  intro isDefined
  obtain ⟨x, inPlaced, atNode, defines, full⟩ := def_of_event computed.collected got mem here isDefined
  have isFirst : IsFirst scope x := by
    cases node : site.node <;> simp [isFull, node] at full
    exact full
  exact wanted.notFirst x (mem_defsAt.mpr ⟨inPlaced, atNode⟩) defines isFirst

theorem backEdge_last (next : scope.nextFrom pred (2 * i) = some e)
    (isBack : e.kind = .use .backEdge) : e.point = 2 * scope.sites.length := by
  rcases next_use computed.collected computed.sited next isBack with ⟨_, o, _, _, _, same⟩ | ⟨_, _, atEnd⟩
  · cases node : o.node <;> simp [useSite, node] at same
  · exact atEnd

/-- A predicate that is wanted after a node is live there and needed before it. -/
theorem wanted_live (got : scope.sites[i]? = some site) (known : locs.get? pred = some location)
    (wanted : Wanted scope i (defsAt placed i) pred) :
    scope.start pred ≤ 2 * i ∧ Needed scope pred (2 * i) ∧ ∃ e ∈ scope.eventsOf pred, 2 * i + 1 ≤ e.point := by
  have notAlways := computed.not_alwaysTrue known
  have inRange := lt_length got
  have later : ∃ e ∈ scope.eventsOf pred, 2 * i + 1 ≤ e.point := by
    rcases wanted.used with ⟨x, mem, rfl⟩ | ⟨e, next, _⟩
    · obtain ⟨inPlaced, here⟩ := mem_defsAt.mp mem
      obtain ⟨e, isEvent, atNode⟩ := computed.event_here got inPlaced here notAlways
      exact ⟨e, isEvent, by omega⟩
    · have reached := le_of_nextFrom next
      exact ⟨e, mem_of_nextFrom next, by omega⟩
  obtain ⟨last, mem, after⟩ := later
  have startsEarly : scope.start pred ≤ 2 * i := by
    by_cases isHeader : pred = scope.headerPred
    · rw [isHeader, start_header]
      exact zero_le _
    · obtain ⟨first, inPlaced, defines, isFirst, starts⟩ := computed.collected.start_eq isHeader mem
      have started := wanted.started
      have notHere : first.position ≠ i := fun here =>
        wanted.notFirst first (mem_defsAt.mpr ⟨inPlaced, here⟩) defines isFirst
      omega
  obtain ⟨e, next⟩ := nextFrom_exists mem (by omega : 2 * i ≤ last.point)
  have reached := le_of_nextFrom next
  -- if the next event comes after the node, it is also the next one seen from there
  have beyond (isBeyond : 2 * (i + 1) ≤ e.point) :
      e.kind ≠ .define true ∧ (e.kind = .use .backEdge → scope.isTopLevel = false) := by
    rcases wanted.used with ⟨x, itemListed, rfl⟩ | ⟨o, otherNext, needed⟩
    · obtain ⟨inPlaced, here⟩ := mem_defsAt.mp itemListed
      obtain ⟨own, isEvent, atNode⟩ := computed.event_here got inPlaced here notAlways
      have notLater := computed.collected.nextFrom_le next isEvent (by omega)
      omega
    · obtain rfl := mem_unique (nextFrom_later next (by omega) isBeyond) otherNext
      exact needed
  refine ⟨startsEarly, ⟨e, next, ?_, ?_⟩, last, mem, after⟩
  · intro isDefined
    by_cases isBeyond : 2 * (i + 1) ≤ e.point
    · exact (beyond isBeyond).1 isDefined
    · by_cases atStart : e.point = 2 * i
      · have isUse := (reads_of_event computed.collected got (mem_of_nextFrom next) atStart).2
        simp [isUse] at isDefined
      · exact computed.not_full_of_wanted got wanted (mem_of_nextFrom next) (by omega) isDefined
  · intro isBack
    have atEnd := computed.backEdge_last next isBack
    exact (beyond (by omega)).2 isBack

end

section

variable (computed : Computed tree id body placed scope ctx locs holders firstFree states alloc)

include computed

/-- A predicate that is wanted after a node that does not read it stays evicted. -/
theorem survives (got : scope.sites[i]? = some site)
    (wanted : Wanted scope i (defsAt placed i) pred) (unread : ¬ Reads scope site pred)
    {eviction : Eviction} (mem : eviction ∈ (states i).evictions) (isOpen : 2 * i ≤ eviction.till)
    (isPred : eviction.pred = pred) : 2 * (i + 1) ≤ eviction.till := by
  obtain ⟨e, reload, returns⟩ := (computed.placing_at got).evicted eviction mem isOpen
  subst isPred
  have eventListed := mem_of_nextFrom returns.follows
  have ends := returns.ends
  refine Decidable.byContradiction fun past => ?_
  by_cases atStart : e.point = 2 * i
  · exact unread (reads_of_event computed.collected got eventListed atStart).1
  · cases kind : e.kind with
    | use useSite =>
      rcases next_use computed.collected computed.sited returns.follows kind with ⟨_, _, _, _, here, _⟩ |
        ⟨_, _, here⟩
      · omega
      · omega
    | define full =>
      have comes := returns.comes
      cases full with
      | false => simp [reloadFor, kind] at comes
      | true => exact computed.not_full_of_wanted got wanted eventListed (by omega) kind

/-- A node that evicts nothing leaves the wanted predicates that it does not read as they are. -/
theorem evicted_iff (got : scope.sites[i]? = some site)
    (evictions : (states (i + 1)).evictions = ((states i).at i).evictions)
    (wanted : Wanted scope i (defsAt placed i) pred) (unread : ¬ Reads scope site pred) :
    Evicted (states (i + 1)) (i + 1) pred ↔ Evicted (states i) i pred := by
  constructor
  · rintro ⟨eviction, mem, isOpen, isPred⟩
    rw [evictions] at mem
    exact ⟨eviction, (mem_filter.mp mem).1, by omega, isPred⟩
  · rintro ⟨eviction, mem, isOpen, isPred⟩
    refine ⟨eviction, ?_, computed.survives got wanted unread mem isOpen isPred, isPred⟩
    rw [evictions]
    exact mem_filter.mpr ⟨mem, by simpa using isOpen⟩

theorem not_evicted_of_event (got : scope.sites[i]? = some site)
    (mem : e ∈ scope.eventsOf pred) (here : e.point = 2 * i ∨ e.point = 2 * i + 1) :
    ¬ Evicted (states (i + 1)) (i + 1) pred := by
  rintro ⟨eviction, isEvicted, isOpen, rfl⟩
  rcases (computed.steps got).mem_evictions isEvicted with ⟨before, _⟩ | idle
  · obtain ⟨next, reload, returns⟩ := (computed.placing_at got).evicted eviction before (by omega)
    have ends := returns.ends
    have notLater := computed.collected.nextFrom_le returns.follows mem (by omega)
    omega
  · have apart := idle e mem
    omega

end

section

variable {ν : Type} {replay after : Replay.State ν} {bit : Nat}
  (computed : Computed tree id body placed scope ctx locs holders firstFree states alloc)

include computed

theorem stack_lt_stackEnd (held : locs.get? pred = some (.stack bit)) : bit < alloc.stackEnd := by
  have below := (computed.located.stack held).2
  have bound := (computed.placing (Nat.le_refl _)).bound
  rw [computed.stackEnd]
  omega

theorem slot_lt_stackEnd {slot : Nat} (inRange : i ≤ scope.sites.length)
    (known : (states i).slots.get? pred = some slot) : slot < alloc.stackEnd := by
  have below := ((computed.placing inRange).slots pred slot known).2
  have grows := computed.nextStack_le inRange (Nat.le_refl _)
  rw [computed.stackEnd]
  omega

/-- A predicate stays kept across a node that leaves its place alone. -/
theorem kept_next (inRange : i < scope.sites.length) (kept : Kept locs (states i) i replay pred)
    (evicted : Evicted (states (i + 1)) (i + 1) pred ↔ Evicted (states i) i pred)
    (slots : (states (i + 1)).slots = (states i).slots) (current : after.current = replay.current)
    (bits : ∀ bit, bit < alloc.stackEnd → after.bits bit = replay.bits bit)
    (regs : ∀ r, locs.get? pred = some (.register r) → ¬ Evicted (states i) i pred →
      after.regs r = replay.regs r) : Kept locs (states (i + 1)) (i + 1) after pred := by
  refine ⟨?_, ?_, ?_⟩
  · intro bit held
    rw [current, bits bit (computed.stack_lt_stackEnd held)]
    exact kept.stack bit held
  · intro r slot held isEvicted known
    rw [slots] at known
    rw [current, bits slot (computed.slot_lt_stackEnd (Nat.le_of_lt inRange) known)]
    exact kept.slot r slot held (evicted.mp isEvicted) known
  · intro r held notEvicted
    have notBefore : ¬ Evicted (states i) i pred := fun before => notEvicted (evicted.mpr before)
    rw [current, regs r held notBefore]
    exact kept.register r held notBefore

section

variable (got : scope.sites[i]? = some site)

include got

theorem reads_needed (reads : Reads scope site pred) :
    scope.start pred ≤ 2 * i ∧ 2 * i < scope.finish pred ∧ Needed scope pred (2 * i) := by
  have mem := reads.event computed.collected got
  refine ⟨computed.collected.start_le mem, computed.collected.lt_finish mem, ?_⟩
  obtain ⟨e, next⟩ := nextFrom_exists mem (Nat.le_refl _)
  obtain ⟨_, isUse⟩ := reads.next computed.collected got next
  refine ⟨e, next, by simp [isUse], ?_⟩
  intro isBack
  rw [isUse] at isBack
  cases node : site.node <;> simp [useSite, node] at isBack

theorem earlier_loads : (states i).loadLocs.entriesAt site.block = [] ∨
      ∃ pred slot, (states i).loadLocs.entriesAt site.block = [(pred, slot)] ∧ Reads scope site pred ∧
        (states i).slots.get? pred = some slot ∧ Evicted (states i) i pred := by
  have inRange := lt_length got
  have placing := computed.placing_at got
  have once := computed.loads_once (Nat.le_of_lt inRange) site.block
  cases entries : (states i).loadLocs.entriesAt site.block with
  | nil => exact .inl rfl
  | cons first rest =>
    obtain ⟨pred, slot⟩ := first
    obtain ⟨reads, known, eviction, mem, isPred, till⟩ :=
      placing.loads i site (Nat.le_refl _) got pred slot (by simp [entries])
    refine .inr ⟨pred, slot, ?_, reads, known, eviction, mem, by omega, isPred⟩
    cases rest with
    | nil => rfl
    | cons second others =>
      obtain ⟨o, otherSlot⟩ := second
      have readsToo := (placing.loads i site (Nat.le_refl _) got o otherSlot (by simp [entries])).1
      obtain rfl := mem_unique reads.1 readsToo.1
      simp [entries] at once

theorem loaded_of_evicted (reads : Reads scope site pred) (evicted : Evicted (states i) i pred) :
    ∃ slot, (pred, slot) ∈ (states i).loadLocs.entriesAt site.block := by
  obtain ⟨eviction, mem, isOpen, rfl⟩ := evicted
  obtain ⟨e, reload, returns⟩ := (computed.placing_at got).evicted eviction mem isOpen
  obtain ⟨_, isUse⟩ := reads.next computed.collected got returns.follows
  have comes := returns.comes
  have back : reload = .before site.block := by
    cases node : site.node with
    | block b =>
      have named := computed.sited.named got node
      simp only [reloadFor, isUse, useSite, node, some.injEq] at comes
      rw [← comes, named]
    | subscope loop =>
      simp only [reloadFor, isUse, useSite, node] at comes
      split at comes
      · exact (some.inj comes).symm
      · simp at comes
  obtain ⟨slot, _, loaded⟩ := returns.loaded site.block back
  exact ⟨slot, loaded⟩

/-- Where a node that evicts nothing leaves a predicate that it does not read. -/
theorem defining_of_unread (evictions : (states (i + 1)).evictions = ((states i).at i).evictions)
    (slots : (states (i + 1)).slots = (states i).slots) (ready : Ready scope locs states i replay)
    (current : after.current = replay.current) (bits : ∀ bit, bit < alloc.stackEnd → after.bits bit = replay.bits bit)
    (wanted : Wanted scope i (defsAt placed i) pred) (unread : ¬ Reads scope site pred)
    (regs : ∀ r, locs.get? pred = some (.register r) → ¬ Evicted (states i) i pred →
      scope.start pred ≤ 2 * i → (∃ e ∈ scope.eventsOf pred, 2 * i + 1 ≤ e.point) →
      Needed scope pred (2 * i) → after.regs r = replay.regs r) : Kept locs (states (i + 1)) (i + 1) after pred := by
  have inRange := lt_length got
  cases known : locs.get? pred with
  | none => exact ⟨by simp [known], by simp [known], by simp [known]⟩
  | some location =>
    obtain ⟨started, needed, later⟩ := computed.wanted_live got known wanted
    refine computed.kept_next inRange (ready pred started needed)
      (computed.evicted_iff got evictions wanted unread) slots current bits ?_
    intro r held notEvicted
    exact regs r held notEvicted started later needed

omit computed got in
/-- A block that loads one stack bit, and spills nothing for it, reads the loaded value. -/
theorem fetch_safe {post : State ν → Prop} (isHeader : site.block ≠ scope.header)
    (loads : alloc.loadsAt site.block = [(pred, bit)]) (useReg : alloc.useReg site.block pred = some r)
    (spillLoc : alloc.spillLoc site.block pred = none) (inBit : replay.bits bit = replay.current pred)
    (done : post (replay.setReg r (replay.bits bit))) :
    Safe (alloc.entryActions scope.header site.block ++ [alloc.readAction site.block pred]) replay post := by
  simp only [entryActions, if_neg isHeader, loads, flatMap_cons, flatMap_nil,
    append_nil, loadActions, useReg, spillLoc, map_none, toList_none,
    nil_append, readAction, cons_append]
  refine ⟨trivial, ?_⟩
  rintro _ rfl
  refine ⟨by simpa [Action.Met, Holds, setReg] using inBit, ?_⟩
  rintro _ rfl
  exact done

/-- A block whose predicate has a register loads it back if it was evicted, and reads it there. -/
theorem guard_register (reads : Reads scope site pred) (held : locs.get? pred = some (.register r))
    (placedNext : states (i + 1) = { (states i).at i with
      useLocs := (states i).useLocs.record site.block pred r }) (ready : Ready scope locs states i replay) :
    Safe (alloc.entryActions scope.header site.block ++ [alloc.readAction site.block pred]) replay
      (Defining scope locs states i (defsAt placed i)) := by
  obtain ⟨started, live, needed⟩ := computed.reads_needed got reads
  have kept := ready pred started needed
  have evictions : (states (i + 1)).evictions = ((states i).at i).evictions := by
    rw [placedNext]
  have slots : (states (i + 1)).slots = (states i).slots := by
    rw [placedNext]
    rfl
  have useReg := computed.useReg_of_record got (congrArg State.useLocs placedNext)
  have spillLoc := computed.spillLoc_of_unspilled got pred (by rw [placedNext]; rfl)
  -- once the register holds the predicate, every wanted predicate is kept
  have kept_after (after : State ν) (loaded : after.regs r = replay.current pred)
      (current : after.current = replay.current) (bits : after.bits = replay.bits)
      (regs : ∀ o, o ≠ r → after.regs o = replay.regs o) :
      Defining scope locs states i (defsAt placed i) after := by
    intro o wanted
    by_cases readsOther : Reads scope site o
    · obtain rfl := mem_unique reads.1 readsOther.1
      have notEvicted := computed.not_evicted_of_event got (reads.event computed.collected got) (.inl rfl)
      refine ⟨by simp [held], ?_, ?_⟩
      · intro _ _ _ isEvicted
        exact absurd isEvicted notEvicted
      · intro otherReg heldToo _
        obtain rfl : r = otherReg := by simpa [held] using heldToo
        rw [loaded, current]
    · refine computed.defining_of_unread got evictions slots ready current (fun bit _ => congrFun bits bit) wanted
        readsOther ?_
      intro otherReg heldToo _ startedToo later _
      refine regs otherReg ?_
      rintro rfl
      obtain ⟨e, mem, beyond⟩ := later
      have finishes := computed.collected.lt_finish mem
      have same := computed.apart held heldToo ⟨started, live⟩ ⟨startedToo, by omega⟩
      exact readsOther (same ▸ reads)
  have stays (notEvicted : ¬ Evicted (states i) i pred) : Safe [alloc.readAction site.block pred] replay
        (Defining scope locs states i (defsAt placed i)) := by
    have holds := kept.register r held notEvicted
    simp only [readAction, useReg, Safe, Action.Moves]
    exact ⟨holds, fun next same => same ▸ kept_after replay holds rfl rfl fun _ _ => rfl⟩
  by_cases isHeader : site.block = scope.header
  · have first := (computed.sited.header_block got).mp isHeader
    subst first
    rw [entryActions, if_pos isHeader, nil_append]
    refine stays ?_
    rintro ⟨eviction, mem, _⟩
    simp [computed.initial] at mem
  · have notFirst : i ≠ 0 := fun first => isHeader ((computed.sited.header_block got).mpr first)
    have loads : alloc.loadsAt site.block = (states i).loadLocs.entriesAt site.block := by
      rw [computed.loadsAt_eq got notFirst, placedNext]
      rfl
    rcases computed.earlier_loads got with none_ | ⟨o, slot, entries, readsOther, known, isEvicted⟩
    · rw [entryActions, if_neg isHeader, loads, none_, flatMap_nil, nil_append]
      refine stays fun isEvicted => ?_
      obtain ⟨slot, mem⟩ := computed.loaded_of_evicted got reads isEvicted
      simp [none_] at mem
    · obtain rfl := mem_unique reads.1 readsOther.1
      have inSlot := kept.slot r slot held isEvicted known
      refine fetch_safe isHeader (loads.trans entries) useReg spillLoc inSlot (kept_after _ ?_ rfl rfl ?_)
      · simpa [setReg] using inSlot
      · intro o ne
        simp [setReg, ne]

theorem unloaded_of_stack (reads : Reads scope site pred) (held : locs.get? pred = some (.stack bit)) :
    (states i).loadLocs.entriesAt site.block = [] ∧ i ≠ 0 ∧ site.block ≠ scope.header := by
  rw [ne_eq, ne_eq, computed.sited.header_block got, and_self_iff]
  constructor
  · rcases computed.earlier_loads got with none_ | ⟨o, slot, _, readsOther, _, eviction, mem, isOpen, rfl⟩
    · exact none_
    · obtain rfl := mem_unique reads.1 readsOther.1
      obtain ⟨e, reload, returns⟩ := (computed.placing_at got).evicted eviction mem isOpen
      have inRegister := returns.held
      simp [held] at inRegister
  · rintro rfl
    obtain ⟨headerSite, headerFound, _, headerPred⟩ := computed.sited.header
    obtain rfl := mem_unique headerFound got
    obtain rfl := mem_unique headerPred reads.1
    obtain ⟨r, inRegister⟩ := computed.located.header reads.2
    simp [inRegister] at held

end

/-- A node that reads no predicate with a place reads none. -/
theorem reads_none (got : scope.sites[i]? = some site)
    (unread : ∀ pred, Reads scope site pred → locs.get? pred = none ∨ locs.get? pred = some .always) (pred : PredId) :
    ¬ Reads scope site pred := by
  intro reads
  obtain ⟨location, known, placed⟩ := computed.located.known (reads.event computed.collected got)
  rcases unread pred reads with missing | always
  · simp [missing] at known
  · exact placed (mem_unique known always)

/-- A register that is free at a node keeps no predicate that is still wanted in it. -/
theorem not_free (free : isFreeAt scope holders ((states i).at i).evictions i r = true)
    (held : locs.get? o = some (.register r)) (started : scope.start o ≤ 2 * i)
    (later : ∃ e ∈ scope.eventsOf o, 2 * i + 1 ≤ e.point)
    (needed : Needed scope o (2 * i)) : Evicted (states i) i o := by
  obtain ⟨e, mem, beyond⟩ := later
  have finishes := computed.collected.lt_finish mem
  have isHolder : (⟨o, r, scope.start o, scope.finish o⟩ : Holder) ∈ holders :=
    computed.located.held.mpr ⟨held, rfl, rfl⟩
  have checked := all_eq_true.mp free _ isHolder
  simp only [Holder.overlaps, or_eq_true, decide_eq_true_eq, not_eq_true', and_eq_false_iff,
    decide_eq_false_iff_not, List.any_eq_true, and_eq_true, ne_eq] at checked
  rcases checked with ((ne | apart) | dead) | ⟨eviction, active, ⟨_, isPred⟩, till⟩
  · simp at ne
  · omega
  · obtain ⟨next, follows, notFull, _⟩ := needed
    rw [isDeadAt_iff, follows] at dead
    simp [some.inj dead] at notFull
  · exact ⟨eviction, (mem_filter.mp active).1, by omega, isPred⟩

variable (got : scope.sites[i]? = some site) {victim : Candidate} {loop : ScopeId} {preserve : NumberSet}

include got

/-- A block whose predicate is on the stack loads it into a free register. -/
theorem guard_borrow {borrowed : List Nat} (reads : Reads scope site pred) (held : locs.get? pred = some (.stack bit))
    (free : isFreeAt scope holders ((states i).at i).evictions i r = true)
    (placedNext : states (i + 1) = { ((states i).at i).read site.block pred r bit with
      borrowed := borrowed }) (ready : Ready scope locs states i replay) :
    Safe (alloc.entryActions scope.header site.block ++ [alloc.readAction site.block pred]) replay
      (Defining scope locs states i (defsAt placed i)) := by
  obtain ⟨started, live, needed⟩ := computed.reads_needed got reads
  have inBit := (ready pred started needed).stack bit held
  obtain ⟨unloaded, notFirst, isHeader⟩ := computed.unloaded_of_stack got reads held
  have evictions : (states (i + 1)).evictions = ((states i).at i).evictions := by
    rw [placedNext]
    rfl
  have slots : (states (i + 1)).slots = (states i).slots := by
    rw [placedNext]
    rfl
  have useReg := computed.useReg_of_record got (congrArg State.useLocs placedNext)
  have spillLoc := computed.spillLoc_of_unspilled got pred (by rw [placedNext]; rfl)
  have loads : alloc.loadsAt site.block = [(pred, bit)] := by
    rw [computed.loadsAt_eq got notFirst, placedNext]
    exact entriesAt_record_first _ unloaded pred bit
  refine fetch_safe isHeader loads useReg spillLoc inBit ?_
  intro o wanted
  by_cases readsOther : Reads scope site o
  · obtain rfl := mem_unique reads.1 readsOther.1
    refine ⟨?_, by simp [held], by simp [held]⟩
    intro otherBit heldToo
    obtain rfl : bit = otherBit := by simpa [held] using heldToo
    exact inBit
  · refine computed.defining_of_unread got evictions slots ready (by rfl) (fun bit _ => rfl) wanted readsOther ?_
    intro otherReg heldToo notEvicted startedToo later neededToo
    have ne : otherReg ≠ r := by
      rintro rfl
      exact notEvicted (computed.not_free free heldToo startedToo later neededToo)
    simp [setReg, ne]

/-- A holder that is evicted at a node is live there, in its register, and needed only later. -/
theorem victim_live (mem : victim.holder ∈ holders)
    (evictable : Evictable scope ((states i).at i).evictions i victim.holder victim e) :
    scope.start victim.holder.pred ≤ 2 * i ∧ 2 * i < scope.finish victim.holder.pred ∧
      ¬ Evicted (states i) i victim.holder.pred ∧
      (Needed scope victim.holder.pred (2 * (i + 1)) → Needed scope victim.holder.pred (2 * i)) := by
  obtain ⟨held, starts, finishes⟩ := computed.located.held.mp mem
  have live := evictable.live
  rw [starts, finishes] at live
  refine ⟨?_, live.2, ?_, ?_⟩
  · by_cases isHeader : victim.holder.pred = scope.headerPred
    · rw [isHeader, start_header]
      exact zero_le _
    · obtain ⟨o, otherListed⟩ := computed.located.active held
      obtain ⟨first, inPlaced, defines, _, startsAt⟩ := computed.collected.start_eq isHeader otherListed
      obtain ⟨firstSite, firstFound, _⟩ := computed.collected.site_of_def inPlaced
      obtain ⟨own, isEvent, isHere⟩ := computed.event_here firstFound inPlaced rfl
        (defines ▸ computed.not_alwaysTrue held)
      have idle := evictable.idle own (defines ▸ isEvent)
      omega
  · rintro ⟨eviction, isEvicted, isOpen, isPred⟩
    obtain ⟨otherEvent, reload, returns⟩ := (computed.placing_at got).evicted eviction isEvicted isOpen
    have heldToo := returns.held
    rw [isPred, held] at heldToo
    have sameReg : victim.holder.reg = eviction.reg := by simpa using heldToo
    exact evictable.untaken eviction (mem_filter.mpr ⟨isEvicted, by simpa using isOpen⟩) sameReg.symm
  · rintro ⟨next, follows, notFull, notTop⟩
    refine ⟨next, nextFrom_earlier follows (by omega) ?_, notFull, notTop⟩
    intro o otherListed reached
    have idle := evictable.idle o otherListed
    omega

section

variable (reads : Reads scope site pred) (held : locs.get? pred = some (.stack bit)) (mem : victim.holder ∈ holders)
  (evictable : Evictable scope ((states i).at i).evictions i victim.holder victim e)

include reads held mem evictable

/-- What a block keeps that takes the register of a holder: the holder is in its slot, and all others are as before. -/
theorem defining_of_evict (evictions : (states (i + 1)).evictions = ((states i).at i).evictions ++
      [⟨victim.holder.reg, victim.holder.pred, victim.point⟩])
    (slots : ∀ o, o ≠ victim.holder.pred → (states (i + 1)).slots.get? o = (states i).slots.get? o)
    (ready : Ready scope locs states i replay) (current : after.current = replay.current)
    (bits : ∀ o, (states (i + 1)).slots.get? victim.holder.pred ≠ some o → after.bits o = replay.bits o)
    (saved : Needed scope victim.holder.pred (2 * (i + 1)) →
      ∀ slot, (states (i + 1)).slots.get? victim.holder.pred = some slot →
      after.bits slot = replay.regs victim.holder.reg)
    (regs : ∀ o, o ≠ victim.holder.reg → after.regs o = replay.regs o) :
    Defining scope locs states i (defsAt placed i) after := by
  have inRange := lt_length got
  have heldVictim := (computed.located.held.mp mem).1
  have placingNext := computed.placing inRange
  obtain ⟨started, _, needed⟩ := computed.reads_needed got reads
  obtain ⟨victimStarted, victimLive, victimThere, victimNeeded⟩ := computed.victim_live got mem evictable
  have bits_stack (o : PredId) (otherBit : Nat) (heldOther : locs.get? o = some (.stack otherBit)) :
      after.bits otherBit = replay.bits otherBit := by
    refine bits otherBit fun isSlot => ?_
    have above := (placingNext.slots _ _ isSlot).1
    have below := (computed.located.stack heldOther).2
    omega
  intro o wanted
  by_cases readsOther : Reads scope site o
  · obtain rfl := mem_unique reads.1 readsOther.1
    refine ⟨?_, by simp [held], by simp [held]⟩
    intro otherBit heldToo
    rw [bits_stack pred otherBit heldToo, current]
    exact (ready pred started needed).stack otherBit heldToo
  · by_cases isVictim : o = victim.holder.pred
    · subst isVictim
      have reached := le_of_nextFrom evictable.follows
      have p := evictable.point
      have neededNext : Needed scope victim.holder.pred (2 * (i + 1)) := by
        refine wanted.used.resolve_left ?_
        rintro ⟨x, itemListed, defines⟩
        obtain ⟨inPlaced, here⟩ := mem_defsAt.mp itemListed
        obtain ⟨own, isEvent, atNode⟩ := computed.event_here got inPlaced here
          (defines ▸ computed.not_alwaysTrue heldVictim)
        exact (evictable.idle own (defines ▸ isEvent)).2 atNode
      have inRegister := (ready _ victimStarted (victimNeeded neededNext)).register _ heldVictim victimThere
      refine ⟨by simp [heldVictim], ?_, ?_⟩
      · intro _ slot _ _ known
        rw [saved neededNext slot known, current]
        exact inRegister
      · intro _ _ notEvicted
        refine absurd ⟨⟨victim.holder.reg, victim.holder.pred, victim.point⟩, ?_, ?_, rfl⟩ notEvicted
        · simp [evictions]
        · simp only
          omega
    · cases known : locs.get? o with
      | none => exact ⟨by simp [known], by simp [known], by simp [known]⟩
      | some location =>
        obtain ⟨otherStarted, otherNeeded, last, lastListed, beyond⟩ := computed.wanted_live got known wanted
        have finishes := computed.collected.lt_finish lastListed
        have kept := ready o otherStarted otherNeeded
        refine ⟨?_, ?_, ?_⟩
        · intro otherBit heldOther
          rw [bits_stack o otherBit heldOther, current]
          exact kept.stack otherBit heldOther
        · rintro r slot heldOther ⟨eviction, isEvicted, isOpen, rfl⟩ isSlot
          rw [evictions] at isEvicted
          rcases mem_append.mp isEvicted with old | new
          · have notVictimSlot : (states (i + 1)).slots.get? victim.holder.pred ≠ some slot :=
              fun victimSlot => isVictim (placingNext.slotsApart _ _ slot isSlot victimSlot)
            rw [bits slot notVictimSlot, current]
            rw [slots _ isVictim] at isSlot
            exact kept.slot r slot heldOther ⟨eviction, (mem_filter.mp old).1, by omega, rfl⟩ isSlot
          · rw [mem_singleton.mp new] at isVictim
            exact absurd rfl isVictim
        · intro r heldOther notEvicted
          have notBefore : ¬ Evicted (states i) i o := by
            rintro ⟨eviction, isEvicted, isOpen, isPred⟩
            refine notEvicted ⟨eviction, ?_, computed.survives got wanted readsOther isEvicted isOpen isPred, isPred⟩
            rw [evictions]
            exact mem_append_left _ (mem_filter.mpr ⟨isEvicted, by simpa using isOpen⟩)
          have ne : r ≠ victim.holder.reg := by
            rintro rfl
            exact isVictim (computed.apart heldOther heldVictim ⟨otherStarted, by omega⟩
              ⟨victimStarted, victimLive⟩)
          rw [regs r ne, current]
          exact kept.register r heldOther notBefore

/-- A block whose predicate is on the stack takes the register of a holder, which is saved first if it comes back. -/
theorem guard_evict (placedNext : states (i + 1) = recordEviction
      (((states i).at i).read site.block pred victim.holder.reg bit) site.block pred victim)
    (ready : Ready scope locs states i replay) :
    Safe (alloc.entryActions scope.header site.block ++ [alloc.readAction site.block pred]) replay
      (Defining scope locs states i (defsAt placed i)) := by
  have inRange := lt_length got
  obtain ⟨started, _, needed⟩ := computed.reads_needed got reads
  have inBit := (ready pred started needed).stack bit held
  obtain ⟨unloaded, notFirst, isHeader⟩ := computed.unloaded_of_stack got reads held
  have fresh := (computed.placing_at got).fresh i site (Nat.le_refl _) got
  have evictions : (states (i + 1)).evictions = ((states i).at i).evictions ++
      [⟨victim.holder.reg, victim.holder.pred, victim.point⟩] := by
    rw [placedNext, recordEviction_evictions]
    rfl
  have useReg : alloc.useReg site.block pred = some victim.holder.reg :=
    computed.useReg_of_record got (by rw [placedNext, recordEviction_useLocs]; rfl)
  cases reload : victim.reload with
  | never =>
    have comes := evictable.reload
    rw [recordEviction_never reload] at placedNext
    rw [reload] at comes
    have loads : alloc.loadsAt site.block = [(pred, bit)] := by
      rw [computed.loadsAt_eq got notFirst, placedNext]
      exact entriesAt_record_first _ unloaded pred bit
    have spillLoc := computed.spillLoc_of_unspilled got pred (by rw [placedNext]; rfl)
    refine fetch_safe isHeader loads useReg spillLoc inBit ?_
    refine computed.defining_of_evict got reads held mem evictable evictions ?_ ready rfl (fun _ _ => rfl) ?_ ?_
    · intro o _
      rw [placedNext]
      rfl
    · intro neededNext
      exact absurd neededNext (not_needed_of_never evictable.follows comes)
    · intro o ne
      simp [setReg, ne]
  | before back =>
    let before := ((states i).at i).read site.block pred victim.holder.reg bit
    obtain ⟨spills, loadLocs, slots, _⟩ := recordEviction_before before site.block pred reload
    have comes := evictable.reload
    rw [reload] at comes
    have elsewhere : site.block ≠ back := back_later computed.collected computed.sited evictable.follows
      comes got (Nat.le_refl _) notFirst
    have loads : alloc.loadsAt site.block = [(pred, bit)] := by
      rw [computed.loadsAt_eq got notFirst, placedNext, loadLocs, entriesAt_record_of_ne _ elsewhere]
      exact entriesAt_record_first _ unloaded pred bit
    have spillLoc : alloc.spillLoc site.block pred = some (slotFor before victim.holder.pred).1 := by
      rw [computed.spillLoc_eq got, placedNext, spills]
      have unspilled : before.spillLocs.entriesAt site.block = [] := fresh.2
      rw [entriesAt_record_first _ unspilled]
      simp [find]
    rw [← placedNext] at slots
    have own : (states (i + 1)).slots.get? victim.holder.pred = some (slotFor before victim.holder.pred).1 := by
      rw [slots]
      exact slotFor_own before victim.holder.pred
    have notSlot : bit ≠ (slotFor before victim.holder.pred).1 := by
      have above := ((computed.placing inRange).slots _ _ own).1
      have below := (computed.located.stack held).2
      omega
    simp only [entryActions, if_neg isHeader, loads, flatMap_cons, flatMap_nil,
      append_nil, loadActions, useReg, spillLoc, map_some, toList_some,
      readAction, cons_append, nil_append]
    refine ⟨trivial, ?_⟩
    rintro _ rfl
    refine ⟨trivial, ?_⟩
    rintro _ rfl
    refine ⟨?_, ?_⟩
    · simpa [Action.Met, Holds, setReg, setBit, notSlot] using inBit
    rintro _ rfl
    refine computed.defining_of_evict got reads held mem evictable evictions ?_ ready rfl ?_ ?_ ?_
    · intro o ne
      rw [slots]
      rcases slotFor_cases before victim.holder.pred with ⟨_, same, _⟩ | ⟨_, _, more, _⟩
      · rw [same]
        rfl
      · rw [more, get?_insert, if_neg ne]
        rfl
    · intro o notVictim
      have ne : o ≠ (slotFor before victim.holder.pred).1 := by
        rintro rfl
        exact notVictim own
      simp [setReg, setBit, ne]
    · intro _ slot known
      obtain rfl := mem_unique own known
      simp [setReg, setBit]
    · intro o ne
      simp [setReg, setBit, ne]

end

/-- Whatever a block has to load, its guard is in its register when it is read. -/
theorem guard_block {b : BlockId} (isBlock : site.node = .block b)
    (guards : site.pred = some pred) (ready : Ready scope locs states i replay) :
    Safe (alloc.entryActions scope.header site.block ++
      if some pred = scope.alwaysTrue then [] else [alloc.readAction site.block pred]) replay
      (Defining scope locs states i (defsAt placed i)) := by
  have step := computed.steps got
  generalize placedNext : states (i + 1) = next at step
  cases step with
  | register o r reads held =>
    obtain ⟨rfl, notAlways⟩ := reads.only guards
    rw [if_neg notAlways]
    exact computed.guard_register got reads held placedNext ready
  | borrow o bit b r reads held isBlock inPool free =>
    obtain ⟨rfl, notAlways⟩ := reads.only guards
    rw [if_neg notAlways]
    rw [← computed.sited.named got isBlock] at placedNext
    exact computed.guard_borrow got reads held free placedNext ready
  | evict o bit b victim holder reads held isBlock mem chosen =>
    obtain ⟨rfl, notAlways⟩ := reads.only guards
    obtain ⟨e, evictable⟩ := candidate_evictable chosen
    obtain rfl := evictable.same
    rw [if_neg notAlways]
    rw [← computed.sited.named got isBlock] at placedNext
    exact computed.guard_evict got reads held mem evictable placedNext ready
  | bit o bit loop reads held isLoop => simp [isBlock] at isLoop
  | idle unread =>
    have none_read := computed.reads_none got unread
    have isAlways : some pred = scope.alwaysTrue :=
      Decidable.byContradiction fun notAlways => none_read pred ⟨guards, notAlways⟩
    have noLoads : alloc.entryActions scope.header site.block = [] := by
      unfold entryActions
      split
      · rfl
      · next notHeader =>
          have notFirst : i ≠ 0 := fun first => notHeader ((computed.sited.header_block got).mpr first)
          rw [computed.loadsAt_eq got notFirst, placedNext]
          rcases computed.earlier_loads got with none_ | ⟨o, _, _, reads, _⟩
          · rw [State.at, none_]
            rfl
          · exact absurd reads (none_read o)
    rw [noLoads, if_pos isAlways]
    intro o wanted
    exact computed.defining_of_unread got (by rw [placedNext]) (by rw [placedNext]; rfl) ready rfl
      (fun _ _ => rfl) wanted (none_read o) (fun _ _ _ _ _ _ => rfl)

/-- After an inner loop, the wanted predicates are where they were. -/
theorem defining_of_inner (isLoop : site.node = .subscope loop)
    (preserves : ∀ holder ∈ holders, holder.start ≤ 2 * i + 1 → 2 * i + 1 < holder.finish →
      holder.reg ∈ preserve.members) (evictions : (states (i + 1)).evictions = ((states i).at i).evictions)
    (slots : (states (i + 1)).slots = (states i).slots) (ready : Ready scope locs states i replay)
    (moves : (Action.inner preserve alloc.stackEnd).Moves replay after) :
    Defining scope locs states i (defsAt placed i) after := by
  have inRange := lt_length got
  obtain ⟨regs, bits, current⟩ := moves
  have safeReg (o : PredId) (r : Nat) (held : locs.get? o = some (.register r)) (started : scope.start o ≤ 2 * i)
      (later : ∃ e ∈ scope.eventsOf o, 2 * i + 1 ≤ e.point) :
      after.regs r = replay.regs r := by
    obtain ⟨e, mem, beyond⟩ := later
    have finishes := computed.collected.lt_finish mem
    refine regs r (preserves ⟨o, r, scope.start o, scope.finish o⟩ ?_ ?_ ?_)
    · exact computed.located.held.mpr ⟨held, rfl, rfl⟩
    · simp only
      omega
    · simp only
      omega
  intro o wanted
  by_cases reads : Reads scope site o
  · cases known : locs.get? o with
    | none => exact ⟨by simp [known], by simp [known], by simp [known]⟩
    | some location =>
      obtain ⟨started, needed, later⟩ := computed.wanted_live got known wanted
      have notAfter := computed.not_evicted_of_event got (reads.event computed.collected got) (.inl rfl)
      have notBefore : ¬ Evicted (states i) i o := by
        -- a loop's predicate is evicted until the loop only if the loop is the last to read it
        rintro ⟨eviction, isEvicted, isOpen, rfl⟩
        obtain ⟨e, reload, returns⟩ := (computed.placing_at got).evicted eviction isEvicted isOpen
        obtain ⟨here, isUse⟩ := reads.next computed.collected got returns.follows
        have comes := returns.comes
        simp only [reloadFor, isUse, useSite, isLoop] at comes
        split at comes
        · next isLast =>
            obtain ⟨last, lastListed, beyond⟩ := later
            have finishes := computed.collected.lt_finish lastListed
            obtain ⟨final, atEnd, samePoint⟩ := (any_eq_true _ _).mp isLast
            rw [finish, atEnd] at finishes
            simp only [map_some, getD_some] at finishes
            simp only [decide_eq_true_eq] at samePoint
            omega
        · simp at comes
      refine computed.kept_next inRange (ready o started needed)
        ⟨fun afterwards => absurd afterwards notAfter, fun before => absurd before notBefore⟩ slots current bits ?_
      intro r held _
      exact safeReg o r held started later
  · refine computed.defining_of_unread got evictions slots ready current bits wanted reads ?_
    intro r held _ started later _
    exact safeReg o r held started later

/-- The guard of an inner loop is where the loop reads it. -/
theorem guard_loop (isLoop : site.node = .subscope loop) (guards : site.pred = some pred)
    (preserves : ∀ holder ∈ holders, holder.start ≤ 2 * i + 1 → 2 * i + 1 < holder.finish →
      holder.reg ∈ preserve.members) (ready : Ready scope locs states i replay) :
    Safe ((if some pred = scope.alwaysTrue then [] else [alloc.loopReadAction site.block pred]) ++
      [.inner preserve alloc.stackEnd]) replay
      (Defining scope locs states i (defsAt placed i)) := by
  have notFirst : i ≠ 0 := by
    rintro rfl
    obtain ⟨headerSite, headerFound, isBlock, _⟩ := computed.sited.header
    obtain rfl := mem_unique headerFound got
    simp [isLoop] at isBlock
  have loadLoc : alloc.loadLoc site.block pred = find pred ((states (i + 1)).loadLocs.entriesAt site.block) := by
    rw [← computed.loadsAt_eq got notFirst]
    rfl
  have inner_safe (evictions : (states (i + 1)).evictions = ((states i).at i).evictions)
      (slots : (states (i + 1)).slots = (states i).slots) :
      Safe [.inner preserve alloc.stackEnd] replay (Defining scope locs states i (defsAt placed i)) :=
    ⟨trivial, fun _ moves => computed.defining_of_inner got isLoop preserves evictions slots ready moves⟩
  have step := computed.steps got
  generalize placedNext : states (i + 1) = next at step
  cases step with
  | borrow _ _ _ _ _ _ isBlock => simp [isLoop] at isBlock
  | evict _ _ _ _ _ _ _ isBlock => simp [isLoop] at isBlock
  | idle unread =>
    have isAlways : some pred = scope.alwaysTrue :=
      Decidable.byContradiction fun notAlways => computed.reads_none got unread pred ⟨guards, notAlways⟩
    rw [if_pos isAlways, nil_append]
    exact inner_safe (by rw [placedNext]) (by rw [placedNext]; rfl)
  | register o r reads held =>
    obtain ⟨rfl, notAlways⟩ := reads.only guards
    obtain ⟨started, live, needed⟩ := computed.reads_needed got reads
    have kept := ready pred started needed
    have fresh := (computed.placing_at got).fresh i site (Nat.le_refl _) got
    have loads : (states (i + 1)).loadLocs.entriesAt site.block = (states i).loadLocs.entriesAt site.block := by
      rw [placedNext]
      rfl
    rw [if_neg notAlways, loopReadAction, loadLoc, loads]
    rcases computed.earlier_loads got with none_ | ⟨o, slot, entries, readsOther, known, isEvicted⟩
    · have useReg : alloc.useReg site.block pred = some r := by
        rw [computed.useReg_eq got, placedNext]
        rw [entriesAt_record_first _ fresh.1]
        simp [find]
      have notEvicted : ¬ Evicted (states i) i pred := by
        intro isEvicted
        obtain ⟨slot, mem⟩ := computed.loaded_of_evicted got reads isEvicted
        simp [none_] at mem
      rw [none_, find]
      simp only [readAction, useReg]
      refine ⟨kept.register r held notEvicted, ?_⟩
      rintro _ rfl
      exact inner_safe (by rw [placedNext]) (by rw [placedNext]; rfl)
    · obtain rfl := mem_unique reads.1 readsOther.1
      rw [entries]
      simp only [find, if_pos]
      refine ⟨kept.slot r slot held isEvicted known, ?_⟩
      rintro _ rfl
      exact inner_safe (by rw [placedNext]) (by rw [placedNext]; rfl)
  | bit o bit _ reads held =>
    obtain ⟨rfl, notAlways⟩ := reads.only guards
    obtain ⟨started, live, needed⟩ := computed.reads_needed got reads
    have loads : (states (i + 1)).loadLocs.entriesAt site.block = [(pred, bit)] := by
      rw [placedNext]
      exact entriesAt_record_first _ (computed.unloaded_of_stack got reads held).1 pred bit
    rw [if_neg notAlways, loopReadAction, loadLoc, loads]
    simp only [find, if_pos]
    refine ⟨(ready pred started needed).stack bit held, ?_⟩
    rintro _ rfl
    exact inner_safe (by rw [placedNext]) (by rw [placedNext]; rfl)

end

variable {ν : Type} {replay : Replay.State ν}
  (computed : Computed tree id body placed scope ctx locs holders firstFree states alloc) {todo : List PlacedDef}

/-- A definition is the first of its predicate, or merges into its place. -/
def defAction (scope : ScopeEvents) (alloc : ScopeAllocation) (x : PlacedDef) : Replay.Action :=
  if scope.firstDefs.get? x.definition.pred = some x.index then
    .define (alloc.defLoc x.definition.pred) x.definition.pred
  else .merge (alloc.defLoc x.definition.pred) x.definition.pred

include computed

theorem wanted_finish (got : scope.sites[i]? = some site) (here : ∀ x ∈ todo, x ∈ placed ∧ x.position = i)
    (known : locs.get? pred = some location) (wanted : Wanted scope i todo pred) : 2 * i + 1 < scope.finish pred := by
  rcases wanted.used with ⟨x, mem, rfl⟩ | ⟨e, next, _⟩
  · obtain ⟨inPlaced, atNode⟩ := here x mem
    obtain ⟨e, isEvent, isHere⟩ := computed.event_here got inPlaced atNode (computed.not_alwaysTrue known)
    exact isHere ▸ computed.collected.lt_finish isEvent
  · have finishes := computed.collected.lt_finish (mem_of_nextFrom next)
    have reached := le_of_nextFrom next
    omega

/-- One definition finds its predicate if it merges, and leaves every wanted predicate kept. -/
theorem define_step (got : scope.sites[i]? = some site) (here : ∀ o ∈ x :: todo, o ∈ placed ∧ o.position = i)
    (increasing : ∀ o ∈ todo, x.index < o.index) (notAlways : some x.definition.pred ≠ scope.alwaysTrue)
    (defining : Defining scope locs states i (x :: todo) replay) :
    (defAction scope alloc x).Met replay ∧ ∀ v, Defining scope locs states i todo
        (replay.write (alloc.defLoc x.definition.pred) x.definition.pred v) := by
  obtain ⟨inPlaced, atNode⟩ := here x (.head _)
  obtain ⟨e, itemEvent, isHere⟩ := computed.event_here got inPlaced atNode notAlways
  have itemStart := computed.collected.start_le itemEvent
  have itemFinish := computed.collected.lt_finish itemEvent
  have notEvicted : ¬ Evicted (states (i + 1)) (i + 1) x.definition.pred :=
    computed.not_evicted_of_event got itemEvent (.inr isHere)
  obtain ⟨location, known, placedSomewhere⟩ := computed.located.known itemEvent
  have defLoc : alloc.defLoc x.definition.pred = location := by
    rw [computed.defLoc _ notAlways, known]
    rfl
  constructor
  · unfold defAction
    rw [defLoc]
    split
    · exact placedSomewhere
    · next notFirst =>
        have wanted : Wanted scope i (x :: todo) x.definition.pred := by
          refine ⟨by omega, ?_, .inl ⟨x, .head _, rfl⟩⟩
          intro o mem samePred isFirst
          rcases mem_cons.mp mem with rfl | later
          · exact notFirst isFirst
          · obtain ⟨otherPlaced, otherHere⟩ := here o mem
            have below := increasing o later
            rcases computed.collected.isFirst_before otherPlaced isFirst inPlaced samePred.symm with
              rfl | before | ⟨_, before⟩
            · omega
            · omega
            · omega
        have kept := defining _ wanted
        cases location with
        | register r => exact kept.register r known notEvicted
        | stack bit => exact kept.stack bit known
        | always => exact absurd rfl placedSomewhere
  · intro v o wanted
    rw [defLoc]
    by_cases same : o = x.definition.pred
    · subst same
      refine ⟨?_, ?_, ?_⟩
      · intro bit held
        obtain rfl := mem_unique known held
        simp [write, setBit]
      · intro _ _ _ isEvicted
        exact absurd isEvicted notEvicted
      · intro r held _
        obtain rfl := mem_unique known held
        simp [write, setReg]
    · have wantedBefore : Wanted scope i (x :: todo) o := by
        refine ⟨wanted.started, ?_, wanted.used.imp_left ?_⟩
        · intro first mem defines
          rcases mem_cons.mp mem with rfl | later
          · exact absurd defines.symm same
          · exact wanted.notFirst first later defines
        · rintro ⟨first, mem, defines⟩
          exact ⟨first, mem_cons_of_mem x mem, defines⟩
      have kept := defining o wantedBefore
      have current : (replay.write location x.definition.pred v).current o = replay.current o := by
        simp [write, same]
      refine ⟨?_, ?_, ?_⟩
      · intro bit held
        rw [current, ← kept.stack bit held]
        cases location with
        | stack own =>
          have ne : bit ≠ own := by
            rintro rfl
            exact same (computed.located.separate held known)
          simp [write, setBit, ne]
        | register _ => rfl
        | always => rfl
      · intro r slot held isEvicted isSlot
        rw [current, ← kept.slot r slot held isEvicted isSlot]
        cases location with
        | stack own =>
          have inRange := lt_length got
          have above := ((computed.placing inRange).slots o slot isSlot).1
          have below := (computed.located.stack known).2
          have ne : slot ≠ own := by omega
          simp [write, setBit, ne]
        | register _ => rfl
        | always => rfl
      · intro r held stays
        rw [current, ← kept.register r held stays]
        cases location with
        | register own =>
          have otherFinish := computed.wanted_finish got here held wantedBefore
          have started := wanted.started
          have ne : r ≠ own := by
            rintro rfl
            exact same (computed.apart held known ⟨started, otherFinish⟩ ⟨by omega, by omega⟩)
          simp [write, setReg, ne]
        | stack _ => rfl
        | always => rfl

/-- All definitions that leave a node find the predicates into which they merge. -/
theorem define_all (got : scope.sites[i]? = some site)
    (defined : ∀ x ∈ placed, some x.definition.pred ≠ scope.alwaysTrue) (here : ∀ x ∈ todo, x ∈ placed ∧ x.position = i)
    (increasing : todo.Pairwise fun earlier later => earlier.index < later.index)
    (defining : Defining scope locs states i todo replay) :
    Safe (todo.map (defAction scope alloc)) replay (Defining scope locs states i []) := by
  induction todo generalizing replay with
  | nil => exact defining
  | cons x todo ih =>
    obtain ⟨first, rest⟩ := pairwise_cons.mp increasing
    have notAlways := defined x (here x (.head _)).1
    obtain ⟨met, defines⟩ := computed.define_step got here first notAlways defining
    refine ⟨met, ?_⟩
    intro next moves
    have written : ∃ v, next = replay.write (alloc.defLoc x.definition.pred) x.definition.pred v := by
      unfold defAction at moves
      split at moves <;> exact moves
    obtain ⟨v, rfl⟩ := written
    exact ih (fun o mem => here o (mem_cons_of_mem x mem)) rest (defines v)

theorem ready_next (defining : Defining scope locs states i [] replay) : Ready scope locs states (i + 1) replay := by
  intro pred started needed
  refine defining pred ⟨?_, by simp, .inr needed⟩
  obtain ⟨e, next, _⟩ := needed
  have parity := computed.collected.start_odd (mem_of_nextFrom next)
  omega

/-- What the node at a position does. -/
def siteActions (scope : ScopeEvents) (placed : List PlacedDef) (alloc : ScopeAllocation)
    (preserve : ScopeId → NumberSet) (site : NodeSite) (pred : PredId) (i : Nat) : List Replay.Action :=
  (match site.node with
    | .block _ => alloc.entryActions scope.header site.block ++
        if some pred = scope.alwaysTrue then [] else [alloc.readAction site.block pred]
    | .subscope loop => (if some pred = scope.alwaysTrue then [] else [alloc.loopReadAction site.block pred]) ++
        [.inner (preserve loop) alloc.stackEnd]) ++
  (ScopeEvents.defsAt placed i).map (defAction scope alloc)

/-- One node reads current values only and leaves the next node ready. -/
theorem site_safe (got : scope.sites[i]? = some site) (guards : site.pred = some pred)
    (defined : ∀ x ∈ placed, some x.definition.pred ≠ scope.alwaysTrue) {preserve : ScopeId → NumberSet}
    (preserves : ∀ loop, site.node = .subscope loop → ∀ holder ∈ holders, holder.start ≤ 2 * i + 1 →
      2 * i + 1 < holder.finish → holder.reg ∈ (preserve loop).members) (ready : Ready scope locs states i replay) :
    Safe (siteActions scope placed alloc preserve site pred i) replay (Ready scope locs states (i + 1)) := by
  have definitions (s : State ν) (defining : Defining scope locs states i (defsAt placed i) s) :
      Safe ((defsAt placed i).map (defAction scope alloc)) s (Ready scope locs states (i + 1)) := by
    have increasing := (placeDefs_increasing computed.collected.located).filter fun x => decide (x.position = i)
    refine (computed.define_all got defined ?_ increasing defining).mono fun _ => computed.ready_next
    exact fun x mem => mem_defsAt.mp mem
  refine safe_append.mpr ?_
  cases node : site.node with
  | block b => exact (computed.guard_block got node guards ready).mono definitions
  | subscope loop => exact (computed.guard_loop got node guards (preserves loop node) ready).mono definitions

end Computed

end SinglePath
