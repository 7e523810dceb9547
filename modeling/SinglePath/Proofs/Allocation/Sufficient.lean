import SinglePath.Proofs.Allocation.Assigned
import SinglePath.Proofs.ScopeTree.Walked

namespace SinglePath

open List Nat ScopeEvents Table

open ScopeEvents (Collected)

variable {scope : ScopeEvents} {ctx : ScopeContext} {tree : ScopeTree} {id : ScopeId} {body : Scope}
  {placed : List PlacedDef} {i r : Nat} {site : NodeSite} {pred : PredId} {b : BlockId}
  {e : Event} {failure : AllocFailure}

section

variable {ε α σ : Type}

/-- A fold over items with their positions ends well if each step keeps what holds at its position. -/
theorem foldlM_zipIdx_ok {step : σ → α × Nat → Except ε σ} {items : List α} {first : Nat} {start : σ}
    (Holds : Nat → σ → Prop) (initially : Holds first start) (each : ∀ k x s, items[k]? = some x → Holds (first + k) s →
      ∃ next, step s (x, first + k) = .ok next ∧ Holds (first + k + 1) next) :
    ∃ final, (items.zipIdx first).foldlM step start = .ok final ∧ Holds (first + items.length) final := by
  induction items generalizing first start with
  | nil => exact ⟨start, rfl, initially⟩
  | cons x rest ih =>
    obtain ⟨next, stepped, holds⟩ := each 0 x start rfl initially
    have later (k : Nat) (o : α) (s : σ) (got : rest[k]? = some o) (known : Holds (first + 1 + k) s) :
        ∃ next, step s (o, first + 1 + k) = .ok next ∧ Holds (first + 1 + k + 1) next := by
      have same : first + 1 + k = first + (k + 1) := by omega
      rw [same] at known ⊢
      exact each (k + 1) o s (by simpa using got) known
    obtain ⟨final, folded, ends⟩ := ih holds later
    refine ⟨final, ?_, ?_⟩
    · exact (congrArg (· >>= _) stepped).trans folded
    · rw [length_cons, show first + (rest.length + 1) = first + 1 + rest.length by omega]
      exact ends

end

namespace LinearScan

variable {pool : List Nat}

theorem choose_idle (isSome : pool ≠ []) (preferred : Option Nat) (isHeader : Bool) :
    ∃ r, choose pool preferred isHeader [] = some r := by
  obtain ⟨first, rest, rfl⟩ := exists_cons_of_ne_nil isSome
  cases preferred with
  | none => exact ⟨first, rfl⟩
  | some r =>
    by_cases taken : (isHeader && (first :: rest).contains r && isFree [] r) = true
    · exact ⟨r, if_pos taken⟩
    · exact ⟨first, if_neg taken⟩

theorem step_idle (isSome : pool ≠ []) (regs : Table PredId (Option Nat)) (pred : PredId) :
    ∃ next, step scope ctx pool ⟨[], regs⟩ pred = .ok next := by
  obtain ⟨r, chosen⟩ := choose_idle isSome ctx.preferred (pred = scope.headerPred)
  unfold step
  simp only [filter_nil]
  rw [chosen]
  exact ⟨_, rfl⟩

theorem step_ok {s : State} (notHeader : pred ≠ scope.headerPred) : ∃ next, step scope ctx pool s pred = .ok next := by
  unfold step
  simp only [notHeader, decide_false]
  split
  · exact ⟨_, rfl⟩
  · simp only [if_false]
    split
    · split <;> exact ⟨_, rfl⟩
    · exact ⟨_, rfl⟩

theorem run_ok (nodup : scope.events.keys.Nodup) (isSome : pool ≠ []) : ∃ regs, run scope ctx pool = .ok regs := by
  have others (s : State) : ∃ final, (sortByKey scope.start (scope.events.keys.filter (· ≠ scope.headerPred))).foldlM
      (step scope ctx pool) s = .ok final ∧ True := by
    refine foldlM_ok (fun _ => True) trivial fun s _ pred mem => ?_
    have notHeader : pred ≠ scope.headerPred := by
      simpa using (mem_filter.mp ((sortByKey_perm _ _).mem_iff.mp mem)).2
    obtain ⟨next, stepped⟩ : ∃ next, step scope ctx pool s pred = .ok next := step_ok notHeader
    exact ⟨next, stepped, trivial⟩
  -- The header is met first, while nothing is live, and at most once.
  have headers : ∃ s, (scope.events.keys.filter (· = scope.headerPred)).foldlM (step scope ctx pool)
      ⟨[], empty⟩ = .ok s := by
    have allSame : scope.events.keys.filter (· = scope.headerPred) =
        replicate (scope.events.keys.filter (· = scope.headerPred)).length scope.headerPred :=
      eq_replicate_of_mem fun pred mem => by simpa using (mem_filter.mp mem).2
    have once : (scope.events.keys.filter (· = scope.headerPred)).length ≤ 1 := by
      have isNodup := nodup.filter (· = scope.headerPred)
      rw [allSame] at isNodup
      exact nodup_replicate.mp isNodup
    obtain isNone | isOne : (scope.events.keys.filter (· = scope.headerPred)).length = 0 ∨
        (scope.events.keys.filter (· = scope.headerPred)).length = 1 := by omega
    · rw [allSame, isNone]
      exact ⟨_, rfl⟩
    · obtain ⟨next, stepped⟩ : ∃ next, step scope ctx pool ⟨[], empty⟩ scope.headerPred = .ok next :=
        step_idle isSome empty scope.headerPred
      rw [allSame, isOne]
      exact ⟨next, by simp [foldlM, stepped]⟩
  obtain ⟨s, folded⟩ := headers
  obtain ⟨final, foldedLater, _⟩ := others s
  refine ⟨final.regs, ?_⟩
  unfold run order
  rw [foldlM_append, folded, ok_bind, foldedLater, ok_bind]
  rfl

end LinearScan

/-- What a scope must be like for one register to suffice. At a block the other predicates get at most a full
definition; a definition that keeps the old value is the first event of its predicate; and a predicate that an inner
loop reads is not read again. -/
structure ScopeEvents.Undisturbed (scope : ScopeEvents) : Prop where
  blocks : ∀ {i : Nat} {site : NodeSite} {b : BlockId} {pred : PredId} {e : Event},
    scope.sites[i]? = some site → site.node = .block b → site.pred ≠ some pred →
    e ∈ scope.eventsOf pred → e.point = 2 * i ∨ e.point = 2 * i + 1 →
    e = ⟨2 * i + 1, .define true⟩
  keeping : ∀ {pred : PredId} {e : Event}, e ∈ scope.eventsOf pred → e.kind = .define false →
    e.point = scope.start pred
  loops : ∀ {pred : PredId} {e : Event} {header : BlockId}, e ∈ scope.eventsOf pred →
    e.kind = .use (.loop header) → scope.isLastEvent pred e = true

theorem ScopeEvents.exists_last (mem : e ∈ scope.eventsOf pred) :
    ∃ last ∈ scope.eventsOf pred, scope.finish pred = last.point + 1 := by
  have isSome : scope.eventsOf pred ≠ [] := ne_nil_of_mem mem
  refine ⟨(scope.eventsOf pred).getLast isSome, getLast_mem isSome, ?_⟩
  simp [finish, getLast?_eq_some_getLast isSome]

theorem ScopeEvents.Collected.event_at_start (collected : Collected tree id body placed scope)
    (mem : e ∈ scope.eventsOf pred) (starts : scope.start pred = 2 * i + 1) :
    ∃ first ∈ scope.eventsOf pred, first.point = 2 * i + 1 := by
  have notHeader : pred ≠ scope.headerPred := by
    rintro rfl
    rw [start_header] at starts
    omega
  obtain ⟨first, isPlaced, rfl, _, isStart⟩ := collected.start_eq notHeader mem
  obtain ⟨site, got, _⟩ := collected.site_of_def isPlaced
  have notAlways := (collected.mem_eventsOf.mp mem).1
  exact ⟨_, event_of_def collected got isPlaced notAlways, by simp; omega⟩

/-- What has an event at a block that is guarded by another predicate is dead before the block. -/
theorem ScopeEvents.Undisturbed.isDeadAt (undisturbed : scope.Undisturbed)
    (collected : Collected tree id body placed scope)
    (got : scope.sites[i]? = some site) (isBlock : site.node = .block b)
    (ne : site.pred ≠ some pred) (mem : e ∈ scope.eventsOf pred)
    (here : e.point = 2 * i ∨ e.point = 2 * i + 1) : scope.isDeadAt pred i = true := by
  obtain ⟨next, follows⟩ : ∃ next, scope.nextFrom pred (2 * i) = some next := nextFrom_exists mem (by omega)
  have notLater := collected.nextFrom_le follows mem (by omega)
  have notEarlier := le_of_nextFrom follows
  have nextListed := mem_of_nextFrom follows
  rw [isDeadAt_iff, follows, undisturbed.blocks got isBlock ne nextListed (by omega)]

namespace Placement

variable {locs : Table PredId Location} {holders : List Holder} {firstStackLoc firstFree bit : Nat}
  {s next earlier : State}

/-- An evicted predicate is live already. -/
def Begun (scope : ScopeEvents) (i : Nat) (s : State) : Prop :=
  ∀ eviction ∈ s.evictions, scope.start eviction.pred ≤ 2 * i

theorem NodeStep.begun (located : Located scope locs holders firstStackLoc firstFree)
    (stepped : NodeStep scope ctx locs holders site i s next) (begun : Begun scope i s) : Begun scope (i + 1) next := by
  have kept : Begun scope (i + 1) (s.at i) := fun eviction mem =>
    Nat.le_trans (begun eviction (mem_filter.mp mem).1) (by omega)
  cases stepped with
  | idle => exact kept
  | register => exact kept
  | borrow => exact kept
  | bit => exact kept
  | evict pred bit b victim holder reads held isBlock mem chosen =>
    intro eviction evicted
    rw [recordEviction_evictions] at evicted
    rcases mem_append.mp evicted with earlier | isNew
    · exact kept eviction earlier
    · obtain ⟨e, evictable⟩ := candidate_evictable chosen
      obtain rfl := mem_singleton.mp isNew
      have starts := (located.held.mp mem).2.1
      rw [evictable.same, ← starts]
      exact le_of_lt_succ (Nat.lt_of_lt_of_le evictable.live.1 (by omega))

theorem reloadFor_isSome (undisturbed : scope.Undisturbed) (mem : e ∈ scope.eventsOf pred)
    (later : scope.start pred < e.point) : ∃ reload, reloadFor scope pred e = some reload := by
  unfold reloadFor
  split
  · exact ⟨_, rfl⟩
  · next header isLoop =>
      rw [if_pos (undisturbed.loops mem isLoop)]
      exact ⟨_, rfl⟩
  · exact ⟨_, rfl⟩
  · exact ⟨_, rfl⟩
  · next keeps => exact absurd (undisturbed.keeping mem keeps) (Nat.ne_of_gt later)

theorem best_isSome {candidates : List Candidate} (isSome : candidates ≠ []) :
    ∃ best, Candidate.best candidates = some best := by
  have kept {step : Option Candidate → Candidate → Option Candidate}
      (steps : ∀ got x, ∃ best, step (some got) x = some best) (items : List Candidate) (got : Candidate) :
      ∃ best, items.foldl step (some got) = some best := by
    induction items generalizing got with
    | nil => exact ⟨got, rfl⟩
    | cons x rest ih =>
      obtain ⟨best, isBest⟩ := steps got x
      rw [foldl_cons, isBest]
      exact ih best
  obtain ⟨first, rest, rfl⟩ := exists_cons_of_ne_nil isSome
  refine kept (fun got x => ?_) rest first
  dsimp only
  split
  · exact ⟨x, rfl⟩
  · exact ⟨got, rfl⟩

/-- A register that is not free at a node has a holder there with a value that is needed. -/
theorem exists_holder {evictions : List Eviction} (taken : isFreeAt scope holders evictions i r = false) :
    ∃ holder ∈ holders, holder.reg = r ∧ holder.overlaps (2 * i) (2 * i + 2) = true ∧
      scope.isDeadAt holder.pred i = false ∧
      ∀ eviction ∈ evictions, eviction.reg = r → eviction.pred = holder.pred → eviction.till < 2 * i + 2 := by
  obtain ⟨holder, mem, blocks⟩ := all_eq_false.mp taken
  refine ⟨holder, mem, ?_⟩
  simpa [any_eq_false, and_assoc] using blocks

section

variable (collected : Collected tree id body placed scope) (undisturbed : scope.Undisturbed)
  (located : Located scope locs holders firstStackLoc firstFree) (begun : Begun scope i s)
  (returning : ∀ eviction ∈ s.evictions, ∃ e reload, Returns scope locs i earlier eviction e reload)
  (got : scope.sites[i]? = some site) (isBlock : site.node = .block b) (guards : site.pred = some pred)
  (onStack : locs.get? pred = some (.stack bit))

include collected undisturbed located begun returning got isBlock guards onStack

/-- If a register is not free at a block whose predicate is on the stack, its holder can be evicted. -/
theorem candidate_isSome {holder : Holder} (mem : holder ∈ holders)
    (live : holder.overlaps (2 * i) (2 * i + 2) = true) (alive : scope.isDeadAt holder.pred i = false)
    (present : ∀ eviction ∈ s.evictions, eviction.reg = holder.reg → eviction.pred = holder.pred →
      eviction.till < 2 * i + 2) : ∃ victim, candidate scope s.evictions i holder = some victim := by
  obtain ⟨held, starts, ends⟩ := located.held.mp mem
  obtain ⟨known, knownListed⟩ := located.active held
  have ne : site.pred ≠ some holder.pred := by
    rw [guards]
    intro same
    cases same
    simp [onStack] at held
  have idle (e : Event) (isEvent : e ∈ scope.eventsOf holder.pred) : e.point ≠ 2 * i ∧ e.point ≠ 2 * i + 1 := by
    refine not_or.mp fun here => ?_
    rw [undisturbed.isDeadAt collected got isBlock ne isEvent here] at alive
    exact Bool.noConfusion alive
  simp only [Holder.overlaps, Bool.and_eq_true, decide_eq_true_eq] at live
  -- An eviction from the register is one of this holder, and then the register is free up to the holder's next event.
  have untaken (eviction : Eviction) (evicted : eviction ∈ s.evictions) : eviction.reg ≠ holder.reg := by
    intro sameReg
    obtain ⟨e, reload, returns⟩ := returning eviction evicted
    have isEvent := mem_of_nextFrom returns.follows
    have samePred : eviction.pred = holder.pred := by
      refine Classical.byContradiction fun otherPred => ?_
      have ended := collected.lt_finish isEvent
      have reached := le_of_nextFrom returns.follows
      have started := begun eviction evicted
      have heldToo := returns.held
      rw [sameReg] at heldToo
      rcases located.disjoint heldToo held otherPred with before | after
      · obtain ⟨first, isFirst, p⟩ :=
          collected.event_at_start knownListed (show scope.start holder.pred = 2 * i + 1 by omega)
        exact (idle first isFirst).2 p
      · omega
    rw [samePred] at isEvent
    have isSoon := present eviction evicted sameReg samePred
    have reached := le_of_nextFrom returns.follows
    have ends := returns.ends
    have := idle e isEvent
    omega
  obtain ⟨last, lastListed, finishes⟩ := exists_last knownListed
  have lastIdle := idle last lastListed
  obtain ⟨e, follows⟩ : ∃ e, scope.nextFrom holder.pred (2 * i + 2) = some e :=
    nextFrom_exists lastListed (by omega)
  have eventListed := mem_of_nextFrom follows
  have isLater := le_of_nextFrom follows
  obtain ⟨reload, comes⟩ := reloadFor_isSome undisturbed eventListed (by omega)
  have overlapping : holder.overlaps (2 * i) (2 * i + 2) = true := by
    simp only [Holder.overlaps, Bool.and_eq_true, decide_eq_true_eq]
    exact live
  have quiet : scope.hasEventAt holder.pred i = false := by
    rw [hasEventAt, any_eq_false]
    intro o isOther
    simpa using idle o isOther
  have free : s.evictions.any (·.reg = holder.reg) = false := by
    rw [any_eq_false]
    intro eviction evicted
    simpa using untaken eviction evicted
  have next : scope.nextEventAfter holder.pred (2 * i + 1) = some e := follows
  unfold candidate
  simp only [overlapping, quiet, free, Bool.not_true, Bool.or_false, Bool.false_eq_true, if_false]
  rw [next]
  simp [comes]

/-- With a single register a stack predicate can be read at every block of an undisturbed scope. -/
theorem placeStackUse_ok (single : ctx.pool = [r]) :
    ∃ next, placeStackUse scope ctx holders s i b pred bit = .ok next := by
  unfold placeStackUse
  rw [single]
  cases free : isFreeAt scope holders s.evictions i r with
  | true => simp [free]
  | false =>
    obtain ⟨holder, mem, rfl, live, alive, present⟩ := exists_holder free
    obtain ⟨victim, isCandidate⟩ := candidate_isSome collected undisturbed located begun returning got isBlock guards
      onStack mem live alive present
    have someCandidate : holders.filterMap (candidate scope s.evictions i) ≠ [] :=
      ne_nil_of_mem (mem_filterMap.mpr ⟨holder, mem, isCandidate⟩)
    obtain ⟨best, isBest⟩ := best_isSome someCandidate
    simp [free, isBest]

end

theorem placeStackUse_unheld (i : Nat) (s : State) (b : BlockId) (pred : PredId) (bit : Nat)
    (inPool : r ∈ ctx.pool) (unheld : ∀ holder ∈ holders, holder.reg ≠ r) :
    ∃ next, placeStackUse scope ctx holders s i b pred bit = .ok next := by
  have free : isFreeAt scope holders s.evictions i r = true := by
    rw [isFreeAt, all_eq_true]
    intro holder mem
    simp [unheld holder mem]
  have isSome : (ctx.pool.find? (isFreeAt scope holders s.evictions i)).isSome := find?_isSome.mpr ⟨r, inPool, free⟩
  unfold placeStackUse
  obtain ⟨got, isFound⟩ := Option.isSome_iff_exists.mp isSome
  rw [isFound]
  exact ⟨_, rfl⟩

/-- A node can be placed if the stack predicate of a block can be read. -/
theorem placeNode_ok (readable : ∀ b pred bit, site.node = .block b → site.pred = some pred →
      locs.get? pred = some (.stack bit) →
      ∃ next, placeStackUse scope ctx holders (s.at i) i b pred bit = .ok next) :
    ∃ next, placeNode scope ctx locs holders s (site, i) = .ok next := by
  unfold placeNode
  simp only
  split
  · exact ⟨_, rfl⟩
  · next pred reads =>
      split
      · exact ⟨_, rfl⟩
      · next bit b onStack isBlock =>
          exact readable b pred bit isBlock (Option.filter_eq_some_iff.mp reads).1 onStack
      · exact ⟨_, rfl⟩
      · exact ⟨_, rfl⟩

theorem run_single (collected : Collected tree id body placed scope) (sited : Sited scope placed)
    (undisturbed : scope.Undisturbed) (located : Located scope locs holders firstStackLoc firstFree)
    (single : ctx.pool = [r]) : ∃ final, run scope ctx locs holders firstFree = .ok final := by
  obtain ⟨final, placedAll, _⟩ : ∃ final, (scope.sites.zipIdx 0).foldlM (placeNode scope ctx locs holders)
      { nextStack := firstFree } = .ok final ∧ (Placing scope locs firstFree (0 + scope.sites.length) final ∧
        Begun scope (0 + scope.sites.length) final) := by
    refine foldlM_zipIdx_ok (fun i s => Placing scope locs firstFree i s ∧
      Begun scope i s) ⟨Placing.initial firstFree, by simp [Begun]⟩ ?_
    rintro i site s got ⟨placing, begun⟩
    rw [Nat.zero_add] at placing begun ⊢
    obtain ⟨next, placedNode⟩ : ∃ next, placeNode scope ctx locs holders s (site, i) = .ok next :=
      placeNode_ok fun b pred bit isBlock guards onStack => by
        have isOpen (eviction : Eviction) (mem : eviction ∈ (s.at i).evictions) :
            eviction ∈ s.evictions ∧ 2 * i ≤ eviction.till := by
          simpa [State.at] using mem
        exact placeStackUse_ok collected undisturbed located
          (fun eviction mem => begun eviction (isOpen eviction mem).1)
          (fun eviction mem => placing.evicted eviction (isOpen eviction mem).1 (isOpen eviction mem).2) got isBlock
          guards onStack single
    have stepped := placeNode_step placedNode
    exact ⟨next, placedNode, placing.step collected sited located got stepped, stepped.begun located begun⟩
  exact ⟨final, placedAll⟩

theorem run_unheld (nextStack : Nat) (inPool : r ∈ ctx.pool) (unheld : ∀ holder ∈ holders, holder.reg ≠ r) :
    ∃ final, run scope ctx locs holders nextStack = .ok final := by
  obtain ⟨final, placedAll, _⟩ : ∃ final, scope.sites.zipIdx.foldlM (placeNode scope ctx locs holders)
      { nextStack := nextStack } = .ok final ∧ True := by
    refine foldlM_ok (fun _ => True) trivial fun s _ entry _ => ?_
    obtain ⟨next, placedNode⟩ : ∃ next, placeNode scope ctx locs holders s (entry.1, entry.2) = .ok next :=
      placeNode_ok fun b pred bit _ _ _ => placeStackUse_unheld entry.2 _ b pred bit inPool unheld
    exact ⟨next, placedNode, trivial⟩
  exact ⟨final, placedAll⟩

theorem run_error {nextStack : Nat}
    (stopped : run scope ctx locs holders nextStack = .error failure) : failure = .noCandidate := by
  obtain ⟨s, _, ⟨site, i⟩, _, stoppedAt⟩ := foldlM_error (fun _ => True) trivial (fun _ _ _ _ _ _ => trivial) stopped
  unfold placeNode at stoppedAt
  simp only at stoppedAt
  split at stoppedAt
  · simp at stoppedAt
  · split at stoppedAt
    · simp at stoppedAt
    · unfold placeStackUse at stoppedAt
      split at stoppedAt
      · simp at stoppedAt
      · split at stoppedAt
        · exact (Except.error.inj stoppedAt).symm
        · simp at stoppedAt
    · simp at stoppedAt
    · simp at stoppedAt

end Placement

namespace ScopeResult

/-- A scope is allocated if its predicates are scanned and its nodes placed. -/
theorem compute_ok {reserve : Bool} {regs : Table PredId (Option Nat)} {final : Placement.State}
    (scanned : LinearScan.run scope ctx (LinearScan.poolFor ctx reserve) = .ok regs)
    (placedAll : Placement.run scope ctx ⟨LinearScan.numberStack ctx.firstStackLoc regs.entries⟩
      (LinearScan.holders scope regs) (ctx.firstStackLoc + LinearScan.stackCount regs) = .ok final) :
    ∃ res, compute scope ctx reserve = .ok res := by
  unfold compute
  rw [scanned, ok_bind]
  simp only
  rw [placedAll, ok_bind]
  exact ⟨_, rfl⟩

theorem compute_error (nodup : scope.events.keys.Nodup) (isSome : ctx.pool ≠ [])
    (stopped : compute scope ctx false = .error failure) : failure = .noCandidate := by
  obtain ⟨regs, scanned⟩ : ∃ regs, LinearScan.run scope ctx ctx.pool = .ok regs := LinearScan.run_ok nodup isSome
  cases placedAll : Placement.run scope ctx ⟨LinearScan.numberStack ctx.firstStackLoc regs.entries⟩
      (LinearScan.holders scope regs) (ctx.firstStackLoc + LinearScan.stackCount regs) with
  | ok final =>
    obtain ⟨res, comp⟩ := compute_ok (show LinearScan.run scope ctx
      (LinearScan.poolFor ctx false) = .ok regs from scanned) placedAll
    rw [comp] at stopped
    cases stopped
  | error got =>
    obtain rfl := Placement.run_error placedAll
    unfold compute at stopped
    rw [show LinearScan.run scope ctx (LinearScan.poolFor ctx false) = .ok regs from scanned, ok_bind] at stopped
    simp only at stopped
    rw [placedAll, error_bind] at stopped
    exact (Except.error.inj stopped).symm

variable (collected : Collected tree id body placed scope)

include collected

theorem compute_single (sited : Sited scope placed) (undisturbed : scope.Undisturbed)
    (single : ctx.pool = [r]) : ∃ res, compute scope ctx false = .ok res := by
  obtain ⟨regs, scanned⟩ : ∃ regs, LinearScan.run scope ctx (LinearScan.poolFor ctx false) = .ok regs :=
    LinearScan.run_ok (LinearScan.nodup_keys collected) (by simp [LinearScan.poolFor, single])
  obtain ⟨final, placedAll⟩ := Placement.run_single collected sited undisturbed
    (located_of_run collected scanned) single
  exact compute_ok scanned placedAll

theorem compute_reserved (once : ctx.pool.Nodup)
    (several : 1 < ctx.pool.length) : ∃ res, compute scope ctx true = .ok res := by
  have isSome : ctx.pool ≠ [] := by
    rintro isNone
    simp [isNone] at several
  obtain ⟨aside, isAside, inPool⟩ : ∃ r, LinearScan.reserved ctx = some r ∧ r ∈ ctx.pool := by
    unfold LinearScan.reserved
    split
    · next r got => exact ⟨r, rfl, mem_reverse.mp (mem_of_find?_eq_some got)⟩
    · exact ⟨ctx.pool.getLast isSome, getLast?_eq_some_getLast isSome, getLast_mem isSome⟩
  have left : LinearScan.poolFor ctx true = ctx.pool.filter (· ≠ aside) := by
    simp [LinearScan.poolFor, isAside]
  have leftSome : LinearScan.poolFor ctx true ≠ [] := by
    intro isNone
    rw [left, filter_eq_nil_iff] at isNone
    have allSame : ctx.pool = replicate ctx.pool.length aside :=
      eq_replicate_of_mem fun r mem => by simpa using isNone r mem
    rw [allSame] at once
    have := nodup_replicate.mp once
    omega
  obtain ⟨regs, scanned⟩ : ∃ regs, LinearScan.run scope ctx (LinearScan.poolFor ctx true) = .ok regs :=
    LinearScan.run_ok (LinearScan.nodup_keys collected) leftSome
  have separated := LinearScan.run_separated (LinearScan.nodup_keys collected) scanned
  have unheld (holder : Holder) (mem : holder ∈ LinearScan.holders scope regs) : holder.reg ≠ aside := by
    have inLeft := separated.pooled holder.pred holder.reg ((LinearScan.mem_holders separated).mp mem).1
    rw [left] at inLeft
    simpa using (mem_filter.mp inLeft).2
  obtain ⟨final, placedAll⟩ : ∃ final, Placement.run scope ctx
      ⟨LinearScan.numberStack ctx.firstStackLoc regs.entries⟩ (LinearScan.holders scope regs)
      (ctx.firstStackLoc + LinearScan.stackCount regs) = .ok final :=
    Placement.run_unheld _ inPool unheld
  exact compute_ok scanned placedAll

/-- A scope is allocated, or has one register and is not undisturbed. -/
theorem allocate_cases (sited : Sited scope placed) (once : ctx.pool.Nodup) (isSome : ctx.pool ≠ []) :
    (∃ res, allocate scope ctx = .ok res) ∨
      ctx.pool.length = 1 ∧ ¬ scope.Undisturbed ∧ allocate scope ctx = refuse (.registerPressure scope.scope) := by
  unfold allocate
  cases comp : compute scope ctx false with
  | ok res => exact .inl ⟨res, rfl⟩
  | error failure =>
    obtain rfl := compute_error (LinearScan.nodup_keys collected) isSome comp
    by_cases several : 1 < ctx.pool.length
    · obtain ⟨res, computedToo⟩ := compute_reserved collected once several
      simp only [several, if_true]
      rw [computedToo]
      exact .inl ⟨res, rfl⟩
    · have single : ctx.pool.length = 1 := Nat.le_antisymm (Nat.le_of_not_lt several) (length_pos_iff.mpr isSome)
      refine .inr ⟨single, fun undisturbed => ?_, if_neg several⟩
      obtain ⟨r, isPool⟩ := length_eq_one_iff.mp single
      obtain ⟨res, computedToo⟩ := compute_single collected sited undisturbed isPool
      rw [comp] at computedToo
      cases computedToo

end ScopeResult

namespace ScopeTree

variable {f : Func} {entered seen : List ScopeId} {members : Table BlockId ScopeId} {registers : Nat}
  {s : Assignment}

/-- Each scope comes after the scope around it, which is among those seen before. -/
def ParentsFirst (tree : ScopeTree) : List ScopeId → List ScopeId → Prop
  | _, [] => True
  | seen, id :: rest =>
    (∃ parent ∈ seen, ∃ body, tree.get parent = .ok body ∧ id ∈ body.subscopes) ∧
      ParentsFirst tree (id :: seen) rest

theorem parentsFirst_append {first second : List ScopeId} : ParentsFirst tree seen (first ++ second) ↔
      ParentsFirst tree seen first ∧ ParentsFirst tree (first.reverse ++ seen) second := by
  induction first generalizing seen with
  | nil => simp [ParentsFirst]
  | cons id rest ih => simp [ParentsFirst, ih, and_assoc]

/-- A walk enters the inner loops of a scope after the scope. -/
theorem Walks.parentsFirst {nodes : List ScopeNode} {es : List WalkEvent} (walks : Walks tree nodes es)
    (inside : ∀ loop, .subscope loop ∈ nodes → ∃ parent ∈ seen, ∃ body,
      tree.get parent = .ok body ∧ loop ∈ body.subscopes) :
    ParentsFirst tree seen (es.filterMap WalkEvent.entered) := by
  induction walks generalizing seen with
  | nil => trivial
  | block _ ih =>
    exact ih fun loop mem => inside loop (.tail _ mem)
  | @loop id body rest within es got inner later innerIh laterIh =>
    rw [cons_append, entered_enter, filterMap_append, entered_exit]
    refine ⟨inside id (.head _), parentsFirst_append.mpr ⟨?_, ?_⟩⟩
    · exact innerIh fun loop mem =>
        ⟨id, .head _, body, got, Scope.mem_subscopes.mpr mem⟩
    · refine laterIh fun loop mem => ?_
      obtain ⟨parent, isSeen, known⟩ := inside loop (.tail _ mem)
      exact ⟨parent, mem_append_right _ (.tail _ isSeen), known⟩

/-- The walk of a valid tree enters the root first and each other scope after the scope around it. -/
theorem Valid.parentsFirst (valid : Valid tree f entered members) :
    ∃ rest, entered = root :: rest ∧ ParentsFirst tree [root] rest := by
  obtain ⟨es, _, isEntered, walks⟩ := valid.walked
  cases walks with
  | @loop _ body _ within later got inner later =>
    cases later
    refine ⟨within.filterMap WalkEvent.entered, ?_, ?_⟩
    · rw [← isEntered, cons_append, entered_enter, filterMap_append]
      simp
    · exact inner.parentsFirst fun loop mem =>
        ⟨root, .head _, body, got, Scope.mem_subscopes.mpr mem⟩

theorem Inherits.pool_perm (inherits : Inherits tree registers id ctx) : ctx.pool.Perm (range registers) := by
  cases inherits with
  | outermost => exact .refl _
  | inner inherits got collected allocated mem =>
    exact perm_append_comm.trans (filter_append_perm _ _)

/-- The scopes seen so far are allocated, and their inner loops have inherited. -/
structure Ready (tree : ScopeTree) (registers : Nat) (seen : List ScopeId) (s : Assignment) : Prop where
  sound : Sound tree registers s
  allocs : ∀ {id : ScopeId}, id ∈ seen → ∃ alloc, s.allocs.get? id = some alloc
  contexts : ∀ {id parent : ScopeId} {body : Scope}, id ∉ seen → parent ∈ seen → tree.get parent = .ok body →
    id ∈ body.subscopes → ∃ ctx, s.contexts.get? id = some ctx

theorem get?_foldl_children (loops : List ScopeId) (inherit : ScopeId → ScopeContext)
    (contexts : Table ScopeId ScopeContext) (id : ScopeId) :
    (loops.foldl (fun contexts child => contexts.insert child (inherit child)) contexts).get? id =
      if id ∈ loops then some (inherit id) else contexts.get? id := by
  induction loops generalizing contexts with
  | nil => simp
  | cons loop rest ih =>
    rw [foldl_cons, ih]
    by_cases isLater : id ∈ rest
    · simp [isLater]
    · by_cases isFirst : id = loop
      · simp [isFirst]
      · simp [isLater, isFirst]

/-- There is one register, and a scope that is not undisturbed is refused for lack of another one. -/
def Pressed {α : Type} (tree : ScopeTree) (registers : Nat) (outcome : Outcome α) : Prop :=
  registers = 1 ∧ ∃ id es, ofScope tree id = .ok es ∧ ¬ es.Undisturbed ∧ outcome = refuse (.registerPressure id)

theorem Pressed.bind {α β : Type} {outcome : Outcome α} (pressed : Pressed tree registers outcome)
    (rest : α → Outcome β) :
    Pressed tree registers (outcome >>= rest) := by
  obtain ⟨isOne, id, es, comp, disturbed, rfl⟩ := pressed
  exact ⟨isOne, id, es, comp, disturbed, rfl⟩

/-- A scope that has inherited is allocated. -/
theorem Ready.step (valid : Valid tree f entered members) (several : 0 < registers)
    (ready : Ready tree registers seen s) (got : tree.get id = .ok body)
    (fresh : id ∉ seen) (inherited : s.contexts.get? id = some ctx) {es : ScopeEvents}
    (comp : ofScope tree id = .ok es) :
    (∃ next, tree.allocateScope registers s id = .ok next ∧ Ready tree registers (id :: seen) next) ∨
      Pressed tree registers (tree.allocateScope registers s id) := by
  obtain ⟨content', placed, collected⟩ := ofScope_collected comp
  have pooled := (ready.sound.contexts inherited).pool_perm
  have isSome : ctx.pool ≠ [] := by
    intro isNone
    have := pooled.length_eq
    simp [isNone] at this
    omega
  rcases ScopeResult.allocate_cases collected (sited_of_valid valid collected) (pooled.nodup_iff.mpr nodup_range)
    isSome with ⟨res, allocated⟩ | ⟨isOne, disturbed, refused⟩
  case inr =>
    refine .inr ⟨by simpa [pooled.length_eq] using isOne, id, es, comp, disturbed, ?_⟩
    unfold allocateScope
    simp only [inherited, pure_bind, comp, ok_bind, refused, collected.named]
    rfl
  have stepped : tree.allocateScope registers s id = .ok ⟨s.allocs.insert id res.alloc, body.subscopes.foldl
        (fun contexts child => contexts.insert child (res.childContext es ctx registers child))
        (s.contexts.erase id)⟩ := by
    unfold allocateScope
    simp only [inherited, pure_bind, comp, ok_bind, allocated, got, liftM_ok]
    rfl
  refine .inl ⟨_, stepped, ready.sound.step stepped, ?_, ?_⟩
  · intro o mem
    by_cases same : o = id
    · simp [same]
    · obtain ⟨alloc, known⟩ := ready.allocs ((mem_cons.mp mem).resolve_left same)
      exact ⟨alloc, by simp [same, known]⟩
  · intro o parent outer unseen isSeen outerFound mem
    simp only [mem_cons, not_or] at unseen
    rw [get?_foldl_children]
    by_cases isChild : o ∈ body.subscopes
    · exact ⟨_, if_pos isChild⟩
    · have notHere : parent ≠ id := by
        rintro rfl
        obtain rfl := ok_unique got outerFound
        exact isChild mem
      obtain ⟨known, isKnown⟩ := ready.contexts unseen.2 ((mem_cons.mp isSeen).resolve_left notHere) outerFound mem
      exact ⟨known, by rw [if_neg isChild, get?_erase, if_neg unseen.1, isKnown]⟩

/-- Scopes that come after the scopes around them are allocated one after the other. -/
theorem Ready.run (valid : Valid tree f entered members) (several : 0 < registers)
    (each : ∀ id body, tree.get id = .ok body → ∃ es, ofScope tree id = .ok es)
    {rest : List ScopeId} (ready : Ready tree registers seen s) (ordered : ParentsFirst tree seen rest)
    (once : rest.Nodup) (fresh : ∀ id ∈ rest, id ∉ seen) (known : ∀ id ∈ rest, ∃ body, tree.get id = .ok body) :
    (∃ final, rest.foldlM (tree.allocateScope registers) s = .ok final ∧
      Ready tree registers (rest.reverse ++ seen) final) ∨
      Pressed tree registers (rest.foldlM (tree.allocateScope registers) s) := by
  induction rest generalizing seen s with
  | nil => exact .inl ⟨s, rfl, ready⟩
  | cons id later ih =>
    obtain ⟨⟨parent, isSeen, outer, outerFound, mem⟩, orderedLater⟩ := ordered
    obtain ⟨body, got⟩ := known id (.head _)
    obtain ⟨ctx, inherited⟩ := ready.contexts (fresh id (.head _)) isSeen outerFound mem
    obtain ⟨es, comp⟩ := each id body got
    rw [foldlM_cons]
    rcases ready.step valid several got (fresh id (.head _)) inherited comp with
      ⟨next, stepped, readyNext⟩ | pressed
    · have onceLater := nodup_cons.mp once
      rw [stepped, ok_bind]
      refine (ih readyNext orderedLater onceLater.2 (fun o isLater => ?_) (forall_mem_cons.mp known).2).imp_left ?_
      · rw [mem_cons, not_or]
        exact ⟨fun same => onceLater.1 (same ▸ isLater), fresh o (.tail _ isLater)⟩
      · simp
    · exact .inr (pressed.bind _)

theorem gather_ok {allocs : Table ScopeId ScopeAllocation} {indices : List Nat}
    (each : ∀ index ∈ indices, ∃ alloc, allocs.get? ⟨index⟩ = some alloc) :
    ∃ gathered, gather allocs indices = .ok gathered := by
  induction indices with
  | nil => exact ⟨[], rfl⟩
  | cons index rest ih =>
    obtain ⟨alloc, isAlloc⟩ := each index (.head _)
    obtain ⟨later, gathered⟩ := ih (forall_mem_cons.mp each).2
    refine ⟨alloc :: later, ?_⟩
    rw [gather, isAlloc]
    simp only
    rw [gathered, ok_bind]
    rfl

/-- The tree is allocated, or there is only one register. -/
theorem allocate_cases (valid : Valid tree f entered members) (several : 0 < registers)
    (each : ∀ id body, tree.get id = .ok body → ∃ es, ofScope tree id = .ok es) :
    (∃ allocs, tree.allocate registers = .ok allocs) ∨ Pressed tree registers (tree.allocate registers) := by
  obtain ⟨rest, isEntered, ordered⟩ := valid.parentsFirst
  obtain ⟨top, topFound, _, _⟩ := valid.top
  obtain ⟨es, comp⟩ := each root top topFound
  have initially : Ready tree registers [] ⟨empty, empty.insert root (rootContext registers)⟩ := by
    refine ⟨⟨?_, ?_⟩, ?_, ?_⟩
    · intro id ctx isContext
      rw [get?_insert] at isContext
      split at isContext
      · next isRoot =>
          cases isContext
          exact isRoot ▸ .outermost
      · simp at isContext
    · intro id alloc isAlloc
      simp at isAlloc
    · simp
    · simp
  have once := valid.once
  rw [isEntered] at once
  have onceLater := nodup_cons.mp once
  have folded : (∃ final, entered.foldlM (tree.allocateScope registers)
      ⟨empty, empty.insert root (rootContext registers)⟩ =
      .ok final ∧ Ready tree registers (rest.reverse ++ [root]) final) ∨
      Pressed tree registers (entered.foldlM (tree.allocateScope registers)
        ⟨empty, empty.insert root (rootContext registers)⟩) := by
    rw [isEntered, foldlM_cons]
    rcases initially.step valid several topFound (by simp) ((get?_insert _ _ _ _).trans (if_pos rfl)) comp with
      ⟨first, stepped, ready⟩ | pressed
    · rw [stepped, ok_bind]
      refine ready.run valid several each ordered onceLater.2 (fun id mem => ?_)
        fun id mem => valid.found (isEntered ▸ mem_cons_of_mem root mem)
      rw [mem_singleton]
      rintro rfl
      exact onceLater.1 mem
    · exact .inr (pressed.bind _)
  unfold allocate
  rw [valid.order, liftM_ok, ok_bind]
  rcases folded with ⟨final, folded, ready⟩ | pressed
  · have covered (index : Nat) (inside : index ∈ range tree.scopes.length) :
        ∃ alloc, final.allocs.get? ⟨index⟩ = some alloc := by
      obtain ⟨body, got⟩ : ∃ body, tree.get ⟨index⟩ = .ok body :=
        ⟨tree.scopes.get ⟨index, mem_range.mp inside⟩, get_eq_ok.mpr (by simp)⟩
      have mem := valid.covered got
      rw [isEntered] at mem
      exact ready.allocs (by simpa [or_comm] using mem)
    obtain ⟨gathered, isGathered⟩ := gather_ok covered
    exact .inl ⟨gathered, (congrArg (· >>= _) folded).trans isGathered⟩
  · exact .inr (pressed.bind _)

/-- Every accepted tree whose events are all defined is allocated to two or more registers. One register may not do: the
allocation is then refused for a scope that is not undisturbed, and for no other reason. -/
theorem allocate_of_events {tree : ScopeTree} {func : Func} {facts : ScopeFacts} {registers : Nat}
    (validated : tree.validate func = .ok facts)
    (computed : ∀ id content, tree.get id = .ok content → ∃ events, ofScope tree id = .ok events)
    (isSome : 0 < registers) :
    (∃ allocs, tree.allocate registers = .ok allocs) ∨
      registers = 1 ∧ ∃ id events, ofScope tree id = .ok events ∧ ¬ events.Undisturbed ∧
        tree.allocate registers = refuse (.registerPressure id) := by
  obtain ⟨entered, valid⟩ := validate_valid validated
  exact allocate_cases valid isSome computed

/-- A region whose guard is read again by an inner loop, after a block under another predicate. -/
def crowded : ScopeTree where
  scopes := [⟨none, 0, ⟨0⟩, [.block ⟨0⟩, .block ⟨1⟩, .subscope ⟨1⟩], [⟨⟨1⟩, ⟨0⟩, ⟨0⟩, ⟨1⟩, some (.holds ⟨1⟩)⟩], none⟩,
    ⟨some root, 1, ⟨2⟩, [.block ⟨2⟩], [], none⟩]
  blockPreds := Table.ofList [(⟨0⟩, ⟨0⟩), (⟨1⟩, ⟨1⟩), (⟨2⟩, ⟨0⟩)]
  predCount := 2
  wholeFunction := false

def crowdedFunc : Func where
  name := "crowded"
  blocks := [{ name := "entry", succs := [⟨1⟩, ⟨2⟩] }, { name := "guarded", succs := [⟨2⟩], preds := [⟨0⟩] },
    { name := "loop", insts := [.plain (.ret ⟨1⟩)], preds := [⟨0⟩, ⟨1⟩] }]
  layout := [⟨0⟩, ⟨1⟩, ⟨2⟩]

theorem allocate_crowded :
    (crowded.validate crowdedFunc).isOk ∧ (∀ id content, crowded.get id = .ok content →
      ∃ events, ofScope crowded id = .ok events) ∧
      ∃ allocs, crowded.allocate 2 = .ok allocs := by
  have computed (id : ScopeId) (content : Scope) (found : crowded.get id = .ok content) :
      ∃ events, ofScope crowded id = .ok events := by
    obtain ⟨_ | _ | index⟩ := id
    · exact ⟨_, rfl⟩
    · exact ⟨_, rfl⟩
    · cases found
  have validated : crowded.validate crowdedFunc = .ok _ := rfl
  refine ⟨rfl, computed, (allocate_of_events validated computed Nat.two_pos).resolve_right fun pressed => ?_⟩
  exact absurd pressed.1 (by decide)

/-- One register is too few for it. -/
theorem allocate_crowded_refused :
    (crowded.validate crowdedFunc).isOk ∧ (ofScope crowded root).isOk ∧ (ofScope crowded ⟨1⟩).isOk ∧
      crowded.allocate 1 = refuse (.registerPressure root) := ⟨rfl, rfl, rfl, rfl⟩

end ScopeTree

end SinglePath
