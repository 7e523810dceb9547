import SinglePath.Allocation.Placement
import SinglePath.Proofs.Allocation.Scan

namespace SinglePath

open BlockLocs List Nat NodeSite Option ScopeEvents Table

open ScopeEvents (Collected Occurs)

variable {tree : ScopeTree} {id : ScopeId} {body : Scope} {placed : List PlacedDef} {scope : ScopeEvents}
  {pred : PredId} {i : Nat} {site : NodeSite}

/-- The sites of a scope: each stands for a block of its own, the header comes first, and the definitions that leave a
node are guarded by the predicate of the node. -/
structure Sited (scope : ScopeEvents) (placed : List PlacedDef) : Prop where
  distinct : ∀ {first second : Nat} {site o : NodeSite}, scope.sites[first]? = some site →
    scope.sites[second]? = some o → site.block = o.block → first = second
  named : ∀ {i : Nat} {site : NodeSite} {id : BlockId}, scope.sites[i]? = some site →
    site.node = .block id → site.block = id
  header : ∃ site, scope.sites[0]? = some site ∧ site.node = .block scope.header ∧
    site.pred = some scope.headerPred
  guard : ∀ {x : PlacedDef} {site : NodeSite}, x ∈ placed → scope.sites[x.position]? = some site →
    site.pred = some x.definition.guard

/-- Where the predicates of a scope live: in the register of a holder, or in a stack bit below the first free one. -/
structure Located (scope : ScopeEvents) (locs : Table PredId Location) (holders : List Holder)
    (firstStackLoc firstFree : Nat) : Prop where
  held : ∀ {holder : Holder}, holder ∈ holders ↔ locs.get? holder.pred = some (.register holder.reg) ∧
    holder.start = scope.start holder.pred ∧ holder.finish = scope.finish holder.pred
  known : ∀ {pred : PredId} {e : Event}, e ∈ scope.eventsOf pred →
    ∃ location, locs.get? pred = some location ∧ location ≠ .always
  active : ∀ {pred : PredId} {location : Location}, locs.get? pred = some location →
    ∃ e, e ∈ scope.eventsOf pred
  disjoint : ∀ {first second : PredId} {r : Nat}, locs.get? first = some (.register r) →
    locs.get? second = some (.register r) → first ≠ second →
    scope.finish first ≤ scope.start second ∨ scope.finish second ≤ scope.start first
  stack : ∀ {pred : PredId} {bit : Nat}, locs.get? pred = some (.stack bit) →
    firstStackLoc ≤ bit ∧ bit < firstFree
  separate : ∀ {first second : PredId} {bit : Nat}, locs.get? first = some (.stack bit) →
    locs.get? second = some (.stack bit) → first = second
  header : some scope.headerPred ≠ scope.alwaysTrue → ∃ r, locs.get? scope.headerPred = some (.register r)

/-- The node reads a predicate that is not always true. -/
def Reads (scope : ScopeEvents) (site : NodeSite) (pred : PredId) : Prop :=
  site.pred = some pred ∧ some pred ≠ scope.alwaysTrue

theorem Reads.only {o : PredId} (guards : site.pred = some pred) (reads : Reads scope site o) :
    pred = o ∧ some pred ≠ scope.alwaysTrue := by
  obtain rfl := mem_unique guards reads.1
  exact ⟨rfl, reads.2⟩

section

variable (coll : Collected tree id body placed scope)

include coll

theorem Reads.event (got : scope.sites[i]? = some site)
    (reads : Reads scope site pred) : ⟨2 * i, .use site.useSite⟩ ∈ scope.eventsOf pred :=
  coll.mem_eventsOf.mpr ⟨reads.2, .use i site got reads.1⟩

theorem reads_of_event {e : Event} (got : scope.sites[i]? = some site) (mem : e ∈ scope.eventsOf pred)
    (here : e.point = 2 * i) : Reads scope site pred ∧ e.kind = .use site.useSite := by
  obtain ⟨notAlways, occurs⟩ := coll.mem_eventsOf.mp mem
  have inRange := lt_length got
  cases occurs with
  | use o otherSite otherFound guards =>
    have same : o = i := by simp only at here; omega
    subst same
    obtain rfl := mem_unique otherFound got
    exact ⟨⟨guards, notAlways⟩, rfl⟩
  | guard site b x => simp only at here; omega
  | define site x => simp only at here; omega
  | backEdge => simp only at here; omega

/-- The next event of a predicate that a node reads is the read. -/
theorem Reads.next {e : Event} (got : scope.sites[i]? = some site) (reads : Reads scope site pred)
    (next : scope.nextFrom pred (2 * i) = some e) : e.point = 2 * i ∧ e.kind = .use site.useSite := by
  have notLater := coll.nextFrom_le next (reads.event coll got) (Nat.le_refl _)
  have here := Nat.le_antisymm notLater (le_of_nextFrom next)
  exact ⟨here, (reads_of_event coll got (mem_of_nextFrom next) here).2⟩

/-- Which node reads a predicate next, seen from the start of a node. -/
theorem next_use (sited : Sited scope placed) {e : Event} {useSite : UseSite}
    (next : scope.nextFrom pred (2 * i) = some e) (isUse : e.kind = .use useSite) :
    (∃ later site, scope.sites[later]? = some site ∧ Reads scope site pred ∧ e.point = 2 * later ∧
      useSite = site.useSite) ∨
    (useSite = .backEdge ∧ pred = scope.headerPred ∧ e.point = 2 * scope.sites.length) := by
  have mem := mem_of_nextFrom next
  obtain ⟨notAlways, occurs⟩ := coll.mem_eventsOf.mp mem
  cases occurs with
  | use later site got guards =>
    exact .inl ⟨later, site, got, ⟨guards, notAlways⟩, rfl, by simpa using isUse.symm⟩
  | guard site b x got isBlock itemListed guards =>
    -- the predicate that guards a definition is read at the start of the node, which is earlier
    have reads : Reads scope site pred := ⟨guards ▸ sited.guard itemListed got, notAlways⟩
    have after := le_of_nextFrom next
    have notLater := coll.nextFrom_le next (reads.event coll got) (by simp only at after ⊢; omega)
    simp only at notLater
    omega
  | define => simp at isUse
  | backEdge isHeader => exact .inr ⟨by simpa using isUse.symm, isHeader, rfl⟩

/-- A definition at the second point of a node leaves the node. -/
theorem def_of_event {e : Event} {full : Bool} (got : scope.sites[i]? = some site) (mem : e ∈ scope.eventsOf pred)
    (here : e.point = 2 * i + 1) (defines : e.kind = .define full) :
    ∃ x ∈ placed, x.position = i ∧ x.definition.pred = pred ∧ full = isFull scope.firstDefs site x := by
  obtain ⟨notAlways, occurs⟩ := coll.mem_eventsOf.mp mem
  cases occurs with
  | use | guard | backEdge => simp at defines
  | define otherSite x itemFound itemListed itemPred =>
    have same : x.position = i := by simp only at here; omega
    rw [same] at itemFound
    obtain rfl := mem_unique itemFound got
    exact ⟨x, itemListed, same, itemPred, by simpa using defines.symm⟩

theorem event_of_def {x : PlacedDef} (got : scope.sites[x.position]? = some site)
    (mem : x ∈ placed) (notAlways : some x.definition.pred ≠ scope.alwaysTrue) :
    ⟨2 * x.position + 1, .define (isFull scope.firstDefs site x)⟩ ∈
      scope.eventsOf x.definition.pred :=
  coll.mem_eventsOf.mpr ⟨notAlways, .define site x got mem rfl⟩

end

theorem Sited.header_block (sited : Sited scope placed) {later : Nat}
    (got : scope.sites[later]? = some site) : site.block = scope.header ↔ later = 0 := by
  obtain ⟨headerSite, headerFound, isBlock, _⟩ := sited.header
  have headerBlock := sited.named headerFound isBlock
  constructor
  · intro same
    exact sited.distinct got headerFound (same.trans headerBlock.symm)
  · rintro rfl
    obtain rfl := mem_unique headerFound got
    exact headerBlock

namespace Placement

variable {ctx : ScopeContext} {locs : Table PredId Location} {holders : List Holder} {s next : State}
  {b back : BlockId} {victim : Candidate} {holder : Holder}

/-- Evictions that end before the node are over. -/
def State.at (s : State) (i : Nat) : State :=
  { s with evictions := s.evictions.filter (2 * i ≤ ·.till) }

/-- A block's stack predicate is read from the register. -/
def State.read (s : State) (b : BlockId) (pred : PredId) (r bit : Nat) : State :=
  { s with
    useLocs := s.useLocs.record b pred r
    loadLocs := s.loadLocs.record b pred bit }

/-- What placing one node can do. -/
inductive NodeStep (scope : ScopeEvents) (ctx : ScopeContext) (locs : Table PredId Location)
    (holders : List Holder) (site : NodeSite) (i : Nat) (s : State) : State → Prop where
  /-- The node reads no predicate with a place. -/
  | idle (unread : ∀ pred, Reads scope site pred → locs.get? pred = none ∨ locs.get? pred = some .always) :
      NodeStep scope ctx locs holders site i s (s.at i)
  /-- The predicate is read from its own register. -/
  | register (pred : PredId) (r : Nat) (reads : Reads scope site pred)
      (held : locs.get? pred = some (.register r)) :
      NodeStep scope ctx locs holders site i s
        { s.at i with useLocs := s.useLocs.record site.block pred r }
  /-- The predicate is loaded into a register that is free. -/
  | borrow (pred : PredId) (bit : Nat) (b : BlockId) (r : Nat) (reads : Reads scope site pred)
      (held : locs.get? pred = some (.stack bit)) (isBlock : site.node = .block b) (inPool : r ∈ ctx.pool)
      (free : isFreeAt scope holders (s.at i).evictions i r = true) :
      NodeStep scope ctx locs holders site i s
        { (s.at i).read b pred r bit with borrowed := s.borrowed ++ [r] }
  /-- The predicate is loaded into the register of a holder that is evicted. -/
  | evict (pred : PredId) (bit : Nat) (b : BlockId) (victim : Candidate) (holder : Holder)
      (reads : Reads scope site pred) (held : locs.get? pred = some (.stack bit)) (isBlock : site.node = .block b)
      (mem : holder ∈ holders) (chosen : candidate scope (s.at i).evictions i holder = some victim) :
      NodeStep scope ctx locs holders site i s
        (recordEviction ((s.at i).read b pred victim.holder.reg bit) b pred victim)
  /-- The predicate of an inner loop is read from its stack bit. -/
  | bit (pred : PredId) (bit : Nat) (loop : ScopeId) (reads : Reads scope site pred)
      (held : locs.get? pred = some (.stack bit)) (isLoop : site.node = .subscope loop) :
      NodeStep scope ctx locs holders site i s
        { s.at i with loadLocs := s.loadLocs.record site.block pred bit }

theorem mem_of_best {candidates : List Candidate} {best : Candidate} (got : Candidate.best candidates = some best) :
    best ∈ candidates := by
  have kept {step : Option Candidate → Candidate → Option Candidate}
      (steps : ∀ start x, step start x = some best → start = some best ∨ x = best) (items : List Candidate)
      (start : Option Candidate) (got : items.foldl step start = some best) : start = some best ∨ best ∈ items := by
    induction items generalizing start with
    | nil => exact .inl got
    | cons first rest ih =>
      rcases ih _ got with here | later
      · rcases steps _ _ here with old | rfl
        · exact .inl old
        · exact .inr (.head _)
      · exact .inr (mem_cons_of_mem first later)
  refine (kept (fun start x isBest => ?_) candidates none got).resolve_left (by simp)
  cases start with
  | none => exact .inr (some.inj isBest)
  | some old =>
    dsimp only at isBest
    split at isBest
    · exact .inr (some.inj isBest)
    · exact .inl isBest

theorem placeNode_step (stepped : placeNode scope ctx locs holders s (site, i) = .ok next) :
    NodeStep scope ctx locs holders site i s next := by
  unfold placeNode at stepped
  simp only at stepped
  have reads_iff (pred : PredId) :
      site.pred.filter (fun pred => decide (some pred ≠ scope.alwaysTrue)) = some pred ↔ Reads scope site pred := by
    simp [Reads, filter_eq_some_iff]
  split at stepped
  · next unread =>
      cases stepped
      refine .idle ?_
      intro pred reads
      rw [← reads_iff, unread] at reads
      simp at reads
  · next pred got =>
      have reads := (reads_iff pred).mp got
      split at stepped
      · next r held =>
          cases stepped
          exact .register pred r reads held
      · next bit b held isBlock =>
          unfold placeStackUse at stepped
          split at stepped
          · next r free =>
              cases stepped
              exact .borrow pred bit b r reads held isBlock (mem_of_find?_eq_some free) (find?_some free)
          · split at stepped
            · simp at stepped
            · next victim best =>
                cases stepped
                obtain ⟨holder, mem, chosen⟩ := mem_filterMap.mp (mem_of_best best)
                exact .evict pred bit b victim holder reads held isBlock mem chosen
      · next bit loop held isLoop =>
          cases stepped
          exact .bit pred bit loop reads held isLoop
      · next notRegister notBlock notLoop =>
          cases stepped
          refine .idle ?_
          intro o readsOther
          obtain rfl := mem_unique reads.1 readsOther.1
          cases place : locs.get? pred with
          | none => exact .inl rfl
          | some location =>
            cases location with
            | register r => exact absurd place (notRegister r)
            | always => exact .inr rfl
            | stack bit =>
              cases node : site.node with
              | block b => exact absurd node (notBlock bit b place)
              | subscope loop => exact absurd node (notLoop bit loop place)

/-- Why a holder can be evicted: it is live and idle at the node, its register is not taken, and its next event lets it
come back. -/
structure Evictable (scope : ScopeEvents) (evictions : List Eviction) (i : Nat) (holder : Holder)
    (victim : Candidate) (e : Event) : Prop where
  same : victim.holder = holder
  live : holder.start < 2 * i + 2 ∧ 2 * i < holder.finish
  idle : ∀ o ∈ scope.eventsOf holder.pred, o.point ≠ 2 * i ∧ o.point ≠ 2 * i + 1
  untaken : ∀ eviction ∈ evictions, eviction.reg ≠ holder.reg
  follows : scope.nextFrom holder.pred (2 * i + 2) = some e
  point : victim.point = e.point
  reload : reloadFor scope holder.pred e = some victim.reload

theorem candidate_evictable {evictions : List Eviction} (chosen : candidate scope evictions i holder = some victim) :
    ∃ next, Evictable scope evictions i holder victim next := by
  unfold candidate at chosen
  split at chosen
  · simp at chosen
  · next usable =>
      simp only [Bool.or_eq_true, not_or, Bool.not_eq_true', Bool.not_eq_false, Bool.not_eq_true,
        List.any_eq_false, decide_eq_true_eq] at usable
      obtain ⟨⟨overlaps, idle⟩, untaken⟩ := usable
      simp only [bind_eq_bind, bind_eq_some_iff, Option.pure_def] at chosen
      obtain ⟨next, got, reload, comesBack, res⟩ := chosen
      cases res
      refine ⟨next, rfl, ?_, ?_, untaken, ?_, rfl, comesBack⟩
      · simpa [Holder.overlaps] using overlaps
      · intro e mem
        have apart := any_eq_false.mp idle e mem
        simpa using apart
      · exact got

@[simp] theorem recordEviction_evictions :
    (recordEviction s b pred victim).evictions =
      s.evictions ++ [⟨victim.holder.reg, victim.holder.pred, victim.point⟩] := by
  unfold recordEviction slotFor
  cases victim.reload with
  | never => rfl
  | before back => cases s.slots.get? victim.holder.pred <;> rfl

@[simp] theorem recordEviction_useLocs : (recordEviction s b pred victim).useLocs = s.useLocs := by
  unfold recordEviction slotFor
  cases victim.reload with
  | never => rfl
  | before back => cases s.slots.get? victim.holder.pred <;> rfl

theorem recordEviction_never (lost : victim.reload = .never) : recordEviction s b pred victim =
      { s with evictions := s.evictions ++ [⟨victim.holder.reg, victim.holder.pred, victim.point⟩] } := by
  unfold recordEviction
  rw [lost]

/-- A victim that comes back is saved to its stack bit and loaded from there. -/
theorem recordEviction_before (s : State) (b : BlockId) (pred : PredId)
    (comesBack : victim.reload = .before back) : (recordEviction s b pred victim).spillLocs =
        s.spillLocs.record b pred (slotFor s victim.holder.pred).1 ∧
      (recordEviction s b pred victim).loadLocs =
        s.loadLocs.record back victim.holder.pred (slotFor s victim.holder.pred).1 ∧
      (recordEviction s b pred victim).slots = (slotFor s victim.holder.pred).2.slots ∧
      (recordEviction s b pred victim).nextStack = (slotFor s victim.holder.pred).2.nextStack := by
  unfold recordEviction slotFor
  rw [comesBack]
  cases s.slots.get? victim.holder.pred <;> exact ⟨rfl, rfl, rfl, rfl⟩

/-- The slot of a predicate is its old one or the next free bit. -/
theorem slotFor_cases (s : State) (pred : PredId) :
    (s.slots.get? pred = some (slotFor s pred).1 ∧ (slotFor s pred).2.slots = s.slots ∧
        (slotFor s pred).2.nextStack = s.nextStack) ∨
      (s.slots.get? pred = none ∧ (slotFor s pred).1 = s.nextStack ∧
        (slotFor s pred).2.slots = s.slots.insert pred s.nextStack ∧
        (slotFor s pred).2.nextStack = s.nextStack + 1) := by
  unfold slotFor
  cases s.slots.get? pred with
  | some slot => exact .inl ⟨rfl, rfl, rfl⟩
  | none => exact .inr ⟨rfl, rfl, rfl, rfl⟩

/-- An open eviction ends at the next event of its predicate, and a predicate that comes back there is loaded from its
slot. -/
structure Returns (scope : ScopeEvents) (locs : Table PredId Location) (i : Nat) (s : State)
    (eviction : Eviction) (e : Event) (reload : Reload) : Prop where
  held : locs.get? eviction.pred = some (.register eviction.reg)
  follows : scope.nextFrom eviction.pred (2 * i) = some e
  ends : e.point = eviction.till
  comes : reloadFor scope eviction.pred e = some reload
  loaded : ∀ back, reload = .before back → ∃ slot, s.slots.get? eviction.pred = some slot ∧
    (eviction.pred, slot) ∈ s.loadLocs.entriesAt back

/-- The slots are numbered from the first free bit on, each for one predicate. -/
structure Slotted (firstFree : Nat) (table : Table PredId Nat) (nextStack : Nat) : Prop where
  slots : ∀ pred slot, table.get? pred = some slot → firstFree ≤ slot ∧ slot < nextStack
  slotsApart : ∀ first second slot, table.get? first = some slot → table.get? second = some slot → first = second
  bound : firstFree ≤ nextStack

/-- What is known before the node at a position is placed. -/
structure Placing (scope : ScopeEvents) (locs : Table PredId Location) (firstFree i : Nat) (s : State) : Prop
    extends Slotted firstFree s.slots s.nextStack where
  evicted : ∀ eviction ∈ s.evictions, 2 * i ≤ eviction.till →
    ∃ e reload, Returns scope locs i s eviction e reload
  separate : ∀ first ∈ s.evictions, ∀ second ∈ s.evictions, 2 * i ≤ first.till →
    2 * i ≤ second.till → first.reg = second.reg → first = second
  fresh : ∀ later site, i ≤ later → scope.sites[later]? = some site →
    s.useLocs.entriesAt site.block = [] ∧ s.spillLocs.entriesAt site.block = []
  loads : ∀ later site, i ≤ later → scope.sites[later]? = some site →
    ∀ pred bit, (pred, bit) ∈ s.loadLocs.entriesAt site.block →
      Reads scope site pred ∧ s.slots.get? pred = some bit ∧
        ∃ eviction ∈ s.evictions, eviction.pred = pred ∧ eviction.till = 2 * later
  headerLoads : ∀ pred bit, (pred, bit) ∈ s.loadLocs.entriesAt scope.header →
    pred = scope.headerPred ∧ s.slots.get? pred = some bit ∧
      ∃ eviction ∈ s.evictions, eviction.pred = pred ∧ eviction.till = 2 * scope.sites.length

variable {firstStackLoc firstFree earlier : Nat} {eviction : Eviction} {earlierSite : NodeSite}

theorem Slotted.initial (firstFree : Nat) : Slotted firstFree .empty firstFree := ⟨by simp, by simp, Nat.le_refl _⟩

theorem Placing.initial (firstFree : Nat) : Placing scope locs firstFree 0 { nextStack := firstFree } where
  toSlotted := .initial firstFree
  evicted := by simp
  separate := by simp
  fresh := fun _ _ _ _ => ⟨rfl, rfl⟩
  loads := by simp [entriesAt]
  headerLoads := by simp [entriesAt]

theorem mem_entriesAt_record {locs : BlockLocs} {o : BlockId} {place : Nat}
    {entry : PredId × Nat} (mem : entry ∈ locs.entriesAt o) : entry ∈ (locs.record b pred place).entriesAt o := by
  rw [entriesAt_record]
  split
  · next here => exact mem_append_left _ (here.1 ▸ mem)
  · exact mem

/-- A node that evicts nothing keeps the open evictions, and records entries at its own block only. -/
theorem Placing.advance (sited : Sited scope placed) (placing : Placing scope locs firstFree i s)
    (got : scope.sites[i]? = some site) (evictions : next.evictions = (s.at i).evictions) (slots : next.slots = s.slots)
    (nextStack : next.nextStack = s.nextStack)
    (uses : ∀ b, b ≠ site.block → next.useLocs.entriesAt b = s.useLocs.entriesAt b)
    (spills : ∀ b, b ≠ site.block → next.spillLocs.entriesAt b = s.spillLocs.entriesAt b)
    (loads : ∀ b, b ≠ site.block → next.loadLocs.entriesAt b = s.loadLocs.entriesAt b)
    (grows : ∀ b entry, entry ∈ s.loadLocs.entriesAt b → entry ∈ next.loadLocs.entriesAt b)
    (headerLoads : next.loadLocs.entriesAt scope.header = s.loadLocs.entriesAt scope.header) :
    Placing scope locs firstFree (i + 1) next := by
  have inRange := lt_length got
  have stays (eviction : Eviction) (mem : eviction ∈ next.evictions) : eviction ∈ s.evictions := by
    rw [evictions] at mem
    exact (mem_filter.mp mem).1
  have remains (eviction : Eviction) (mem : eviction ∈ s.evictions) (isOpen : 2 * i ≤ eviction.till) :
      eviction ∈ next.evictions := by
    rw [evictions]
    exact mem_filter.mpr ⟨mem, by simpa using isOpen⟩
  have otherBlock (later : Nat) (laterSite : NodeSite) (after : i + 1 ≤ later)
      (laterFound : scope.sites[later]? = some laterSite) : laterSite.block ≠ site.block := by
    intro same
    have equal := sited.distinct laterFound got same
    omega
  refine ⟨slots ▸ nextStack ▸ placing.toSlotted, ?_, ?_, ?_, ?_, ?_⟩
  · intro eviction mem isOpen
    obtain ⟨e, reload, returns⟩ := placing.evicted eviction (stays eviction mem) (by omega)
    have ends := returns.ends
    refine ⟨e, reload, returns.held, ?_, ends, returns.comes, ?_⟩
    · exact nextFrom_later returns.follows (by omega) (by omega)
    · intro back comesBack
      obtain ⟨slot, known, loaded⟩ := returns.loaded back comesBack
      exact ⟨slot, slots ▸ known, grows back _ loaded⟩
  · intro first mem second listedToo firstOpen secondOpen
    exact placing.separate first (stays first mem) second (stays second listedToo) (by omega) (by omega)
  · intro later laterSite after laterFound
    have ne := otherBlock later laterSite after laterFound
    rw [uses _ ne, spills _ ne]
    exact placing.fresh later laterSite (by omega) laterFound
  · intro later laterSite after laterFound pred bit mem
    rw [loads _ (otherBlock later laterSite after laterFound)] at mem
    obtain ⟨reads, known, eviction, isEvicted, isPred, till⟩ :=
      placing.loads later laterSite (by omega) laterFound pred bit mem
    exact ⟨reads, slots ▸ known, eviction, remains eviction isEvicted (by omega), isPred, till⟩
  · intro pred bit mem
    rw [headerLoads] at mem
    obtain ⟨isHeader, known, eviction, isEvicted, isPred, till⟩ := placing.headerLoads pred bit mem
    exact ⟨isHeader, slots ▸ known, eviction, remains eviction isEvicted (by omega), isPred, till⟩

/-- Where an evicted predicate comes back: at a later node that reads it, or at the edge back. -/
theorem reload_site (coll : Collected tree id body placed scope) (sited : Sited scope placed)
    {e : Event} (follows : scope.nextFrom pred (2 * i) = some e)
    (comes : reloadFor scope pred e = some (.before back)) :
    (∃ later site, scope.sites[later]? = some site ∧ Reads scope site pred ∧ e.point = 2 * later ∧
      back = site.block) ∨ (back = scope.header ∧ pred = scope.headerPred ∧ e.point = 2 * scope.sites.length ∧
      scope.isTopLevel = false) := by
  unfold reloadFor at comes
  split at comes
  · next b kind =>
      have same : b = back := by simpa using comes
      rcases next_use coll sited follows kind with ⟨later, site, got, reads, here, useSite⟩ | ⟨useSite, _⟩
      · refine .inl ⟨later, site, got, reads, here, ?_⟩
        cases node : site.node with
        | block own =>
          have own_eq : b = own := by simpa [NodeSite.useSite, node] using useSite
          rw [sited.named got node, ← own_eq, same]
        | subscope loop => simp [NodeSite.useSite, node] at useSite
      · simp at useSite
  · next header kind =>
      split at comes
      · have same : header = back := by simpa using comes
        rcases next_use coll sited follows kind with ⟨later, site, got, reads, here, useSite⟩ | ⟨useSite, _⟩
        · refine .inl ⟨later, site, got, reads, here, ?_⟩
          cases node : site.node with
          | block own => simp [NodeSite.useSite, node] at useSite
          | subscope loop =>
            have header_eq : header = site.block := by simpa [NodeSite.useSite, node] using useSite
            rw [← same, header_eq]
        · simp at useSite
      · simp at comes
  · next kind =>
      rcases next_use coll sited follows kind with ⟨later, site, _, _, _, useSite⟩ | ⟨_, isHeader, here⟩
      · cases node : site.node <;> simp [NodeSite.useSite, node] at useSite
      · cases top : scope.isTopLevel with
        | true => simp [top] at comes
        | false => exact .inr ⟨by simpa [top] using comes.symm, isHeader, here, rfl⟩
  · simp at comes
  · simp at comes

theorem slotFor_grows (pred : PredId) {o : PredId} {slot : Nat} (known : s.slots.get? o = some slot) :
    (slotFor s pred).2.slots.get? o = some slot := by
  rcases slotFor_cases s pred with ⟨_, slots, _⟩ | ⟨fresh, _, slots, _⟩
  · rw [slots]
    exact known
  · have ne : o ≠ pred := by
      rintro rfl
      simp [fresh] at known
    rw [slots, get?_insert, if_neg ne]
    exact known

theorem slotFor_own (s : State) (pred : PredId) : (slotFor s pred).2.slots.get? pred = some (slotFor s pred).1 := by
  rcases slotFor_cases s pred with ⟨known, slots, _⟩ | ⟨_, first, slots, _⟩
  · rw [slots]
    exact known
  · rw [slots, first, get?_insert, if_pos rfl]

/-- The slots stay in range and apart when one more is handed out. -/
theorem Slotted.withSlot (slotted : Slotted firstFree s.slots s.nextStack) (pred : PredId) :
    Slotted firstFree (slotFor s pred).2.slots (slotFor s pred).2.nextStack := by
  obtain ⟨slots, apart, bound⟩ := slotted
  rcases slotFor_cases s pred with ⟨_, same, nextStack⟩ | ⟨fresh, _, added, nextStack⟩
  · rw [same, nextStack]
    exact ⟨slots, apart, bound⟩
  · rw [added, nextStack]
    refine ⟨?_, ?_, by omega⟩
    · intro o slot known
      rw [get?_insert] at known
      split at known
      · have same : s.nextStack = slot := by simpa using known
        omega
      · have := slots o slot known
        omega
    · intro first second slot known knownToo
      rw [get?_insert] at known knownToo
      split at known
      · next isFirst =>
          split at knownToo
          · next isSecond => rw [isFirst, isSecond]
          · have same : s.nextStack = slot := by simpa using known
            have := slots second slot knownToo
            omega
      · split at knownToo
        · have same : s.nextStack = slot := by simpa using knownToo
          have := slots first slot known
          omega
        · exact apart first second slot known knownToo

/-- One more open eviction, whose predicate is recorded where it comes back. -/
theorem Placing.addEviction (placing : Placing scope locs firstFree i s)
    {e : Event} {reload : Reload} (evictions : next.evictions = s.evictions ++ [eviction])
    (untaken : ∀ o ∈ s.evictions, o.reg ≠ eviction.reg) (returns : Returns scope locs i next eviction e reload)
    (slotsGrow : ∀ pred slot, s.slots.get? pred = some slot → next.slots.get? pred = some slot)
    (loadsGrow : ∀ b entry, entry ∈ s.loadLocs.entriesAt b → entry ∈ next.loadLocs.entriesAt b)
    (slotted : Slotted firstFree next.slots next.nextStack)
    (fresh : ∀ later site, i ≤ later → scope.sites[later]? = some site →
      next.useLocs.entriesAt site.block = [] ∧ next.spillLocs.entriesAt site.block = [])
    (loads : ∀ later site, i ≤ later → scope.sites[later]? = some site →
      ∀ pred bit, (pred, bit) ∈ next.loadLocs.entriesAt site.block → (pred, bit) ∈ s.loadLocs.entriesAt site.block ∨
        Reads scope site pred ∧ next.slots.get? pred = some bit ∧ eviction.pred = pred ∧ eviction.till = 2 * later)
    (headerLoads : ∀ pred bit, (pred, bit) ∈ next.loadLocs.entriesAt scope.header →
      (pred, bit) ∈ s.loadLocs.entriesAt scope.header ∨
        pred = scope.headerPred ∧ next.slots.get? pred = some bit ∧ eviction.pred = pred ∧
          eviction.till = 2 * scope.sites.length) : Placing scope locs firstFree i next := by
  have old (o : Eviction) (mem : o ∈ s.evictions) : o ∈ next.evictions := by
    simp [evictions, mem]
  have new : eviction ∈ next.evictions := by simp [evictions]
  have cases_ (o : Eviction) (mem : o ∈ next.evictions) : o ∈ s.evictions ∨ o = eviction := by
    simpa [evictions] using mem
  refine ⟨slotted, ?_, ?_, fresh, ?_, ?_⟩
  · intro o mem isOpen
    rcases cases_ o mem with wasOpen | rfl
    · obtain ⟨otherEvent, otherReload, otherReturns⟩ := placing.evicted o wasOpen isOpen
      refine ⟨otherEvent, otherReload, otherReturns.held, otherReturns.follows, otherReturns.ends,
        otherReturns.comes, ?_⟩
      intro back comesBack
      obtain ⟨slot, known, loaded⟩ := otherReturns.loaded back comesBack
      exact ⟨slot, slotsGrow _ _ known, loadsGrow back _ loaded⟩
    · exact ⟨e, reload, returns⟩
  · intro first mem second listedToo firstOpen secondOpen sameReg
    rcases cases_ first mem with wasFirst | rfl <;> rcases cases_ second listedToo with wasSecond | rfl
    · exact placing.separate first wasFirst second wasSecond firstOpen secondOpen sameReg
    · exact absurd sameReg (untaken first wasFirst)
    · exact absurd sameReg.symm (untaken second wasSecond)
    · rfl
  · intro later site after got pred bit mem
    rcases loads later site after got pred bit mem with before | ⟨reads, known, isPred, till⟩
    · obtain ⟨reads, known, o, isEvicted, isPred, till⟩ := placing.loads later site after got pred bit before
      exact ⟨reads, slotsGrow _ _ known, o, old o isEvicted, isPred, till⟩
    · exact ⟨reads, known, eviction, new, isPred, till⟩
  · intro pred bit mem
    rcases headerLoads pred bit mem with before | ⟨isHeader, known, isPred, till⟩
    · obtain ⟨isHeader, known, o, isEvicted, isPred, till⟩ := placing.headerLoads pred bit before
      exact ⟨isHeader, slotsGrow _ _ known, o, old o isEvicted, isPred, till⟩
    · exact ⟨isHeader, known, eviction, new, isPred, till⟩

section

variable (coll : Collected tree id body placed scope) (sited : Sited scope placed)
  (located : Located scope locs holders firstStackLoc firstFree)

include coll sited located

/-- Evicting a holder keeps what is known. -/
theorem Placing.evict (placing : Placing scope locs firstFree (i + 1) s) (got : scope.sites[i]? = some site)
    (mem : holder ∈ holders) {e : Event} (evictable : Evictable scope s.evictions i holder victim e) (pred : PredId) :
    Placing scope locs firstFree (i + 1) (recordEviction s site.block pred victim) := by
  obtain ⟨same, _, _, untaken, follows, p, comes⟩ := evictable
  subst same
  have held := (located.held.mp mem).1
  have reached := le_of_nextFrom follows
  have fromNext : scope.nextFrom victim.holder.pred (2 * (i + 1)) = some e := follows
  have otherBlock (later : Nat) (laterSite : NodeSite) (after : i + 1 ≤ later)
      (laterFound : scope.sites[later]? = some laterSite) : laterSite.block ≠ site.block := by
    intro equal
    have := sited.distinct laterFound got equal
    omega
  cases reload : victim.reload with
  | never =>
    rw [recordEviction_never reload]
    rw [reload] at comes
    refine placing.addEviction rfl untaken ⟨held, fromNext, p.symm, comes, by simp⟩
      (fun _ _ known => known) (fun _ _ known => known) placing.toSlotted placing.fresh
      (fun _ _ _ _ _ _ known => .inl known) (fun _ _ known => .inl known)
  | before back =>
    obtain ⟨spills, loads, slots, nextStack⟩ := recordEviction_before s site.block pred reload
    rw [reload] at comes
    have home := reload_site coll sited fromNext comes
    have own := slotFor_own s victim.holder.pred
    -- an entry that is already there is the slot of the predicate
    have recorded (bit : Nat) (entry : (victim.holder.pred, bit) ∈ s.loadLocs.entriesAt back) :
        s.slots.get? victim.holder.pred = some bit := by
      rcases home with ⟨later, laterSite, laterFound, _, here, rfl⟩ | ⟨rfl, _⟩
      · exact (placing.loads later laterSite (by omega) laterFound _ _ entry).2.1
      · exact (placing.headerLoads _ _ entry).2.1
    have added (b : BlockId) (o : PredId) (bit : Nat)
        (entry : (o, bit) ∈ (recordEviction s site.block pred victim).loadLocs.entriesAt b) :
        (o, bit) ∈ s.loadLocs.entriesAt b ∨
          b = back ∧ o = victim.holder.pred ∧ bit = (slotFor s victim.holder.pred).1 := by
      rw [loads, entriesAt_record] at entry
      split at entry
      · next here =>
          rcases mem_append.mp entry with old | new
          · exact .inl (here.1 ▸ old)
          · have equal := mem_singleton.mp new
            exact .inr ⟨here.1, congrArg Prod.fst equal, congrArg Prod.snd equal⟩
      · exact .inl entry
    refine placing.addEviction recordEviction_evictions untaken ⟨held, fromNext, p.symm, comes, ?_⟩
      ?_ ?_ ?_ ?_ ?_ ?_
    · rintro _ ⟨⟩
      refine ⟨_, slots ▸ own, ?_⟩
      rw [loads, entriesAt_record]
      split
      · simp
      · next notNew =>
          have there : victim.holder.pred ∈ (s.loadLocs.entriesAt back).map (·.1) := by
            simpa using notNew
          obtain ⟨⟨_, bit⟩, entry, rfl⟩ := mem_map.mp there
          have grown := slotFor_grows victim.holder.pred (recorded bit entry)
          have equal : bit = (slotFor s victim.holder.pred).1 := mem_unique grown own
          rwa [← equal]
    · intro o slot known
      rw [slots]
      exact slotFor_grows _ known
    · intro b entry known
      rw [loads]
      exact mem_entriesAt_record known
    · rw [slots, nextStack]
      exact placing.withSlot victim.holder.pred
    · intro later laterSite after laterFound
      have ne := otherBlock later laterSite after laterFound
      rw [recordEviction_useLocs, spills, entriesAt_record_of_ne _ ne]
      exact placing.fresh later laterSite after laterFound
    · intro later laterSite after laterFound o bit entry
      refine (added _ o bit entry).imp_right ?_
      rintro ⟨isBack, rfl, rfl⟩
      rcases home with ⟨homeAt, homeSite, homeFound, reads, here, rfl⟩ | ⟨rfl, _⟩
      · obtain rfl := sited.distinct laterFound homeFound isBack
        obtain rfl := mem_unique laterFound homeFound
        exact ⟨reads, slots ▸ own, rfl, p.trans here⟩
      · have := (sited.header_block laterFound).mp isBack
        omega
    · intro o bit entry
      refine (added _ o bit entry).imp_right ?_
      rintro ⟨isBack, rfl, rfl⟩
      rcases home with ⟨homeAt, homeSite, homeFound, reads, here, rfl⟩ | ⟨rfl, isHeader, here, _⟩
      · have := (sited.header_block homeFound).mp isBack.symm
        omega
      · exact ⟨isHeader, slots ▸ own, rfl, p.trans here⟩

/-- Placing one node keeps what is known. -/
theorem Placing.step (placing : Placing scope locs firstFree i s) (got : scope.sites[i]? = some site)
    (stepped : NodeStep scope ctx locs holders site i s next) : Placing scope locs firstFree (i + 1) next := by
  -- the header is read from its register, so a node that reads a stack bit is not the header
  have notHeader (pred : PredId) (bit : Nat) (reads : Reads scope site pred)
      (held : locs.get? pred = some (.stack bit)) : scope.header ≠ site.block := by
    intro same
    have first := (sited.header_block got).mp same.symm
    subst first
    obtain ⟨headerSite, headerFound, _, headerPred⟩ := sited.header
    obtain rfl := mem_unique headerFound got
    obtain rfl := mem_unique headerPred reads.1
    obtain ⟨r, inRegister⟩ := located.header reads.2
    simp [inRegister] at held
  have readNext (pred : PredId) (r bit : Nat) (borrowed : List Nat) (reads : Reads scope site pred)
      (held : locs.get? pred = some (.stack bit)) :
      Placing scope locs firstFree (i + 1) { (s.at i).read site.block pred r bit with borrowed := borrowed } :=
    placing.advance sited got rfl rfl rfl (fun b ne => entriesAt_record_of_ne _ ne pred r) (fun _ _ => rfl)
      (fun b ne => entriesAt_record_of_ne _ ne pred bit)
      (fun _ _ mem => mem_entriesAt_record mem)
      (entriesAt_record_of_ne _ (notHeader pred bit reads held) pred bit)
  cases stepped with
  | idle =>
    exact placing.advance sited got rfl rfl rfl (fun _ _ => rfl) (fun _ _ => rfl) (fun _ _ => rfl)
      (fun _ _ mem => mem) rfl
  | register pred r =>
    exact placing.advance sited got rfl rfl rfl (fun b ne => entriesAt_record_of_ne _ ne pred r) (fun _ _ => rfl)
      (fun _ _ => rfl) (fun _ _ mem => mem) rfl
  | borrow pred bit b r reads held isBlock =>
    rw [← sited.named got isBlock]
    exact readNext pred r bit _ reads held
  | evict pred bit b victim holder reads held isBlock mem chosen =>
    obtain ⟨e, evictable⟩ := candidate_evictable chosen
    rw [← sited.named got isBlock]
    exact (readNext pred victim.holder.reg bit _ reads held).evict coll sited located got mem evictable pred
  | bit pred bit loop reads held =>
    exact placing.advance sited got rfl rfl rfl (fun _ _ => rfl) (fun _ _ => rfl)
      (fun b ne => entriesAt_record_of_ne _ ne pred bit)
      (fun _ _ mem => mem_entriesAt_record mem)
      (entriesAt_record_of_ne _ (notHeader pred bit reads held) pred bit)

end

/-- An eviction was open before the node, or is of a predicate that is idle there. -/
theorem NodeStep.mem_evictions (stepped : NodeStep scope ctx locs holders site i s next)
    (mem : eviction ∈ next.evictions) : (eviction ∈ s.evictions ∧ 2 * i ≤ eviction.till) ∨
      ∀ e ∈ scope.eventsOf eviction.pred, e.point ≠ 2 * i ∧ e.point ≠ 2 * i + 1 := by
  have stays (open_ : eviction ∈ (s.at i).evictions) : eviction ∈ s.evictions ∧ 2 * i ≤ eviction.till := by
    simpa [State.at] using open_
  cases stepped with
  | idle | register | borrow | bit => exact .inl (stays mem)
  | evict pred bit b victim holder reads held isBlock inHolders chosen =>
    obtain ⟨e, evictable⟩ := candidate_evictable chosen
    rw [recordEviction_evictions] at mem
    rcases mem_append.mp mem with old | new
    · exact .inl (stays old)
    · rw [mem_singleton.mp new, evictable.same]
      exact .inr evictable.idle

/-- Each block has at most one entry for each predicate. -/
def Once (locs : BlockLocs) : Prop := ∀ b, ((locs.entriesAt b).map (·.1)).Nodup

theorem Once.record {locs : BlockLocs} (once : Once locs) (b : BlockId) (pred : PredId) (place : Nat) :
    Once (locs.record b pred place) := by
  intro o
  rw [entriesAt_record]
  split
  · next new =>
      rw [map_append, nodup_append]
      refine ⟨once b, by simp, ?_⟩
      intro first mem second listedToo same
      have isPred : second = pred := by simpa using listedToo
      exact new.2 (isPred ▸ same ▸ mem)
  · exact once o

theorem recordEviction_once (once : Once s.loadLocs) : Once (recordEviction s b pred victim).loadLocs := by
  cases reload : victim.reload with
  | never =>
    rw [recordEviction_never reload]
    exact once
  | before back =>
    rw [(recordEviction_before s b pred reload).2.1]
    exact once.record back _ _

theorem NodeStep.once (stepped : NodeStep scope ctx locs holders site i s next)
    (once : Once s.loadLocs) : Once next.loadLocs := by
  cases stepped with
  | idle => exact once
  | register => exact once
  | borrow pred bit b r => exact once.record b pred bit
  | evict pred bit b victim => exact recordEviction_once (once.record b pred bit)
  | bit pred bit => exact once.record site.block pred bit

theorem NodeStep.nextStack_le (stepped : NodeStep scope ctx locs holders site i s next) :
    s.nextStack ≤ next.nextStack := by
  cases stepped with
  | idle | register | borrow | bit => exact Nat.le_refl _
  | evict pred bit b victim =>
    cases reload : victim.reload with
    | never =>
      rw [recordEviction_never reload]
      exact Nat.le_refl _
    | before back =>
      let before := (s.at i).read b pred victim.holder.reg bit
      rw [(recordEviction_before before b pred reload).2.2.2]
      change before.nextStack ≤ _
      rcases slotFor_cases before victim.holder.pred with ⟨_, _, same⟩ | ⟨_, _, _, more⟩ <;> omega

/-- An evicted predicate comes back after the node, or at the header. -/
theorem back_later (coll : Collected tree id body placed scope) (sited : Sited scope placed) {e : Event}
    (follows : scope.nextFrom pred (2 * (i + 1)) = some e)
    (comes : reloadFor scope pred e = some (.before back)) (got : scope.sites[earlier]? = some earlierSite)
    (before : earlier ≤ i) (notHeader : earlier ≠ 0) : earlierSite.block ≠ back := by
  have reached := le_of_nextFrom follows
  rcases reload_site coll sited follows comes with ⟨later, laterSite, laterFound, _, here, rfl⟩ | ⟨rfl, _⟩
  · intro same
    have := sited.distinct got laterFound same
    omega
  · intro same
    exact notHeader ((sited.header_block got).mp same)

/-- The entries of a node other than the header stay as they are when a later node is placed. -/
theorem NodeStep.keeps (coll : Collected tree id body placed scope) (sited : Sited scope placed)
    (got : scope.sites[i]? = some site) (foundEarlier : scope.sites[earlier]? = some earlierSite)
    (before : earlier < i) (stepped : NodeStep scope ctx locs holders site i s next) :
    next.useLocs.entriesAt earlierSite.block = s.useLocs.entriesAt earlierSite.block ∧
      next.spillLocs.entriesAt earlierSite.block = s.spillLocs.entriesAt earlierSite.block ∧
      (earlier ≠ 0 → next.loadLocs.entriesAt earlierSite.block = s.loadLocs.entriesAt earlierSite.block) := by
  have ne : earlierSite.block ≠ site.block := by
    intro same
    have := sited.distinct foundEarlier got same
    omega
  have kept (locs : BlockLocs) (pred : PredId) (place : Nat) :
      (locs.record site.block pred place).entriesAt earlierSite.block = locs.entriesAt earlierSite.block :=
    entriesAt_record_of_ne locs ne pred place
  cases stepped with
  | idle => exact ⟨rfl, rfl, fun _ => rfl⟩
  | register pred r => exact ⟨kept _ _ _, rfl, fun _ => rfl⟩
  | bit pred bit => exact ⟨rfl, rfl, fun _ => kept _ _ _⟩
  | borrow pred bit b r reads held isBlock =>
    rw [← sited.named got isBlock]
    exact ⟨kept _ _ _, rfl, fun _ => kept _ _ _⟩
  | evict pred bit b victim holder reads held isBlock mem chosen =>
    rw [← sited.named got isBlock]
    obtain ⟨e, evictable⟩ := candidate_evictable chosen
    cases reload : victim.reload with
    | never =>
      rw [recordEviction_never reload]
      exact ⟨kept _ _ _, rfl, fun _ => kept _ _ _⟩
    | before back =>
      obtain ⟨spills, loads, _, _⟩ := recordEviction_before
        ((s.at i).read site.block pred victim.holder.reg bit) site.block pred reload
      refine ⟨?_, ?_, ?_⟩
      · rw [recordEviction_useLocs]
        exact kept _ _ _
      · rw [spills]
        exact kept _ _ _
      · intro notHeader
        have comes := evictable.reload
        rw [reload] at comes
        have elsewhere : earlierSite.block ≠ back :=
          back_later coll sited evictable.follows comes foundEarlier (Nat.le_of_lt before) notHeader
        rw [loads, entriesAt_record_of_ne _ elsewhere]
        exact kept _ _ _

end Placement

end SinglePath
