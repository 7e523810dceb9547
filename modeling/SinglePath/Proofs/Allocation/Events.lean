import SinglePath.Allocation.Event
import SinglePath.Proofs.Computation
import SinglePath.Proofs.Tables

namespace SinglePath

open Bool List Nat Option Table

/-- Where the guard of a node is read. -/
def NodeSite.useSite (site : NodeSite) : UseSite :=
  match site.node with
  | .block id => .block id
  | .subscope _ => .loop site.block

namespace ScopeEvents

variable {id : ScopeId} {placed : List PlacedDef} {tree : ScopeTree} {body : Scope} {s : ScopeEvents}
  {x : PlacedDef} {pred : PredId} {e : Event} {pos : Nat}

/-- The definition is the first one of its predicate and leaves a block. -/
def isFull (firstDefs : Table PredId Nat) (site : NodeSite) (placed : PlacedDef) : Bool :=
  match site.node with
  | .block _ => firstDefs.get? placed.definition.pred = some placed.index
  | .subscope _ => false

/-- What is known of the events of a scope of a tree: the content of the scope, the sites of its nodes, and the
definitions with their positions. -/
structure Collected (tree : ScopeTree) (id : ScopeId) (body : Scope) (placed : List PlacedDef)
    (s : ScopeEvents) : Prop where
  found : tree.get id = .ok body
  guarded : tree.blockPred body.header = some s.headerPred
  sited : body.nodes.mapM (siteOf tree) = .ok s.sites
  located : placeDefs id s.sites 0 body.defs = .ok placed
  gathered : s.events = collect s.alwaysTrue
    ((s.sites.zipIdx.flatMap fun entry => nodeEvents s.firstDefs placed entry.1 entry.2) ++
      [(s.headerPred, ⟨2 * s.sites.length, .use .backEdge⟩)])
  defined : checkDefined s.headerPred s.events = .ok ()
  first : s.firstDefs = firstDefsOf (inNodeOrder s.sites.length placed)
  named : s.scope = id
  headed : s.header = body.header
  placedTop : s.isTopLevel = body.isTopLevel
  constant : s.alwaysTrue =
    if body.isTopLevel && tree.wholeFunction then some s.headerPred else none

/-- The events of a scope are collected from its nodes and definitions. -/
theorem ofScope_collected (comp : ofScope tree id = .ok s) : ∃ body placed, Collected tree id body placed s := by
  obtain ⟨body, present, comp⟩ := bind_inv comp
  cases headerPred : tree.blockPred body.header with
  | none =>
    rw [headerPred] at comp
    obtain ⟨_, refused, _⟩ := bind_inv comp
    exact absurd refused refuseTree_ne_ok
  | some pred =>
    rw [headerPred] at comp
    obtain ⟨_, same, comp⟩ := bind_inv comp
    obtain rfl := pure_inv same
    obtain ⟨sites, sited, placed, located, comp⟩ := bind_bind_inv comp
    obtain ⟨_, defined, rfl⟩ := bind_pure_inv comp
    exact ⟨body, placed, liftM_inv present, headerPred, liftM_inv sited, located, rfl, defined,
      rfl, rfl, rfl, rfl, rfl⟩

section

variable {sites : List NodeSite} {first : Nat} {defs : List PredDef}

theorem placeDefs_position (located : placeDefs id sites first defs = .ok placed) (mem : x ∈ placed) :
    ∃ site, sites[x.position]? = some site ∧ site.block = x.definition.source := by
  induction defs generalizing first placed with
  | nil =>
    have same : placed = [] := by simpa [placeDefs] using located.symm
    simp [same] at mem
  | cons defn rest ih =>
    rw [placeDefs] at located
    split at located
    · exact absurd located refuseTree_ne_ok
    · next pos got =>
        obtain ⟨later, remaining, rfl⟩ := bind_pure_inv located
        rcases mem_cons.mp mem with same | deeper
        · obtain ⟨inside, u, _⟩ := findIdx?_eq_some_iff_getElem.mp got
          subst same
          exact ⟨sites[pos], getElem?_eq_getElem inside, by simpa using u⟩
        · exact ih remaining deeper

theorem placeDefs_indexed (located : placeDefs id sites first defs = .ok placed) :
    placed.map (fun x => (x.definition, x.index)) = defs.zipIdx first := by
  induction defs generalizing first placed with
  | nil =>
    have same : placed = [] := by simpa [placeDefs] using located.symm
    simp [same]
  | cons defn rest ih =>
    rw [placeDefs] at located
    split at located
    · exact absurd located refuseTree_ne_ok
    · next pos got =>
        obtain ⟨later, remaining, rfl⟩ := bind_pure_inv located
        rw [map_cons, ih remaining, zipIdx_cons]

theorem zipIdx_pairwise {α : Type} (items : List α) (first : Nat) :
    (items.zipIdx first).Pairwise fun earlier later => earlier.2 < later.2 := by
  rw [← pairwise_map (f := Prod.snd), zipIdx_map_snd]
  exact pairwise_lt_range'

theorem placeDefs_increasing (located : placeDefs id sites first defs = .ok placed) :
    placed.Pairwise fun earlier later => earlier.index < later.index := by
  have indexed := zipIdx_pairwise defs first
  rw [← placeDefs_indexed located] at indexed
  exact (pairwise_map (f := fun x : PlacedDef => (x.definition, x.index))).mp indexed

end

section

/-- All events of a scope with their predicates, in the order of their points. -/
def occurrences (s : ScopeEvents) (placed : List PlacedDef) : List (PredId × Event) :=
  (s.sites.zipIdx.flatMap fun entry => nodeEvents s.firstDefs placed entry.1 entry.2) ++
    [(s.headerPred, ⟨2 * s.sites.length, .use .backEdge⟩)]

/-- Why an event happens to a predicate. -/
inductive Occurs (s : ScopeEvents) (placed : List PlacedDef) (pred : PredId) : Event → Prop where
  | use (pos : Nat) (site : NodeSite) (got : s.sites[pos]? = some site)
      (guards : site.pred = some pred) : Occurs s placed pred ⟨2 * pos, .use site.useSite⟩
  | guard (site : NodeSite) (b : BlockId) (x : PlacedDef) (got : s.sites[x.position]? = some site)
      (isBlock : site.node = .block b) (mem : x ∈ placed) (guards : x.definition.guard = pred) :
      Occurs s placed pred ⟨2 * x.position + 1, .use (.block b)⟩
  | define (site : NodeSite) (x : PlacedDef) (got : s.sites[x.position]? = some site)
      (mem : x ∈ placed) (defines : x.definition.pred = pred) :
      Occurs s placed pred ⟨2 * x.position + 1, .define (isFull s.firstDefs site x)⟩
  | backEdge (isHeader : pred = s.headerPred) :
      Occurs s placed pred ⟨2 * s.sites.length, .use .backEdge⟩

variable {firstDefs : Table PredId Nat} {site : NodeSite}

theorem mem_defsAt : x ∈ defsAt placed pos ↔ x ∈ placed ∧ x.position = pos := by
  simp [defsAt]

/-- The events of one node, one kind after the other. -/
theorem mem_nodeEvents : (pred, e) ∈ nodeEvents firstDefs placed site pos ↔
      (site.pred = some pred ∧ e = ⟨2 * pos, .use site.useSite⟩) ∨
      (∃ b x, site.node = .block b ∧ x ∈ defsAt placed pos ∧ x.definition.guard = pred ∧
        e = ⟨2 * pos + 1, .use (.block b)⟩) ∨
      ∃ x ∈ defsAt placed pos, x.definition.pred = pred ∧ e = ⟨2 * pos + 1, .define (isFull firstDefs site x)⟩ := by
  obtain ⟨node, b, guard⟩ := site
  cases node with
  | block id =>
    simp only [nodeEvents, NodeSite.useSite, isFull, mem_append, List.mem_map, mem_toList,
      Prod.mk.injEq, ScopeNode.block.injEq]
    grind
  | subscope id =>
    simp only [nodeEvents, NodeSite.useSite, isFull, mem_append, List.mem_map, mem_toList, Prod.mk.injEq]
    grind

theorem point_of_mem_nodeEvents {entry : PredId × Event} (mem : entry ∈ nodeEvents firstDefs placed site pos) :
    entry.2.point = 2 * pos ∨ entry.2.point = 2 * pos + 1 := by
  rcases mem_nodeEvents.mp mem with ⟨_, same⟩ | ⟨_, _, _, _, _, same⟩ | ⟨_, _, _, same⟩ <;> simp [same]

/-- The occurrences are those of the uses and definitions. -/
theorem mem_occurrences : (pred, e) ∈ occurrences s placed ↔ Occurs s placed pred e := by
  simp only [occurrences, mem_append, mem_flatMap, mem_singleton, Prod.mk.injEq]
  constructor
  · rintro (⟨⟨site, pos⟩, got, mem⟩ | ⟨isHeader, rfl⟩)
    · have located : s.sites[pos]? = some site := mem_zipIdx_iff_getElem?.mp got
      rcases mem_nodeEvents.mp mem with ⟨guards, rfl⟩ | ⟨b, x, isBlock, placedHere, guards, rfl⟩ |
        ⟨x, placedHere, defines, rfl⟩
      · exact .use pos site located guards
      · obtain ⟨known, rfl⟩ := mem_defsAt.mp placedHere
        exact .guard site b x located isBlock known guards
      · obtain ⟨known, rfl⟩ := mem_defsAt.mp placedHere
        exact .define site x located known defines
    · exact .backEdge isHeader
  · intro occurs
    cases occurs with
    | use pos site got guards =>
      exact .inl ⟨(site, pos), mem_zipIdx_iff_getElem?.mpr got, mem_nodeEvents.mpr (.inl ⟨guards, rfl⟩)⟩
    | guard site b x got isBlock mem guards =>
      exact .inl ⟨(site, x.position), mem_zipIdx_iff_getElem?.mpr got,
        mem_nodeEvents.mpr (.inr (.inl ⟨b, x, isBlock, mem_defsAt.mpr ⟨mem, rfl⟩, guards, rfl⟩))⟩
    | define site x got mem defines =>
      exact .inl ⟨(site, x.position), mem_zipIdx_iff_getElem?.mpr got,
        mem_nodeEvents.mpr (.inr (.inr ⟨x, mem_defsAt.mpr ⟨mem, rfl⟩, defines, rfl⟩))⟩
    | backEdge isHeader => exact .inr ⟨isHeader, rfl⟩

theorem nodeEvents_ordered (firstDefs : Table PredId Nat) (placed : List PlacedDef) (site : NodeSite) (pos : Nat) :
    (nodeEvents firstDefs placed site pos).Pairwise fun earlier later =>
      earlier.2.point ≤ later.2.point := by
  have flat (items : List PlacedDef) : items.Pairwise fun _ _ => True :=
    pairwise_iff_forall_sublist.mpr fun _ => trivial
  obtain ⟨node, b, guard⟩ := site
  cases node with
  | block id =>
    cases guard with
    | none => simpa [nodeEvents, pairwise_append, pairwise_map] using flat (defsAt placed pos)
    | some pred =>
      simp only [nodeEvents, pairwise_append, pairwise_map, mem_append, List.mem_map]
      grind
  | subscope id => cases guard <;> simpa [nodeEvents, pairwise_map] using flat (defsAt placed pos)

/-- Occurrences are in the order of their points. -/
theorem occurrences_ordered (s : ScopeEvents) (placed : List PlacedDef) :
    (occurrences s placed).Pairwise fun earlier later => earlier.2.point ≤ later.2.point := by
  refine pairwise_append.mpr ⟨pairwise_flatMap.mpr ⟨?_, ?_⟩, pairwise_singleton _ _, ?_⟩
  · intro entry _
    exact nodeEvents_ordered s.firstDefs placed entry.1 entry.2
  · refine (zipIdx_pairwise s.sites 0).imp ?_
    intro earlier later below first mem second listedLater
    have firstPoint := point_of_mem_nodeEvents mem
    have secondPoint := point_of_mem_nodeEvents listedLater
    omega
  · intro first mem last isLast
    obtain ⟨⟨site, pos⟩, got, mem⟩ := mem_flatMap.mp mem
    have located : s.sites[pos]? = some site := mem_zipIdx_iff_getElem?.mp got
    obtain ⟨inRange, _⟩ := List.getElem?_eq_some_iff.mp located
    have firstPoint := point_of_mem_nodeEvents mem
    rw [mem_singleton.mp isLast]
    simp only at firstPoint ⊢
    omega

end

/-- One definition comes before another: at an earlier node, or at the same node with a smaller number. -/
def Before (first second : PlacedDef) : Prop :=
  first.position < second.position ∨ (first.position = second.position ∧ first.index < second.index)

theorem mem_inNodeOrder {nodeCount : Nat} : x ∈ inNodeOrder nodeCount placed ↔ x ∈ placed ∧ x.position < nodeCount := by
  simp only [inNodeOrder, mem_flatMap, mem_range, mem_defsAt]
  grind

theorem inNodeOrder_ordered (nodeCount : Nat)
    (increasing : placed.Pairwise fun earlier later => earlier.index < later.index) :
    (inNodeOrder nodeCount placed).Pairwise Before := by
  refine pairwise_flatMap.mpr ⟨?_, ?_⟩
  · intro pos _
    refine (increasing.filter _).imp_of_mem ?_
    intro first second mem listedLater below
    have firstHere := (mem_defsAt.mp mem).2
    have secondHere := (mem_defsAt.mp listedLater).2
    exact .inr ⟨by omega, below⟩
  · refine pairwise_lt_range.imp ?_
    intro earlier later below first mem second listedLater
    have firstHere := (mem_defsAt.mp mem).2
    have secondHere := (mem_defsAt.mp listedLater).2
    exact .inl (by omega)

/-- The definition is the first one of its predicate. -/
def IsFirst (s : ScopeEvents) (x : PlacedDef) : Prop :=
  s.firstDefs.get? x.definition.pred = some x.index

section

variable (coll : Collected tree id body placed s) {first : PlacedDef}

include coll

theorem Collected.site_of_def (mem : x ∈ placed) :
    ∃ site, s.sites[x.position]? = some site ∧ site.block = x.definition.source :=
  placeDefs_position coll.located mem

theorem Collected.position_lt (mem : x ∈ placed) : x.position < s.sites.length := by
  obtain ⟨site, got, _⟩ := coll.site_of_def mem
  exact lt_length got

theorem Collected.eq_of_index_eq {second : PlacedDef} (mem : first ∈ placed) (listedToo : second ∈ placed)
    (same : first.index = second.index) : first = second := by
  have increasing := placeDefs_increasing coll.located
  obtain ⟨i, inRange, rfl⟩ := getElem_of_mem mem
  obtain ⟨j, inRangeToo, rfl⟩ := getElem_of_mem listedToo
  have apart := pairwise_iff_getElem.mp increasing
  rcases Nat.lt_trichotomy i j with below | equal | above
  · have := apart i j inRange inRangeToo below
    omega
  · simp [equal]
  · have := apart j i inRangeToo inRange above
    omega

/-- Every predicate that is defined has a first definition. -/
theorem Collected.first_def (mem : x ∈ placed) :
    ∃ first ∈ placed, first.definition.pred = x.definition.pred ∧ IsFirst s first ∧
      (x = first ∨ Before first x) := by
  have ordered := inNodeOrder_ordered s.sites.length (placeDefs_increasing coll.located)
  have inOrder : x ∈ inNodeOrder s.sites.length placed := mem_inNodeOrder.mpr ⟨mem, coll.position_lt mem⟩
  have lookup : s.firstDefs.get? x.definition.pred = ((inNodeOrder s.sites.length placed).find?
        (·.definition.pred = x.definition.pred)).map (·.index) := by
    rw [coll.first, firstDefsOf, get?_foldl_insertNew]
    simp
  cases got : (inNodeOrder s.sites.length placed).find? (·.definition.pred = x.definition.pred) with
  | none =>
    have missing := find?_eq_none.mp got x inOrder
    simp at missing
  | some first =>
    obtain ⟨samePred, before, after, split, notEarlier⟩ := find?_eq_some_iff_append.mp got
    have definesSame : first.definition.pred = x.definition.pred := by simpa using samePred
    have firstListed : first ∈ placed := (mem_inNodeOrder.mp (mem_of_find?_eq_some got)).1
    refine ⟨first, firstListed, definesSame, ?_, ?_⟩
    · rw [IsFirst, definesSame, lookup, got]
      rfl
    · rw [split] at inOrder ordered
      rcases mem_append.mp inOrder with early | late
      · simpa using notEarlier x early
      · rcases mem_cons.mp late with same | later
        · exact .inl same
        · exact .inr ((pairwise_cons.mp (pairwise_append.mp ordered).2.1).1 x later)

theorem Collected.isFirst_before (firstListed : first ∈ placed) (isFirst : IsFirst s first) (mem : x ∈ placed)
    (samePred : x.definition.pred = first.definition.pred) : x = first ∨ Before first x := by
  obtain ⟨got, foundListed, foundPred, foundFirst, order⟩ := coll.first_def mem
  have sameIndex : first.index = got.index := by
    have equal : some first.index = some got.index := by
      rw [← isFirst, ← foundFirst, foundPred, samePred]
    simpa using equal
  rwa [coll.eq_of_index_eq firstListed foundListed sameIndex]

end

variable {p later : Nat}

section

variable (coll : Collected tree id body placed s)

include coll

theorem Collected.eventsOf_eq (pred : PredId) :
    s.eventsOf pred = (((occurrences s placed).filter fun entry => some entry.1 ≠ s.alwaysTrue).filter
      (·.1 = pred)).map (·.2) := by
  rw [eventsOf, coll.gathered, collect, get?_foldl_collect]
  simp [occurrences]

/-- The events of a predicate are its occurrences. -/
theorem Collected.mem_eventsOf : e ∈ s.eventsOf pred ↔ some pred ≠ s.alwaysTrue ∧ Occurs s placed pred e := by
  rw [coll.eventsOf_eq, ← mem_occurrences]
  simp only [List.mem_map, mem_filter]
  grind

theorem Collected.eventsOf_ordered (pred : PredId) :
    (s.eventsOf pred).Pairwise fun earlier later => earlier.point ≤ later.point := by
  rw [coll.eventsOf_eq]
  exact pairwise_map.mpr (((occurrences_ordered s placed).filter _).filter _)

end

/-- The first event of a predicate at or after a point. -/
def nextFrom (s : ScopeEvents) (pred : PredId) (p : Nat) : Option Event :=
  (s.eventsOf pred).find? (p ≤ ·.point)

theorem isDeadAt_iff : s.isDeadAt pred pos = true ↔ s.nextFrom pred (2 * pos) = some ⟨2 * pos + 1, .define true⟩ := by
  unfold isDeadAt nextFrom
  split
  · next e got =>
      rw [got]
      obtain ⟨p, kind⟩ := e
      simp
  · next missing => simp [missing]

theorem mem_of_nextFrom (next : s.nextFrom pred p = some e) : e ∈ s.eventsOf pred := mem_of_find?_eq_some next

theorem le_of_nextFrom (next : s.nextFrom pred p = some e) : p ≤ e.point := by
  simpa using find?_some next

theorem nextFrom_exists (mem : e ∈ s.eventsOf pred) (later : p ≤ e.point) : ∃ next, s.nextFrom pred p = some next := by
  cases got : s.nextFrom pred p with
  | some next => exact ⟨next, rfl⟩
  | none =>
    have tooEarly := find?_eq_none.mp got e mem
    simp [later] at tooEarly

/-- The next event stays the next one until it is reached. -/
theorem nextFrom_later (next : s.nextFrom pred p = some e) (after : p ≤ later)
    (reached : later ≤ e.point) : s.nextFrom pred later = some e := by
  obtain ⟨_, before, rest, split, early⟩ := find?_eq_some_iff_append.mp next
  refine find?_eq_some_iff_append.mpr ⟨by simpa using reached, before, rest, split, ?_⟩
  intro earlier mem
  have tooEarly : earlier.point < p := by simpa using early earlier mem
  simp only [not_eq_eq_eq_not, Bool.not_true, decide_eq_false_iff_not]
  omega

/-- No event comes before the next one. -/
theorem Collected.nextFrom_le (coll : Collected tree id body placed s) {o : Event}
    (next : s.nextFrom pred p = some e) (mem : o ∈ s.eventsOf pred) (after : p ≤ o.point) : e.point ≤ o.point := by
  have ordered := coll.eventsOf_ordered pred
  obtain ⟨_, before, rest, split, early⟩ := find?_eq_some_iff_append.mp next
  rw [split] at mem ordered
  rcases mem_append.mp mem with inBefore | inRest
  · have tooEarly : o.point < p := by simpa using early o inBefore
    omega
  · rcases mem_cons.mp inRest with same | later
    · exact Nat.le_of_eq (congrArg _ same.symm)
    · exact (pairwise_cons.mp (pairwise_append.mp ordered).2.1).1 o later

theorem nextFrom_earlier (next : s.nextFrom pred later = some e) (after : p ≤ later)
    (quiet : ∀ o ∈ s.eventsOf pred, p ≤ o.point → later ≤ o.point) : s.nextFrom pred p = some e := by
  obtain ⟨reached, before, rest, split, early⟩ := find?_eq_some_iff_append.mp next
  have laterReached : later ≤ e.point := by simpa using reached
  refine find?_eq_some_iff_append.mpr ⟨by simpa using Nat.le_trans after laterReached, before, rest, split, ?_⟩
  intro earlier mem
  have tooEarly : earlier.point < later := by simpa using early earlier mem
  have known : earlier ∈ s.eventsOf pred := by simp [split, mem]
  have notQuiet := quiet earlier known
  simp only [not_eq_eq_eq_not, Bool.not_true, decide_eq_false_iff_not]
  omega

theorem start_header : s.start s.headerPred = 0 := by
  simp [start]

variable (coll : Collected tree id body placed s)

include coll

theorem Collected.start_le (mem : e ∈ s.eventsOf pred) : s.start pred ≤ e.point := by
  unfold start
  split
  · exact zero_le _
  · have ordered := coll.eventsOf_ordered pred
    cases split : s.eventsOf pred with
    | nil => simp [split] at mem
    | cons first rest =>
      rw [split] at mem ordered
      simp only [head?_cons, map_some, getD_some]
      rcases mem_cons.mp mem with same | later
      · exact Nat.le_of_eq (congrArg _ same.symm)
      · exact (pairwise_cons.mp ordered).1 e later

/-- Every event of a predicate is before its end. -/
theorem Collected.lt_finish (mem : e ∈ s.eventsOf pred) : e.point < s.finish pred := by
  have ordered := coll.eventsOf_ordered pred
  have nonempty : s.eventsOf pred ≠ [] := ne_nil_of_mem mem
  unfold finish
  rw [getLast?_eq_some_getLast nonempty]
  simp only [map_some, getD_some]
  have split := dropLast_concat_getLast nonempty
  rw [← split] at mem ordered
  rcases mem_append.mp mem with early | last
  · have := (pairwise_append.mp ordered).2.2 e early _ (mem_singleton.mpr rfl)
    omega
  · rw [mem_singleton.mp last]
    omega

/-- A predicate that is not the header's starts with its first definition. -/
theorem Collected.start_eq (notHeader : pred ≠ s.headerPred) (mem : e ∈ s.eventsOf pred) :
    ∃ first ∈ placed, first.definition.pred = pred ∧ IsFirst s first ∧ s.start pred = 2 * first.position + 1 := by
  obtain ⟨notAlways, _⟩ := coll.mem_eventsOf.mp mem
  cases split : s.eventsOf pred with
  | nil => simp [split] at mem
  | cons earliest rest =>
    have lookup : s.events.get? pred = some (earliest :: rest) := by
      unfold eventsOf at split
      cases got : s.events.get? pred with
      | none => simp [got] at split
      | some es => simpa [got] using split
    have starts : s.start pred = earliest.point := by simp [start, notHeader, split]
    have earliestListed : earliest ∈ s.eventsOf pred := by simp [split]
    have notUse : startsWithUse (earliest :: rest) = false := by
      have checked := coll.defined
      unfold checkDefined at checked
      split at checked
      · exact absurd checked refuse_ne_ok
      · next none_found =>
          have := find?_eq_none.mp none_found _ (mem_of_find lookup)
          simpa [notHeader] using this
    cases (coll.mem_eventsOf.mp earliestListed).2 with
    | use | guard | backEdge => simp [startsWithUse] at notUse
    | define site x got itemListed defines =>
      obtain ⟨first, firstListed, firstPred, isFirst, order⟩ := coll.first_def itemListed
      obtain ⟨firstSite, firstFound, _⟩ := coll.site_of_def firstListed
      have firstEvent : _ ∈ s.eventsOf pred := coll.mem_eventsOf.mpr
        ⟨notAlways, .define firstSite first firstFound firstListed (firstPred.trans defines)⟩
      have notLater := coll.start_le firstEvent
      refine ⟨first, firstListed, firstPred.trans defines, isFirst, ?_⟩
      rw [starts] at notLater ⊢
      simp only at notLater ⊢
      rcases order with same | earlier | ⟨samePosition, _⟩
      · rw [same]
      · omega
      · omega

theorem Collected.start_odd (mem : e ∈ s.eventsOf pred) : s.start pred = 0 ∨ s.start pred % 2 = 1 := by
  by_cases isHeader : pred = s.headerPred
  · rw [isHeader]
    exact .inl start_header
  · obtain ⟨first, _, _, _, starts⟩ := coll.start_eq isHeader mem
    exact .inr (by omega)

end ScopeEvents

end SinglePath
