import SinglePath.Allocation.LinearScan
import SinglePath.Proofs.Allocation.Events

namespace SinglePath

open Holder List Nat PredId ScopeEvents Table

variable {α : Type}

theorem mem_placeByKey {key : α → Nat} {x o : α} {items : List α} : o ∈ placeByKey key x items ↔ o = x ∨ o ∈ items := by
  rw [(placeByKey_perm key x items).mem_iff, mem_cons]

theorem placeByKey_sorted (key : α → Nat) (x : α) {items : List α}
    (sorted : items.Pairwise fun first second => key first ≤ key second) :
    (placeByKey key x items).Pairwise fun first second => key first ≤ key second := by
  induction items with
  | nil => simp [placeByKey]
  | cons first rest ih =>
    obtain ⟨smallest, ordered⟩ := pairwise_cons.mp sorted
    rw [placeByKey]
    split
    · next small =>
        refine pairwise_cons.mpr ⟨?_, sorted⟩
        intro o mem
        rcases mem_cons.mp mem with same | later
        · rwa [same]
        · exact Nat.le_trans small (smallest o later)
    · next large =>
        refine pairwise_cons.mpr ⟨?_, ih ordered⟩
        intro o mem
        rcases mem_placeByKey.mp mem with same | later
        · rw [same]
          omega
        · exact smallest o later

theorem sortByKey_sorted (key : α → Nat) (items : List α) :
    (sortByKey key items).Pairwise fun first second => key first ≤ key second := by
  induction items with
  | nil => exact Pairwise.nil
  | cons first rest ih => exact placeByKey_sorted key first ih

theorem Holder.mem_of_longest {holders : List Holder} {best : Holder} (got : longest holders = some best) :
    best ∈ holders := by
  induction holders generalizing best with
  | nil => simp [longest] at got
  | cons first rest ih =>
    rw [longest] at got
    split at got
    · have same : first = best := by simpa using got
      exact same ▸ (.head _)
    · next o earlier =>
        split at got
        · have same : o = best := by simpa using got
          exact mem_cons_of_mem first (ih (same ▸ earlier))
        · have same : first = best := by simpa using got
          exact same ▸ (.head _)

namespace LinearScan

variable {scope : ScopeEvents} {ctx : ScopeContext} {pool : List Nat} {pred : PredId} {r : Nat} {holder : Holder}

section

variable {tree : ScopeTree} {body : Scope} {placed : List PlacedDef} {id : ScopeId}

theorem mem_order : pred ∈ order scope ↔ pred ∈ scope.events.keys := by
  simp only [order, mem_append, mem_filter, (sortByKey_perm _ _).mem_iff]
  grind

theorem order_sorted (scope : ScopeEvents) :
    (order scope).Pairwise fun first second => scope.start first ≤ scope.start second := by
  refine pairwise_append.mpr ⟨?_, sortByKey_sorted _ _, ?_⟩
  · refine pairwise_iff_forall_sublist.mpr ?_
    intro first second sublist
    have mem : first ∈ scope.events.keys.filter (· = scope.headerPred) := sublist.subset (by simp)
    have isHeader : first = scope.headerPred := by simpa using (mem_filter.mp mem).2
    rw [isHeader, start_header]
    exact zero_le _
  · intro first mem second _
    have isHeader : first = scope.headerPred := by simpa using (mem_filter.mp mem).2
    rw [isHeader, start_header]
    exact zero_le _

theorem order_nodup (nodup : scope.events.keys.Nodup) : (order scope).Nodup := by
  refine nodup_append.mpr ⟨nodup.filter _, ?_, ?_⟩
  · exact (sortByKey_perm _ _).nodup_iff.mpr (nodup.filter _)
  · intro first mem second listedToo same
    have isHeader : first = scope.headerPred := by simpa using (mem_filter.mp mem).2
    have notHeader : second ≠ scope.headerPred := by
      simpa using (mem_filter.mp ((sortByKey_perm _ _).mem_iff.mp listedToo)).2
    exact notHeader (same ▸ isHeader)

theorem nodup_keys (coll : Collected tree id body placed scope) : scope.events.keys.Nodup := by
  have ranked (first second : PredId) : first < second ↔ first.index < second.index := Iff.rfl
  have grows (items : List (PredId × Event)) (table : Table PredId (List Event))
      (increasing : Increasing index table.entries) :
      Increasing index (items.foldl
        (fun table x => table.alter x.1 fun got => got.getD [] ++ [x.2]) table).entries := by
    induction items generalizing table with
    | nil => exact increasing
    | cons first rest ih =>
      refine ih _ (place_increasing ranked ?_ _ _ increasing)
      intro one o same
      exact congrArg PredId.mk same
  rw [coll.gathered]
  exact Increasing.nodup_keys (grows _ _ Pairwise.nil)

theorem mem_keys_iff (coll : Collected tree id body placed scope) :
    pred ∈ scope.events.keys ↔ ∃ e, e ∈ scope.eventsOf pred := by
  rw [Table.mem_keys_iff]
  constructor
  · rintro ⟨es, lookup⟩
    have nonempty : es ≠ [] := by
      rw [coll.gathered] at lookup
      exact get?_foldl_collect_ne_nil _ _ (by simp) _ _ lookup
    obtain ⟨e, mem⟩ := exists_mem_of_ne_nil es nonempty
    exact ⟨e, by simpa [eventsOf, lookup] using mem⟩
  · rintro ⟨e, mem⟩
    unfold eventsOf at mem
    cases lookup : scope.events.get? pred with
    | none => simp [lookup] at mem
    | some es => exact ⟨es, rfl⟩

end

section

/-- What the scan knows after the predicates seen so far, with the others still to come. -/
structure Scanned (scope : ScopeEvents) (pool : List Nat) (seen rest : List PredId) (s : State) : Prop where
  active : ∀ holder ∈ s.active, s.regs.get? holder.pred = some (some holder.reg) ∧
    holder.start = scope.start holder.pred ∧ holder.finish = scope.finish holder.pred
  separate : ∀ first ∈ s.active, ∀ second ∈ s.active, first.reg = second.reg → first = second
  known : ∀ pred, pred ∈ seen ↔ ∃ place, s.regs.get? pred = some place
  pooled : ∀ pred r, s.regs.get? pred = some (some r) → r ∈ pool
  covered : ∀ pred r, s.regs.get? pred = some (some r) →
    (⟨pred, r, scope.start pred, scope.finish pred⟩ : Holder) ∈ s.active ∨
      ∀ later ∈ rest, scope.finish pred ≤ scope.start later
  disjoint : ∀ first second r, s.regs.get? first = some (some r) →
    s.regs.get? second = some (some r) → first ≠ second →
    scope.finish first ≤ scope.start second ∨ scope.finish second ≤ scope.start first
  header : scope.headerPred ∈ seen → ∃ r, s.regs.get? scope.headerPred = some (some r)

variable {seen rest : List PredId} {s : State} {active : List Holder}

theorem mem_of_choose {preferred : Option Nat} {isHeader : Bool}
    (chosen : choose pool preferred isHeader active = some r) : r ∈ pool ∧ isFree active r = true := by
  have first_ok (got : pool.find? (isFree active) = some r) : r ∈ pool ∧ isFree active r = true :=
    ⟨mem_of_find?_eq_some got, find?_some got⟩
  unfold choose at chosen
  split at chosen
  · next wanted =>
      split at chosen
      · next free =>
          have same : wanted = r := by simpa using chosen
          subst same
          simp only [Bool.and_eq_true, contains_iff_mem] at free
          exact ⟨free.1.2, free.2⟩
      · exact first_ok chosen
  · exact first_ok chosen

theorem not_mem_of_isFree (free : isFree active r = true) (mem : holder ∈ active) : holder.reg ≠ r := by
  intro same
  simp only [isFree, Bool.not_eq_true', any_eq_false] at free
  simpa [same] using free holder mem

/-- Ranges that end before the next start leave the active ones. -/
theorem Scanned.expire (scanned : Scanned scope pool seen (pred :: rest) s)
    (sorted : ∀ later ∈ rest, scope.start pred ≤ scope.start later) :
    Scanned scope pool seen rest ⟨s.active.filter (scope.start pred < ·.finish), s.regs⟩ ∧
      ∀ o r, s.regs.get? o = some (some r) → (⟨o, r, scope.start o, scope.finish o⟩ : Holder) ∈
            s.active.filter (scope.start pred < ·.finish) ∨
          scope.finish o ≤ scope.start pred := by
  have sharper : ∀ o r, s.regs.get? o = some (some r) → (⟨o, r, scope.start o, scope.finish o⟩ : Holder) ∈
          s.active.filter (scope.start pred < ·.finish) ∨
        scope.finish o ≤ scope.start pred := by
    intro o r held
    rcases scanned.covered o r held with mem | past
    · by_cases live : scope.start pred < scope.finish o
      · exact .inl (mem_filter.mpr ⟨mem, by simpa using live⟩)
      · exact .inr (Nat.le_of_not_lt live)
    · exact .inr (past pred (.head _))
  refine ⟨⟨?_, ?_, scanned.known, scanned.pooled, ?_, scanned.disjoint, scanned.header⟩, sharper⟩
  · intro holder mem
    exact scanned.active holder (mem_filter.mp mem).1
  · intro first mem second listedToo
    exact scanned.separate first (mem_filter.mp mem).1 second (mem_filter.mp listedToo).1
  · intro o r held
    refine (sharper o r held).imp_right ?_
    intro past later mem
    exact Nat.le_trans past (sorted later mem)

section

variable (scanned : Scanned scope pool seen rest s)

include scanned

/-- A predicate without a register is only noted. -/
theorem Scanned.note (fresh : pred ∉ seen) (notHeader : pred ≠ scope.headerPred) :
    Scanned scope pool (pred :: seen) rest ⟨s.active, s.regs.insert pred none⟩ := by
  have unheld (o : PredId) (r : Nat) (held : (s.regs.insert pred none).get? o = some (some r)) :
      s.regs.get? o = some (some r) := by
    rw [get?_insert] at held
    split at held
    · simp at held
    · exact held
  refine ⟨?_, scanned.separate, ?_, ?_, ?_, ?_, ?_⟩
  · intro holder mem
    have held := scanned.active holder mem
    have seenHolder : holder.pred ∈ seen := (scanned.known _).mpr ⟨_, held.1⟩
    have ne : holder.pred ≠ pred := fun same => fresh (same ▸ seenHolder)
    simpa [ne] using held
  · intro o
    have known := scanned.known o
    by_cases same : o = pred <;> simp [same, known]
  · exact fun o r held => scanned.pooled o r (unheld o r held)
  · exact fun o r held => scanned.covered o r (unheld o r held)
  · exact fun first second r held heldToo =>
      scanned.disjoint first second r (unheld first r held) (unheld second r heldToo)
  · intro mem
    have ne : scope.headerPred ≠ pred := fun same => notHeader same.symm
    obtain ⟨r, held⟩ := scanned.header ((mem_cons.mp mem).resolve_left ne)
    exact ⟨r, by simpa [ne] using held⟩

/-- A predicate takes a register whose earlier holders have ended. -/
theorem Scanned.take (fresh : pred ∉ seen) (inPool : r ∈ pool) (free : ∀ holder ∈ s.active, holder.reg ≠ r)
    (past : ∀ o, s.regs.get? o = some (some r) → scope.finish o ≤ scope.start pred) :
    Scanned scope pool (pred :: seen) rest
      ⟨s.active ++ [⟨pred, r, scope.start pred, scope.finish pred⟩], s.regs.insert pred (some r)⟩ := by
  have unchanged (o : PredId) (ne : o ≠ pred) : (s.regs.insert pred (some r)).get? o = s.regs.get? o := by
    simp [ne]
  have own : (s.regs.insert pred (some r)).get? pred = some (some r) := by simp
  refine ⟨?_, ?_, ?_, ?_, ?_, ?_, ?_⟩
  · intro holder mem
    rcases mem_append.mp mem with old | new
    · have held := scanned.active holder old
      have seenHolder : holder.pred ∈ seen := (scanned.known _).mpr ⟨_, held.1⟩
      have ne : holder.pred ≠ pred := fun same => fresh (same ▸ seenHolder)
      simpa [ne] using held
    · rw [mem_singleton.mp new]
      exact ⟨own, rfl, rfl⟩
  · intro first mem second listedToo sameReg
    rcases mem_append.mp mem with old | new <;> rcases mem_append.mp listedToo with oldToo | newToo
    · exact scanned.separate first old second oldToo sameReg
    · rw [mem_singleton.mp newToo] at sameReg
      exact absurd sameReg (free first old)
    · rw [mem_singleton.mp new] at sameReg
      exact absurd sameReg.symm (free second oldToo)
    · rw [mem_singleton.mp new, mem_singleton.mp newToo]
  · intro o
    have known := scanned.known o
    by_cases same : o = pred <;> simp [same, known]
  · intro o got held
    by_cases same : o = pred
    · subst same
      have equal : r = got := by simpa using own.symm.trans held
      exact equal ▸ inPool
    · exact scanned.pooled o got (unchanged o same ▸ held)
  · intro o got held
    by_cases same : o = pred
    · subst same
      have equal : r = got := by simpa using own.symm.trans held
      simp [equal]
    · refine (scanned.covered o got (unchanged o same ▸ held)).imp_left ?_
      exact fun mem => mem_append_left _ mem
  · intro first second got held heldToo ne
    by_cases isFirst : first = pred
    · subst isFirst
      have equal : r = got := by simpa using own.symm.trans held
      rw [unchanged second (Ne.symm ne), ← equal] at heldToo
      exact .inr (past second heldToo)
    · by_cases isSecond : second = pred
      · subst isSecond
        have equal : r = got := by simpa using own.symm.trans heldToo
        rw [unchanged first ne, ← equal] at held
        exact .inl (past first held)
      · rw [unchanged first isFirst] at held
        rw [unchanged second isSecond] at heldToo
        exact scanned.disjoint first second got held heldToo ne
  · intro mem
    by_cases isHeader : scope.headerPred = pred
    · exact ⟨r, isHeader ▸ own⟩
    · obtain ⟨got, held⟩ := scanned.header ((mem_cons.mp mem).resolve_left isHeader)
      exact ⟨got, (unchanged _ isHeader).trans held⟩

/-- An active predicate other than the header's gives up its register. -/
theorem Scanned.release {victim : Holder} (mem : victim ∈ s.active) (notHeader : victim.pred ≠ scope.headerPred) :
    Scanned scope pool seen rest ⟨s.active.filter (·.pred ≠ victim.pred), s.regs.insert victim.pred none⟩ := by
  have unheld (o : PredId) (r : Nat) (held : (s.regs.insert victim.pred none).get? o = some (some r)) :
      o ≠ victim.pred ∧ s.regs.get? o = some (some r) := by
    rw [get?_insert] at held
    split at held
    · simp at held
    · next ne => exact ⟨ne, held⟩
  have victimSeen : victim.pred ∈ seen := (scanned.known _).mpr ⟨_, (scanned.active victim mem).1⟩
  refine ⟨?_, ?_, ?_, ?_, ?_, ?_, ?_⟩
  · intro holder remains
    obtain ⟨wasActive, ne⟩ := mem_filter.mp remains
    have unequal : holder.pred ≠ victim.pred := by simpa using ne
    simpa [unequal] using scanned.active holder wasActive
  · intro first remains second remainsToo
    exact scanned.separate first (mem_filter.mp remains).1 second (mem_filter.mp remainsToo).1
  · intro o
    have known := scanned.known o
    by_cases same : o = victim.pred
    · simp [same, victimSeen]
    · simp [same, known]
  · exact fun o r held => scanned.pooled o r (unheld o r held).2
  · intro o r held
    obtain ⟨ne, held⟩ := unheld o r held
    refine (scanned.covered o r held).imp_left ?_
    exact fun wasActive => mem_filter.mpr ⟨wasActive, by simpa using ne⟩
  · exact fun first second r held heldToo =>
      scanned.disjoint first second r (unheld first r held).2 (unheld second r heldToo).2
  · intro seenHeader
    obtain ⟨r, held⟩ := scanned.header seenHeader
    have ne : scope.headerPred ≠ victim.pred := fun same => notHeader same.symm
    exact ⟨r, by simpa [ne] using held⟩

end

theorem Scanned.step {next : State} (scanned : Scanned scope pool seen (pred :: rest) s)
    (sorted : ∀ later ∈ rest, scope.start pred ≤ scope.start later) (fresh : pred ∉ seen)
    (stepped : step scope ctx pool s pred = .ok next) : Scanned scope pool (pred :: seen) rest next := by
  obtain ⟨expired, sharper⟩ := scanned.expire sorted
  unfold LinearScan.step at stepped
  simp only at stepped
  split at stepped
  · next r chosen =>
      obtain ⟨inPool, free⟩ := mem_of_choose chosen
      cases stepped
      refine expired.take fresh inPool (fun holder mem => not_mem_of_isFree free mem) ?_
      intro o held
      exact (sharper o r held).resolve_left fun mem => not_mem_of_isFree free mem rfl
  · split at stepped
    · simp at stepped
    · next notHeader =>
        have ne : pred ≠ scope.headerPred := by simpa using notHeader
        split at stepped
        · next victim longest =>
            obtain ⟨mem, unequal⟩ := mem_filter.mp (mem_of_longest longest)
            have victimNotHeader : victim.pred ≠ scope.headerPred := by simpa using unequal
            split at stepped
            · cases stepped
              have released := expired.release mem victimNotHeader
              have held := (expired.active victim mem).1
              refine released.take fresh (expired.pooled _ _ held) ?_ ?_
              · intro holder remains sameReg
                obtain ⟨wasActive, unequal⟩ := mem_filter.mp remains
                have same := expired.separate holder wasActive victim mem sameReg
                simp [same] at unequal
              · intro o heldToo
                simp only [get?_insert] at heldToo
                split at heldToo
                · simp at heldToo
                · next otherPred =>
                    refine (sharper o victim.reg heldToo).resolve_left ?_
                    intro active
                    have same := expired.separate _ active victim mem rfl
                    exact otherPred (congrArg Holder.pred same)
            · cases stepped
              exact expired.note fresh ne
        · cases stepped
          exact expired.note fresh ne

/-- What one step keeps holds after the whole scan. -/
theorem Scanned.run {final : State} (scanned : Scanned scope pool seen rest s)
    (sorted : rest.Pairwise fun first second => scope.start first ≤ scope.start second) (nodup : rest.Nodup)
    (fresh : ∀ pred ∈ rest, pred ∉ seen) (folded : rest.foldlM (LinearScan.step scope ctx pool) s = .ok final) :
    Scanned scope pool (rest.reverse ++ seen) [] final := by
  induction rest generalizing seen s with
  | nil =>
    have same : s = final := by simpa [pure, Except.pure] using folded
    simpa [same] using scanned
  | cons pred rest ih =>
    rw [foldlM_cons, bind_eq_ok] at folded
    obtain ⟨next, stepped, remaining⟩ := folded
    obtain ⟨earliest, restSorted⟩ := pairwise_cons.mp sorted
    obtain ⟨notLater, restNodup⟩ := nodup_cons.mp nodup
    have after := scanned.step earliest (fresh pred (.head _)) stepped
    have res := ih after restSorted restNodup ?_ remaining
    · simpa using res
    · intro later mem listedSeen
      rcases mem_cons.mp listedSeen with same | old
      · exact notLater (same ▸ mem)
      · exact fresh later (mem_cons_of_mem pred mem) old

end

section

variable {regs : Table PredId (Option Nat)}

/-- What the result of a scan guarantees. -/
structure Separated (scope : ScopeEvents) (pool : List Nat) (regs : Table PredId (Option Nat)) : Prop where
  known : ∀ pred, pred ∈ scope.events.keys ↔ ∃ place, regs.get? pred = some place
  pooled : ∀ pred r, regs.get? pred = some (some r) → r ∈ pool
  disjoint : ∀ first second r, regs.get? first = some (some r) → regs.get? second = some (some r) →
    first ≠ second → scope.finish first ≤ scope.start second ∨ scope.finish second ≤ scope.start first
  header : scope.headerPred ∈ scope.events.keys → ∃ r, regs.get? scope.headerPred = some (some r)

theorem run_separated (nodup : scope.events.keys.Nodup) (scanned : run scope ctx pool = .ok regs) :
    Separated scope pool regs := by
  obtain ⟨final, folded, rfl⟩ := bind_pure_inv scanned
  have initially : Scanned scope pool [] (order scope) ⟨[], empty⟩ := by
    refine ⟨?_, ?_, ?_, ?_, ?_, ?_, ?_⟩ <;> simp
  have atEnd := initially.run (order_sorted scope) (order_nodup nodup) (by simp) folded
  have mem (pred : PredId) : pred ∈ (order scope).reverse ++ [] ↔ pred ∈ scope.events.keys := by
    simp [mem_order]
  refine ⟨?_, atEnd.pooled, atEnd.disjoint, ?_⟩
  · intro pred
    rw [← mem, atEnd.known]
  · intro present
    exact atEnd.header ((mem _).mpr present)

theorem mem_holders (separated : Separated scope pool regs) :
    holder ∈ holders scope regs ↔ regs.get? holder.pred = some (some holder.reg) ∧
      holder.start = scope.start holder.pred ∧ holder.finish = scope.finish holder.pred := by
  simp only [holders, mem_filterMap, mem_order, separated.known, Option.map_eq_some_iff]
  obtain ⟨pred, r, start, finish⟩ := holder
  grind

end

variable {next bit : Nat} {entries : List (PredId × Option Nat)}

theorem find_numberStack_register : find pred (numberStack next entries) = some (.register r) ↔
      find pred entries = some (some r) := by
  induction entries generalizing next with
  | nil => simp [numberStack, find]
  | cons entry rest ih =>
    obtain ⟨key, place⟩ := entry
    cases place <;> by_cases same : key = pred <;> simp [numberStack, find, same, ih]

theorem find_numberStack_stack (got : find pred (numberStack next entries) = some (.stack bit)) :
    find pred entries = some none ∧ next ≤ bit ∧ bit < next + ((entries.map (·.2)).filter (·.isNone)).length := by
  induction entries generalizing next with
  | nil => simp [numberStack, find] at got
  | cons entry rest ih =>
    obtain ⟨key, place⟩ := entry
    by_cases same : key = pred
    · cases place with
      | some r => simp [numberStack, find, same] at got
      | none =>
        have equal : next = bit := by simpa [numberStack, find, same] using got
        simp [find, same, equal]
    · cases place with
      | some r =>
        have deeper : find pred (numberStack next rest) = some (.stack bit) := by
          simpa [numberStack, find, same] using got
        simpa [find, same] using ih deeper
      | none =>
        have deeper : find pred (numberStack (next + 1) rest) = some (.stack bit) := by
          simpa [numberStack, find, same] using got
        have later := ih deeper
        simp only [find, same, map_cons, filter_cons, Option.isNone_none, ite_true, length_cons]
        exact ⟨later.1, by omega, by omega⟩

theorem find_numberStack_exists {place : Option Nat} (got : find pred entries = some place) :
    ∃ location, find pred (numberStack next entries) = some location ∧ location ≠ .always := by
  induction entries generalizing next with
  | nil => simp [find] at got
  | cons entry rest ih =>
    obtain ⟨key, held⟩ := entry
    by_cases same : key = pred
    · cases held <;> simp [numberStack, find, same]
    · have deeper : find pred rest = some place := by simpa [find, same] using got
      cases held <;> simpa [numberStack, find, same] using ih deeper

theorem find_numberStack_none (missing : find pred entries = none) : find pred (numberStack next entries) = none := by
  induction entries generalizing next with
  | nil => rfl
  | cons entry rest ih =>
    obtain ⟨key, held⟩ := entry
    by_cases same : key = pred
    · simp [find, same] at missing
    · have deeper : find pred rest = none := by simpa [find, same] using missing
      cases held <;> simp [numberStack, find, same, ih deeper]

theorem find_numberStack_injective {first second : PredId}
    (got : find first (numberStack next entries) = some (.stack bit))
    (foundToo : find second (numberStack next entries) = some (.stack bit)) : first = second := by
  induction entries generalizing next with
  | nil => simp [numberStack, find] at got
  | cons entry rest ih =>
    obtain ⟨key, place⟩ := entry
    cases place with
    | some r =>
      rw [numberStack, find] at got foundToo
      split at got
      · simp at got
      · split at foundToo
        · simp at foundToo
        · exact ih got foundToo
    | none =>
      rw [numberStack, find] at got foundToo
      split at got
      · next isFirst =>
          have equal : next = bit := by simpa using got
          split at foundToo
          · next isSecond => exact isFirst.symm.trans isSecond
          · have beyond := (find_numberStack_stack foundToo).2.1
            omega
      · split at foundToo
        · have equal : next = bit := by simpa using foundToo
          have beyond := (find_numberStack_stack got).2.1
          omega
        · exact ih got foundToo

end LinearScan

end SinglePath
