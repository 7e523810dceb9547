import SinglePath.CellFlow.Live
import SinglePath.Proofs.CellFlow.Cells
import SinglePath.Proofs.Computation
import SinglePath.Proofs.Tables

namespace SinglePath

open Option Table

variable {f : Func} {b : BlockId} {blocks : List (BlockId × Block)} {body : Block}

/-- Every member of the set is in the other set. -/
def CellSet.Within (set o : CellSet) : Prop := ∀ c, set.contains c = true → o.contains c = true

theorem CellSet.Within.trans {first second third : CellSet} (lower : first.Within second)
    (upper : second.Within third) :
    first.Within third :=
  fun c isMember => upper c (lower c isMember)

namespace Inst

variable {inst : Inst} {r : GReg} {c : CellId}

theorem cellLoad_eq_some : inst.cellLoad = some (r, c) ↔ inst.op = .load r (.frame c) ∧ inst.guard.isAlways = true := by
  unfold cellLoad
  split <;> simp_all [and_comm]

theorem cellStore_eq_some :
    inst.cellStore = some (c, r) ↔ inst.op = .store (.frame c) r ∧ inst.guard.isAlways = true := by
  unfold cellStore
  split <;> simp_all [and_comm]

theorem isTerminator_of_branch {t : BlockId} (branches : inst.branchTarget = some t) : inst.isTerminator = true := by
  simp [isTerminator, isBranch, branches]

end Inst

namespace CellFlow

variable {facts : Facts} {set : CellSet} {s : Facts × Bool}

/-- Every set of the facts is within the set that the other facts have for the block. -/
def Below (facts more : Facts) : Prop :=
  ∀ b set, facts.get? b = some set → ∃ larger, more.get? b = some larger ∧ set.Within larger

theorem Below.refl (facts : Facts) : Below facts facts := fun _ set found => ⟨set, found, fun _ => id⟩

theorem Below.trans {first second third : Facts} (lower : Below first second) (upper : Below second third) :
    Below first third := by
  intro b set found
  obtain ⟨larger, foundLarger, within⟩ := lower b set found
  obtain ⟨largest, foundLargest, withinLargest⟩ := upper b larger foundLarger
  exact ⟨largest, foundLargest, within.trans withinLargest⟩

/-- An equation gives a block its set from the sets of the other blocks. -/
abbrev Equation := Facts → Block → CellSet

variable {equation : Equation}

/-- Larger facts never give a smaller set. -/
def Growing (equation : Equation) : Prop :=
  ∀ facts more, Below facts more → ∀ body, (equation facts body).Within (equation more body)

/-- One block's part of a round. -/
def visit (equation : Equation) (s : Facts × Bool) (e : BlockId × Block) : Facts × Bool :=
  record s.1 e.1 (equation s.1 e.2) s.2

/-- One round over the blocks under an equation. -/
def round (equation : Equation) (blocks : List (BlockId × Block)) (facts : Facts) : Facts × Bool :=
  blocks.foldl (visit equation) (facts, false)

/-- No set has more than the equation allows. -/
def Grounded (equation : Equation) (f : Func) (facts : Facts) : Prop :=
  ∀ b body set, f.block? b = some body → facts.get? b = some set →
    set.Within (equation facts body)

/-- Each set is what the equation says. -/
def Settled (equation : Equation) (blocks : List (BlockId × Block)) (facts : Facts) : Prop :=
  ∀ e ∈ blocks, ∃ set, facts.get? e.1 = some set ∧
    ∀ c, set.contains c = (equation facts e.2).contains c

theorem below_insert (grows : ∀ old, facts.get? b = some old → old.Within set) : Below facts (facts.insert b set) := by
  intro o old found
  rw [get?_insert]
  split
  · rename_i same
    exact ⟨set, rfl, grows old (same ▸ found)⟩
  · exact ⟨old, found, fun _ => id⟩

/-- One record of a round keeps the facts grounded and takes nothing away. -/
theorem record_grounded (growing : Growing equation) (grounded : Grounded equation f facts)
    (found : f.block? b = some body) (changed : Bool) :
    Grounded equation f (record facts b (equation facts body) changed).1 ∧
      Below facts (record facts b (equation facts body) changed).1 := by
  unfold record
  split
  · exact ⟨grounded, Below.refl facts⟩
  · have below : Below facts (facts.insert b (equation facts body)) :=
      below_insert fun old present => grounded b body old found present
    refine ⟨?_, below⟩
    intro o otherContent set isContent present
    rw [get?_insert] at present
    split at present
    · rename_i same
      cases present
      obtain rfl := mem_unique found (same ▸ isContent)
      exact growing _ _ below body
    · exact (grounded o otherContent set isContent present).trans (growing _ _ below otherContent)

/-- The content that a function has for each listed block. -/
def Listed (f : Func) (blocks : List (BlockId × Block)) : Prop :=
  ∀ e ∈ blocks, f.block? e.1 = some e.2

section

variable (growing : Growing equation) (mem : Listed f blocks)

include growing mem

theorem foldl_record_grounded (grounded : Grounded equation f s.1) : let after := blocks.foldl (visit equation) s
    Grounded equation f after.1 ∧ Below s.1 after.1 := by
  induction blocks generalizing s with
  | nil => exact ⟨grounded, Below.refl _⟩
  | cons e rest ih =>
    obtain ⟨nextGrounded, below⟩ := record_grounded growing grounded (mem e (.head _)) s.2
    obtain ⟨lastGrounded, further⟩ := ih (List.forall_mem_cons.mp mem).2 nextGrounded
    exact ⟨lastGrounded, below.trans further⟩

/-- A round adds to the facts only what they account for. -/
theorem round_grounded (grounded : Grounded equation f facts) :
    Grounded equation f (round equation blocks facts).1 ∧ Below facts (round equation blocks facts).1 :=
  foldl_record_grounded growing mem grounded

theorem iterate_grounded (rounds : Nat)
    (grounded : Grounded equation f facts) : Grounded equation f (iterate (round equation blocks) rounds facts) := by
  induction rounds generalizing facts with
  | zero => exact grounded
  | succ rounds ih =>
    have next := (round_grounded growing mem grounded).1
    simp only [iterate]
    split
    · exact ih next
    · exact next

end

section

variable {more : Facts} {o : CellSet} (tracked : CellSet)

/-- How far the set of a block has grown. -/
def rankOf (facts : Facts) (b : BlockId) : Nat :=
  match facts.get? b with
  | some set => 1 + tracked.toList.countP set.contains
  | none => 0

def rank (blocks : List (BlockId × Block)) (facts : Facts) : Nat :=
  (blocks.map fun e => rankOf tracked facts e.1).sum

theorem countP_le_of_within (within : set.Within o) (cells : List CellId) :
    cells.countP set.contains ≤ cells.countP o.contains :=
  List.countP_mono_left fun c _ => within c

theorem countP_lt_of_within (within : set.Within o) (inside : o.Within tracked)
    (ne : set.equals o = false) : tracked.toList.countP set.contains < tracked.toList.countP o.contains := by
  obtain ⟨c, isNew, isMember⟩ : ∃ c, set.contains c = false ∧ o.contains c = true := by
    refine Classical.byContradiction fun none => ?_
    have same : set.equals o = true := by
      refine (CellSet.equals_iff set o).mpr fun c => ?_
      cases isMember : o.contains c with
      | false => exact Bool.eq_false_iff.mpr fun isOld => by simp [within c isOld] at isMember
      | true => exact Bool.not_eq_false _ ▸ fun isNew => none ⟨c, isNew, isMember⟩
    simp [same] at ne
  obtain ⟨before, after, split⟩ := List.append_of_mem ((tracked.mem_toList c).mpr (inside c isMember))
  have head := countP_le_of_within within before
  have tail := countP_le_of_within within after
  simp only [split, List.countP_append, List.countP_cons, isNew, isMember]
  simp
  omega

theorem rankOf_le_of_below (below : Below facts more) (b : BlockId) :
    rankOf tracked facts b ≤ rankOf tracked more b := by
  unfold rankOf
  cases found : facts.get? b with
  | none => simp
  | some set =>
    obtain ⟨larger, foundLarger, within⟩ := below b set found
    simp only [foundLarger]
    have := countP_le_of_within within tracked.toList
    omega

theorem rank_le_of_below (below : Below facts more) (blocks : List (BlockId × Block)) :
    rank tracked blocks facts ≤ rank tracked blocks more := by
  induction blocks with
  | nil => exact Nat.le_refl _
  | cons e rest ih =>
    have head := rankOf_le_of_below tracked below e.1
    simp only [rank, List.map_cons, List.sum_cons] at ih ⊢
    omega

/-- Facts that grow at a listed block have a larger rank. -/
theorem rank_lt_of_below (below : Below facts more) {e : BlockId × Block}
    (isListed : e ∈ blocks) (grows : rankOf tracked facts e.1 < rankOf tracked more e.1) :
    rank tracked blocks facts < rank tracked blocks more := by
  obtain ⟨before, after, rfl⟩ := List.append_of_mem isListed
  have head := rank_le_of_below tracked below before
  have tail := rank_le_of_below tracked below after
  simp only [rank, List.map_append, List.map_cons, List.sum_append, List.sum_cons] at head tail ⊢
  omega

/-- The rank is limited by the number of blocks and cells. -/
theorem rank_le (blocks : List (BlockId × Block)) (facts : Facts) :
    rank tracked blocks facts ≤ blocks.length * (tracked.size + 1) := by
  induction blocks with
  | nil => simp [rank]
  | cons e rest ih =>
    have bound : rankOf tracked facts e.1 ≤ tracked.size + 1 := by
      unfold rankOf
      split
      · rename_i set _
        have := List.countP_le_length (p := set.contains) (l := tracked.toList)
        rw [tracked.size_eq_length_toList]
        omega
      · omega
    simp only [rank, List.map_cons, List.sum_cons, List.length_cons] at ih ⊢
    rw [Nat.add_mul, Nat.one_mul]
    omega

end

variable {tracked : CellSet}

/-- A record that changes something gives its block a larger set. -/
theorem record_grows (grounded : Grounded equation f facts)
    (found : f.block? b = some body) (inside : (equation facts body).Within tracked)
    (changes : (record facts b (equation facts body) false).2 = true) :
    rankOf tracked facts b < rankOf tracked (record facts b (equation facts body) false).1 b := by
  unfold record at changes ⊢
  split
  · rename_i same
    simp [same] at changes
  · rename_i ne
    simp only [rankOf, get?_insert, if_pos]
    cases old : facts.get? b with
    | none => exact Nat.lt_of_lt_of_le Nat.zero_lt_one (Nat.le_add_right ..)
    | some set =>
      have unequal : set.equals (equation facts body) = false := by
        simpa [old] using ne
      have := countP_lt_of_within tracked (grounded b body set found old) inside unequal
      simp only
      omega

theorem record_flag (b : BlockId) (set : CellSet) (changed : Bool) :
    record facts b set changed = ((record facts b set false).1, (record facts b set false).2 || changed) := by
  unfold record
  split <;> simp

theorem foldl_record_unchanged (unchanged : (blocks.foldl (visit equation) s).2 = false) :
    s.2 = false ∧ (blocks.foldl (visit equation) s).1 = s.1 ∧
      Settled equation blocks s.1 := by
  induction blocks generalizing s with
  | nil => exact ⟨unchanged, rfl, fun e isListed => nomatch isListed⟩
  | cons e rest ih =>
    obtain ⟨flag, same, settled⟩ := ih unchanged
    rw [visit, record_flag] at flag
    obtain ⟨recorded, started⟩ := Bool.or_eq_false_iff.mp flag
    have kept : (visit equation s e).1 = s.1 ∧ (s.1.get? e.1).any (·.equals (equation s.1 e.2)) = true := by
      unfold visit
      unfold record at recorded ⊢
      split
      · rename_i isEqual
        exact ⟨rfl, isEqual⟩
      · rename_i ne
        simp [ne] at recorded
    rw [kept.1] at settled same
    refine ⟨started, same, fun o isListed => ?_⟩
    rcases List.mem_cons.mp isListed with rfl | isListed
    · obtain ⟨set, found, isEqual⟩ := (any_eq_true _ _).mp kept.2
      exact ⟨set, found, (CellSet.equals_iff set _).mp isEqual⟩
    · exact settled o isListed

/-- A round that reports a change has made some set larger. -/
theorem foldl_record_grows (growing : Growing equation) (inside : ∀ facts, Grounded equation f facts →
      (∀ b set, facts.get? b = some set → set.Within tracked) → ∀ body, (equation facts body).Within tracked)
    (all : List (BlockId × Block)) (s : Facts × Bool) (mem : Listed f blocks)
    (among : ∀ e ∈ blocks, e ∈ all) (grounded : Grounded equation f s.1)
    (bounded : ∀ b set, s.1.get? b = some set → set.Within tracked) : let after := blocks.foldl (visit equation) s
    (∀ b set, after.1.get? b = some set → set.Within tracked) ∧
      (after.2 = true → s.2 = true ∨ rank tracked all s.1 < rank tracked all after.1) := by
  induction blocks generalizing s with
  | nil => exact ⟨bounded, .inl⟩
  | cons e rest ih =>
    have found := mem e (.head _)
    have isWithin := inside s.1 grounded bounded e.2
    obtain ⟨nextGrounded, below⟩ := record_grounded growing grounded found s.2
    have nextBounded : ∀ b set, (visit equation s e).1.get? b = some set → set.Within tracked := by
      intro b set present
      unfold visit record at present
      split at present
      · exact bounded b set present
      · rw [get?_insert] at present
        split at present
        · exact some.inj present ▸ isWithin
        · exact bounded b set present
    have restListed : Listed f rest := (List.forall_mem_cons.mp mem).2
    have restAmong : ∀ o ∈ rest, o ∈ all := (List.forall_mem_cons.mp among).2
    obtain ⟨lastBounded, further⟩ := ih _ restListed restAmong nextGrounded nextBounded
    refine ⟨lastBounded, fun changed => ?_⟩
    have later := rank_le_of_below tracked (foldl_record_grounded growing restListed nextGrounded).2 all
    rcases further changed with recorded | grows
    · rw [record_flag] at recorded
      rcases Bool.or_eq_true_iff.mp recorded with recorded | started
      · have first := record_grows grounded found isWithin recorded
        have same : (visit equation s e).1 = (record s.1 e.1 (equation s.1 e.2) false).1 := by
          rw [visit, record_flag]
        rw [← same] at first
        exact .inr (Nat.lt_of_lt_of_le (rank_lt_of_below tracked below (among e (.head _)) first) later)
      · exact .inl started
    · exact .inr (Nat.lt_of_le_of_lt (rank_le_of_below tracked below all) grows)

/-- Rounds are made until one of them changes nothing, and then these are the facts. -/
inductive Repeats (round : Facts → Facts × Bool) : Facts → Facts → Prop where
  | last {facts next : Facts} (unchanged : round facts = (next, false)) : Repeats round facts next
  | again {facts next final : Facts} (changed : round facts = (next, true)) (repeats : Repeats round next final) :
      Repeats round facts final

/-- Facts that a round does not change solve the equations. -/
theorem Repeats.settled {final : Facts} (repeats : Repeats (round equation blocks) facts final) :
    Settled equation blocks final := by
  induction repeats with
  | @last facts next unchanged =>
    obtain ⟨_, same, settled⟩ := foldl_record_unchanged (congrArg Prod.snd unchanged)
    have unmoved : next = facts := (congrArg Prod.fst unchanged).symm.trans same
    rwa [unmoved]
  | again _ _ ih => exact ih

section

variable (growing : Growing equation)
  (inside : ∀ facts, Grounded equation f facts →
    (∀ b set, facts.get? b = some set → set.Within tracked) → ∀ body, (equation facts body).Within tracked)
  (mem : Listed f blocks)

include growing inside mem

/-- The rounds come to an end, and there are enough of them. -/
theorem iterate_repeats (grounded : Grounded equation f facts)
    (bounded : ∀ b set, facts.get? b = some set → set.Within tracked) {rounds : Nat}
    (enough : blocks.length * (tracked.size + 1) < rank tracked blocks facts + rounds) :
    Repeats (round equation blocks) facts (iterate (round equation blocks) rounds facts) := by
  induction rounds generalizing facts with
  | zero =>
    have := rank_le tracked blocks facts
    omega
  | succ rounds ih =>
    obtain ⟨nextBounded, grows⟩ :=
      foldl_record_grows growing inside blocks (facts, false) mem (fun _ => id) grounded bounded
    have next := (round_grounded growing mem grounded).1
    simp only [iterate]
    cases changed : (round equation blocks facts).2 with
    | false => exact .last (Prod.ext rfl changed)
    | true =>
      have more := (grows changed).resolve_left (by simp)
      refine .again (Prod.ext rfl changed) (ih next nextBounded ?_)
      change _ < rank tracked blocks (round equation blocks facts).1 + rounds
      change rank tracked blocks facts < rank tracked blocks (round equation blocks facts).1 at more
      omega

/-- From no facts at all, the rounds of an analysis come to an end. -/
theorem roundBound_repeats :
    Repeats (round equation blocks) empty (iterate (round equation blocks) (roundBound blocks tracked) empty) := by
  have nothing : ∀ b (set : CellSet), (empty : Facts).get? b ≠ some set := fun _ _ => nofun
  refine iterate_repeats growing inside mem (fun b _ set _ present => absurd present (nothing b set))
    (fun b set present => absurd present (nothing b set)) ?_
  simp only [roundBound]
  omega

end

theorem iterate_keeps (Keeps : Facts → Prop)
    (records : ∀ facts, Keeps facts → ∀ e ∈ blocks, Keeps (facts.insert e.1 (equation facts e.2)))
    (rounds : Nat) (holds : Keeps facts) : Keeps (iterate (round equation blocks) rounds facts) := by
  have each : ∀ (some : List (BlockId × Block)) (s : Facts × Bool), (∀ e ∈ some, e ∈ blocks) →
      Keeps s.1 → Keeps (some.foldl (visit equation) s).1 := by
    intro some
    induction some with
    | nil => exact fun _ _ holds => holds
    | cons e rest ih =>
      intro s among holds
      refine ih _ (List.forall_mem_cons.mp among).2 ?_
      unfold visit record
      split
      · exact holds
      · exact records _ holds e (among e (.head _))
  induction rounds generalizing facts with
  | zero => exact holds
  | succ rounds ih =>
    have next : Keeps (round equation blocks facts).1 := each blocks (facts, false) (fun _ => id) holds
    simp only [iterate]
    split
    · exact ih next
    · exact next

end CellFlow

namespace Func

variable {order : List BlockId}

theorem blocksOf_listed (res : f.blocksOf order = .ok blocks) : CellFlow.Listed f blocks := by
  intro e isListed
  obtain ⟨i, isEntry⟩ := List.getElem?_of_mem isListed
  obtain ⟨b, _, found⟩ := mapM_getElem? res isEntry
  obtain ⟨body, got, rfl⟩ := bind_pure_inv found
  exact present_eq_ok.mp got

/-- Every named block is listed. -/
theorem blocksOf_covers (res : f.blocksOf order = .ok blocks) (isNamed : b ∈ order)
    (found : f.block? b = some body) : (b, body) ∈ blocks := by
  obtain ⟨i, isBlock⟩ := List.getElem?_of_mem isNamed
  have inside : i < blocks.length := by
    rw [mapM_length res]
    exact lt_length isBlock
  obtain ⟨origin, isOrigin, transformed⟩ := mapM_getElem? res (List.getElem?_eq_getElem inside)
  obtain rfl := mem_unique isBlock isOrigin
  obtain ⟨o, got, same⟩ := bind_inv transformed
  obtain rfl := mem_unique found (present_eq_ok.mp got)
  rw [pure_inv same]
  exact List.getElem_mem inside

end Func

end SinglePath
