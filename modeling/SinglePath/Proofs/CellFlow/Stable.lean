import SinglePath.Proofs.CellFlow.DeadStores
import SinglePath.Proofs.CellFlow.Dropped
import SinglePath.Proofs.CellFlow.RedundantLoads

/-!
Both analyses come to an end, and what they drop is dropped at once.
-/

namespace SinglePath

open Block Bool CellSet List Option Table

variable {guards : GReg} {blocks : List (BlockId × Block)} {func : Func}

/-- The set has at most one member. -/
def CellSet.Single (set : CellSet) : Prop :=
  ∀ first second, set.contains first = true → set.contains second = true → first = second

namespace CellFlow

variable {tracked : CellSet} {inst : Inst}

/-- The rounds never lead above facts that leave room for what the equation gives each block. -/
theorem iterate_below {equation : Equation} (growing : Growing equation) {more : Facts}
    (room : ∀ e ∈ blocks, ∃ larger, more.get? e.1 = some larger ∧ (equation more e.2).Within larger)
    (rounds : Nat) : Below (iterate (round equation blocks) rounds empty) more := by
  have start : Below empty more := fun _ _ present => nomatch present
  refine iterate_keeps (Below · more) (fun facts below e mem => ?_) rounds start
  intro b set got
  rw [get?_insert] at got
  split at got
  · rename_i same
    obtain ⟨larger, isLarger, within⟩ := room e mem
    cases got
    exact ⟨larger, same ▸ isLarger, (growing _ _ below _).trans within⟩
  · exact below b set got

section

variable {available : CellSet} {outs : Facts}

theorem single_transferAvailable (single : available.Single) (inst : Inst) :
    (transferAvailable guards tracked available inst).Single := by
  have unit : ∀ c, (unit c).Single := fun c first second => by simp +contextual
  have empty : empty.Single := fun first second => by simp
  unfold transferAvailable
  simp only
  split
  · split
    · exact unit _
    · exact empty
  · exact unit _
  · split
    · exact empty
    · split
      · intro first second isFirst isSecond
        simp only [contains_erase, and_eq_true] at isFirst isSecond
        exact single first second isFirst.2 isSecond.2
      · exact single

theorem single_foldl_transferAvailable (single : available.Single) (code : List Inst) :
    (code.foldl (transferAvailable guards tracked) available).Single := by
  induction code generalizing available with
  | nil => exact single
  | cons inst rest ih => exact ih (single_transferAvailable single inst)

theorem single_availableIn (single : ∀ b set, outs.get? b = some set → set.Single)
    (body : Block) : (availableIn outs body).Single := by
  intro first second isFirst isSecond
  cases preds : body.preds with
  | nil => simp [availableIn, preds] at isFirst
  | cons pred rest =>
    have isPred : pred ∈ body.preds := by simp [preds]
    obtain ⟨out, got, firstOut⟩ := availableIn_within isPred first isFirst
    obtain ⟨same, foundSame, secondOut⟩ := availableIn_within isPred second isSecond
    obtain rfl := mem_unique got foundSame
    exact single pred out got first second firstOut secondOut

theorem single_availableCells (b : BlockId) (set : CellSet)
    (got : (Func.availableCells guards tracked blocks).get? b = some set) : set.Single := by
  have start : ∀ b set, (empty : Facts).get? b = some set → set.Single := fun _ _ present => nomatch present
  revert b set
  refine iterate_keeps (fun facts => ∀ b set, facts.get? b = some set → set.Single)
    (fun facts single e _ o set got => ?_) (roundBound blocks tracked) start
  rw [get?_insert] at got
  split at got
  · cases got
    exact single_foldl_transferAvailable (single_availableIn single e.2) e.2.insts
  · exact single o set got

theorem transferAvailable_within (within : available.Within tracked) (inst : Inst) :
    (transferAvailable guards tracked available inst).Within tracked := by
  intro c
  unfold transferAvailable
  simp only
  split
  · split <;> simp_all
  · simp_all
  · split
    · simp
    · split
      · simp only [contains_erase, and_eq_true]
        exact fun isMember => within c isMember.2
      · exact within c

theorem availableOut_within (bounded : ∀ b set, outs.get? b = some set → set.Within tracked)
    (body : Block) : (availableOut guards tracked outs body).Within tracked := by
  have folded : ∀ (code : List Inst) (available : CellSet), available.Within tracked →
      (code.foldl (transferAvailable guards tracked) available).Within tracked := by
    intro code
    induction code with
    | nil => exact fun _ within => within
    | cons inst rest ih => exact fun _ within => ih _ (transferAvailable_within within inst)
  refine folded body.insts _ fun c isMember => ?_
  cases preds : body.preds with
  | nil => simp [availableIn, preds] at isMember
  | cons pred rest =>
    have isPred : pred ∈ body.preds := by simp [preds]
    obtain ⟨out, got, isOut⟩ := availableIn_within isPred c isMember
    exact bounded pred out got c isOut

theorem availableCells_repeats (mem : Listed func blocks) :
    Repeats (availableRound guards tracked blocks) empty (Func.availableCells guards tracked blocks) :=
  roundBound_repeats availableOut_growing (fun _ _ => availableOut_within) mem

theorem within_of_redundant (single : available.Single)
    (redundant : isRedundantLoad guards tracked available inst = true) :
    available.Within (transferAvailable guards tracked available inst) := by
  intro o isOther
  unfold isRedundantLoad at redundant
  split at redundant
  · rename_i dst c isLoad
    simp only [and_eq_true, decide_eq_true_eq] at redundant
    obtain ⟨⟨rfl, isTracked⟩, isMember⟩ := redundant
    simp [transferAvailable, isLoad, Option.filter, isTracked, single o c isOther isMember]
  · cases redundant

/-- Where no more is held than before, no load of the kept code is redundant, and no more is held after it. -/
theorem keepLoads_again {fewer : CellSet} (single : available.Single) (within : fewer.Within available)
    (code : List Inst) :
    keepLoads guards tracked fewer (keepLoads guards tracked available code) = keepLoads guards tracked available code ∧
      ((keepLoads guards tracked available code).foldl (transferAvailable guards tracked) fewer).Within
        (code.foldl (transferAvailable guards tracked) available) := by
  induction code generalizing available fewer with
  | nil => exact ⟨rfl, within⟩
  | cons inst rest ih =>
    have singleAfter : (transferAvailable guards tracked available inst).Single := single_transferAvailable single inst
    rw [keepLoads]
    split
    · rename_i redundant
      exact ih singleAfter (within.trans (within_of_redundant single redundant))
    · rename_i needed
      obtain ⟨again, withinAfter⟩ := ih singleAfter (transferAvailable_mono within inst)
      refine ⟨?_, withinAfter⟩
      rw [keepLoads, if_neg fun redundant => needed (isRedundantLoad_mono within redundant), again]

end

variable {live more : CellSet}

theorem within_of_dead (dead : isDeadStore tracked live inst = true) (after : CellSet) :
    (transferLive tracked inst after).Within after := by
  obtain ⟨c, src, isStore, _⟩ := isDeadStore_eq_true dead
  intro o isMember
  rcases (contains_transferLive inst after o).mp isMember with ⟨isRead, _⟩ | ⟨isLive, _⟩
  · simp [Inst.readsCell, (Inst.cellStore_eq_some.mp isStore).1] at isRead
  · exact isLive

theorem foldr_keepStores_within {after : CellSet} (within : after.Within more) (code : List Inst) :
    (code.foldr (transferLive tracked) after).Within
      ((keepStores tracked live code).1.foldr (transferLive tracked) more) := by
  induction code with
  | nil => exact within
  | cons inst rest ih =>
    simp only [keepStores]
    split
    · rename_i dead
      exact (within_of_dead dead _).trans ih
    · exact transferLive_mono ih inst

theorem keepStores_again (within : live.Within more) (code : List Inst) :
    (keepStores tracked more (keepStores tracked live code).1).1 = (keepStores tracked live code).1 := by
  induction code with
  | nil => rfl
  | cons inst rest ih =>
    have kept : (rest.foldr (transferLive tracked) live).Within
        ((keepStores tracked live rest).1.foldr (transferLive tracked) more) := foldr_keepStores_within within rest
    simp only [keepStores]
    split
    · exact ih
    · rename_i needed
      simp only [keepStores, ih]
      refine if_neg fun dead => needed ?_
      obtain ⟨c, src, isStore, isTracked, notLive⟩ := isDeadStore_eq_true dead
      rw [keepStores_snd] at notLive
      have wasDead : (rest.foldr (transferLive tracked) live).contains c = false :=
        eq_false_iff.mpr fun isLive => by simp [kept c isLive] at notLive
      simp [isDeadStore, isStore, isTracked, keepStores_snd, wasDead]

end CellFlow

namespace Func

open CellFlow

variable {next : Func} {keep : Block → List Inst} {order : List BlockId} {cells : List CellId} {n : Nat}

theorem reversePostorderFrom_congr (same : ∀ b, (next.block? b).map succs = (func.block? b).map succs)
    (steps : Nat) (stack : List (BlockId × List BlockId)) (visited done : List BlockId) :
    next.reversePostorderFrom steps stack visited done = func.reversePostorderFrom steps stack visited done := by
  induction steps generalizing stack visited done with
  | zero => cases stack <;> rfl
  | succ steps ih =>
    match stack with
    | [] => rfl
    | (b, []) :: stack => exact ih stack visited (b :: done)
    | (b, succ :: rest) :: stack =>
      simp only [reversePostorderFrom, ih, get]
      have got := same succ
      cases isOld : func.block? succ <;> cases isNew : next.block? succ <;> simp_all

theorem Trimmed.reversePostorder_eq (trimmed : Trimmed keep order func next) :
    next.reversePostorder = func.reversePostorder := by
  have same : ∀ b, (next.block? b).map succs = (func.block? b).map succs := trimmed.map_eq fun _ _ => rfl
  have succs : next.blocks.map succs = func.blocks.map succs :=
    ext_getElem? fun index => by simpa [Func.block?] using same ⟨index⟩
  have edges : next.edgeCount = func.edgeCount := by
    simpa [edgeCount, Function.comp_def] using congrArg (fun lists => (lists.map List.length).sum) succs
  have got := same func.entry
  simp only [reversePostorder, trimmed.entry, edges, trimmed.length, reversePostorderFrom_congr same, get]
  cases isOld : func.block? func.entry <;> cases isNew : next.block? func.entry <;> simp_all

theorem Trimmed.blocksOf_ok (trimmed : Trimmed keep order func next) (gathered : func.blocksOf order = .ok blocks) :
    ∃ kept, next.blocksOf order = .ok kept ∧ ∀ e ∈ kept, ∃ body, (e.1, body) ∈ blocks ∧
      func.block? e.1 = some body ∧ e.2 = { body with insts := keep body } := by
  have known : ∀ b ∈ order, ∃ body, func.block? b = some body := by
    intro b isNamed
    rw [← blocksOf_keys gathered] at isNamed
    obtain ⟨e, mem, rfl⟩ := mem_map.mp isNamed
    exact ⟨e.2, blocksOf_listed gathered e mem⟩
  have knownAgain : ∀ b ∈ order, ∃ body, next.block? b = some body := fun b isNamed => by
    obtain ⟨body, got⟩ := known b isNamed
    exact ⟨_, by rw [trimmed.block?, got, map_some]⟩
  obtain ⟨kept, gatheredAgain⟩ := Func.blocksOf_ok knownAgain
  refine ⟨kept, gatheredAgain, fun e mem => ?_⟩
  have isNamed : e.1 ∈ order := blocksOf_keys gatheredAgain ▸ mem_map_of_mem mem
  obtain ⟨body, got⟩ := known e.1 isNamed
  have isKept := blocksOf_listed gatheredAgain e mem
  rw [trimmed.block?, got, map_some, if_pos isNamed] at isKept
  exact ⟨body, blocksOf_covers gathered isNamed got, got, (some.inj isKept).symm⟩

theorem shrink_unchanged (mem : Listed func blocks) (all : ∀ e ∈ blocks, keep e.2 = e.2.insts) :
    func.shrink blocks keep = (0, func) := by
  have stays : ∀ e ∈ blocks, (func.modify e.1 fun body => { body with insts := e.2.insts }) = func := by
    intro e isListed
    have got := mem e isListed
    have same : func.blocks.modify e.1.index (fun body => { body with insts := e.2.insts }) = func.blocks := by
      refine ext_getElem? fun index => ?_
      rw [getElem?_modify]
      split
      · rename_i isHere
        rw [← isHere, show func.blocks[e.1.index]? = some e.2 from got]
        rfl
      · simp
    rw [modify, same]
  unfold shrink
  induction blocks with
  | nil => rfl
  | cons e rest ih =>
    rw [foldl_cons]
    simp only [all e (mem_cons_self ..), stays e (mem_cons_self ..), Nat.sub_self, Nat.add_zero]
    exact ih (forall_mem_cons.mp mem).2 (forall_mem_cons.mp all).2 fun o isLater => stays o (.tail _ isLater)

theorem dropRedundantLoads_again (dropped : func.dropRedundantLoads guards cells = .ok (n, next)) :
    next.dropRedundantLoads guards cells = .ok (0, next) := by
  obtain ⟨order, traversed, blocks, gathered, dropped⟩ := bind_bind_inv dropped
  have isNext : (func.shrink blocks (loadsKept guards (ofList cells) _)).2 = next :=
    congrArg Prod.snd (pure_inv dropped)
  generalize isTracked : ofList cells = tracked at isNext
  have trimmed : Trimmed (loadsKept guards tracked (availableCells guards tracked blocks)) order func next :=
    isNext ▸ (shrink_trimmed _ gathered).1
  obtain ⟨kept, gatheredAgain, origin⟩ := trimmed.blocksOf_ok gathered
  have settled : Settled (availableOut guards tracked) blocks (availableCells guards tracked blocks) :=
    (availableCells_repeats (blocksOf_listed gathered)).settled
  have single : ∀ body, (availableIn (availableCells guards tracked blocks) body).Single :=
    single_availableIn single_availableCells
  -- The first facts leave room for the second analysis, so they bound what it finds.
  have below : Below (availableCells guards tracked kept) (availableCells guards tracked blocks) := by
    refine iterate_below availableOut_growing (fun e mem => ?_) _
    obtain ⟨body, isListed, _, same⟩ := origin e mem
    obtain ⟨set, got, isSet⟩ := settled _ isListed
    refine ⟨set, got, fun c isMember => ?_⟩
    rw [same] at isMember
    rw [isSet]
    exact (keepLoads_again (single body) (fun _ => id) body.insts).2 c isMember
  rw [dropRedundantLoads, trimmed.reversePostorder_eq, traversed, ok_bind, gatheredAgain, isTracked]
  refine congrArg Except.ok (shrink_unchanged (blocksOf_listed gatheredAgain) fun e mem => ?_)
  obtain ⟨body, _, _, same⟩ := origin e mem
  rw [same]
  exact (keepLoads_again (single body) (availableIn_mono below body) body.insts).1

theorem dropDeadStores_again (dropped : func.dropDeadStores cells = .ok (n, next)) :
    next.dropDeadStores cells = .ok (0, next) := by
  obtain ⟨order, traversed, blocks, gathered, dropped⟩ := bind_bind_inv dropped
  have isNext : (func.shrink blocks (storesKept (ofList cells) _)).2 = next := congrArg Prod.snd (pure_inv dropped)
  generalize isTracked : ofList cells = tracked at isNext
  have trimmed : Trimmed (storesKept tracked (liveCells tracked blocks)) order.reverse func next :=
    isNext ▸ (shrink_trimmed _ gathered).1
  obtain ⟨kept, gatheredAgain, origin⟩ := trimmed.blocksOf_ok gathered
  have settled : Settled (liveIn tracked) kept (liveCells tracked kept) :=
    (liveCells_repeats (blocksOf_listed gatheredAgain)).settled
  -- The second facts leave room for the first analysis, so nothing is live that is not live again.
  have below : Below (liveCells tracked blocks) (liveCells tracked kept) := by
    refine iterate_below liveIn_growing (fun e mem => ?_) _
    have got := blocksOf_listed gathered e mem
    have isNamed : e.1 ∈ order.reverse := blocksOf_keys gathered ▸ mem_map_of_mem mem
    have foundAgain := trimmed.block? e.1
    rw [got, map_some, if_pos isNamed] at foundAgain
    obtain ⟨set, isSet, same⟩ := settled _ (blocksOf_covers gatheredAgain isNamed foundAgain)
    refine ⟨set, isSet, fun c isMember => ?_⟩
    rw [same]
    exact foldr_keepStores_within (fun _ => id) e.2.insts c isMember
  rw [dropDeadStores, trimmed.reversePostorder_eq, traversed, ok_bind, gatheredAgain, isTracked]
  refine congrArg Except.ok (shrink_unchanged (blocksOf_listed gatheredAgain) fun e mem => ?_)
  obtain ⟨body, _, _, same⟩ := origin e mem
  rw [same]
  refine keepStores_again (fun c isLive => ?_) body.insts
  rw [contains_liveOut] at isLive ⊢
  obtain ⟨succ, isSucc, set, got, isMember⟩ := isLive
  obtain ⟨larger, isLarger, within⟩ := below succ set got
  exact ⟨succ, isSucc, larger, isLarger, within c isMember⟩

/-- In a function whose edges lead to blocks that it has, the rounds of both analyses come to an end with the sets that
the passes use, and each pass drops nothing from the function that it has left. -/
theorem drops_settle (closed : func.Closed) (guards : GReg) (cells : List CellId) :
    (∃ order blocks reversed, func.reversePostorder = .ok order ∧ func.blocksOf order = .ok blocks ∧
      func.blocksOf order.reverse = .ok reversed ∧
      Repeats (availableRound guards (CellSet.ofList cells) blocks) Table.empty
        (availableCells guards (CellSet.ofList cells) blocks) ∧
      Repeats (liveRound (CellSet.ofList cells) reversed) Table.empty (liveCells (CellSet.ofList cells) reversed)) ∧
    (∃ count next, func.dropRedundantLoads guards cells = .ok (count, next) ∧
      next.dropRedundantLoads guards cells = .ok (0, next)) ∧
    ∃ count next, func.dropDeadStores cells = .ok (count, next) ∧ next.dropDeadStores cells = .ok (0, next) := by
  obtain ⟨order, traversed⟩ := closed.reversePostorder_ok
  have known := closed.known traversed
  obtain ⟨blocks, gathered⟩ := blocksOf_ok known
  obtain ⟨reversed, gatheredBack⟩ := blocksOf_ok fun block isNamed => known block (List.mem_reverse.mp isNamed)
  have loads : func.dropRedundantLoads guards cells = .ok (func.shrink blocks
      (loadsKept guards (CellSet.ofList cells) (availableCells guards (CellSet.ofList cells) blocks))) := by
    rw [dropRedundantLoads, traversed, ok_bind, gathered]
    rfl
  have stores : func.dropDeadStores cells = .ok (func.shrink reversed
      (storesKept (CellSet.ofList cells) (liveCells (CellSet.ofList cells) reversed))) := by
    rw [dropDeadStores, traversed, ok_bind, gatheredBack]
    rfl
  exact ⟨⟨order, blocks, reversed, traversed, gathered, gatheredBack, availableCells_repeats (blocksOf_listed gathered),
      liveCells_repeats (blocksOf_listed gatheredBack)⟩,
    ⟨_, _, loads, dropRedundantLoads_again loads⟩, _, _, stores, dropDeadStores_again stores⟩

/-- Without the second load of its loop the register is not known to hold the cell at the start of a turn, and still a
second pass drops nothing. -/
theorem drops_settle_reloading : reloadingFunc.Closed ∧
    (∃ next, reloadingFunc.dropRedundantLoads ⟨26⟩ [⟨0⟩] = .ok (2, next) ∧
      next.dropRedundantLoads ⟨26⟩ [⟨0⟩] = .ok (0, next)) ∧
    ∃ count next, reloadingFunc.dropDeadStores [⟨0⟩] = .ok (count, next) ∧
    next.dropDeadStores [⟨0⟩] = .ok (0, next) := by
  have closed : reloadingFunc.Closed := .of_numbers (by decide) (by decide)
  obtain ⟨_, ⟨count, next, dropped, again⟩, stores⟩ := drops_settle closed ⟨26⟩ [⟨0⟩]
  have counted : (reloadingFunc.dropRedundantLoads ⟨26⟩ [⟨0⟩]).map Prod.fst = .ok 2 := by decide +kernel
  rw [dropped] at counted
  obtain rfl : count = 2 := Except.ok.inj counted
  exact ⟨closed, ⟨next, dropped, again⟩, stores⟩

end Func

end SinglePath
