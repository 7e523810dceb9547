import SinglePath.Shape
import SinglePath.Proofs.Func.Code
import SinglePath.Proofs.Straight.Chaining
import SinglePath.Proofs.Straight.Defining

namespace SinglePath

open List Nat Woven

variable {inst o : Inst} {code new first second : List Inst} {plan : Plan} {guard : PReg} {b : BlockId}
  {c : Block} {i : Nat}

namespace Inst

/-- The instruction without its guard and without kill flags. -/
def bare (inst : Inst) : Inst := { inst with guard := .always, op := inst.op.mapConds Cond.withoutKill }

@[simp] theorem bare_withGuard (inst : Inst) (guard : Cond) : (inst.withGuard guard).bare = inst.bare := rfl

theorem isBranch_bare (inst : Inst) : inst.bare.isBranch = inst.isBranch := by
  obtain ⟨guard, setup, op⟩ := inst
  cases op <;> rfl

theorem isBranch_of_bare (same : o.bare = inst.bare) : o.isBranch = inst.isBranch := by
  rw [← isBranch_bare, same, isBranch_bare]

theorem frameSetup_of_bare (same : o.bare = inst.bare) : o.frameSetup = inst.frameSetup :=
  show o.bare.frameSetup = inst.bare.frameSetup from congrArg frameSetup same

end Inst

theorem SameButKills.bare {o : List Inst} (same : SameButKills code o) : o.map Inst.bare = code.map Inst.bare := by
  have bared : Inst.bare = (fun inst : Inst => { inst with guard := .always }) ∘ Inst.unkilled := rfl
  rw [bared, ← map_map, same, map_map]

section

theorem stripped_map_bare (code : List Inst) : stripped (code.map Inst.bare) = (stripped code).map Inst.bare ∧
      trailing (code.map Inst.bare) = (trailing code).map Inst.bare := by
  have sameBranch : Inst.isBranch ∘ Inst.bare = Inst.isBranch := funext Inst.isBranch_bare
  constructor
  · rw [stripped, stripped, ← map_reverse, dropWhile_map, sameBranch, map_reverse]
  · rw [trailing, trailing, ← map_reverse, takeWhile_map, sameBranch, map_reverse]

theorem terminatorStart_le (b : Block) : b.terminatorStart ≤ (stripped b.insts).length := by
  have parts := stripped_append_trailing b.insts
  have reversed : ∀ inst ∈ (trailing b.insts).reverse, inst.isTerminator = true := fun inst mem => by
    rw [Inst.isTerminator, isBranch_of_mem_trailing (mem_reverse.mp mem), Bool.true_or]
  rw [Block.terminatorStart, ← parts, reverse_append, takeWhile_append_of_pos reversed, parts]
  simp only [length_append, length_reverse]
  have total := congrArg length parts
  rw [length_append] at total
  omega

theorem setupLength_le (b : Block) (plain : ∀ inst ∈ trailing b.insts, inst.frameSetup = false) :
    b.setupLength ≤ (stripped b.insts).length := by
  have none : (trailing b.insts).takeWhile (·.frameSetup) = [] := by
    cases isTrailing : trailing b.insts with
    | nil => rfl
    | cons inst rest => simp [plain inst (by rw [isTrailing]; exact .head _)]
  have whole : b.setupLength = ((stripped b.insts ++ trailing b.insts).takeWhile (·.frameSetup)).length := by
    rw [stripped_append_trailing, Block.setupLength]
  rw [whole, takeWhile_append, none]
  split
  · simp
  · exact (takeWhile_sublist _).length_le

end

namespace Plan

variable {last more : List Inst}

/-- Instructions of the plan are woven into the code. -/
def Weaves (plan : Plan) (code new : List Inst) : Prop :=
  Woven (fun old new => new.bare = old.bare) plan.Own code new

theorem ownOp_mapConds (plan : Plan) (change : Cond → Cond) (op : Op) :
    plan.OwnOp (op.mapConds change) ↔ plan.OwnOp op := by
  cases op <;> exact Iff.rfl

theorem Own.of_bare (own : plan.Own inst) (same : o.bare = inst.bare) : plan.Own o := by
  refine ⟨(Inst.frameSetup_of_bare same).trans own.1, ?_⟩
  rw [← plan.ownOp_mapConds Cond.withoutKill]
  change plan.OwnOp o.bare.op
  rw [same]
  exact (plan.ownOp_mapConds Cond.withoutKill _).mpr own.2

namespace Weaves

theorem refl (code : List Inst) : plan.Weaves code code := by
  apply Woven.refl
  intro inst
  rfl

theorem trans (first : plan.Weaves code new) (second : plan.Weaves new last) : plan.Weaves code last :=
  Woven.trans first second (fun _ _ _ one two => two.trans one) fun _ _ own same => own.of_bare same

theorem append {moreNew : List Inst} (first : plan.Weaves code new) (second : plan.Weaves more moreNew) :
    plan.Weaves (code ++ more) (new ++ moreNew) :=
  Woven.append first second

theorem of_own (own : plan.OwnCode code) : plan.Weaves [] code := of_made own

theorem of_bare (same : new.map Inst.bare = code.map Inst.bare) : plan.Weaves code new := by
  induction code generalizing new with
  | nil =>
    obtain rfl := map_eq_nil_iff.mp same
    exact refl []
  | cons inst rest ih =>
    obtain ⟨o, others, rfl, sameInst, sameRest⟩ := map_eq_cons_iff.mp same
    exact .keep sameInst (ih sameRest)

/-- One instruction, with instructions of the plan before and after it. -/
theorem around {before after : List Inst} (ownBefore : plan.OwnCode before)
    (same : o.bare = inst.bare) (ownAfter : plan.OwnCode after) : plan.Weaves [inst] (before ++ o :: after) :=
  (of_own ownBefore).append (.keep same (of_own ownAfter))

end Weaves

/-- The code does not end in a branch. -/
def EndsPlain (code : List Inst) : Prop := ∀ inst, code.getLast? = some inst → inst.isBranch = false

theorem EndsPlain.append (one : EndsPlain first) (two : EndsPlain second) : EndsPlain (first ++ second) := by
  intro inst isLast
  cases isSecond : second.getLast? with
  | none => exact one inst (by simpa [isSecond] using isLast)
  | some o => exact two inst (by simpa [isSecond] using isLast)

theorem EndsPlain.of_second (first : List Inst) (two : EndsPlain second) (some : second ≠ []) :
    EndsPlain (first ++ second) := by
  intro inst isLast
  obtain ⟨last, isSecond⟩ := getLast?_isSome.mpr some |> Option.isSome_iff_exists.mp
  rw [getLast?_append, isSecond] at isLast
  exact two inst (isSecond.trans isLast)

theorem OwnCode.endsPlain (own : plan.OwnCode code) : EndsPlain code :=
  fun inst isLast => (own inst (mem_of_getLast? isLast)).not_isBranch

/-- The code of a block is carried over: instructions of the plan are woven into it, and its trailing branches stay. -/
structure Carries (plan : Plan) (code new : List Inst) : Prop where
  body : plan.Weaves (stripped code) (stripped new)
  branches : (trailing new).map Inst.bare = (trailing code).map Inst.bare

namespace Carries

theorem trans (first : plan.Carries code new) (second : plan.Carries new last) : plan.Carries code last :=
  ⟨first.body.trans second.body, second.branches.trans first.branches⟩

theorem of_parts {body branches : List Inst} (weaves : plan.Weaves (stripped code) body) (ends : EndsPlain body)
    (same : branches.map Inst.bare = (trailing code).map Inst.bare) : plan.Carries code (body ++ branches) := by
  have only : ∀ inst ∈ branches, inst.isBranch = true := by
    intro inst mem
    have isBare : inst.bare ∈ (trailing code).map Inst.bare := same ▸ mem_map_of_mem mem
    obtain ⟨o, isTrailing, sameBare⟩ := mem_map.mp isBare
    rw [← Inst.isBranch_of_bare sameBare, isBranch_of_mem_trailing isTrailing]
  obtain ⟨isBody, isBranches⟩ := stripped_eq ends only
  exact ⟨by rwa [isBody], by rwa [isBranches]⟩

theorem of_bare (same : new.map Inst.bare = code.map Inst.bare) : plan.Carries code new where
  body := .of_bare (by rw [← (stripped_map_bare new).1, same, (stripped_map_bare code).1])
  branches := by rw [← (stripped_map_bare new).2, same, (stripped_map_bare code).2]

/-- Code of the plan is inserted before the trailing branches. -/
theorem insertedAt (inside : i ≤ (stripped code).length)
    (own : plan.OwnCode more) : plan.Carries code (insertedAt i more code) := by
  have parts : SinglePath.insertedAt i more code =
      ((stripped code).take i ++ more ++ (stripped code).drop i) ++ trailing code := by
    rw [SinglePath.insertedAt, ← stripped_append_trailing code, take_append_of_le_length inside,
      drop_append_of_le_length inside, stripped_append_trailing]
    simp
  rw [parts]
  refine of_parts ?_ ?_ rfl
  · have weaves := ((Weaves.refl ((stripped code).take i)).append (.of_own own)).append
      (Weaves.refl ((stripped code).drop i))
    rwa [append_nil, take_append_drop] at weaves
  · intro inst isLast
    rw [getLast?_append] at isLast
    cases isRest : ((stripped code).drop i).getLast? with
    | some o =>
      obtain rfl : o = inst := by simpa [isRest] using isLast
      have isStripped : (stripped code).getLast? = some o := by
        rw [← take_append_drop i (stripped code), getLast?_append, isRest]
        rfl
      exact stripped_getLast? isStripped
    | none =>
      have whole : (stripped code).take i = stripped code :=
        take_of_length_le (drop_eq_nil_iff.mp (getLast?_eq_none_iff.mp isRest))
      rw [isRest, whole] at isLast
      exact EndsPlain.append (fun _ => stripped_getLast?) own.endsPlain inst (by simpa using isLast)

/-- The trailing branches are still no frame setup. -/
theorem plain (carries : plan.Carries code new) (isPlain : ∀ inst ∈ trailing code, inst.frameSetup = false) :
    ∀ inst ∈ trailing new, inst.frameSetup = false := by
  intro inst mem
  have isBare : inst.bare ∈ (trailing code).map Inst.bare := carries.branches ▸ mem_map_of_mem mem
  obtain ⟨o, isTrailing, same⟩ := mem_map.mp isBare
  rw [← Inst.frameSetup_of_bare same, isPlain o isTrailing]

end Carries

end Plan

namespace Predication

variable {returnInfo : NumberSet} {insts : List Inst}

theorem codeAt_around (emitted : (plan.predication guard).codeAt b c returnInfo i inst = .ok code) :
    ∃ before o after, code = before ++ o :: after ∧ plan.OwnCode before ∧ o.bare = inst.bare ∧
      plan.OwnCode after := by
  have alone : ∀ o : Inst, o.bare = inst.bare → ∃ before other' after, [o] = before ++ other' :: after ∧
      plan.OwnCode before ∧ other'.bare = inst.bare ∧ plan.OwnCode after :=
    fun o same => ⟨[], o, [], rfl, .nil, same, .nil⟩
  unfold codeAt at emitted
  split at emitted
  · cases emitted
    exact alone inst rfl
  unfold instCode at emitted
  split at emitted
  · split at emitted
    · exact absurd emitted refuse_ne_ok
    · split at emitted
      · exact absurd emitted refuseTree_ne_ok
      · rename_i cell isCell
        cases emitted
        have own := Plan.callCell_own isCell
        refine ⟨[.movePred .always plan.temporary (.holds guard), .storeCell cell plan.regs.returnInfo], inst,
          [.loadCell plan.regs.returnInfo cell], rfl, ?_, rfl, ?_⟩
        · simp only [Plan.OwnCode.cons_iff]
          exact ⟨⟨rfl, .inr (.inl rfl)⟩, ⟨rfl, .inr rfl, own⟩, .nil⟩
        · exact Plan.OwnCode.cons_iff.mpr ⟨⟨rfl, .inr rfl, own⟩, .nil⟩
  · cases emitted
    unfold guardCode
    split
    · exact alone inst rfl
    · split
      · exact alone _ (Inst.bare_withGuard inst _)
      · split
        · exact alone inst rfl
        · exact ⟨[.andPreds plan.temporary (.holds guard) inst.guard], _, [], rfl,
            Plan.OwnCode.cons_iff.mpr ⟨⟨rfl, .inr (.inl rfl)⟩, .nil⟩, Inst.bare_withGuard inst _, .nil⟩

/-- Predication weaves its code into the instructions. -/
theorem codeFrom_weaves (emitted : (plan.predication guard).codeFrom b c returnInfo i insts = .ok code) :
    plan.Weaves insts code ∧ (Plan.EndsPlain insts → Plan.EndsPlain code) := by
  induction insts generalizing i code with
  | nil =>
    cases emitted
    exact ⟨.refl [], id⟩
  | cons inst rest ih =>
    obtain ⟨first, isFirst, later, isLater, rfl⟩ := bind_bind_pure_inv emitted
    obtain ⟨weaves, ends⟩ := ih isLater
    obtain ⟨before, o, after, rfl, ownBefore, same, ownAfter⟩ := codeAt_around isFirst
    refine ⟨(Plan.Weaves.around ownBefore same ownAfter).append weaves, fun plain => ?_⟩
    cases rest with
    | nil =>
      cases isLater
      rw [append_nil]
      have notBranch : o.isBranch = false := by rw [Inst.isBranch_of_bare same, plain inst rfl]
      have alone : Plan.EndsPlain [o] := fun _ isLast => by
        obtain rfl : o = _ := by simpa using isLast
        exact notBranch
      exact .of_second before (alone.append ownAfter.endsPlain) (by simp)
    | cons second others =>
      have some : later ≠ [] := by
        rintro rfl
        cases weaves
      exact .of_second _ (ends fun last isLast => plain last (by simpa using isLast)) some

theorem codeFrom_append (emitted : (plan.predication guard).codeFrom b c returnInfo i (first ++ second) = .ok code) :
    ∃ one two, (plan.predication guard).codeFrom b c returnInfo i first = .ok one ∧
      (plan.predication guard).codeFrom b c returnInfo (i + first.length) second = .ok two ∧
      code = one ++ two := by
  induction first generalizing i code with
  | nil => exact ⟨[], code, rfl, emitted, rfl⟩
  | cons inst rest ih =>
    obtain ⟨head, isHead, later, isLater, rfl⟩ := bind_bind_pure_inv emitted
    obtain ⟨one, two, isOne, isTwo, rfl⟩ := ih isLater
    refine ⟨head ++ one, two, bind_ok isHead <| bind_ok isOne rfl, ?_, by simp⟩
    rw [length_cons, add_comm rest.length, ← add_assoc]
    exact isTwo

/-- What ends a block is left as it is. -/
theorem codeFrom_terminators {predication : Predication} (late : c.terminatorStart ≤ i) :
    predication.codeFrom b c returnInfo i insts = .ok insts := by
  induction insts generalizing i with
  | nil => rfl
  | cons inst rest ih =>
    have exempt : isExempt c returnInfo inst i = true := by simp [isExempt, late]
    rw [codeFrom, codeAt, if_pos exempt, ih (le_succ_of_le late)]
    rfl

/-- Predication carries the code of a block. -/
theorem blockCode_carries (emitted : (plan.predication guard).blockCode b c = .ok code) :
    plan.Carries c.insts code := by
  unfold blockCode at emitted
  rw [← stripped_append_trailing c.insts] at emitted
  obtain ⟨one, two, isOne, isTwo, rfl⟩ := codeFrom_append emitted
  obtain ⟨weaves, ends⟩ := codeFrom_weaves isOne
  have late : c.terminatorStart ≤ 0 + (stripped c.insts).length := by
    rw [zero_add]
    exact terminatorStart_le c
  obtain rfl := ok_unique isTwo (codeFrom_terminators late)
  exact .of_parts weaves (ends fun _ => stripped_getLast?) rfl

end Predication

namespace Plan

variable {s : ScopeId} {alloc : ScopeAllocation} {made : PendingDef}

/-- Predicating a block carries its code over. -/
theorem Predicates.carries {header : BlockId} (predicates : plan.Predicates s header b c new)
    (plain : b = header → plan.tree.isRegionTop s = .ok true → ∀ inst ∈ trailing c.insts, inst.frameSetup = false) :
    plan.Carries c.insts new := by
  obtain ⟨guard, alloc, use, code, isTop, isGuard, _, emitted, isUse, topped, rfl⟩ := predicates
  have carries := Predication.blockCode_carries emitted
  have ownUse : plan.OwnCode use := by
    split at isUse
    · exact useCode_own isUse
    · subst isUse
      exact .nil
  have used : plan.Carries c.insts (use ++ code) := by
    have inserted : plan.Carries code (insertedAt 0 use code) := .insertedAt (zero_le _) ownUse
    exact carries.trans (by simpa [insertedAt] using inserted)
  split
  · rename_i isEntry
    obtain ⟨isHeader, rfl⟩ : b = header ∧ isTop = true := by simpa using isEntry
    have before := setupLength_le { c with insts := use ++ code } (used.plain (plain isHeader topped))
    exact used.trans (.insertedAt before (OwnCode.cons_iff.mpr ⟨⟨rfl, blockGuard_own isGuard⟩, .nil⟩))
  · exact used

theorem stackMasks_own {pred : Option PredId} {masks : Table CellId UInt32}
    (got : plan.stackMasks alloc pred = .ok masks) :
    plan.OwnCode (plan.clearCode masks) := by
  have own : ∀ e ∈ masks.entries, e.1 ∈ plan.frame.cells := by
    refine foldlM_invariant (fun masks : Table CellId UInt32 => ∀ e ∈ masks.entries, e.1 ∈ plan.frame.cells) got
      (by simp [Table.empty]) ?_
    rintro masks ⟨name, location⟩ next _ isOwn res
    split at res
    · split at res
      · obtain rfl := pure_inv res
        exact isOwn
      · obtain ⟨⟨cell, bit⟩, isBit, mask, _, rfl⟩ := bind_bind_pure_inv res
        intro e mem
        obtain rfl | old := Table.mem_place mem
        · exact stackBit_own isBit
        · exact isOwn e old
    · obtain rfl := pure_inv res
      exact isOwn
  intro inst mem
  obtain ⟨e, isEntry, inside⟩ := mem_flatMap.mp mem
  exact clearBitsCode_own (own e isEntry) e.2 inst inside

/-- Clearing the stack predicates of a scope carries the code of its header over. -/
theorem ClearsIn.carries (clears : plan.ClearsIn s c new)
    (plain : ∀ inner, plan.tree.get s = .ok inner → inner.isTopLevel = true →
      ∀ inst ∈ trailing c.insts, inst.frameSetup = false) : plan.Carries c.insts new := by
  obtain ⟨inner, alloc, masks, got, _, isMasks, rfl⟩ := clears
  refine .insertedAt ?_ (stackMasks_own isMasks)
  split
  · exact setupLength_le c (plain inner got ‹_›)
  · exact zero_le _

/-- The code of a definition in a register is one instruction, or writes to a saved bank. -/
theorem registerDef_cases {exited : Option ScopeId} {index : Nat} {defn : PredDef} {dst : PReg} {cond : Cond}
    (res : plan.registerDef alloc exited index defn guard dst cond = .ok made) :
    (∃ loop inner innerAlloc cell, exited = some loop ∧ plan.tree.get loop = .ok inner ∧
      plan.alloc loop = .ok innerAlloc ∧ innerAlloc.savesBank = true ∧ plan.frame.bankCell inner.depth = .ok cell ∧
      made = ⟨plan.bitDefCode cell dst.bankBit guard cond, false⟩) ∨
    ((∀ loop innerAlloc, exited = some loop → plan.alloc loop = .ok innerAlloc → innerAlloc.savesBank = false) ∧
      made = ⟨[if exited.isSome || !(alloc.firstDefs.get? defn.pred = some index) then
        .movePred (.holds guard) dst cond else .andPreds dst (.holds guard) cond], dst = guard⟩) := by
  cases exited with
  | none =>
    refine .inr ⟨nofun, ?_⟩
    obtain ⟨saved, isSaved, res⟩ := bind_inv res
    obtain rfl := pure_inv isSaved
    exact (pure_inv res).symm
  | some loop =>
    obtain ⟨innerAlloc, isAlloc, res⟩ := bind_inv res
    split at res
    · rename_i saves
      obtain ⟨inner, got, cell, isCell, res⟩ := bind_bind_inv res
      exact .inl ⟨loop, inner, innerAlloc, cell, rfl, liftM_inv got, liftM_inv isAlloc, saves,
        liftM_inv isCell, (pure_inv res).symm⟩
    · rename_i keeps
      refine .inr ⟨fun o otherAlloc isOther otherFound => ?_, (pure_inv res).symm⟩
      cases isOther
      obtain rfl := ok_unique (liftM_inv isAlloc) otherFound
      simpa using keeps

/-- The code of a definition is the plan's own. -/
theorem defCode_own {e : PredDef × Nat} (res : plan.defCode s e = .ok made) : plan.OwnCode made.code := by
  obtain ⟨exited, _, guard, _, res⟩ := bind_bind_inv res
  obtain ⟨alloc, _, res⟩ := bind_inv res
  split at res
  · obtain ⟨dst, isDst, res⟩ := bind_inv res
    have own : plan.OwnPred dst := .inr (.inr (preg_own (liftM_inv isDst)))
    obtain ⟨_, inner, _, cell, _, _, _, _, isCell, rfl⟩ | ⟨_, rfl⟩ := registerDef_cases res
    · exact bitDefCode_own (bankCell_own isCell) _ _ _
    · refine OwnCode.cons_iff.mpr ⟨?_, .nil⟩
      split <;> exact ⟨rfl, own⟩
  · obtain ⟨⟨cell, bit⟩, isBit, rfl⟩ := bind_pure_inv res
    exact bitDefCode_own (stackBit_own (liftM_inv isBit)) _ _ _
  · exact absurd res refuseTree_ne_ok

section

variable {defs : List (ScopeId × PredDef × Nat)} {made : List (BlockId × PendingDef)} (makes : plan.Makes defs made)

include makes

/-- Pending code is that of a definition that leaves the block. -/
theorem Makes.mem_code (mem : inst ∈ PendingDefs.code (leaving made b)) :
    ∃ e ∈ defs, ∃ pending, e.2.1.source = b ∧ plan.defCode e.1 e.2 = .ok pending ∧ inst ∈ pending.code := by
  obtain ⟨pending, isPending, inside⟩ := mem_flatMap.mp mem
  have isLeaving : pending ∈ leaving made b := by
    obtain first | last := mem_append.mp isPending
    · exact (mem_filter.mp first).1
    · exact (mem_filter.mp last).1
  obtain ⟨⟨u, o⟩, isMade, rfl⟩ := mem_map.mp isLeaving
  obtain ⟨listed, isSource⟩ := mem_filter.mp isMade
  obtain ⟨i, got⟩ := getElem?_of_mem listed
  obtain ⟨e, isEntry, comp⟩ := mapM_getElem? makes got
  obtain ⟨pendingDef, isDef, comp⟩ := bind_inv comp
  obtain ⟨rfl, rfl⟩ := Prod.mk.inj (pure_inv comp)
  exact ⟨e, mem_of_getElem? isEntry, pendingDef, by simpa using isSource, isDef, inside⟩

theorem Makes.own (b : BlockId) : plan.OwnCode (PendingDefs.code (leaving made b)) := by
  intro inst mem
  obtain ⟨e, _, pending, _, isDef, inside⟩ := makes.mem_code mem
  exact defCode_own isDef inst inside

end

end Plan

end SinglePath
