import SinglePath.Proofs.Straight.Rewriting
import SinglePath.Proofs.Tables

namespace SinglePath

open List PendingDefs Table Work

variable {f : Func}

/-- The operation without kill flags. -/
def Inst.unkilled (inst : Inst) : Inst :=
  { inst with guard := inst.guard.withoutKill, op := inst.op.mapConds Cond.withoutKill }

/-- The codes differ in their kill flags only. -/
def SameButKills (code o : List Inst) : Prop := o.map Inst.unkilled = code.map Inst.unkilled

theorem Cond.withoutKill_withKill (cond : Cond) (r : PReg) (kill : Bool) :
    (cond.withKill r kill).withoutKill = cond.withoutKill := by
  unfold withKill
  split <;> rfl

theorem Inst.unkilled_withKill (inst : Inst) (r : PReg) (kill : Bool) :
    (inst.withKill r kill).unkilled = inst.unkilled := by
  obtain ⟨guard, frameSetup, op⟩ := inst
  cases op <;>
    simp [unkilled, withKill, Op.mapConds, Cond.withoutKill_withKill]

theorem sameButKills_killLastReader (insts : List Inst) (i : Nat) (r : PReg) :
    SameButKills insts (Plan.killLastReader insts i r) := by
  unfold Plan.killLastReader SameButKills
  split
  · refine ext_getElem? fun index => ?_
    rw [getElem?_map, getElem?_map, getElem?_modify]
    split
    · cases insts[index]? <;> simp [Inst.unkilled_withKill]
    · cases insts[index]? <;> rfl
  · rfl

namespace Func

/-- The functions differ in kill flags only. -/
structure Rekilled (f next : Func) : Prop where
  same : f.SameButCode next
  changed : ∀ b body, f.block? b = some body →
    ∃ insts, next.block? b = some { body with insts := insts } ∧ SameButKills body.insts insts

theorem Rekilled.refl (f : Func) : f.Rekilled f := ⟨.refl f, fun _ body found => ⟨body.insts, found, rfl⟩⟩

theorem Rekilled.trans {next last : Func} (first : f.Rekilled next) (second : next.Rekilled last) :
    f.Rekilled last where
  same := first.same.trans second.same
  changed b body found := by
    obtain ⟨insts, foundNext, same⟩ := first.changed b body found
    obtain ⟨others, foundLast, sameToo⟩ := second.changed b _ foundNext
    exact ⟨others, foundLast, Eq.trans sameToo same⟩

end Func

namespace Plan

variable {plan : Plan} {pending : PendingDefs} {scopes : List ScopeId} {scope : ScopeId} {e : PredDef × Nat}
  {made : List (BlockId × PendingDef)}

theorem restoreKills_ok {next : Func} (res : restoreKills pending f = .ok next) : f.Rekilled next := by
  refine foldlM_invariant (fun s => f.Rekilled s) res (.refl f) ?_
  intro s e after _ rekilled updated
  obtain ⟨body, got, rfl⟩ := bind_pure_inv updated
  refine rekilled.trans ⟨?_, fun b o foundOther => ?_⟩
  · unfold Func.SameButCode Func.clearCode Func.modify
    congr 1
    refine ext_getElem? fun i => ?_
    simp only [getElem?_map, getElem?_modify]
    split <;> cases s.blocks[i]? <;> rfl
  · rw [Func.block?_modify, foundOther]
    split
    · exact ⟨_, rfl, sameButKills_killLastReader _ _ _⟩
    · exact ⟨o.insts, rfl, rfl⟩

/-- The code of one definition of a scope. -/
def defCode (plan : Plan) (scope : ScopeId) (e : PredDef × Nat) : Outcome PendingDef := do
  let exited ← plan.tree.childWithHeader scope e.1.source
  let guard ← plan.useReg (exited.getD scope) e.1.source e.1.guard
  let alloc ← plan.alloc scope
  match alloc.defLoc e.1.pred with
  | .register r => do
      plan.registerDef alloc exited e.2 e.1 guard (← plan.preg r) (e.1.cond.getD .always).withoutKill
  | .stack location => do
      let (c, bit) ← (plan.frame.stackBit location : Outcome (CellId × Nat))
      pure ⟨plan.bitDefCode c bit guard (e.1.cond.getD .always).withoutKill, false⟩
  | .always => refuseTree (.alwaysTrueDefined e.1.pred)

theorem addDef_eq {next : PendingDefs} (res : plan.addDef scope pending e = .ok next) :
    ∃ made, plan.defCode scope e = .ok made ∧
      next = (pending.addKilled e.1.source (e.1.cond.getD .always)).add e.1.source made := by
  obtain ⟨exited, child, guard, isGuard, res⟩ := bind_bind_inv res
  obtain ⟨alloc, isAlloc, res⟩ := bind_inv res
  unfold defCode
  simp only [child, isGuard, isAlloc, ok_bind]
  cases place : alloc.defLoc e.1.pred with
  | register index =>
    rw [place] at res
    obtain ⟨r, isReg, made, isMade, res⟩ := bind_bind_inv res
    exact ⟨made, bind_ok isReg isMade, (pure_inv res).symm⟩
  | stack location =>
    rw [place] at res
    obtain ⟨⟨c, bit⟩, isBit, res⟩ := bind_inv res
    exact ⟨_, bind_ok isBit rfl, (pure_inv res).symm⟩
  | always =>
    rw [place] at res
    exact absurd (bind_inv res).choose_spec.1 refuseTree_ne_ok

theorem addDef_ok {next : PendingDefs} (res : plan.addDef scope pending e = .ok next) :
    ∃ made, plan.defCode scope e = .ok made ∧
      next.defs = pending.defs.alter e.1.source fun found => found.getD [] ++ [made] := by
  obtain ⟨made, isMade, rfl⟩ := addDef_eq res
  refine ⟨made, isMade, ?_⟩
  unfold add addKilled
  split <;> rfl

/-- All definitions of the scopes, each with its scope and its number there. -/
def defsOf (plan : Plan) (scopes : List ScopeId) : List (ScopeId × PredDef × Nat) :=
  scopes.flatMap fun scope =>
    match plan.tree.scope? scope with
    | some body => body.defs.zipIdx.map fun e => (scope, e)
    | none => []

/-- The codes of the definitions, each with the block that it leaves. -/
def Makes (plan : Plan) (defs : List (ScopeId × PredDef × Nat)) (made : List (BlockId × PendingDef)) : Prop :=
  defs.mapM (fun e => do return (e.2.1.source, ← plan.defCode e.1 e.2)) = .ok made

theorem Makes.nil (plan : Plan) : plan.Makes [] [] := rfl

theorem Makes.cons {scope : ScopeId} {e : PredDef × Nat} {made : PendingDef} {rest : List (ScopeId × PredDef × Nat)}
    {others : List (BlockId × PendingDef)} (isMade : plan.defCode scope e = .ok made) (makes : plan.Makes rest others) :
    plan.Makes ((scope, e) :: rest) ((e.1.source, made) :: others) := by
  unfold Makes at makes ⊢
  simp only [mapM_cons, isMade, ok_bind, makes]
  rfl

theorem Makes.append {first second : List (ScopeId × PredDef × Nat)} {others : List (BlockId × PendingDef)}
    (one : plan.Makes first made) (two : plan.Makes second others) : plan.Makes (first ++ second) (made ++ others) := by
  unfold Makes at one two ⊢
  rw [mapM_append, one, two]
  rfl

theorem addScopeDefs_ok {next : PendingDefs} (res : scopes.foldlM plan.addScopeDefs pending = .ok next) :
    ∃ made, plan.Makes (plan.defsOf scopes) made ∧
      next.defs = made.foldl (fun table x => table.alter x.1 fun found => found.getD [] ++ [x.2]) pending.defs := by
  have entries : ∀ (scope : ScopeId) (defs : List (PredDef × Nat)) (pending next : PendingDefs),
      defs.foldlM (plan.addDef scope) pending = .ok next →
      ∃ made, plan.Makes (defs.map fun e => (scope, e)) made ∧
        next.defs =
          made.foldl (fun table x => table.alter x.1 fun found => found.getD [] ++ [x.2]) pending.defs := by
    intro scope defs
    induction defs with
    | nil =>
      intro pending next res
      obtain rfl := pure_inv res
      exact ⟨[], .nil plan, rfl⟩
    | cons e rest ih =>
      intro pending next res
      obtain ⟨after, step, res⟩ := bind_inv res
      obtain ⟨made, isMade, isAfter⟩ := addDef_ok step
      obtain ⟨others, makes, isNext⟩ := ih after next res
      exact ⟨(e.1.source, made) :: others, makes.cons isMade, by rw [isNext, isAfter]; rfl⟩
  induction scopes generalizing pending with
  | nil =>
    obtain rfl := pure_inv res
    exact ⟨[], .nil plan, rfl⟩
  | cons scope rest ih =>
    obtain ⟨after, step, res⟩ := bind_inv res
    obtain ⟨body, got, step⟩ := bind_inv step
    have found : plan.tree.scope? scope = some body := present_eq_ok.mp (liftM_inv got)
    obtain ⟨made, makes, isAfter⟩ := entries scope _ _ _ step
    obtain ⟨others, makesRest, isNext⟩ := ih res
    refine ⟨made ++ others, ?_, ?_⟩
    · simp only [defsOf, flatMap_cons, found] at makesRest ⊢
      exact makes.append makesRest
    · rw [isNext, isAfter, foldl_append]

/-- The codes of the definitions that leave a block. -/
def leaving (made : List (BlockId × PendingDef)) (b : BlockId) : List PendingDef :=
  (made.filter (·.1 = b)).map (·.2)

/-- The code that clears the bits of the masks. -/
def clearCode (plan : Plan) (masks : Table CellId UInt32) : List Inst :=
  masks.entries.flatMap fun e => plan.clearBitsCode e.1 e.2

/-- The header of the scope gets code that clears the stack predicates of the scope. -/
def ClearsIn (plan : Plan) (scope : ScopeId) (body : Block) (new : List Inst) : Prop :=
  ∃ inner alloc masks, plan.tree.get scope = .ok inner ∧ plan.alloc scope = .ok alloc ∧
    plan.stackMasks alloc (plan.tree.blockPred inner.header) = .ok masks ∧
    new = insertedAt (if inner.isTopLevel then body.setupLength else 0) (plan.clearCode masks) body.insts

def headerOf (plan : Plan) (scope : ScopeId) : BlockId := ((plan.tree.scope? scope).map (·.header)).getD ⟨0⟩

theorem headerOf_eq {inner : Scope} (found : plan.tree.get scope = .ok inner) : plan.headerOf scope = inner.header := by
  have isScope : plan.tree.scope? scope = some inner := present_eq_ok.mp found
  simp [headerOf, isScope]

variable {work next : Work}

theorem clearStackBits_ok (res : plan.clearStackBits work scope = .ok next) :
    ∃ body new, work.func.block? (plan.headerOf scope) = some body ∧ plan.ClearsIn scope body new ∧
      next.func = work.func.setCode (plan.headerOf scope) new := by
  obtain ⟨inner, got, alloc, isAlloc, res⟩ := bind_bind_inv res
  obtain ⟨masks, isMasks, res⟩ := bind_inv res
  have found := expect_eq_ok.mp got
  obtain ⟨body, foundContent, _, isNext⟩ := insertCode_ok res
  rw [headerOf_eq found]
  exact ⟨body, _, foundContent,
    ⟨inner, alloc, masks, found, expect_eq_ok.mp isAlloc, expect_eq_ok.mp isMasks, rfl⟩, isNext⟩

theorem defineScope_ok {s final : PendingDefs × Work} (res : scopes.foldlM plan.defineScope s = .ok final) :
    scopes.foldlM plan.addScopeDefs s.1 = .ok final.1 ∧ scopes.foldlM plan.clearStackBits s.2 = .ok final.2 := by
  induction scopes generalizing s with
  | nil =>
    obtain rfl := pure_inv res
    exact ⟨rfl, rfl⟩
  | cons scope rest ih =>
    obtain ⟨after, step, res⟩ := bind_inv res
    obtain ⟨pending, isPending, step⟩ := bind_inv step
    obtain ⟨cleared, isCleared, rfl⟩ := bind_pure_inv step
    obtain ⟨first, second⟩ := ih res
    exact ⟨bind_ok (await_eq_ok.mp isPending) first, bind_ok isCleared second⟩

/-- What the header of a scope gets, and that any other block stays as it is. -/
def Clears (plan : Plan) (b : BlockId) (body : Block) (new : List Inst) : Prop :=
  (∃ scope ∈ plan.scopes, plan.headerOf scope = b ∧ plan.ClearsIn scope body new) ∨
    (∀ scope ∈ plan.scopes, plan.headerOf scope ≠ b) ∧ new = body.insts

/-- Each block gets the definitions that leave it before its terminators. -/
theorem placeDefs_ok
    (isDefs : pending.defs = made.foldl (fun table x => table.alter x.1 fun found => found.getD [] ++ [x.2]) empty)
    (res : placeDefs pending work = .ok next) :
    work.func.SameButCode next.func ∧ ∀ b body, work.func.block? b = some body →
      next.func.block? b = some { body with
        insts := insertedAt body.terminatorStart (code (leaving made b)) body.insts } := by
  have coll : ∀ b, (pending.defs.get? b).getD [] = leaving made b := by
    intro b
    rw [isDefs, get?_foldl_collect]
    rfl
  have increasing : Increasing BlockId.index pending.defs.entries := by
    have ranked : ∀ first second : BlockId, first < second ↔ first.index < second.index := fun _ _ => Iff.rfl
    rw [isDefs]
    refine foldl_collect_increasing ranked ?_ made empty Pairwise.nil
    rintro ⟨first⟩ ⟨second⟩ same
    exact congrArg BlockId.mk same
  have keysOnce : pending.defs.keys.Nodup := increasing.nodup_keys
  have inserted := foldlM_rewritten (fun e : BlockId × List PendingDef => e.1)
    (fun e body new => new = insertedAt body.terminatorStart (code e.2) body.insts)
    (fun work e next step => by
      obtain ⟨body, found, _, isNext⟩ := insertCode_ok step
      exact ⟨body, _, found, rfl, isNext⟩) keysOnce res
  refine ⟨inserted.same, fun b body found => ?_⟩
  cases isLeaving : pending.defs.get? b with
  | none =>
    have nothing : leaving made b = [] := by rw [← coll, isLeaving]; rfl
    have unnamed : b ∉ pending.defs.entries.map (·.1) := find_eq_none_iff.mp isLeaving
    rw [inserted.others b unnamed, found, nothing]
    simp [code, insertedAt]
  | some definitions =>
    have same : leaving made b = definitions := by rw [← coll, isLeaving]; rfl
    obtain ⟨o, new, foundOther, rfl, foundNext⟩ := inserted.changed (b, definitions) (mem_of_find isLeaving)
    obtain rfl := Option.mem_unique found foundOther
    rw [foundNext, same]

/-- Each header gets the code that clears the stack predicates of its scope. -/
theorem clearStackBits_rewrites (once : (plan.scopes.map plan.headerOf).Nodup)
    (res : plan.scopes.foldlM plan.clearStackBits work = .ok next) :
    work.func.SameButCode next.func ∧ ∀ b body, work.func.block? b = some body →
      ∃ insts, next.func.block? b = some { body with insts := insts } ∧ plan.Clears b body insts := by
  have cleared := foldlM_rewritten plan.headerOf plan.ClearsIn (fun _ _ _ => clearStackBits_ok) once res
  refine ⟨cleared.same, fun b body found => ?_⟩
  by_cases isHeader : ∃ scope ∈ plan.scopes, plan.headerOf scope = b
  · obtain ⟨scope, mem, rfl⟩ := isHeader
    obtain ⟨o, new, foundOther, clears, foundNext⟩ := cleared.changed scope mem
    obtain rfl := Option.mem_unique found foundOther
    exact ⟨new, foundNext, .inl ⟨scope, mem, rfl, clears⟩⟩
  · have elsewhere : ∀ scope ∈ plan.scopes, plan.headerOf scope ≠ b :=
      fun scope mem same => isHeader ⟨scope, mem, same⟩
    refine ⟨body.insts, ?_, .inr ⟨elsewhere, rfl⟩⟩
    rw [cleared.others b fun mem => ?_, found]
    obtain ⟨scope, isScope, same⟩ := mem_map.mp mem
    exact elsewhere scope isScope same

/-- Defining gives each block its definitions before its terminators, and each header the code that clears the stack
predicates of its scope. -/
theorem define_ok (once : (plan.scopes.map plan.headerOf).Nodup) (res : plan.define work = .ok next) :
    ∃ made, plan.Makes (plan.defsOf plan.scopes) made ∧ work.func.SameButCode next.func ∧
      ∀ b body, work.func.block? b = some body →
        ∃ cleared insts, next.func.block? b = some { body with insts := insts } ∧ plan.Clears b body cleared ∧
          SameButKills (insertedAt ({ body with insts := cleared } : Block).terminatorStart
            (code (leaving made b)) cleared) insts := by
  obtain ⟨⟨pending, clearedWork⟩, defined, placed, placing, res⟩ := bind_bind_inv res
  obtain ⟨killed, killing, rfl⟩ := bind_pure_inv res
  obtain ⟨coll, clearing⟩ := defineScope_ok defined
  obtain ⟨made, makes, isDefs⟩ := addScopeDefs_ok coll
  obtain ⟨sameCleared, clears⟩ := clearStackBits_rewrites once clearing
  obtain ⟨samePlaced, places⟩ := placeDefs_ok isDefs placing
  have rekilled := restoreKills_ok (expect_eq_ok.mp killing)
  refine ⟨made, makes, (sameCleared.trans samePlaced).trans rekilled.same, fun b body found => ?_⟩
  obtain ⟨cleared, foundCleared, isCleared⟩ := clears b body found
  obtain ⟨insts, foundInsts, sameKills⟩ := rekilled.changed b _ (places b _ foundCleared)
  exact ⟨cleared, insts, foundInsts, isCleared, sameKills⟩

end Plan

end SinglePath
