import SinglePath.Proofs.CellFlow.Dropped
import SinglePath.Proofs.Func.Renumbered
import SinglePath.Proofs.Straight.Counted

/-!
A reduction that ends well, phase by phase: the plan is made, the function is straightened, merged, cleaned, resolved
and renumbered.
-/

namespace SinglePath

open Work

namespace Func

variable {f next : Func}

/-- The entry is the same, and the layout has no other blocks. -/
structure Narrowed (f next : Func) : Prop where
  entry : next.entry = f.entry
  layout : ∀ b ∈ next.layout, b ∈ f.layout

namespace Narrowed

theorem refl (f : Func) : Narrowed f f := ⟨rfl, fun _ => id⟩

theorem trans {last : Func} (first : Narrowed f next) (second : Narrowed next last) : Narrowed f last :=
  ⟨second.entry.trans first.entry, fun b inside => first.layout b (second.layout b inside)⟩

theorem entered (narrowed : Narrowed f next) (inside : next.entry ∈ next.layout) : f.entry ∈ f.layout :=
  narrowed.layout _ (narrowed.entry ▸ inside)

end Narrowed

theorem Recoded.narrowed {code : BlockId → List Inst} (recoded : Recoded f next code) : Narrowed f next :=
  ⟨recoded.entry, fun _ inside => recoded.layout ▸ inside⟩

theorem merge_narrowed (res : f.merge = .ok next) : Narrowed f next := by
  refine merge_preserves (.refl f) (fun _ res narrowed => ?_) res
  have spliced := splice_ok res
  refine narrowed.trans ⟨spliced.entry, fun o inside => ?_⟩
  rw [spliced.layout] at inside
  exact (List.mem_filter.mp inside).1

theorem resolveCells_narrowed (res : f.resolveCells = .ok next) : Narrowed f next := by
  refine foldlM_invariant (Narrowed f) res (.refl f) fun s b after _ narrowed moved => ?_
  obtain ⟨body, _, insts, _, rfl⟩ := bind_bind_pure_inv moved
  exact ⟨narrowed.entry, narrowed.layout⟩

end Func

namespace Plan

variable {plan : Plan} {options : ReduceOptions} {f start final : Func} {work next : Work} {reduction : Reduction}
  {depths : List Nat}

/-- What one optional elimination does, and then the other. -/
theorem clean_ok (res : plan.clean options work = .ok next) :
    ∃ between, (if options.dropLoads then work.eliminate (·.dropRedundantLoads plan.guards plan.frame.cells)
        else pure work) = .ok between ∧
      (if options.dropStores then between.eliminate (·.dropDeadStores plan.frame.cells) else pure between) =
      .ok next := by
  unfold clean at res
  by_cases drops : options.dropLoads = true
  · rw [if_pos drops] at res
    obtain ⟨between, dropped, res⟩ := bind_inv res
    exact ⟨between, (if_pos drops).trans dropped, res⟩
  · rw [if_neg drops] at res
    exact ⟨work, if_neg drops, res⟩

theorem optional_ok {on : Bool} {drop : Func → Except Fault (Nat × Func)}
    (res : (if on then work.eliminate drop else pure work) = .ok next) :
    next.func = work.func ∨ ∃ n, drop work.func = .ok (n, next.func) := by
  split at res
  · obtain ⟨⟨n, dropped⟩, dropping, rfl⟩ := bind_pure_inv res
    exact .inr ⟨n, expect_eq_ok.mp dropping⟩
  · exact .inl (congrArg _ (pure_inv res).symm)

theorem clean_thinned (res : plan.clean options work = .ok next) :
    Func.Thinned (Inst.Touches plan.frame.cells) work.func next.func := by
  have optional : ∀ {on : Bool} {drop : Func → Except Fault (Nat × Func)} {before after : Work},
      (∀ {f next : Func} {n : Nat}, drop f = .ok (n, next) → Func.Swept (Inst.Touches plan.frame.cells) f next n) →
      (if on then before.eliminate drop else pure before) = .ok after →
      Func.Thinned (Inst.Touches plan.frame.cells) before.func after.func := by
    intro on drop before after sweeps eliminating
    rcases optional_ok eliminating with same | ⟨n, dropping⟩
    · exact same ▸ .refl _
    · exact (sweeps dropping).thinned
  obtain ⟨between, loads, stores⟩ := clean_ok res
  exact (optional Func.dropRedundantLoads_swept loads).trans (optional Func.dropDeadStores_swept stores)

/-- The phases of a plan that is carried out. -/
structure Phases (plan : Plan) (options : ReduceOptions) (start : Func) (straight : Work) (merged : Func)
    (cleaned : Work)
    (resolved final : Func) (reduction : Reduction) : Prop where
  straightened : plan.straighten { func := start } = .ok straight
  merging : straight.func.merge = .ok merged
  cleaning : plan.clean options { straight with func := merged } = .ok cleaned
  resolving : cleaned.func.resolveCells = .ok resolved
  checked : options.checkShape = true → Shape.check resolved plan.tree = .ok ()
  renumbering : resolved.renumber = .ok (reduction.blockMap, final)
  stats : reduction.stats = cleaned.stats
  allocs : reduction.allocs = plan.allocs

theorem carryOut_ok (res : plan.carryOut options { func := start } = .ok (reduction, next)) :
    ∃ straight merged cleaned resolved,
      plan.Phases options start straight merged cleaned resolved next.func reduction := by
  obtain ⟨straight, straightened, _, mapping, res⟩ := bind_bind_inv res
  obtain ⟨merged, merging, rfl⟩ := bind_pure_inv mapping
  obtain ⟨cleaned, cleaning, _, mapping, res⟩ := bind_bind_inv res
  obtain ⟨resolved, resolving, rfl⟩ := bind_pure_inv mapping
  refine ⟨straight, merged, cleaned, resolved, ?_⟩
  have renumbered : ∀ {ends : Step (Reduction × Work)}, ends = .ok (reduction, next) →
      ends = (({ cleaned with func := resolved } : Work).expect resolved.renumber >>= fun numbered =>
        return (({
          stats := cleaned.stats
          allocs := plan.allocs
          available := plan.available
          temporary := some plan.temporary
          blockMap := numbered.1 } : Reduction), { cleaned with func := numbered.2 })) →
      resolved.renumber = .ok (reduction.blockMap, next.func) ∧ reduction.stats = cleaned.stats ∧
        reduction.allocs = plan.allocs := by
    rintro _ ended rfl
    obtain ⟨⟨blockMap, final⟩, renumbering, ended⟩ := bind_inv ended
    cases pure_inv ended
    exact ⟨expect_eq_ok.mp renumbering, rfl, rfl⟩
  split at res
  · obtain ⟨_, checking, res⟩ := bind_inv res
    obtain ⟨renumbering, stats, allocs⟩ := renumbered res rfl
    exact ⟨straightened, expect_eq_ok.mp merging, cleaning, expect_eq_ok.mp resolving,
      fun _ => await_eq_ok.mp checking, renumbering, stats, allocs⟩
  · rename_i unchecked
    obtain ⟨renumbering, stats, allocs⟩ := renumbered res rfl
    exact ⟨straightened, expect_eq_ok.mp merging, cleaning, expect_eq_ok.mp resolving,
      fun checks => absurd checks unchecked, renumbering, stats, allocs⟩

namespace Phases

variable {straight cleaned : Work} {merged resolved : Func}

theorem carryOut_checked (phases : plan.Phases options start straight merged cleaned resolved final reduction)
    (correct : Shape.check resolved plan.tree = .ok ()) :
    plan.carryOut { options with checkShape := true } { func := start } = plan.carryOut options { func := start } := by
  have cleaning : plan.clean { options with checkShape := true } { straight with func := merged } = .ok cleaned :=
    phases.cleaning
  unfold carryOut mapFunc
  simp only [phases.straightened, phases.merging, phases.cleaning, cleaning, phases.resolving, ok_bind, expect_ok,
    pure, Except.pure, correct, await_ok, if_true, ite_self]

/-- A function that is reduced has its entry in the layout. -/
theorem entered (phases : plan.Phases options start straight merged cleaned resolved final reduction)
    (made : plan.Made f start depths) : f.entry ∈ f.layout := by
  have narrowed : Func.Narrowed straight.func resolved := (Func.merge_narrowed phases.merging).trans
    ((clean_thinned phases.cleaning).recoded.narrowed.trans (Func.resolveCells_narrowed phases.resolving))
  have laid := narrowed.entered (Func.renumber_entered phases.renumbering)
  obtain ⟨predicated, predicating, defined, defining, linearizing⟩ := bind_bind_inv phases.straightened
  obtain ⟨_, _, sameDefined, _⟩ := define_ok made.headers_once defining
  have same := (predicate_rewritten made.members_once predicating).same.trans sameDefined
  have isStart := made.laid.start
  have laidBefore := entry_laid made.valid (by rw [same.entry, isStart]) (by rw [same.length, isStart]) linearizing laid
  rwa [same.layout, isStart] at laidBefore

end Phases

end Plan

end SinglePath
