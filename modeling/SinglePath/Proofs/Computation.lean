import Mathlib.Algebra.GroupWithZero.Nat
import SinglePath.Refusal

namespace SinglePath

open Failure List

section

variable {ε α β γ : Type} {defect : TreeDefect} {condition : Bool}

theorem ofFault_eq_ok {comp : Except Fault α} {v : α} :
    (ofFault comp : Except (Failure ε) α) = .ok v ↔ comp = .ok v := by
  cases comp <;> simp [ofFault]

theorem liftM_eq_ok {comp : Except Fault α} {v : α} :
    (liftM comp : Except (Failure ε) α) = .ok v ↔ comp = .ok v :=
  ofFault_eq_ok

@[simp] theorem liftM_ok (v : α) : (liftM (Except.ok v : Except Fault α) : Except (Failure ε) α) = .ok v := rfl

@[simp] theorem liftM_error (fault : Fault) :
    (liftM (Except.error fault : Except Fault α) : Except (Failure ε) α) = .error (.fault fault) := rfl

theorem liftM_inv {comp : Except Fault α} {v : α} (ran : (liftM comp : Except (Failure ε) α) = .ok v) :
    comp = .ok v :=
  liftM_eq_ok.mp ran

theorem pure_eq_ok {v res : α} : (pure v : Except ε α) = .ok res ↔ v = res := by
  simp [pure, Except.pure]

theorem pure_inv {v res : α} (ran : (pure v : Except ε α) = .ok res) : v = res := pure_eq_ok.mp ran

section

variable {v : Except ε α} {next : α → Except ε β} {res : β}

theorem bind_ok {produced : α} (first : v = .ok produced) (rest : next produced = .ok res) : (v >>= next) = .ok res :=
  bind_eq_ok.mpr ⟨produced, first, rest⟩

theorem bind_inv (ran : (v >>= next) = .ok res) : ∃ produced, v = .ok produced ∧ next produced = .ok res :=
  bind_eq_ok.mp ran

theorem bind_pure_eq_ok {next : α → β} :
    (v >>= fun produced => pure (next produced)) = .ok res ↔ ∃ produced, v = .ok produced ∧ next produced = res := by
  simp only [bind_eq_ok, pure_eq_ok]

theorem bind_pure_inv {next : α → β} (ran : (v >>= fun produced => pure (next produced)) = .ok res) :
    ∃ produced, v = .ok produced ∧ next produced = res :=
  bind_pure_eq_ok.mp ran

theorem bind_bind_inv {last : α → β → Except ε γ} {res : γ}
    (ran : (v >>= fun produced => next produced >>= last produced) = .ok res) :
    ∃ produced, v = .ok produced ∧ ∃ again, next produced = .ok again ∧ last produced again = .ok res := by
  simpa only [bind_eq_ok] using ran

theorem bind_bind_pure_inv {last : α → β → γ} {res : γ}
    (ran : (v >>= fun produced => next produced >>= fun again => pure (last produced again)) = .ok res) :
    ∃ produced, v = .ok produced ∧ ∃ again, next produced = .ok again ∧ last produced again = res := by
  simpa only [bind_eq_ok, pure_eq_ok] using ran

end

theorem ok_unique {comp : Except ε α} {first second : α} (one : comp = .ok first)
    (two : comp = .ok second) :
    first = second :=
  Except.ok.inj (one.symm.trans two)

theorem lt_length {items : List α} {i : Nat} {x : α} (got : items[i]? = some x) : i < items.length :=
  (List.getElem?_eq_some_iff.mp got).1

@[simp] theorem ok_bind (v : α) (next : α → Except ε β) : (Except.ok v >>= next) = next v := rfl

@[simp] theorem error_bind (cause : ε) (next : α → Except ε β) : (Except.error cause >>= next) = .error cause := rfl

@[simp] theorem refuse_ne_ok {cause : ε} {v : α} : (refuse cause : Except (Failure ε) α) ≠ .ok v := by
  simp [refuse]

@[simp] theorem refuseTree_ne_ok {v : α} : (refuseTree defect : Outcome α) ≠ .ok v := by
  simp [refuseTree]

theorem demandTree_eq_ok : demandTree condition defect = .ok () ↔ condition = true := demand_eq_ok

theorem demandTree_bind_eq_ok {next : Unit → Outcome α} {res : α} :
    (demandTree condition defect >>= next) = .ok res ↔ condition = true ∧ next () = .ok res :=
  demand_bind_eq_ok

/-- A computation that ends with a value or a refusal. -/
def Answers (comp : Outcome α) : Prop :=
  ∀ fault, comp ≠ .error (.fault fault)

namespace Answers

theorem ok (v : α) : Answers (.ok v) := by simp [Answers]

theorem refuse (cause : Refusal) : Answers (SinglePath.refuse cause : Outcome α) := by
  simp [Answers, SinglePath.refuse]

theorem demandTree (condition : Bool) (defect : TreeDefect) : Answers (SinglePath.demandTree condition defect) := by
  cases condition
  · exact refuse _
  · exact ok ()

theorem bind {v : Outcome α} {next : α → Outcome β} (first : Answers v)
    (rest : ∀ produced, v = .ok produced → Answers (next produced)) : Answers (v >>= next) := by
  cases v with
  | ok produced => exact rest produced rfl
  | error failure => exact fun fault stopped => first fault (congrArg _ (Except.error.inj stopped))

theorem bind_lift {v : Except Fault α} {next : α → Outcome β} {produced : α} (comp : v = .ok produced)
    (rest : Answers (next produced)) : Answers (liftM v >>= next) := by
  rw [comp]
  exact rest

theorem foldlM {step : β → α → Outcome β} {items : List α} {start : β}
    (each : ∀ s, ∀ x ∈ items, Answers (step s x)) : Answers (items.foldlM step start) := by
  induction items generalizing start with
  | nil => exact ok start
  | cons x rest ih =>
    rw [foldlM_cons]
    exact bind (each start x (.head _)) fun _ _ => ih fun s o later => each s o (.tail _ later)

theorem refused {comp : Outcome α} {failure : Failure Refusal} (answers : Answers comp)
    (stopped : comp = .error failure) : ∃ cause, failure = .refused cause := by
  cases failure with
  | fault fault => exact absurd stopped (answers fault)
  | refused cause => exact ⟨cause, rfl⟩

end Answers

end

section

variable {ε α β γ δ : Type}

/-- Two computations either fail for the same cause or both end well with related values. -/
inductive Same (Related : α → β → Prop) : Except ε α → Except ε β → Prop where
  | error (cause : ε) : Same Related (.error cause) (.error cause)
  | ok {first : α} {second : β} (related : Related first second) : Same Related (.ok first) (.ok second)

namespace Same

variable {Related : α → β → Prop} {first : Except ε α} {second : Except ε β}

section

variable (same : Same Related first second)

include same

theorem bind {Result : γ → δ → Prop} {next : α → Except ε γ} {o : β → Except ε δ}
    (continued : ∀ a b, Related a b → Same Result (next a) (o b)) : Same Result (first >>= next) (second >>= o) := by
  cases same with
  | error cause => exact .error cause
  | ok related => exact continued _ _ related

theorem mono {Weaker : α → β → Prop} (weakens : ∀ a b, Related a b → Weaker a b) : Same Weaker first second := by
  cases same with
  | error cause => exact .error cause
  | ok related => exact .ok (weakens _ _ related)

theorem attach : Same (fun a b => Related a b ∧ first = .ok a ∧ second = .ok b) first second := by
  cases same with
  | error cause => exact .error cause
  | ok related => exact .ok ⟨related, rfl, rfl⟩

theorem flip : Same (fun b a => Related a b) second first := by
  cases same with
  | error cause => exact .error cause
  | ok related => exact .ok related

end

theorem lift {first : Except Fault α} {second : Except Fault β} (same : Same Related first second) :
    Same Related (liftM first : Except (Failure ε) α) (liftM second : Except (Failure ε) β) := by
  cases same with
  | error cause => exact .error (fault cause)
  | ok related => exact .ok related

end Same

end

variable {ε α β σ : Type}

theorem foldlM_trace {step : σ → α → Except ε σ} {items : List α} {start final : σ}
    (folded : items.foldlM step start = .ok final) :
    ∃ states : Nat → σ, states 0 = start ∧ states items.length = final ∧ ∀ i x, items[i]? = some x →
        step (states i) x = .ok (states (i + 1)) := by
  induction items generalizing start with
  | nil =>
    have same : start = final := by simpa [pure, Except.pure] using folded
    exact ⟨fun _ => start, rfl, same, by simp⟩
  | cons first rest ih =>
    rw [foldlM_cons, bind_eq_ok] at folded
    obtain ⟨second, stepped, remaining⟩ := folded
    obtain ⟨states, starts, ends, steps⟩ := ih remaining
    refine ⟨fun i => if i = 0 then start else states (i - 1), rfl, by simpa using ends, ?_⟩
    intro i x got
    cases i with
    | zero =>
      have same : first = x := by simpa using got
      simpa [starts, same] using stepped
    | succ earlier => simpa using steps earlier x (by simpa using got)

theorem foldlM_invariant {step : σ → α → Except ε σ} {items : List α} {start final : σ} (Holds : σ → Prop)
    (folded : items.foldlM step start = .ok final) (initially : Holds start)
    (kept : ∀ s x next, x ∈ items → Holds s → step s x = .ok next → Holds next) : Holds final := by
  induction items generalizing start with
  | nil =>
    have same : start = final := by simpa [pure, Except.pure] using folded
    exact same ▸ initially
  | cons first rest ih =>
    rw [foldlM_cons, bind_eq_ok] at folded
    obtain ⟨second, stepped, remaining⟩ := folded
    have nextHolds := kept start first second (by simp) initially stepped
    apply ih remaining nextHolds
    intro s x next got holds moved
    exact kept s x next (mem_cons_of_mem first got) holds moved

theorem mapM_length {transform : α → Except ε β} {items : List α} {results : List β}
    (mapped : items.mapM transform = .ok results) : results.length = items.length := by
  induction items generalizing results with
  | nil =>
    rw [mapM_nil, pure_eq_ok] at mapped
    simp [← mapped]
  | cons first rest ih =>
    rw [mapM_cons, bind_eq_ok] at mapped
    obtain ⟨v, _, mapped⟩ := mapped
    obtain ⟨values, remaining, mapped⟩ := bind_eq_ok.mp mapped
    rw [← pure_eq_ok.mp mapped, length_cons, length_cons, ih remaining]

theorem mapM_getElem? {transform : α → Except ε β} {items : List α} {results : List β}
    (mapped : items.mapM transform = .ok results) {i : Nat} {res : β} (got : results[i]? = some res) :
    ∃ x, items[i]? = some x ∧ transform x = .ok res := by
  induction items generalizing results i with
  | nil =>
    rw [mapM_nil, pure_eq_ok] at mapped
    simp [← mapped] at got
  | cons first rest ih =>
    rw [mapM_cons, bind_eq_ok] at mapped
    obtain ⟨v, transformed, mapped⟩ := mapped
    obtain ⟨values, remaining, mapped⟩ := bind_eq_ok.mp mapped
    have same : v :: values = results := pure_eq_ok.mp mapped
    subst same
    cases i with
    | zero =>
      have same : v = res := by simpa using got
      exact ⟨first, rfl, same ▸ transformed⟩
    | succ earlier => exact ih remaining (by simpa using got)

theorem mapM_result {transform : α → Except ε β} {items : List α} {results : List β}
    (mapped : items.mapM transform = .ok results) {x : α} (mem : x ∈ items) :
    ∃ res ∈ results, transform x = .ok res := by
  obtain ⟨i, got⟩ := getElem?_of_mem mem
  have inRange : i < results.length := by
    rw [mapM_length mapped]
    exact (List.getElem?_eq_some_iff.mp got).1
  obtain ⟨same, sameFound, transformed⟩ := mapM_getElem? mapped (getElem?_eq_getElem inRange)
  obtain rfl := Option.some.inj (sameFound.symm.trans got)
  exact ⟨_, getElem_mem inRange, transformed⟩

theorem mapM_map_eq {γ : Type} {transform : α → Except ε β} {view : β → γ} {change : α → γ} {items : List α}
    {results : List β} (mapped : items.mapM transform = .ok results)
    (given : ∀ x res, transform x = .ok res → view res = change x) : results.map view = items.map change := by
  refine ext_getElem? fun i => ?_
  rw [getElem?_map, getElem?_map]
  cases got : results[i]? with
  | none =>
    have short := getElem?_eq_none_iff.mp got
    rw [mapM_length mapped] at short
    simp [getElem?_eq_none short]
  | some res =>
    obtain ⟨x, isItem, transformed⟩ := mapM_getElem? mapped got
    rw [isItem, Option.map_some, Option.map_some, given x res transformed]

theorem mapM_eq_map {transform : α → Except ε β} {change : α → β} {items : List α} {results : List β}
    (mapped : items.mapM transform = .ok results)
    (given : ∀ x res, transform x = .ok res → res = change x) : results = items.map change :=
  (map_id results).symm.trans (mapM_map_eq mapped given)

theorem mapM_ok {transform : α → Except ε β} {items : List α}
    (each : ∀ x ∈ items, ∃ res, transform x = .ok res) : ∃ results, items.mapM transform = .ok results := by
  induction items with
  | nil => exact ⟨[], rfl⟩
  | cons first rest ih =>
    obtain ⟨res, transformed⟩ := each first (.head _)
    obtain ⟨results, mapped⟩ := ih fun x mem => each x (.tail _ mem)
    exact ⟨res :: results, by simp [mapM_cons, transformed, mapped, pure, Except.pure]⟩

/-- A fold ends well or stops for one of the given causes, if each step does so where an invariant holds that it
keeps. -/
theorem foldlM_cases {step : σ → α → Except ε σ} {items : List α} {start : σ} (Holds : σ → Prop) (Stops : ε → Prop)
    (initially : Holds start) (each : ∀ s, Holds s → ∀ x ∈ items, (∃ next, step s x = .ok next ∧ Holds next) ∨
      ∃ cause, step s x = .error cause ∧ Stops cause) :
    (∃ final, items.foldlM step start = .ok final ∧ Holds final) ∨
      ∃ cause, items.foldlM step start = .error cause ∧ Stops cause := by
  induction items generalizing start with
  | nil => exact .inl ⟨start, rfl, initially⟩
  | cons first rest ih =>
    rw [foldlM_cons]
    obtain ⟨next, stepped, holds⟩ | ⟨cause, stepped, stops⟩ := each start initially first (.head _)
    · rw [stepped, ok_bind]
      exact ih holds fun s isHeld x mem => each s isHeld x (.tail _ mem)
    · exact .inr ⟨cause, by rw [stepped, error_bind], stops⟩

theorem foldlM_ok {step : σ → α → Except ε σ} {items : List α} {start : σ} (Holds : σ → Prop) (initially : Holds start)
    (each : ∀ s, Holds s → ∀ x ∈ items, ∃ next, step s x = .ok next ∧ Holds next) :
    ∃ final, items.foldlM step start = .ok final ∧ Holds final :=
  (foldlM_cases Holds (fun _ => False) initially fun s holds x mem =>
    .inl (each s holds x mem)).resolve_right
    (by simp)

/-- A fold stops at a step of one of its items, in a state where what its steps keep still holds. -/
theorem foldlM_error {step : σ → α → Except ε σ} {items : List α} {start : σ} {cause : ε} (Holds : σ → Prop)
    (initially : Holds start) (kept : ∀ s x next, x ∈ items → Holds s → step s x = .ok next → Holds next)
    (stopped : items.foldlM step start = .error cause) : ∃ s, Holds s ∧ ∃ x ∈ items, step s x = .error cause := by
  induction items generalizing start with
  | nil => cases stopped
  | cons first rest ih =>
    rw [foldlM_cons] at stopped
    cases stepped : step start first with
    | error got =>
      rw [stepped, error_bind] at stopped
      exact ⟨start, initially, first, .head _, stepped.trans stopped⟩
    | ok next =>
      rw [stepped, ok_bind] at stopped
      obtain ⟨s, holds, x, mem, stoppedAt⟩ := ih (kept start first next (.head _) initially stepped)
        (fun s x next mem => kept s x next (.tail _ mem)) stopped
      exact ⟨s, holds, x, .tail _ mem, stoppedAt⟩

theorem mapM_error {transform : α → Except ε β} {items : List α} {cause : ε}
    (stopped : items.mapM transform = .error cause) : ∃ x ∈ items, transform x = .error cause := by
  induction items with
  | nil => cases stopped
  | cons first rest ih =>
    rw [mapM_cons] at stopped
    cases transformed : transform first with
    | error got =>
      rw [transformed, error_bind] at stopped
      exact ⟨first, .head _, Except.error.inj stopped ▸ transformed⟩
    | ok res =>
      rw [transformed, ok_bind] at stopped
      cases mapped : rest.mapM transform with
      | error got =>
        rw [mapped, error_bind] at stopped
        obtain ⟨x, mem, stoppedAt⟩ := ih (Except.error.inj stopped ▸ mapped)
        exact ⟨x, .tail _ mem, stoppedAt⟩
      | ok results =>
        rw [mapped, ok_bind] at stopped
        cases stopped

/-- A map whose items all end well ends well. -/
theorem mapM_eq_ok {transform : α → Except ε β} {items : List α} {results : List β}
    (sameLength : results.length = items.length) (transformed : ∀ (i : Nat) (x : α), items[i]? = some x →
      ∃ res, results[i]? = some res ∧ transform x = .ok res) : items.mapM transform = .ok results := by
  induction items generalizing results with
  | nil =>
    rw [mapM_nil, eq_nil_of_length_eq_zero sameLength]
    rfl
  | cons first rest ih =>
    cases results with
    | nil => simp at sameLength
    | cons v values =>
      have firstOk : transform first = .ok v := by simpa using transformed 0 first rfl
      have restOk : rest.mapM transform = .ok values := by
        refine ih (by simpa using sameLength) ?_
        intro i x got
        simpa using transformed (i + 1) x (by simpa using got)
      rw [mapM_cons, firstOk]
      exact bind_ok rfl <| bind_ok restOk rfl

end SinglePath
