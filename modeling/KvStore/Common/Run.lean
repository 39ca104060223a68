import Mathlib

/-!
# Runs of a transition system

A system is a partial step function `step : σ → α → Option σ`: `none` means that
the action is not enabled. `Run step ok s t` says that `t` is reached from `s` by
enabled actions each of which satisfies `ok` in the state it is taken from;
`ok := Always` is plain reachability.

* `Run.invariant`: what every step keeps holds in every state reached.
* `Run.exec`: a list of actions that executes gives a run, which is how a
  concrete schedule is exhibited; `Run.of_guarded` does so for runs under a condition.
* `foldlM_simulates`: a fold that may fail follows one that cannot.
-/

namespace KvStore.Common

variable {σ α : Type}

/-- `t` is reached from `s` by steps that all satisfy `ok`. -/
inductive Run (step : σ → α → Option σ) (ok : σ → α → Prop) (s : σ) : σ → Prop
  | refl : Run step ok s s
  | tail {t u : σ} (a : α) : Run step ok s t → ok t a → step t a = some u → Run step ok s u

/-- The condition every step satisfies. -/
def Always (_ : σ) (_ : α) : Prop := True

/-- Execute a list of actions, failing at the first one that is not enabled. -/
def exec (step : σ → α → Option σ) : σ → List α → Option σ
  | s, [] => some s
  | s, a :: as => (step s a).bind fun t => exec step t as

variable {step : σ → α → Option σ} {ok : σ → α → Prop} {s t u : σ}

theorem Run.invariant {P : σ → Prop} (hstep : ∀ s a t, P s → ok s a → step s a = some t → P t)
    (h : Run step ok s t) (h0 : P s) : P t := by
  induction h with
  | refl => exact h0
  | tail a _ hok hs ih => exact hstep _ a _ ih hok hs

theorem Run.trans (h1 : Run step ok s t) (h2 : Run step ok t u) : Run step ok s u := by
  induction h2 with
  | refl => exact h1
  | tail a _ hok hs ih => exact ih.tail a hok hs

theorem Run.mono {ok' : σ → α → Prop} (hok : ∀ s a, ok s a → ok' s a) (h : Run step ok s t) :
    Run step ok' s t := by
  induction h with
  | refl => exact .refl
  | tail a _ ha hs ih => exact ih.tail a (hok _ a ha) hs

/-- A run of a system that another one can follow. -/
theorem Run.map {β : Type} {step' : σ → β → Option σ} {ok' : σ → β → Prop} (f : α → β)
    (hf : ∀ s a t, ok s a → step s a = some t → ok' s (f a) ∧ step' s (f a) = some t)
    (h : Run step ok s t) : Run step' ok' s t := by
  induction h with
  | refl => exact .refl
  | tail a _ ha hs ih =>
    obtain ⟨ha', hs'⟩ := hf _ a _ ha hs
    exact ih.tail (f a) ha' hs'

theorem Run.exec {as : List α} (h : exec step s as = some t) : Run step Always s t := by
  induction as generalizing s with
  | nil => cases h; exact .refl
  | cons a as ih =>
    obtain ⟨m, hm, hrest⟩ := Option.bind_eq_some_iff.mp h
    exact (Run.refl.tail a trivial hm).trans (ih hrest)

/-- `step`, enabled only where `ok` holds. -/
def guarded (step : σ → α → Option σ) (ok : σ → α → Prop) [∀ s a, Decidable (ok s a)] (s : σ)
    (a : α) : Option σ := if ok s a then step s a else none

theorem Run.of_guarded [∀ s a, Decidable (ok s a)] {as : List α}
    (h : Common.exec (guarded step ok) s as = some t) : Run step ok s t := by
  induction as generalizing s with
  | nil => cases h; exact .refl
  | cons a as ih =>
    obtain ⟨m, hm, hrest⟩ := Option.bind_eq_some_iff.mp h
    unfold guarded at hm
    split_ifs at hm with hok
    exact (Run.refl.tail a hok hm).trans (ih hrest)

/-- A schedule that evaluates to a state with `P`, exhibited. -/
theorem Run.exists_of_exec (step : σ → α → Option σ) (s : σ) (as : List α) (P : σ → Prop)
    [DecidablePred P] (h : ((Common.exec step s as).any fun t => decide (P t)) = true) :
    ∃ t, Run step Always s t ∧ P t := by
  obtain ⟨t, ht, hP⟩ := (Option.any_eq_true _ _).mp h
  exact ⟨t, .exec ht, of_decide_eq_true hP⟩

theorem Run.exists_of_guarded (step : σ → α → Option σ) (ok : σ → α → Prop)
    [∀ s a, Decidable (ok s a)] (s : σ) (as : List α) (P : σ → Prop) [DecidablePred P]
    (h : ((Common.exec (guarded step ok) s as).any fun t => decide (P t)) = true) :
    ∃ t, Run step ok s t ∧ P t := by
  obtain ⟨t, ht, hP⟩ := (Option.any_eq_true _ _).mp h
  exact ⟨t, .of_guarded ht, of_decide_eq_true hP⟩

/-- A fold that may fail follows one that does not, when every step does. -/
theorem foldlM_simulates {τ : Type} {f : σ → α → Option σ} {g : τ → α → τ} {R : σ → τ → Prop}
    (h : ∀ s t a, R s t → ∃ s', f s a = some s' ∧ R s' (g t a)) :
    ∀ (l : List α) (s : σ) (t : τ), R s t → ∃ s', l.foldlM f s = some s' ∧ R s' (l.foldl g t) := by
  intro l
  induction l with
  | nil => intro s t hst; exact ⟨s, rfl, hst⟩
  | cons a l ih =>
    intro s t hst
    obtain ⟨s', hf, hst'⟩ := h s t a hst
    obtain ⟨s'', hl, hst''⟩ := ih s' (g t a) hst'
    refine ⟨s'', ?_, hst''⟩
    rw [List.foldlM_cons, hf]
    exact hl

end KvStore.Common
