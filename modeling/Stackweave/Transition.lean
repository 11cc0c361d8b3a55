import Mathlib.Logic.Function.Basic

/-!
Systems of atomic steps. A `System` has initial states and a step function
that is `none` where an action is not enabled, so every run can be evaluated.
`Reachable` is the set of states that some interleaving reaches; the rule
`Reachable.invariant` turns "holds initially and is kept by every step" into
"holds in every reachable state". `System.restrict` keeps only the steps that
meet a condition, which is how a property of the conditioned runs is stated.
-/

namespace Stackweave.Transition

/-- Initial states and a partial step function. -/
structure System (σ α : Type*) where
  init : σ → Prop
  step : σ → α → Option σ

namespace System

variable {σ α : Type*}

/-- Run a list of actions; `none` as soon as one of them is not enabled. -/
def run (M : System σ α) : σ → List α → Option σ
  | s, [] => some s
  | s, a :: as => (M.step s a).bind fun t => M.run t as

theorem run_append (M : System σ α) {s : σ} (as bs : List α) :
    M.run s (as ++ bs) = (M.run s as).bind fun t => M.run t bs := by
  induction as generalizing s with
  | nil => rfl
  | cons a as ih => simp only [List.cons_append, run, ih, Option.bind_assoc]

theorem run_trans (M : System σ α) {s t u : σ} {as bs : List α} (hs : M.run s as = some t)
    (ht : M.run t bs = some u) : M.run s (as ++ bs) = some u := by
  rw [run_append, hs]
  exact ht

/-- The same system with the steps that miss the condition removed. -/
def restrict (M : System σ α) (ok : σ → α → Prop) [∀ s a, Decidable (ok s a)] :
    System σ α where
  init := M.init
  step s a := if ok s a then M.step s a else none

theorem restrict_step {M : System σ α} {ok : σ → α → Prop} [∀ s a, Decidable (ok s a)]
    {s t : σ} {a : α} :
    (M.restrict ok).step s a = some t ↔ ok s a ∧ M.step s a = some t := by
  unfold restrict
  by_cases h : ok s a <;> simp [h]

end System

variable {σ α : Type*}

/-- The states that some finite sequence of enabled steps leads to. -/
inductive Reachable (M : System σ α) : σ → Prop
  | start {s : σ} : M.init s → Reachable M s
  | next {s t : σ} {a : α} : Reachable M s → M.step s a = some t → Reachable M t

variable {M : System σ α} {s : σ}

/-- **Invariant rule.** A property that holds initially and that every step
from a reachable state keeps holds in every reachable state. -/
theorem Reachable.invariant {P : σ → Prop}
    (hinit : ∀ s, M.init s → P s)
    (hstep : ∀ s a t, Reachable M s → P s → M.step s a = some t → P t)
    (h : Reachable M s) : P s := by
  induction h with
  | start hs => exact hinit _ hs
  | next hr hs ih => exact hstep _ _ _ hr ih hs

/-- A run from a reachable state ends in a reachable state. -/
theorem Reachable.run {t : σ} {as : List α}
    (h : Reachable M s) (hr : M.run s as = some t) : Reachable M t := by
  induction as generalizing s with
  | nil =>
    simp only [System.run, Option.some.injEq] at hr
    exact hr ▸ h
  | cons a as ih =>
    obtain ⟨u, hu, hrest⟩ := Option.bind_eq_some_iff.mp hr
    exact ih (h.next hu) hrest

theorem reachable_of_run (M : System σ α) (as : List α) {t : σ}
    (hs : M.init s) (hr : M.run s as = some t) : Reachable M t :=
  (Reachable.start hs).run hr

theorem Reachable.restrict_next {ok : σ → α → Prop}
    [∀ s a, Decidable (ok s a)] {t : σ} (h : Reachable (M.restrict ok) s) (a : α)
    (hok : ok s a) (hs : M.step s a = some t) : Reachable (M.restrict ok) t :=
  h.next (System.restrict_step.mpr ⟨hok, hs⟩)

/-- Every state of a conditioned run is a state of an unconditioned one. -/
theorem Reachable.of_restrict {ok : σ → α → Prop}
    [∀ s a, Decidable (ok s a)] (h : Reachable (M.restrict ok) s) :
    Reachable M s := by
  induction h with
  | start hs => exact .start hs
  | next _ hs ih => exact ih.next (System.restrict_step.mp hs).2

end Stackweave.Transition
