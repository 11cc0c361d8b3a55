import Mathlib.Logic.Function.Basic

/-!
Wake-ups on their way. A party that takes waiters off a list wakes them one after the
other; `wakes` reads off where it stands which ones it has still to wake, and `woken`
holds the wake-ups that were made and not used. `Pending` follows a wake-up from the one
to the other, through the steps of the party that makes it, of the one it is for and of
anyone else.
-/

namespace Stackweave.Wakeup

open Function

variable {ι P : Type*} [DecidableEq ι] {wakes : P → List ι} {pc pc' : ι → P}
  {woken woken' : ι → Bool} {e f : ι} {q : P}

def Pending (wakes : P → List ι) (pc : ι → P) (woken : ι → Bool) (f : ι) : Prop :=
  woken f = true ∨ ∃ e, f ∈ wakes (pc e)

/-- A party that has no wake-up to make takes some over. -/
theorem Pending.of_mem (hpc : pc' = update pc e q) (hf : f ∈ wakes q) :
    Pending wakes pc' woken' f := by
  refine .inr ⟨e, ?_⟩
  rw [hpc, update_self]
  exact hf

/-- A party moves on and drops no wake-up. -/
theorem Pending.goto (h : Pending wakes pc woken f) (hpc : pc' = update pc e q)
    (he : ∀ g ∈ wakes (pc e), g ∈ wakes q) (hw : woken f = true → woken' f = true) :
    Pending wakes pc' woken' f := by
  rcases h with h | ⟨m, hm⟩
  · exact .inl (hw h)
  · by_cases hme : m = e
    · rw [hme] at hm
      exact .of_mem hpc (he f hm)
    · refine .inr ⟨m, ?_⟩
      rw [hpc, update_of_ne hme]
      exact hm

/-- A party makes the next of its wake-ups. -/
theorem Pending.wake (h : Pending wakes pc woken f) (hpc : pc' = update pc e q) {g : ι}
    (he : ∀ x ∈ wakes (pc e), x = g ∨ x ∈ wakes q) (hw : woken' = update woken g true) :
    Pending wakes pc' woken' f := by
  have hwoken : f = g ∨ woken f = true → woken' f = true := by
    intro hor
    rw [hw]
    by_cases hfg : f = g
    · rw [hfg, update_self]
    · rw [update_of_ne hfg]
      exact hor.resolve_left hfg
  rcases h with h | ⟨m, hm⟩
  · exact .inl (hwoken (.inr h))
  · by_cases hme : m = e
    · rw [hme] at hm
      rcases he f hm with hfg | hmem
      · exact .inl (hwoken (.inl hfg))
      · exact .of_mem hpc hmem
    · refine .inr ⟨m, ?_⟩
      rw [hpc, update_of_ne hme]
      exact hm

/-- Another party uses its wake-up. -/
theorem Pending.resume (h : Pending wakes pc woken f) (hpc : pc' = update pc e q)
    (he : wakes (pc e) = []) (hw : woken' = update woken e false) (hne : f ≠ e) :
    Pending wakes pc' woken' f := by
  refine h.goto hpc (fun g hg => ?_) fun hf => ?_
  · rw [he] at hg
    cases hg
  · rw [hw, update_of_ne hne]
    exact hf

end Stackweave.Wakeup
