import Stackweave.Monkey.Event

/-!
# Waiting without a deadline

What the users of a `CoEvent` rely on who wait without a deadline and do not clear it under a
waiter: step by step where a `wait` or a `set` gets to, and that a `wait` returns once the flag is
set and its fiber was woken.
-/

namespace Stackweave.Monkey.Event

open Transition

variable {n : ℕ} {s t : State} {f : ℕ}

/-- In a `wait` without a deadline that has not returned. -/
@[grind =]
def Pc.waits : Pc → Bool
  | .entering false | .enrolling _ false | .loop _ false _ | .parked _ false | .recheck _ false => true
  | .enrollAgain _ false | .leaving _ false | .releasing _ false | .final false => true
  | _ => false

/-- What a step of one fiber comes to: `q` is where it is then. -/
structure Turn (n : ℕ) (s t : State) (f : ℕ) (q : Pc) : Prop where
  inv : Inv n t
  self : t.pc f = q
  others : ∀ g, g ≠ f → t.pc g = s.pc g

theorem Turn.of_pc {q : Pc} (hi : Inv n t) (h : t.pc = Function.update s.pc f q) :
    Turn n s t f q where
  inv := hi
  self := by rw [h, Function.update_self]
  others g hg := by rw [h, Function.update_of_ne hg]

theorem Inv.wait (hi : Inv n s) (hs : Event.step n s (.wait f false) = some t) :
    Turn n s t f (.entering false) ∧ t.flag = s.flag := by
  have ht := hi.step rfl hs
  obtain ⟨-, h⟩ := Option.ite_none_right_eq_some.mp hs
  cases h
  exact ⟨.of_pc ht rfl, rfl⟩

theorem Inv.clear (hi : Inv n s) (hlate : clearsLate n s (.clear f) = false)
    (hs : Event.step n s (.clear f) = some t) : Turn n s t f .idle ∧ t.flag = false := by
  have ht := hi.step hlate hs
  obtain ⟨-, h⟩ := Option.ite_none_right_eq_some.mp hs
  cases h
  exact ⟨.of_pc ht rfl, rfl⟩

theorem Inv.set (hi : Inv n s) (hs : Event.step n s (.set f) = some t) :
    ∃ q, Turn n s t f q ∧ (q.sets = true ∨ q = .idle) ∧ t.flag = true := by
  have ht := hi.step rfl hs
  obtain ⟨-, h⟩ := Option.ite_none_right_eq_some.mp hs
  split at h
  · rename_i hflag
    cases h
    exact ⟨_, .of_pc ht rfl, .inr rfl, hflag⟩
  · cases h
    exact ⟨_, .of_pc ht rfl, .inl rfl, rfl⟩

/-- The rest of a `set`. -/
theorem Inv.sets (hi : Inv n s) (hf : (s.pc f).sets = true) (hs : Event.fiberStep s f = some t) :
    ∃ q, Turn n s t f q ∧ (q.sets = true ∨ q = .idle) ∧ t.flag = s.flag := by
  have ht := hi.fiberStep hs
  cases hpc : s.pc f with
  | collecting ps gs =>
    cases ps with
    | nil =>
      simp only [Event.fiberStep, hpc, Option.some.injEq] at hs
      subst hs
      exact ⟨_, .of_pc ht rfl, .inl rfl, rfl⟩
    | cons p ps =>
      simp only [Event.fiberStep, hpc, Option.some.injEq] at hs
      subst hs
      exact ⟨_, .of_pc ht rfl, .inl rfl, rfl⟩
  | waking gs =>
    cases gs with
    | nil =>
      simp only [Event.fiberStep, hpc, Option.some.injEq] at hs
      subst hs
      exact ⟨_, .of_pc ht rfl, .inr rfl, rfl⟩
    | cons g gs =>
      simp only [Event.fiberStep, hpc, Option.some.injEq] at hs
      subst hs
      exact ⟨_, .of_pc ht rfl, .inl rfl, rfl⟩
  | idle | returned | entering | enrolling | loop | parked | recheck | enrollAgain | leaving
  | releasing | final =>
    simp [hpc, Pc.sets] at hf

/-- A turn of a `wait`. It returns only where the flag is set. -/
theorem Inv.waits (hi : Inv n s) (hf : (s.pc f).waits = true) (hs : Event.fiberStep s f = some t) :
    ∃ q, Turn n s t f q ∧ t.flag = s.flag ∧
      (q.waits = true ∨ q = .returned true false ∧ s.flag = true) := by
  have ht := hi.fiberStep hs
  cases hpc : s.pc f with
  | entering timed =>
    obtain rfl : timed = false := by cases timed <;> simp_all [Pc.waits]
    simp only [Event.fiberStep, hpc] at hs
    split at hs
    · cases hs
      exact ⟨_, .of_pc ht rfl, rfl, .inr ⟨rfl, ‹_›⟩⟩
    · cases hs
      exact ⟨_, .of_pc ht rfl, rfl, .inl rfl⟩
  | enrolling p timed =>
    obtain rfl : timed = false := by cases timed <;> simp_all [Pc.waits]
    simp only [Event.fiberStep, hpc] at hs
    split at hs
    · cases hs
      exact ⟨_, .of_pc ht rfl, rfl, .inr ⟨rfl, ‹_›⟩⟩
    · cases hs
      exact ⟨_, .of_pc ht rfl, rfl, .inl rfl⟩
  | loop p timed seen =>
    obtain rfl : timed = false := by cases timed <;> simp_all [Pc.waits]
    simp only [Event.fiberStep, hpc] at hs
    split at hs
    · cases hs
      exact ⟨_, .of_pc ht rfl, rfl, .inl rfl⟩
    · cases hs
      exact ⟨_, .of_pc ht rfl, rfl, .inl rfl⟩
  | recheck p timed =>
    obtain rfl : timed = false := by cases timed <;> simp_all [Pc.waits]
    simp only [Event.fiberStep, hpc] at hs
    split at hs
    · cases hs
      exact ⟨_, .of_pc ht rfl, rfl, .inl rfl⟩
    · cases hs
      exact ⟨_, .of_pc ht rfl, rfl, .inl rfl⟩
  | enrollAgain p timed =>
    obtain rfl : timed = false := by cases timed <;> simp_all [Pc.waits]
    simp only [Event.fiberStep, hpc] at hs
    split at hs
    · cases hs
      exact ⟨_, .of_pc ht rfl, rfl, .inl rfl⟩
    · split at hs
      · cases hs
        exact ⟨_, .of_pc ht rfl, rfl, .inl rfl⟩
      · cases hs
        exact ⟨_, .of_pc ht rfl, rfl, .inl rfl⟩
  | leaving p timed | releasing p timed =>
    obtain rfl : timed = false := by cases timed <;> simp_all [Pc.waits]
    simp only [Event.fiberStep, hpc, Option.some.injEq] at hs
    subst hs
    exact ⟨_, .of_pc ht rfl, rfl, .inl rfl⟩
  | final timed =>
    obtain rfl : timed = false := by cases timed <;> simp_all [Pc.waits]
    have hflag : s.flag = true := hi.late f (by rw [hpc]; rfl)
    simp only [Event.fiberStep, hpc, Option.some.injEq, hflag] at hs
    subst hs
    exact ⟨_, .of_pc ht rfl, rfl, .inr ⟨rfl, hflag⟩⟩
  | parked p timed => simp [Event.fiberStep, hpc] at hs
  | idle | returned | collecting | waking => simp [hpc, Pc.waits] at hf

theorem Inv.unpark (hi : Inv n s) {a : Action} (ha : a = .resume f ∨ a = .spurious f)
    (hf : (s.pc f).waits = true) (hs : Event.step n s a = some t) :
    ∃ q, Turn n s t f q ∧ t.flag = s.flag ∧ q.waits = true := by
  cases hpc : s.pc f with
  | parked p timed =>
    obtain rfl : timed = false := by cases timed <;> simp_all [Pc.waits]
    rcases ha with rfl | rfl
    · have ht := hi.step rfl hs
      simp only [Event.step, hpc] at hs
      obtain ⟨-, h⟩ := Option.ite_none_right_eq_some.mp hs
      cases h
      exact ⟨_, .of_pc ht rfl, rfl, rfl⟩
    · have ht := hi.step rfl hs
      simp only [Event.step, hpc, Option.some.injEq] at hs
      subst hs
      exact ⟨_, .of_pc ht rfl, rfl, rfl⟩
  | idle | returned | entering | enrolling | loop | recheck | enrollAgain | leaving | releasing
  | final | collecting | waking =>
    rcases ha with rfl | rfl <;> simp [Event.step, hpc] at hs

/-- The turns that are left to a `wait` that finds the flag set. -/
@[grind =]
def Pc.left : Pc → ℕ
  | .entering _ | .enrolling _ _ | .final _ => 1
  | .releasing _ _ => 2
  | .leaving _ _ => 3
  | .loop _ _ _ => 4
  | .recheck _ _ | .enrollAgain _ _ => 5
  | _ => 0

/-- With the flag set and its fiber not parked a `wait` gets closer to its end with every turn. -/
theorem closer (hflag : s.flag = true) (hf : (s.pc f).waits = true)
    (hp : ∀ p, s.pc f ≠ .parked p false) : ∃ t, Event.fiberStep s f = some t ∧ t.flag = true ∧
      (t.pc f = .returned true false ∨
        (t.pc f).waits = true ∧ (∀ p, t.pc f ≠ .parked p false) ∧
          (t.pc f).left < (s.pc f).left) := by
  cases hpc : s.pc f with
  | entering timed | enrolling p timed | final timed =>
    obtain rfl : timed = false := by cases timed <;> simp_all [Pc.waits]
    simp [Event.fiberStep, hpc, hflag, State.goto]
  | loop p timed seen =>
    obtain rfl : timed = false := by cases timed <;> simp_all [Pc.waits]
    simp [Event.fiberStep, hpc, hflag, State.goto, Pc.waits, Pc.left]
  | recheck p timed | enrollAgain p timed | leaving p timed | releasing p timed =>
    obtain rfl : timed = false := by cases timed <;> simp_all [Pc.waits]
    simp [Event.fiberStep, hpc, hflag, State.goto, Pc.waits, Pc.left]
  | parked p timed =>
    obtain rfl : timed = false := by cases timed <;> simp_all [Pc.waits]
    exact absurd hpc (hp p)
  | idle | returned | collecting | waking => simp [hpc, Pc.waits] at hf

end Stackweave.Monkey.Event
