import Mathlib.Data.List.Basic
import Stackweave.Monkey.Parker

/-!
# `CoCondition` (`monkey/events.py`)

Fibers and foreign threads that take the condition's lock, wait on it (timed or
not) and notify while they hold it. The lock is the owner and depth of a
`CoRLock`; a plain lock has depth 1. Every turn of `wait` builds a parker of its
own, which gets the next number. A park may return at any time.
-/

namespace Stackweave.Monkey.Condition

open Transition

/-- A `wait` in progress: `owned_recursion` and whether it has a deadline. -/
structure Wait where
  saved : ℕ
  timed : Bool

/-- Where a caller stands; each constructor inside a call names what it does next. -/
inductive Pc
  | outside
  /-- holds the lock, between two calls; what its last `wait` returned -/
  | inside (result : Option Bool)
  | build (w : Wait)
  | append (w : Wait) (p : ℕ)
  /-- `self._lock._count = 1; self._lock.release()` -/
  | unlock (w : Wait) (p : ℕ)
  | park (w : Wait) (p : ℕ)
  /-- `p.release()` -/
  | release (w : Wait) (p : ℕ)
  | relock (w : Wait) (p : ℕ)
  /-- `self._waiters.remove(p)` -/
  | remove (w : Wait) (p : ℕ)
  /-- was still queued: looks at its deadline -/
  | recheck (w : Wait)
  | restore (w : Wait) (result : Bool)
  | notify (left : ℕ) (woke : List ℕ)
  /-- `_unpark_all` -/
  | waking (woke : List ℕ)

/-- `wake` are the latched wakes. `released` is history: the parkers whose
`release()` has begun. -/
structure State where
  holder : Option ℕ
  count : ℕ
  waiters : List ℕ
  parkers : ℕ
  wake : ℕ → Bool
  pc : ℕ → Pc
  released : ℕ → Bool

def init : State :=
  { holder := none, count := 0, waiters := [], parkers := 0, wake := fun _ => false
    pc := fun _ => .outside, released := fun _ => false }

inductive Action
  | lock (n : ℕ)
  | unlock (n : ℕ)
  | wait (n : ℕ) (timed : Bool)
  | notify (n k : ℕ)
  | notifyAll (n : ℕ)
  | caller (n : ℕ)
  | spurious (n : ℕ)
  | expire (n : ℕ)

def State.goto (s : State) (n : ℕ) (p : Pc) : State :=
  { s with pc := fun m => if m = n then p else s.pc m }

def State.setWake (s : State) (p : ℕ) (b : Bool) : State :=
  { s with wake := fun q => if q = p then b else s.wake q }

/-- The release of the parker begins. -/
def State.drop (s : State) (p : ℕ) : State :=
  { s with released := fun q => if q = p then true else s.released q }

/-- The next step of a caller inside a `wait` or a `notify`. -/
def callerStep (s : State) (n : ℕ) : Option State :=
  match s.pc n with
  | .build w => some ({ s with parkers := s.parkers + 1 }.goto n (.append w s.parkers))
  | .append w p => some ({ s with waiters := s.waiters ++ [p] }.goto n (.unlock w p))
  | .unlock w p => some ({ s with holder := none, count := 0 }.goto n (.park w p))
  | .park w p =>
    if s.wake p then some ((s.setWake p false).goto n (.release w p)) else none
  | .release w p => some ((s.drop p).goto n (.relock w p))
  | .relock w p =>
    if s.holder = none then some ({ s with holder := some n, count := 1 }.goto n (.remove w p))
    else none
  | .remove w p =>
    if p ∈ s.waiters then some ({ s with waiters := s.waiters.erase p }.goto n (.recheck w))
    else some (s.goto n (.restore w true))
  | .recheck w => some (s.goto n (.build w))
  | .restore w result => some ({ s with count := w.saved }.goto n (.inside (some result)))
  | .notify 0 woke => some (s.goto n (.waking woke))
  | .notify (k + 1) woke =>
    match s.waiters with
    | [] => some (s.goto n (.waking woke))
    | p :: ps => some ({ s with waiters := ps }.goto n (.notify k (woke ++ [p])))
  | .waking [] => some (s.goto n (.inside none))
  | .waking (p :: ps) => some ((s.setWake p true).goto n (.waking ps))
  | _ => none

@[grind =]
def step (s : State) : Action → Option State
  | .lock n =>
    match s.pc n with
    | .outside =>
      if s.holder = none then some ({ s with holder := some n, count := 1 }.goto n (.inside none))
      else none
    | .inside _ => some { s with count := s.count + 1 }
    | _ => none
  | .unlock n =>
    match s.pc n with
    | .inside _ =>
      if s.count ≤ 1 then some ({ s with holder := none, count := 0 }.goto n .outside)
      else some { s with count := s.count - 1 }
    | _ => none
  | .wait n timed =>
    match s.pc n with
    | .inside _ => some (s.goto n (.build ⟨s.count, timed⟩))
    | _ => none
  | .notify n k =>
    match s.pc n with
    | .inside _ => some (s.goto n (.notify k []))
    | _ => none
  | .notifyAll n =>
    match s.pc n with
    | .inside _ => some ({ s with waiters := [] }.goto n (.waking s.waiters))
    | _ => none
  | .caller n => callerStep s n
  -- a deadline that has passed skips the park
  | .spurious n =>
    match s.pc n with
    | .park w p => some (s.goto n (.release w p))
    | _ => none
  | .expire n =>
    match s.pc n with
    | .recheck ⟨saved, true⟩ => some (s.goto n (.restore ⟨saved, true⟩ false))
    | _ => none

def system : System State Action where
  init s := s = init
  step := step

/-! ## The parkers of the callers -/

section Site

open Parker

/-- The parker that a caller has built and not released. -/
@[grind =]
def Pc.parker : Pc → Option ℕ
  | .append _ p | .unlock _ p | .park _ p | .release _ p => some p
  | _ => none

/-- The parkers that a notifier has popped and not woken. -/
def Pc.bound : Pc → List ℕ
  | .notify _ woke | .waking woke => woke
  | _ => []

/-- A parker in use is built, not released, and one caller's. -/
structure InUse (s : State) : Prop where
  past : ∀ p, s.released p = true → p < s.parkers
  built : ∀ n p, (s.pc n).parker = some p → p < s.parkers ∧ s.released p = false
  one : ∀ n m p, (s.pc n).parker = some p → (s.pc m).parker = some p → n = m

def stage (s : State) (p : ℕ) : Stage :=
  if s.parkers ≤ p then .before else if s.released p then .after else .during

@[grind =]
def Pc.effect (parkers : ℕ) (waiters : List ℕ) : Pc → Effect ℕ
  | .build _ => .build parkers false
  | .release _ p => .release p
  | .notify (_ + 1) _ => .choose (waiters.take 1)
  | .waking (p :: _) => .write p
  | _ => .quiet

/-- A notify is bound to the parkers it pops. -/
def effect (s : State) : Action → Effect ℕ
  | .caller n => (s.pc n).effect s.parkers s.waiters
  | .notifyAll _ => .choose s.waiters
  | _ => .quiet

theorem init_inUse : InUse init := by
  constructor
  case past => intro p hp; cases hp
  case built => intro n p hp; cases hp
  case one => intro n m p hp; cases hp

variable {s t : State} {n : ℕ}

/-- A caller moves on with the parker it has, or without one. -/
theorem InUse.goto (h : InUse s) {p : Pc}
    (hpc : t.pc = fun m => if m = n then p else s.pc m) (hparkers : t.parkers = s.parkers)
    (hrel : t.released = s.released) (hp : p.parker = none ∨ p.parker = (s.pc n).parker) :
    InUse t := by
  have hold : ∀ m q, (t.pc m).parker = some q → (s.pc m).parker = some q := by
    intro m q hm
    rw [hpc] at hm
    by_cases hmn : m = n
    · subst hmn
      have hm : p.parker = some q := by simpa using hm
      rcases hp with hp | hp
      · rw [hp] at hm
        cases hm
      · exact hp ▸ hm
    · simpa [hmn] using hm
  constructor
  case past => rw [hparkers, hrel]; exact h.past
  case built =>
    intro m q hm
    rw [hparkers, hrel]
    exact h.built m q (hold m q hm)
  case one =>
    intro m k q hm hk
    exact h.one m k q (hold m q hm) (hold k q hk)

theorem callerStep_inUse (h : InUse s) (hs : callerStep s n = some t) :
    InUse t := by
  unfold callerStep at hs
  split at hs
  case h_1 w hpc =>
    -- the new parker is nobody else's: all others have smaller numbers
    cases hs
    have hcases : ∀ m q, ((State.goto { s with parkers := s.parkers + 1 } n
        (.append w s.parkers)).pc m).parker = some q →
        m = n ∧ q = s.parkers ∨ m ≠ n ∧ (s.pc m).parker = some q := by
      intro m q hm
      by_cases hmn : m = n
      · exact .inl ⟨hmn, by simpa [State.goto, hmn, Pc.parker, eq_comm] using hm⟩
      · exact .inr ⟨hmn, by simpa [State.goto, hmn] using hm⟩
    constructor
    case past => intro p hp; exact Nat.lt_succ_of_lt (h.past p hp)
    case built =>
      intro m q hm
      rcases hcases m q hm with ⟨-, rfl⟩ | ⟨-, hm⟩
      · refine ⟨Nat.lt_succ_self _, Bool.eq_false_iff.mpr fun hr => ?_⟩
        exact absurd (h.past _ hr) (Nat.lt_irrefl _)
      · obtain ⟨hlt, hr⟩ := h.built m q hm
        exact ⟨Nat.lt_succ_of_lt hlt, hr⟩
    case one =>
      intro m k q hm hk
      rcases hcases m q hm with ⟨hmn, hq⟩ | ⟨-, hm⟩
      · rcases hcases k q hk with ⟨hkn, -⟩ | ⟨-, hk⟩
        · rw [hmn, hkn]
        · exact absurd (hq ▸ (h.built k q hk).1) (Nat.lt_irrefl _)
      · rcases hcases k q hk with ⟨-, hq⟩ | ⟨-, hk⟩
        · exact absurd (hq ▸ (h.built m q hm).1) (Nat.lt_irrefl _)
        · exact h.one m k q hm hk
  case h_2 hpc | h_3 hpc =>
    cases hs
    exact h.goto rfl rfl rfl (.inr (by rw [hpc]; rfl))
  case h_4 hpc =>
    split at hs
    case isTrue =>
      cases hs
      exact h.goto rfl rfl rfl (.inr (by rw [hpc]; rfl))
    case isFalse => cases hs
  case h_5 w p hpc =>
    cases hs
    have hown : (s.pc n).parker = some p := by rw [hpc]; rfl
    have hold : ∀ m q, (((s.drop p).goto n (.relock w p)).pc m).parker = some q →
        (s.pc m).parker = some q ∧ q ≠ p := by
      intro m q hm
      have hmn : m ≠ n := fun he => by simp [State.goto, he, Pc.parker] at hm
      have hm : (s.pc m).parker = some q := by simpa [State.goto, State.drop, hmn] using hm
      exact ⟨hm, fun he => hmn (h.one m n p (he ▸ hm) hown)⟩
    constructor
    case past =>
      intro q hq
      by_cases hqp : q = p
      · rw [hqp]
        exact (h.built n p hown).1
      · exact h.past q (by simpa [State.goto, State.drop, hqp] using hq)
    case built =>
      intro m q hm
      obtain ⟨hm, hne⟩ := hold m q hm
      simpa [State.goto, State.drop, hne] using h.built m q hm
    case one =>
      intro m k q hm hk
      exact h.one m k q (hold m q hm).1 (hold k q hk).1
  case h_6 | h_7 | h_11 =>
    split at hs
    all_goals first
      | cases hs; done
      | (cases hs; exact h.goto rfl rfl rfl (.inl rfl))
  case h_8 | h_9 | h_10 | h_12 | h_13 =>
    cases hs
    exact h.goto rfl rfl rfl (.inl rfl)
  case h_14 => cases hs

theorem step_inUse {a : Action} (h : InUse s) (hs : step s a = some t) :
    InUse t := by
  cases a with
  | caller n => exact callerStep_inUse h hs
  | lock n =>
    simp only [step] at hs
    split at hs
    case h_1 =>
      split at hs
      case isTrue =>
        cases hs
        exact h.goto rfl rfl rfl (.inl rfl)
      case isFalse => cases hs
    case h_2 =>
      cases hs
      exact ⟨h.past, h.built, h.one⟩
    case h_3 => cases hs
  | unlock n =>
    simp only [step] at hs
    split at hs
    case h_1 =>
      split at hs
      · cases hs
        exact h.goto rfl rfl rfl (.inl rfl)
      · cases hs
        exact ⟨h.past, h.built, h.one⟩
    case h_2 => cases hs
  | wait n | notify n | notifyAll n | expire n =>
    simp only [step] at hs
    split at hs
    case h_1 =>
      cases hs
      exact h.goto rfl rfl rfl (.inl rfl)
    case h_2 => cases hs
  | spurious n =>
    simp only [step] at hs
    split at hs
    case h_1 hpc =>
      cases hs
      exact h.goto rfl rfl rfl (.inr (by rw [hpc]; rfl))
    case h_2 => cases hs

/-- A step that neither builds nor releases leaves every stage as it is. -/
theorem moves_of_eq {f : Effect ℕ} (hparkers : t.parkers = s.parkers)
    (hrel : t.released = s.released) (hb : ∀ p fdOnly, f ≠ .build p fdOnly)
    (hr : ∀ p, f ≠ .release p) (p : ℕ) : Moves f p (stage s p) (stage t p) := by
  have : stage t p = stage s p := by rw [stage, stage, hparkers, hrel]
  rw [this]
  exact .same (hb p) (hr p) _

theorem callerStep_moves (h : InUse s) (hs : callerStep s n = some t)
    (p : ℕ) : Moves ((s.pc n).effect s.parkers s.waiters) p (stage s p) (stage t p) := by
  unfold callerStep at hs
  split at hs
  case h_1 w hpc =>
    cases hs
    rw [hpc]
    refine Moves.one (n := s.parkers) (x := stage s) (.inl ⟨⟨false, rfl⟩, ?_, ?_⟩) ?_
      (.inr (.inl ⟨false, rfl⟩)) p
    · simp [stage]
    · have : s.released s.parkers = false := by
        refine Bool.eq_false_iff.mpr fun hr => ?_
        exact absurd (h.past _ hr) (Nat.lt_irrefl _)
      simp [stage, State.goto, this]
    · intro m hm
      have : s.parkers + 1 ≤ m ↔ s.parkers ≤ m := by omega
      simp [stage, State.goto, this]
  case h_5 w q hpc =>
    cases hs
    rw [hpc]
    obtain ⟨hlt, hr⟩ := h.built n q (by rw [hpc]; rfl)
    refine Moves.one (n := q) (x := stage s) (.inr (.inl ⟨rfl, ?_, ?_⟩)) ?_ (.inr (.inr rfl)) p
    · simp [stage, hlt, hr]
    · simp [stage, State.goto, State.drop, hlt]
    · intro m hm
      simp [stage, State.goto, State.drop, hm]
  case h_2 hpc | h_3 hpc | h_8 hpc | h_9 hpc | h_10 hpc | h_12 hpc | h_13 hpc =>
    cases hs
    rw [hpc]
    exact moves_of_eq rfl rfl (by simp [Pc.effect]) (by simp [Pc.effect]) p
  case h_4 hpc | h_6 hpc | h_7 hpc | h_11 hpc =>
    rw [hpc]
    split at hs
    all_goals first
      | cases hs; done
      | (cases hs; exact moves_of_eq rfl rfl (by simp [Pc.effect]) (by simp [Pc.effect]) p)
  case h_14 => cases hs

theorem step_moves {a : Action} (h : InUse s) (hs : step s a = some t) (p : ℕ) :
    Moves (effect s a) p (stage s p) (stage t p) := by
  cases a with
  | caller n => exact callerStep_moves h hs p
  | _ =>
    simp only [step] at hs
    repeat' split at hs
    all_goals first
      | cases hs; done
      | (cases hs; exact moves_of_eq rfl rfl (by simp [effect]) (by simp [effect]) p)

/-- A caller that moves to `q` binds itself to nothing that `q` does not name. -/
theorem bound_of_goto {p : ℕ} {q : Pc}
    (hpc : t.pc = fun m => if m = n then q else s.pc m) (hw : ∃ m, p ∈ (t.pc m).bound) :
    (∃ m, p ∈ (s.pc m).bound) ∨ p ∈ q.bound := by
  obtain ⟨m, hm⟩ := hw
  rw [hpc] at hm
  by_cases hmn : m = n
  · exact .inr (by simpa [hmn] using hm)
  · exact .inl ⟨m, by simpa [hmn] using hm⟩

theorem callerStep_bound {p : ℕ} (hs : callerStep s n = some t)
    (hw : ∃ m, p ∈ (t.pc m).bound) :
    (∃ m, p ∈ (s.pc m).bound) ∨
      ∃ ps, (s.pc n).effect s.parkers s.waiters = .choose ps ∧ p ∈ ps := by
  -- a program point that names no more than the one before
  have hsub : ∀ q : Pc, t.pc = (fun m => if m = n then q else s.pc m) →
      (∀ x ∈ q.bound, x ∈ (s.pc n).bound) → ∃ m, p ∈ (s.pc m).bound := by
    intro q hpc hq
    exact (bound_of_goto hpc hw).elim id fun hp => ⟨n, hq p hp⟩
  unfold callerStep at hs
  split at hs
  case h_10 woke hpc =>
    cases hs
    exact .inl (hsub _ rfl fun x hx => by rw [hpc]; exact hx)
  case h_11 k woke hpc =>
    split at hs
    case h_1 =>
      cases hs
      exact .inl (hsub _ rfl fun x hx => by rw [hpc]; exact hx)
    case h_2 q ps hwaiters =>
      cases hs
      rcases bound_of_goto rfl hw with hold | hp
      · exact .inl hold
      · rcases List.mem_append.mp hp with hp | hp
        · exact .inl ⟨n, by rw [hpc]; exact hp⟩
        · refine .inr ⟨[q], ?_, hp⟩
          rw [hpc, hwaiters]
          rfl
  case h_13 q ps hpc =>
    cases hs
    exact .inl (hsub _ rfl fun x hx => by rw [hpc]; exact List.mem_cons_of_mem q hx)
  case h_4 | h_6 | h_7 =>
    split at hs
    all_goals first
      | cases hs; done
      | (cases hs; exact .inl (hsub _ rfl fun x hx => by cases hx))
  case h_14 => cases hs
  all_goals
    cases hs
    exact .inl (hsub _ rfl fun x hx => by cases hx)

theorem step_bound {a : Action} {p : ℕ} (hs : step s a = some t)
    (hw : ∃ m, p ∈ (t.pc m).bound) :
    (∃ m, p ∈ (s.pc m).bound) ∨ ∃ ps, effect s a = .choose ps ∧ p ∈ ps := by
  cases a with
  | caller n => exact callerStep_bound hs hw
  | notifyAll n =>
    simp only [step] at hs
    split at hs
    case h_1 =>
      cases hs
      exact (bound_of_goto rfl hw).imp_right fun hp => ⟨s.waiters, rfl, hp⟩
    case h_2 => cases hs
  | lock n | unlock n =>
    simp only [step] at hs
    repeat' split at hs
    all_goals first
      | cases hs; done
      | (cases hs; exact .inl hw)
      | (cases hs; exact .inl ((bound_of_goto rfl hw).elim id fun hp => by cases hp))
  | wait n | notify n | spurious n | expire n =>
    simp only [step] at hs
    split at hs
    case h_1 =>
      cases hs
      exact .inl ((bound_of_goto rfl hw).elim id fun hp => by cases hp)
    case h_2 => cases hs

/-- The condition with the parkers of its waits. -/
def site : Site where
  State := State
  Action := Action
  init := init
  step := step
  effect := effect
  stage := stage
  Inv := InUse
  Writing s p := ∃ n, p ∈ (s.pc n).bound
  inv_init := init_inUse
  inv_step h hs := step_inUse h hs
  stage_init _ := rfl
  stage_step h hs p := step_moves h hs p
  writing_step hs hw := step_bound hs hw
  writing_write := by
    intro s a t p _ hw
    cases a with
    | caller n =>
      refine ⟨n, ?_⟩
      simp only [effect] at hw
      cases hp : s.pc n with
      | waking ps =>
        rw [hp] at hw
        cases ps with
        | nil => cases hw
        | cons q ps =>
          cases hw
          exact List.mem_cons_self
      | notify k woke =>
        rw [hp] at hw
        cases k <;> cases hw
      | _ =>
        rw [hp] at hw
        cases hw
    | _ => cases hw

end Site

end Stackweave.Monkey.Condition
