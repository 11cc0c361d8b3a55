import Mathlib.Data.List.Basic
import Mathlib.Tactic.Common
import Stackweave.Transition

/-!
# The task driver and `cancel()` (`aio/tasks.py`, `_wait_fd` and `_blocking` of `aio/_base.py`)

One `StackweaveTask`: its driver, the coroutine it drives, which does anything a
coroutine can, the future the coroutine is suspended on, and the calls of `cancel()`
from anywhere. `_wait_fd` and `_blocking` park inside a step of the coroutine.
`credit` is `g->wake_pending`: a wake adds one, a return of `park_self` takes one.
-/

namespace Stackweave.Aio.Task

open Transition

/-- How a future ended. -/
inductive Out
  | result
  | exception
  | cancelled
  deriving DecidableEq

/-- What the driver is to throw; a `CancelledError` is `ours` when a `cancel()` of this task
made it. -/
inductive Throw
  | cancel (ours : Bool)
  | error
  deriving DecidableEq

/-- The future that the coroutine is suspended on, whether a cancel was pending then, and
what the future has answered to the cancels passed on to it. -/
structure Wait where
  out : Option Out
  pending : Bool
  taken : Bool
  refused : Bool
  deriving DecidableEq

/-- Where the driver stands. -/
inductive Pc
  /-- `defer_spawn`: there is no fiber yet -/
  | unspawned
  /-- the fiber has not begun -/
  | fresh
  /-- the top of the loop, with `throw_exc` -/
  | top (throw : Option Throw)
  /-- code of the coroutine runs -/
  | running
  | waitFd
  /-- the wait is over, the fiber not yet resumed -/
  | readied (cancelled : Bool)
  | blocking
  /-- `park_self`, with `_pgfutwaiter` set -/
  | parked (w : Wait)
  | returned
  deriving DecidableEq

/-- `must` is `_pgmustcancel`. History: `asked` are the `cancel()` calls that returned True,
`raised` the `CancelledError`s they made; `spent` is a flag whose request `_wait_fd` has
raised; `missed`, a wait that ended otherwise while the task was owed its first one. -/
structure State where
  pc : Pc
  must : Bool
  credit : ℕ
  asked : ℕ
  raised : ℕ
  spent : Bool
  missed : Bool

def init : State :=
  { pc := .unspawned, must := false, credit := 0, asked := 0, raised := 0, spent := false
    missed := false }

/-- What a pending future does with a `cancel()`: a plain one ends cancelled, a task may
take it and end later. -/
inductive Answer
  | cancels
  | takes
  | refuses
  deriving DecidableEq

/-- `asyncio.current_task()`. -/
inductive Slot
  | mine
  | other
  deriving DecidableEq

inductive Yield
  | bare
  /-- not a future, or the task itself -/
  | misuse
  | future (out : Option Out)

inductive Action
  | spawn
  | cancel (a : Answer)
  | advance
  | waitFd
  | ready
  | waitReturn
  | block
  | blockReturn (ok : Bool) (slot : Slot) (left : ℕ)
  | yield (y : Yield)
  | finish
  | complete (out : Out)
  | wake
  /-- a wake meant for something else -/
  | stray
  /-- `_blocking` of another task finds this one current -/
  | steal

/-- A cancel was asked for, and no `CancelledError` raised. -/
def State.owed (s : State) : Bool :=
  decide (0 < s.asked) && s.raised == 0

/-- The coroutine goes on, not with a `CancelledError` of ours. -/
def State.resume (s : State) : State :=
  { s with pc := .running, missed := s.missed || s.owed }

def State.raise (s : State) : State :=
  { s with pc := .running, raised := s.raised + 1 }

/-- `self._pgmustcancel = True`. -/
def State.mark (s : State) : State :=
  { s with must := true, spent := false, asked := s.asked + 1 }

/-- `self._pgmustcancel = False`. -/
def State.unmark (s : State) : State :=
  { s with must := false, spent := false }

def State.credited (s : State) : State :=
  { s with credit := s.credit + 1 }

def throwOf (taken : Bool) : Out → Option Throw
  | .result => none
  | .exception => some .error
  | .cancelled => some (.cancel taken)

/-- `f.cancel()` of the awaited future. -/
def cancelWaiter (s : State) (w : Wait) (a : Answer) : State :=
  match w.out, a with
  | none, .cancels =>
    { s with pc := .parked { w with out := some .cancelled, taken := true }
             asked := s.asked + 1 }.credited
  | none, .takes => { s with pc := .parked { w with taken := true }, asked := s.asked + 1 }
  | _, _ => { s with pc := .parked { w with refused := true } }.mark

/-- `StackweaveTask.cancel`. -/
def cancel (s : State) (a : Answer) : Option State :=
  match s.pc with
  | .returned => some s
  | .parked w => some (cancelWaiter s w a)
  | .unspawned | .fresh => some s.mark
  -- `cancel_wait_fd` woke it
  | .waitFd =>
    some { s with pc := .readied true, must := true, spent := !s.must || s.spent
                  asked := s.asked + 1 }
  | .top none | .running | .readied _ | .blocking => some s.mark.credited
  -- no code runs between a decided throw and the throw
  | .top (some _) => none

/-- One round of the driver's loop: the send or the throw. -/
def advance (s : State) : Option State :=
  match s.pc with
  | .fresh | .top none => if s.must then some s.unmark.raise else some s.resume
  | .top (some (.cancel true)) => some s.raise
  | .top (some _) => some s.resume
  | _ => none

/-- The coroutine ends its step with a yield. -/
def yields (s : State) : Yield → State
  | .bare => { s with pc := .top none }
  | .misuse => { s with pc := .top (some .error) }
  | .future (some out) => { s with pc := .top (throwOf false out) }
  | .future none => { s with pc := .parked ⟨none, s.must, false, false⟩ }

/-- `park_self` returns, and the loop around it looks again. -/
def wake (s : State) (w : Wait) : Option State :=
  match s.credit with
  | 0 => none
  | n + 1 =>
    let t := { s with credit := n }
    if s.must then some { t.unmark with pc := .top (some (.cancel true)) }
    else
      match w.out with
      | none => some t
      | some out => some { t with pc := .top (throwOf w.taken out) }

/-- The rest of `_blocking`; an exception of the offloaded function skips the flag. -/
def blockReturn (s : State) (ok : Bool) (slot : Slot) : State :=
  if ok then
    match slot with
    | .mine => if s.must then s.unmark.raise else s.resume
    -- a `CancelledError` here is of the other task's cancel
    | .other => s.resume
  else s.resume

@[grind =]
def step (s : State) : Action → Option State
  | .spawn =>
    match s.pc with
    | .unspawned => some { s with pc := if 0 < s.asked then .returned else .fresh }
    | _ => none
  | .cancel a => cancel s a
  | .advance => advance s
  | .waitFd =>
    match s.pc with
    | .running => some { s with pc := .waitFd }
    | _ => none
  | .ready =>
    match s.pc with
    | .waitFd => some { s with pc := .readied false }
    | _ => none
  | .waitReturn =>
    match s.pc with
    | .readied true => some s.raise
    | .readied false => some s.resume
    | _ => none
  | .block =>
    match s.pc with
    | .running => some { s with pc := .blocking }
    | _ => none
  | .blockReturn ok slot left =>
    match s.pc with
    | .blocking => some (blockReturn { s with credit := left } ok slot)
    | _ => none
  | .yield y =>
    match s.pc with
    | .running => some (yields s y)
    | _ => none
  | .finish =>
    match s.pc with
    | .running => some { s with pc := .returned }
    | _ => none
  | .complete out =>
    match s.pc with
    | .parked ⟨none, pending, taken, refused⟩ =>
      some { s with pc := .parked ⟨some out, pending, taken, refused⟩ }.credited
    | _ => none
  | .wake =>
    match s.pc with
    | .parked w => wake s w
    | _ => none
  | .stray => some s.credited
  | .steal => if s.must then some s.unmark else none

def system : System State Action where
  init s := s = init
  step := step

/-! ## The future of a suspended coroutine -/

/-- A flag over a suspended coroutine was there before, or its future did not take the
cancel. -/
def Flagged (s : State) : Prop :=
  ∀ w, s.pc = .parked w → s.must = true → w.pending = true ∨ w.refused = true

/-- What happens to a coroutine that is suspended on a future. -/
structure PassesOn (s : State) : Prop where
  /-- the driver goes on with the outcome of the future, or with a cancel that was pending
  at the suspension or that the future did not take -/
  resumes : ∀ w a t, s.pc = .parked w → step s a = some t → (∀ v, t.pc ≠ .parked v) →
    (∃ out, w.out = some out ∧ t.pc = .top (throwOf w.taken out)) ∨
      s.must = true ∧ (w.pending = true ∨ w.refused = true) ∧ t.pc = .top (some (.cancel true))
  /-- a cancel is passed on to the future; only one that it does not take sets the flag -/
  passed : ∀ w a t, s.pc = .parked w → w.out = none → step s (.cancel a) = some t →
    ∃ v, t.pc = .parked v ∧ (v.taken = true ∧ t.must = s.must ∨ v.refused = true ∧ t.must = true ∧
      a = .refuses)
  /-- a wake that finds the future not done and no flag changes nothing but the credit -/
  stray : ∀ w t, s.pc = .parked w → w.out = none → s.must = false → step s .wake = some t →
    t = { s with credit := s.credit - 1 }

section Suspended

variable {s t : State}

theorem Flagged.of_not_parked (h : ∀ w, t.pc ≠ .parked w) : Flagged t :=
  fun w hw => absurd hw (h w)

/-- A step that leaves the flag and a suspended coroutine alone. -/
theorem Flagged.same (h : Flagged s) (hpc : t.pc = s.pc) (hmust : t.must = s.must) :
    Flagged t := by
  intro w hw hm
  exact h w (hpc ▸ hw) (hmust ▸ hm)

theorem cancelWaiter_flagged {w : Wait} {a : Answer} (h : Flagged s) (hw : s.pc = .parked w) :
    Flagged (cancelWaiter s w a) := by
  unfold cancelWaiter
  split
  · rintro v ⟨⟩ hm
    exact h w hw hm
  · rintro v ⟨⟩ hm
    exact h w hw hm
  · rintro v ⟨⟩ -
    exact .inr rfl

theorem cancel_flagged {a : Answer} (h : Flagged s) (hs : cancel s a = some t) : Flagged t := by
  unfold cancel at hs
  split at hs <;> cases hs
  case h_1 => exact h
  case h_2 w hw => exact cancelWaiter_flagged h hw
  case h_5 => exact Flagged.of_not_parked (by rintro _ ⟨⟩)
  all_goals
    rename_i hpc
    exact Flagged.of_not_parked fun v hv => by simp [State.mark, State.credited, hpc] at hv

theorem wake_flagged {w : Wait} (h : Flagged s) (hs : wake s w = some t) : Flagged t := by
  unfold wake at hs
  split at hs
  case h_1 => cases hs
  case h_2 =>
    dsimp only at hs
    split at hs
    case isTrue =>
      cases hs
      exact Flagged.of_not_parked (by rintro _ ⟨⟩)
    case isFalse =>
      split at hs <;> cases hs
      case h_1 => exact h.same rfl rfl
      case h_2 => exact Flagged.of_not_parked (by rintro _ ⟨⟩)

theorem yields_flagged (y : Yield) : Flagged (yields s y) := by
  unfold yields
  split
  case h_4 =>
    rintro v ⟨⟩ hm
    exact .inl hm
  all_goals exact Flagged.of_not_parked (by rintro _ ⟨⟩)

theorem step_flagged {a : Action} (h : Flagged s) (hs : step s a = some t) : Flagged t := by
  cases a with
  | cancel a => exact cancel_flagged h hs
  | advance =>
    simp only [step, advance] at hs
    repeat' split at hs
    all_goals first
      | cases hs; done
      | (cases hs; exact Flagged.of_not_parked (by rintro _ ⟨⟩))
  | blockReturn ok slot left =>
    simp only [step] at hs
    split at hs <;> cases hs
    unfold blockReturn
    repeat' split
    all_goals exact Flagged.of_not_parked (by rintro _ ⟨⟩)
  | yield y =>
    simp only [step] at hs
    split at hs <;> cases hs
    exact yields_flagged y
  | complete out =>
    simp only [step] at hs
    split at hs <;> cases hs
    case h_1 pending taken refused hpc =>
      rintro v ⟨⟩ hm
      exact h ⟨none, pending, taken, refused⟩ hpc hm
  | wake =>
    simp only [step] at hs
    split at hs
    case h_1 => exact wake_flagged h hs
    case h_2 => cases hs
  | stray =>
    cases hs
    exact h.same rfl rfl
  | steal =>
    simp only [step] at hs
    split at hs <;> cases hs
    exact fun _ _ => by rintro ⟨⟩
  | spawn =>
    simp only [step] at hs
    split at hs <;> cases hs
    refine Flagged.of_not_parked fun w => ?_
    dsimp only
    split <;> rintro ⟨⟩
  | waitReturn =>
    simp only [step] at hs
    split at hs <;> cases hs
    all_goals exact Flagged.of_not_parked (by rintro _ ⟨⟩)
  | waitFd | ready | block | finish =>
    simp only [step] at hs
    split at hs <;> cases hs
    exact Flagged.of_not_parked (by rintro _ ⟨⟩)

/-- Only a return of its park takes the driver out of it. -/
theorem wake_of_leaves {w : Wait} {a : Action} (hw : s.pc = .parked w) (hs : step s a = some t)
    (hleft : ∀ v, t.pc ≠ .parked v) : a = .wake := by
  cases a with
  | wake => rfl
  | cancel a =>
    simp only [step, cancel, hw, Option.some.injEq] at hs
    unfold cancelWaiter at hs
    split at hs <;> subst hs <;> exact absurd rfl (hleft _)
  | complete out =>
    simp only [step, hw] at hs
    split at hs <;> cases hs
    exact absurd rfl (hleft _)
  | stray =>
    cases hs
    exact absurd hw (hleft w)
  | steal =>
    simp only [step] at hs
    split at hs <;> cases hs
    exact absurd hw (hleft w)
  | _ => simp [step, advance, hw] at hs

theorem Flagged.passesOn (h : Flagged s) : PassesOn s := by
  constructor
  case resumes =>
    intro w a t hw hs hleft
    have ha := wake_of_leaves hw hs hleft
    subst ha
    simp only [step, hw, wake] at hs
    split at hs
    case h_1 => cases hs
    case h_2 =>
      split at hs
      case isTrue hm =>
        cases hs
        exact .inr ⟨hm, h w hw hm, rfl⟩
      case isFalse =>
        split at hs <;> cases hs
        case h_1 => exact absurd rfl (hleft w)
        case h_2 out ho => exact .inl ⟨out, ho, rfl⟩
  case passed =>
    intro w a t hw ho hs
    simp only [step, cancel, hw, Option.some.injEq] at hs
    cases a with
    | cancels =>
      simp only [cancelWaiter, ho] at hs
      subst hs
      exact ⟨_, rfl, .inl ⟨rfl, rfl⟩⟩
    | takes =>
      simp only [cancelWaiter, ho] at hs
      subst hs
      exact ⟨_, rfl, .inl ⟨rfl, rfl⟩⟩
    | refuses =>
      simp only [cancelWaiter, ho] at hs
      subst hs
      exact ⟨_, rfl, .inr ⟨rfl, rfl, rfl⟩⟩
  case stray =>
    intro w t hw ho hm hs
    simp only [step, hw, wake, ho, hm] at hs
    split at hs
    case h_1 => cases hs
    case h_2 n hn =>
      cases hs
      rw [hn, hw, hm]
      rfl

end Suspended

theorem reachable_flagged {s : State} (hr : Reachable system s) : Flagged s := by
  refine Reachable.invariant ?_ ?_ hr
  · rintro s rfl
    exact Flagged.of_not_parked (by rintro _ ⟨⟩)
  · exact fun s a t _ h hs => step_flagged h hs

end Stackweave.Aio.Task
