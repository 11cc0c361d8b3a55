import Mathlib.Logic.Function.Basic
import Mathlib.Tactic.Common
import Stackweave.Transition

/-!
# Timers, tickers and deadlines with their backing fibers (`time.py`, `context.py`)

A `Timer`, a `Ticker` and a context made by `WithDeadline` each have a fiber that parks in
`wait_fd` until a deadline, and calls that end or replace it: `Stop`, `Reset`, `_cancel`.
The three differ in what the fiber does around its park. Locked sections, the publication of the
fiber's handle, the linking and the commit of its parker, `cancel_wait_fd` and `try_send` are
steps; a park may end by its deadline at any time.
-/

namespace Stackweave.Time

open Transition

inductive Kind
  | timer
  | ticker
  | deadline
  deriving DecidableEq

/-- Where a backing fiber is. `entering` is in `wait_fd` with no parker linked; `linked` has a
parker that is armed, `parked` one that is committed. `checking` and the two after `sending` are
of a deadline's fiber: at its loop test, past its deadline, in its own `_cancel`. -/
inductive Phase
  | start
  | checking
  | entering
  | linked
  | parked
  | woken
  | sending
  | expired
  | finishing
  | done
  deriving DecidableEq

/-- A call of `Stop`, `Reset` or `_cancel` past its locked section: about to cancel the park
of the fiber it took, then to spawn the fiber of a generation. -/
inductive Call
  | idle
  | cancelling (fiber : Option ℕ) (rearm : Option ℕ)
  | spawning (gen : ℕ)
  deriving DecidableEq

/-- What an observer of the channel and of the calls sees, in the order of the sections. -/
inductive Event
  | armed (gen : ℕ)
  | stopped
  | sent (gen : ℕ)
  deriving DecidableEq

/-- `stopped` is `_stopped`, or that `_err` is set; `target` is `_fire_g`, `_tick_g` or
`_deadline_g`; `positive` says that `_d` is positive. Fibers are numbered in the order of
their spawns: `arming` is the generation of a fiber, `parks` whether its timeout is not 0. -/
structure State where
  stopped : Bool
  fired : Bool
  gen : ℕ
  positive : Bool
  target : Option ℕ
  count : ℕ
  arming : ℕ → ℕ
  parks : ℕ → Bool
  phase : ℕ → Phase
  calls : ℕ → Call
  log : List Event

/-- The state that the constructor leaves. -/
def fresh (positive : Bool) : State :=
  { stopped := false, fired := false, gen := 0, positive, target := none, count := 1
    arming := fun _ => 0, parks := fun _ => positive
    phase := fun f => if f = 0 then .start else .done
    calls := fun _ => .idle, log := [.armed 0] }

def State.goto (s : State) (f : ℕ) (p : Phase) : State :=
  { s with phase := Function.update s.phase f p }

def State.call (s : State) (c : ℕ) (x : Call) : State :=
  { s with calls := Function.update s.calls c x }

/-- The test of the fibers: stopped, or of another generation. -/
def State.Dead (s : State) (f : ℕ) : Prop := s.stopped = true ∨ s.gen ≠ s.arming f

instance (s : State) (f : ℕ) : Decidable (s.Dead f) := inferInstanceAs (Decidable (_ ∨ _))

/-- `runloom_netpoll_cancel_g`: a linked parker is claimed, whether it is committed or not. -/
def State.cancelWaitFd (s : State) (f : ℕ) : State :=
  match s.phase f with
  | .linked => s.goto f .woken
  | .parked => s.goto f .woken
  | _ => s

/-- `if g is not None: g.cancel_wait_fd()`. -/
def State.cancelTaken (s : State) : Option ℕ → State
  | some f => s.cancelWaitFd f
  | none => s

/-- `_spawn(gen)`. -/
def State.spawn (s : State) (gen : ℕ) : State :=
  { s with
    count := s.count + 1
    arming := Function.update s.arming s.count gen
    parks := Function.update s.parks s.count s.positive
    phase := Function.update s.phase s.count .start }

/-- The locked section of `Stop` and of `_cancel`. -/
def State.stop (k : Kind) (s : State) (c : ℕ) : State :=
  if s.stopped = true ∨ (k = .timer ∧ s.fired = true) then s
  else
    State.call
      { s with
        stopped := true
        gen := if k = .deadline then s.gen else s.gen + 1
        target := none
        log := s.log ++ [Event.stopped] } c (.cancelling s.target none)

/-- The locked section of `Reset`. -/
def State.reset (s : State) (c : ℕ) (positive : Bool) : State :=
  State.call
    { s with
      stopped := false
      fired := false
      gen := s.gen + 1
      positive
      target := none
      log := s.log ++ [Event.armed (s.gen + 1)] } c (.cancelling s.target (some (s.gen + 1)))

/-- What a call does after its locked section. -/
def State.cancel (s : State) (c : ℕ) : Option State :=
  match s.calls c with
  | .cancelling fiber (some gen) => some ((s.cancelTaken fiber).call c (.spawning gen))
  | .cancelling fiber none => some ((s.cancelTaken fiber).call c .idle)
  | _ => none

/-- The first section of a fiber: the check and the publication of the handle. A deadline's
fiber publishes first, with no lock. -/
def State.publish (k : Kind) (s : State) (f : ℕ) : State :=
  if k = .deadline then { s with target := some f }.goto f .checking
  else if s.Dead f then s.goto f .done
  else { s with target := some f }.goto f (if s.parks f then .entering else .woken)

/-- The section after the park. -/
@[grind =]
def State.resume (k : Kind) (s : State) (f : ℕ) : State :=
  match k with
  | .timer =>
    if s.Dead f ∨ s.fired = true then s.goto f .done
    else { s with fired := true, target := none }.goto f .sending
  | .ticker =>
    if s.Dead f then s.goto f .done else { s with target := none }.goto f .sending
  | .deadline => s.goto f .checking

/-- The loop test of a deadline's fiber. -/
def State.check (s : State) (f : ℕ) (expired : Bool) : State :=
  if s.stopped then s.goto f .done
  else if expired then s.goto f .expired
  else s.goto f .entering

/-- `try_send`. -/
def State.send (k : Kind) (s : State) (f : ℕ) : State :=
  State.goto { s with log := s.log ++ [Event.sent (s.arming f)] } f
    (if k = .ticker then .start else .done)

/-- The locked section of the `_cancel` of a deadline's own fiber. The handle that it takes is
that of the fiber itself, which is not parked. -/
def State.expire (s : State) (f : ℕ) : State :=
  if s.stopped then s.goto f .done
  else
    State.goto { s with stopped := true, target := none, log := s.log ++ [Event.stopped] } f .finishing

/-- `c` is a fiber that calls, `f` a backing fiber. `timeout` ends a park by its deadline. -/
inductive Action
  | stop (c : ℕ)
  | reset (c : ℕ) (positive : Bool)
  | cancel (c : ℕ)
  | spawn (c : ℕ)
  | publish (f : ℕ)
  | link (f : ℕ)
  | commit (f : ℕ)
  | timeout (f : ℕ)
  | resume (f : ℕ)
  | check (f : ℕ) (expired : Bool)
  | send (f : ℕ)
  | expire (f : ℕ)
  | finish (f : ℕ)

@[grind =]
def step (k : Kind) (s : State) : Action → Option State
  | .stop c => if s.calls c = .idle then some (s.stop k c) else none
  | .reset c positive =>
    -- a ticker refuses an interval that is not positive
    if s.calls c = .idle ∧ k ≠ .deadline ∧ (k = .ticker → positive = true) then
      some (s.reset c positive)
    else none
  | .cancel c => s.cancel c
  | .spawn c =>
    match s.calls c with
    | .spawning gen => some ((s.spawn gen).call c .idle)
    | _ => none
  | .publish f => if s.phase f = .start then some (s.publish k f) else none
  | .link f => if s.phase f = .entering then some (s.goto f .linked) else none
  | .commit f => if s.phase f = .linked then some (s.goto f .parked) else none
  | .timeout f => if s.phase f = .linked ∨ s.phase f = .parked then some (s.goto f .woken) else none
  | .resume f => if s.phase f = .woken then some (s.resume k f) else none
  | .check f expired => if s.phase f = .checking then some (s.check f expired) else none
  | .send f => if s.phase f = .sending then some (s.send k f) else none
  | .expire f => if s.phase f = .expired then some (s.expire f) else none
  | .finish f => if s.phase f = .finishing then some (s.goto f .done) else none

def system (k : Kind) : System State Action where
  init s := ∃ positive, (k ≠ .timer → positive = true) ∧ s = fresh positive
  step := step k

end Stackweave.Time
