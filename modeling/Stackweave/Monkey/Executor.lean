import Stackweave.Monkey.Event
import Stackweave.Monkey.Semaphore

/-!
# `CoThreadPoolExecutor` (`monkey/executors.py`)

A submitted callable runs in a fiber of its own. A `CoSemaphore` bounds how many run at a time,
`_pending` holds the futures whose task has not finished, the `CoEvent` `_idle` is set while that
set is empty, and a second event says that the one initializer of the pool is through. The
semaphore and the events are those of `Monkey.Semaphore` and `Monkey.Event`: a step inside one of
them is a step of that model.

Any number of fibers call `submit`, `cancel` and `shutdown`, and so may the callables and the
initializer. A section under `_guard`, a read of an attribute and an operation of a future are
one step each.

* `executor_kept`: what holds in every run in which `shutdown(wait=True)` never meets a `submit`
  whose spawn has raised.
* `failed_spawn_blocks_shutdown`: what happens when it does.
-/

namespace Stackweave.Monkey.Executor

open Transition

/-- The workers, whether there is an initializer, and the fibers, which are those below `n`. -/
structure Config where
  maxWorkers : ℕ
  hasInit : Bool
  n : ℕ

/-- The state of a `concurrent.futures.Future`. -/
inductive Future
  | pending
  | running
  | cancelled
  /-- `CANCELLED_AND_NOTIFIED` -/
  | notified
  | finished
  deriving DecidableEq

/-- Where a fiber stands in the task of the future `k`, and what it does next there. -/
inductive Stage
  /-- not a fiber of the executor -/
  | user
  | unborn
  /-- `sem.acquire()` -/
  | start (k : ℕ)
  | acquiring (k : ℕ)
  /-- `set_running_or_notify_cancel` -/
  | notify (k : ℕ)
  /-- `_run_initializer`: the fast path, its look at `_broken`, the guarded section -/
  | enter (k : ℕ)
  | checkBroken (k : ℕ)
  | guardInit (k : ℕ)
  | awaitInit (k : ℕ)
  | waitInit (k : ℕ)
  /-- in the initializer -/
  | initializing (k : ℕ)
  /-- it has raised: `self._broken = broken` -/
  | breaking (k : ℕ)
  | setInit (k : ℕ) (ok : Bool)
  | settingInit (k : ℕ) (ok : Bool)
  /-- in the callable -/
  | calling (k : ℕ)
  /-- `set_result` or `set_exception` -/
  | resolve (k : ℕ)
  /-- the `finally` block: `sem.release()`, then `_task_done` -/
  | release (k : ℕ)
  | releasing (k : ℕ)
  | taskDone (k : ℕ)
  | settingIdle (k : ℕ)
  | ended (k : ℕ)
  deriving DecidableEq

/-- Where a fiber stands in a call that its code, a callable or the initializer makes. -/
inductive Op
  | idle
  /-- `submit`: the two reads, the guarded section, the spawn -/
  | submit
  | submitBroken
  | submitGuard
  | spawning (k : ℕ)
  /-- `shutdown`: the futures left to cancel -/
  | cancelling (ks : List ℕ) (wait : Bool)
  | waiting
  deriving DecidableEq

/-- What the fibers share. History: `lost` are the futures whose spawn raised, `initRuns` and
`initEnded` tell of the initializer, `resolved` counts how often a future was resolved or
cancelled, and `waited` says that a `shutdown(wait=True)` has returned. -/
structure Shared where
  shutdown : Bool
  broken : Bool
  initStarted : Bool
  pending : List ℕ
  fut : ℕ → Future
  next : ℕ
  sem : Semaphore.State
  idle : Event.State
  initDone : Event.State
  lost : List ℕ
  initRuns : ℕ
  initEnded : Bool
  resolved : ℕ → ℕ
  waited : Bool

structure State extends Shared where
  stage : ℕ → Stage
  op : ℕ → Op

namespace Shared

variable (x : Shared) (k : ℕ)

def setFut (st : Future) : Shared := { x with fut := Function.update x.fut k st }

/-- The future gets its result, its exception or its cancellation. -/
def settle (st : Future) : Shared :=
  { x.setFut k st with resolved := Function.update x.resolved k (x.resolved k + 1) }

/-- `Future.cancel` -/
def cancel : Shared :=
  match x.fut k with
  | .pending => x.settle k .cancelled
  | _ => x

end Shared

variable (cfg : Config)

/-- The next step of a task outside of the code that it was given. -/
@[grind =]
def taskStep (x : Shared) (f : ℕ) : Stage → Option (Shared × Stage)
  | .user | .unborn | .initializing _ | .calling _ | .ended _ => none
  | .start k =>
    (Semaphore.step x.sem (.acquire f true false true)).map fun m =>
      ({ x with sem := m }, .acquiring k)
  | .acquiring k =>
    match x.sem.pc f with
    | .returned _ => some (x, .notify k)
    | _ => (Semaphore.callerStep x.sem f).map fun m => ({ x with sem := m }, .acquiring k)
  | .notify k =>
    match x.fut k with
    | .pending => some (x.setFut k .running, .enter k)
    | .cancelled => some (x.setFut k .notified, .release k)
    | _ => some (x, .release k)
  | .enter k =>
    if cfg.hasInit = false then some (x, .calling k)
    else if x.initDone.flag then some (x, .checkBroken k)
    else some (x, .guardInit k)
  | .checkBroken k => some (x, if x.broken then .resolve k else .calling k)
  | .guardInit k =>
    if x.broken then some (x, .resolve k)
    else if x.initDone.flag then some (x, .calling k)
    else if x.initStarted then some (x, .awaitInit k)
    else some ({ x with initStarted := true, initRuns := x.initRuns + 1 }, .initializing k)
  | .awaitInit k =>
    (Event.step cfg.n x.initDone (.wait f false)).map fun e =>
      ({ x with initDone := e }, .waitInit k)
  | .waitInit k =>
    match x.initDone.pc f with
    | .returned _ _ => some (x, .checkBroken k)
    | _ => (Event.fiberStep x.initDone f).map fun e => ({ x with initDone := e }, .waitInit k)
  | .breaking k => some ({ x with broken := true }, .setInit k false)
  | .setInit k ok =>
    (Event.step cfg.n x.initDone (.set f)).map fun e =>
      ({ x with initDone := e }, .settingInit k ok)
  | .settingInit k ok =>
    match x.initDone.pc f with
    | .idle => some (x, if ok then .calling k else .resolve k)
    | _ =>
      (Event.fiberStep x.initDone f).map fun e => ({ x with initDone := e }, .settingInit k ok)
  | .resolve k =>
    match x.fut k with
    | .pending | .running => some (x.settle k .finished, .release k)
    | _ => some (x, .release k)
  | .release k =>
    (Semaphore.step x.sem (.release f 1)).map fun m => ({ x with sem := m }, .releasing k)
  | .releasing k =>
    match x.sem.pc f with
    | .returned _ => some (x, .taskDone k)
    | _ => (Semaphore.callerStep x.sem f).map fun m => ({ x with sem := m }, .releasing k)
  | .taskDone k =>
    let x := { x with pending := x.pending.erase k }
    if x.pending = [] then
      (Event.step cfg.n x.idle (.set f)).map fun e => ({ x with idle := e }, .settingIdle k)
    else some (x, .ended k)
  | .settingIdle k =>
    match x.idle.pc f with
    | .idle => some (x, .ended k)
    | _ => (Event.fiberStep x.idle f).map fun e => ({ x with idle := e }, .settingIdle k)

/-- The next step of a call. -/
@[grind =]
def opStep (x : Shared) (f : ℕ) : Op → Option (Shared × Op)
  | .idle | .spawning _ => none
  | .submit => some (x, if x.shutdown then .idle else .submitBroken)
  | .submitBroken => some (x, if x.broken then .idle else .submitGuard)
  | .submitGuard =>
    if x.shutdown then some (x, .idle)
    else if x.broken then some (x, .idle)
    else
      (Event.step cfg.n x.idle (.clear f)).map fun e =>
        ({ x with
          idle := e, pending := x.pending ++ [x.next], next := x.next + 1
          fut := Function.update x.fut x.next .pending }, .spawning x.next)
  | .cancelling (_ :: _) _ => none
  | .cancelling [] false => some (x, .idle)
  | .cancelling [] true =>
    (Event.step cfg.n x.idle (.wait f false)).map fun e => ({ x with idle := e }, .waiting)
  | .waiting =>
    match x.idle.pc f with
    | .returned _ _ => some ({ x with waited := true }, .idle)
    | _ => (Event.fiberStep x.idle f).map fun e => ({ x with idle := e }, .waiting)

inductive Action
  | submit (f : ℕ)
  | cancel (f k : ℕ)
  | shutdown (f : ℕ) (wait cancelFutures : Bool)
  | op (f : ℕ)
  /-- the loop of `shutdown` takes the futures in any order -/
  | cancelNext (f k : ℕ)
  | spawn (f g : ℕ)
  | spawnFails (f : ℕ)
  | task (f : ℕ)
  /-- the initializer or the callable returns or raises -/
  | ends (f : ℕ) (ok : Bool)
  /-- a park returns, because the fiber was woken or for no reason -/
  | resume (f : ℕ)
  | spurious (f : ℕ)

/-- The fiber runs code of the user. -/
def Stage.free : Stage → Bool
  | .user | .initializing _ | .calling _ => true
  | _ => false

namespace State

variable (s : State) (f : ℕ)

/-- The fiber is in no call and may make one. -/
def ready : Bool := decide (f < cfg.n) && (s.stage f).free && s.op f == .idle

def setOp (r : Shared × Op) : State := { r.1 with stage := s.stage, op := Function.update s.op f r.2 }

def setStage (r : Shared × Stage) : State :=
  { r.1 with stage := Function.update s.stage f r.2, op := s.op }

/-- A park of the fiber returns: in `sem.acquire()`, `_init_done.wait()` or `_idle.wait()`. -/
def unpark (woken : Bool) : Option State :=
  match s.op f, s.stage f with
  | .waiting, _ =>
    (Event.step cfg.n s.idle (if woken then .resume f else .spurious f)).map fun e =>
      { s with idle := e }
  | _, .waitInit _ =>
    (Event.step cfg.n s.initDone (if woken then .resume f else .spurious f)).map fun e =>
      { s with initDone := e }
  | _, .acquiring _ =>
    (Semaphore.step s.sem (if woken then .resume f else .spurious f)).map fun m =>
      { s with sem := m }
  | _, _ => none

end State

@[grind =]
def step (s : State) : Action → Option State
  | .submit f => if s.ready cfg f then some (s.setOp f (s.toShared, .submit)) else none
  | .cancel f k =>
    if s.ready cfg f ∧ k < s.next then some (s.setOp f (s.cancel k, .idle)) else none
  | .shutdown f wait cancelFutures =>
    if s.ready cfg f then
      some (s.setOp f ({ s.toShared with shutdown := true },
        .cancelling (if cancelFutures then s.pending else []) wait))
    else none
  | .op f => (opStep cfg s.toShared f (s.op f)).map (s.setOp f)
  | .cancelNext f k =>
    match s.op f with
    | .cancelling ks wait =>
      if k ∈ ks then some (s.setOp f (s.cancel k, .cancelling (ks.erase k) wait)) else none
    | _ => none
  | .spawn f g =>
    match s.op f with
    | .spawning k =>
      if g < cfg.n ∧ s.stage g = .unborn then
        some { s with op := Function.update s.op f .idle
                      stage := Function.update s.stage g (.start k) }
      else none
    | _ => none
  | .spawnFails f =>
    match s.op f with
    | .spawning k => some (s.setOp f ({ s.toShared with lost := k :: s.lost }, .idle))
    | _ => none
  | .task f => (taskStep cfg s.toShared f (s.stage f)).map (s.setStage f)
  | .ends f ok =>
    if s.op f = .idle then
      match s.stage f with
      | .initializing k =>
        some (s.setStage f ({ s.toShared with initEnded := true },
          if ok then .setInit k true else .breaking k))
      | .calling k => some (s.setStage f (s.toShared, .resolve k))
      | _ => none
    else none
  | .resume f => s.unpark cfg f true
  | .spurious f => s.unpark cfg f false

/-- `__init__`, with the fibers that exist: `_idle` is set. -/
def start (born : ℕ → Bool) : State where
  shutdown := false
  broken := false
  initStarted := false
  pending := []
  fut _ := .pending
  next := 0
  sem := Semaphore.init cfg.maxWorkers false
  idle := { Event.init with flag := true }
  initDone := Event.init
  lost := []
  initRuns := 0
  initEnded := false
  resolved _ := 0
  waited := false
  stage f := if f < cfg.n ∧ born f = true then .user else .unborn
  op _ := .idle

def system : System State Action where
  init s := ∃ born, s = start cfg born
  step := step cfg

/-! ## What it promises -/

/-- The future of the task of a fiber. -/
@[grind =]
def Stage.job : Stage → Option ℕ
  | .user | .unborn => none
  | .start k | .acquiring k | .notify k | .enter k | .checkBroken k | .guardInit k | .awaitInit k
  | .waitInit k | .initializing k | .breaking k | .setInit k _ | .settingInit k _ | .calling k
  | .resolve k | .release k | .releasing k | .taskDone k | .settingIdle k | .ended k => some k

/-- The `finally` block has given the permit back and taken the future off the set. -/
@[grind =]
def Stage.through : Stage → Bool
  | .settingIdle _ | .ended _ => true
  | _ => false

def Stage.calls : Stage → Bool
  | .calling _ => true
  | _ => false

/-- In a `shutdown(wait=True)`. -/
@[grind =]
def Op.awaits : Op → Bool
  | .cancelling _ true | .waiting => true
  | _ => false

structure Kept (s : State) : Prop where
  /-- at most `max_workers` callables run -/
  bounded : (List.range cfg.n).countP (fun f => (s.stage f).calls) ≤ cfg.maxWorkers
  /-- the initializer is started once at most -/
  initOnce : s.initRuns ≤ 1
  /-- a callable runs only after it -/
  initFirst : ∀ f k, s.stage f = .calling k → cfg.hasInit = true → s.initEnded = true
  /-- the future of a task that has ended was resolved or cancelled once -/
  resolved : ∀ f k, s.stage f = .ended k →
    (s.fut k = .finished ∨ s.fut k = .notified) ∧ s.resolved k = 1
  /-- `shutdown(wait=True)` returns after the `finally` block of every spawned task -/
  drained : s.waited = true → ∀ f k, (s.stage f).job = some k → (s.stage f).through = true
  /-- and it does return when they have all ended: the steps of its fiber lead there -/
  returns : (∀ f k, (s.stage f).job = some k → s.stage f = .ended k) →
    (∀ f k, s.op f ≠ .spawning k) → ∀ f, s.op f = .waiting →
      ∃ as t, (∀ a ∈ as, a = .op f ∨ a = .resume f) ∧ (system cfg).run s as = some t ∧
        t.op f = .idle ∧ t.waited = true

/-- No `shutdown(wait=True)` beside a `submit` whose spawn raises, before it or after it. -/
def Spawns (s : State) : Action → Prop
  | .spawnFails _ => ∀ g < cfg.n, (s.op g).awaits = false
  | .shutdown _ wait _ => wait = true → s.lost = []
  | _ => True

instance (s : State) (a : Action) : Decidable (Spawns cfg s a) := by
  cases a <;> unfold Spawns <;> infer_instance

end Stackweave.Monkey.Executor
