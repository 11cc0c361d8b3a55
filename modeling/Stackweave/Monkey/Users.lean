import Stackweave.Monkey.Backend
import Stackweave.Monkey.Condition
import Stackweave.Monkey.Mutex
import Stackweave.Monkey.Queue

/-!
# The users of fd-backed parkers

Any number of queues, conditions, mutexes and thread-pool backends over one desk
of pipes. All four wake with `unpark()` outside the structure that named the
parker, so a waiter that leaves for another reason can release the parker first:
`byte_after_release` has one such run for each of them. The bytes go where they
belong in the runs in which no release overtakes a waker.
-/

namespace Stackweave.Monkey.Users

open Transition Parker

inductive Kind
  | queue
  | condition
  | mutex
  | backend
  deriving DecidableEq

/-- The objects of each kind are numbered; `size` are the sizes of the backends. -/
def users (V : Type) (size : ℕ → ℕ) : Kind × ℕ → Site
  | (.queue, _) => Queue.site V
  | (.condition, _) => Condition.site
  | (.mutex, _) => Mutex.site
  | (.backend, i) => Backend.site V (size i)

/-- Every wake byte that the next step can write goes to its parker's own pipe. -/
def BytesOwned {V : Type} {size : ℕ → ℕ} (n : Network (users V size)) (k : Kind) : Prop :=
  ∀ i a c m p, step (users V size) n (.site (k, i) a c) = some m →
    (users V size (k, i)).effect (n.site (k, i)) a = .write p → WritesOwnPipe n.desk ((k, i), p)

/-- Objects for the concrete runs: every backend has one worker. -/
abbrev small : Kind × ℕ → Site := users ℕ fun _ => 1

def viaQueue (a : Queue.Action ℕ) (c : Choice) : Action small := .site (.queue, 0) a c
def viaCondition (a : Condition.Action) (c : Choice) : Action small := .site (.condition, 0) a c
def viaMutex (a : Mutex.Action) (c : Choice) : Action small := .site (.mutex, 0) a c
def viaBackend (a : Backend.Action ℕ) (c : Choice) : Action small := .site (.backend, 0) a c

/-- The put has read the flag of the getter, still `True`, when the getter, which
took an earlier item, leaves and closes its pipe. -/
theorem queue_byte_after_release :
    ∃ n : Network small, Reachable (system small) n ∧ ¬BytesOwned n .queue := by
  have hr : Reachable (system small) _ :=
    reachable_of_run (system small)
      [viaQueue (.get 0 true true false) .inmem, viaQueue (.getter 0) (.pipe 5),
        viaQueue (.put 0 7) .inmem, viaQueue (.putter 0) .inmem, viaQueue (.getter 0) .inmem,
        viaQueue (.put 1 8) .inmem, viaQueue (.putter 1) .inmem, viaQueue (.putter 1) .inmem,
        viaQueue (.putter 1) .inmem, viaQueue (.getter 0) .inmem, viaQueue (.getter 0) .inmem,
        viaQueue (.getter 0) .inmem, viaQueue (.getter 0) .inmem,
        .giveBack ((.queue, 0), 0) false, .openOther 5] rfl rfl
  refine ⟨_, hr, fun hb => ?_⟩
  exact Bool.noConfusion (hb 0 (Queue.Action.putter 1) .inmem _ 0 rfl rfl 5 rfl).1

/-- A foreign thread's wait returns spuriously and closes its pipe; a notify then
finds the parker still queued, since the waiter has not got the lock back. -/
theorem condition_byte_after_release :
    ∃ n : Network small, Reachable (system small) n ∧ ¬BytesOwned n .condition := by
  have hr : Reachable (system small) _ :=
    reachable_of_run (system small)
      [viaCondition (.lock 0) .inmem, viaCondition (.wait 0 false) .inmem,
        viaCondition (.caller 0) (.pipe 5), viaCondition (.caller 0) .inmem,
        viaCondition (.caller 0) .inmem, viaCondition (.lock 1) .inmem,
        viaCondition (.spurious 0) .inmem, viaCondition (.caller 0) .inmem,
        .giveBack ((.condition, 0), 0) false, .openOther 5, viaCondition (.notify 1 1) .inmem,
        viaCondition (.caller 1) .inmem, viaCondition (.caller 1) .inmem] rfl rfl
  refine ⟨_, hr, fun hb => ?_⟩
  exact Bool.noConfusion (hb 0 (Condition.Action.caller 1) .inmem _ 0 rfl rfl 5 rfl).1

/-- The waiting thread sees `granted`, which the release publishes before its
wake, and closes its pipe. -/
theorem mutex_byte_after_release :
    ∃ n : Network small, Reachable (system small) n ∧ ¬BytesOwned n .mutex := by
  have hr : Reachable (system small) _ :=
    reachable_of_run (system small)
      [viaMutex (.acquire 0 true false) .inmem, viaMutex (.acquire 1 true false) .inmem,
        viaMutex (.build 1) (.pipe 5), viaMutex (.register 1) .inmem, viaMutex (.release 2) .inmem,
        viaMutex (.granted 1) .inmem, viaMutex (.drop 1) .inmem,
        .giveBack ((.mutex, 0), 1) false, .openOther 5] rfl rfl
  refine ⟨_, hr, fun hb => ?_⟩
  exact Bool.noConfusion (hb 0 (Mutex.Action.wake 2) .inmem _ 1 rfl rfl 5 rfl).1

/-- The submitter sees the done flag, which the worker sets before its write, and
closes its pipe. -/
theorem backend_byte_after_release :
    ∃ n : Network small, Reachable (system small) n ∧ ¬BytesOwned n .backend := by
  have hr : Reachable (system small) _ :=
    reachable_of_run (system small)
      [viaBackend (.submit 0) .inmem, viaBackend (.submitter 0) .inmem,
        viaBackend (.submitter 0) (.pipe 5), viaBackend (.submitter 0) .inmem,
        viaBackend (.worker 0) .inmem, viaBackend (.finish 0 7) .inmem,
        viaBackend (.worker 0) .inmem, viaBackend (.submitter 0) .inmem,
        viaBackend (.submitter 0) .inmem, .giveBack ((.backend, 0), 0) false, .openOther 5] rfl rfl
  refine ⟨_, hr, fun hb => ?_⟩
  exact Bool.noConfusion (hb 0 (Backend.Action.worker 0) .inmem _ 0 rfl rfl 5 rfl).1

end Stackweave.Monkey.Users
