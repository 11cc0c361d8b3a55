import Mathlib.Data.Nat.Basic
import Mathlib.Tactic.Common

/-!
# Waits under a timeout (`monkey/sockets.py`, `monkey/tls.py`)

The patched operations of a socket call the original one and wait for the descriptor when that would
block, again and again. On a socket with a timeout there are two kinds. `send`, `sendall` and a receive
with `MSG_WAITALL` keep the time at which the operation is to end. The others give the whole timeout to
each of their waits, most of them through `_wait_io`.

The calls and the waits take what they find from a script. Time is counted in nanoseconds from the
start of the operation and passes only in the waits.

* `timeout_bounds`: what the timeout bounds in either kind.
* `recv_exceeds_timeout`: a receive of the second kind that takes longer than its timeout.
-/

namespace Stackweave.Monkey.Deadlines

inductive Direction
  | read
  | write
  deriving DecidableEq

/-- When a descriptor becomes ready, or its wait is cancelled, counted from the start of the wait. -/
inductive Wake
  | ready (after : ℕ)
  | never
  | cancelled (after : ℕ)

/-- One turn of a loop: the call returns a number of bytes, raises, or would block. A TLS call says
what it wants. -/
inductive Turn
  | ret (n : ℕ)
  | raise
  | block (want : Direction) (w : Wake)

inductive Result
  | returned (n : ℕ)
  /-- `socket.timeout` -/
  | timedOut
  /-- `OSError(ECANCELED)` -/
  | cancelled
  | raised
  /-- the script is over -/
  | pending
  deriving DecidableEq

/-- A wait that was started, with its timeout in milliseconds. -/
structure Wait where
  direction : Direction
  timeout : ℕ
  start : ℕ
  deriving DecidableEq

structure Outcome where
  waits : List Wait
  elapsed : ℕ
  result : Result
  deriving DecidableEq

def millisecond : ℕ := 1000000

/-- `max(1, int(t * 1000))` -/
def timeoutMs (t : ℕ) : ℕ := max 1 (t / millisecond)

inductive Woken
  | ready
  | expired
  | cancelled

/-- `_wait_fd_coop` with a timeout: how long it takes and how it ends. -/
def waitFdCoop (timeout : ℕ) : Wake → ℕ × Woken
  | .ready d =>
    if d ≤ timeout * millisecond then (d, .ready) else (timeout * millisecond, .expired)
  | .never => (timeout * millisecond, .expired)
  | .cancelled d =>
    if d ≤ timeout * millisecond then (d, .cancelled) else (timeout * millisecond, .expired)

/-- When a loop is over: after one call, or when so many bytes have gone through, for a receive also
at the end of the stream. -/
inductive Need
  | one
  | all (len : ℕ) (eof : Bool)

/-- What is returned after `got` bytes and a call that returned `n`, if the loop ends. -/
def Need.after : Need → ℕ → ℕ → Option ℕ
  | .one, _, n => some n
  | .all len eof, got, n =>
    if eof = true ∧ n = 0 then some got else if len ≤ got + n then some (got + n) else none

def Outcome.waited (w : Wait) (o : Outcome) : Outcome := { o with waits := w :: o.waits }

/-- The loop of the patched operations, with the time that has passed and the bytes so far. `budget`
is the timeout for a wait at a time, `none` when there is to be no wait any more. -/
def loop (direction : Option Direction) (budget : ℕ → Option ℕ) (need : Need) :
    ℕ → ℕ → List Turn → Outcome
  | e, _, [] => ⟨[], e, .pending⟩
  | e, got, .ret n :: rest =>
    match need.after got n with
    | some v => ⟨[], e, .returned v⟩
    | none => loop direction budget need e (got + n) rest
  | e, _, .raise :: _ => ⟨[], e, .raised⟩
  | e, got, .block want w :: rest =>
    match budget e with
    | none => ⟨[], e, .timedOut⟩
    | some timeout =>
      Outcome.waited ⟨direction.getD want, timeout, e⟩
        (match waitFdCoop timeout w with
        | (d, .ready) => loop direction budget need (e + d) got rest
        | (d, .expired) => ⟨[], e + d, .timedOut⟩
        | (d, .cancelled) => ⟨[], e + d, .cancelled⟩)

/-- `_wait_io`, and the same timeout in the loops of `recv` and `recv_into`. -/
def eachWait (t : ℕ) : ℕ → Option ℕ := fun _ => some (timeoutMs t)

/-- `rem = deadline - time.monotonic()` -/
def untilDeadline (t : ℕ) : ℕ → Option ℕ := fun e => if t ≤ e then none else some (timeoutMs (t - e))

/-- The `while` loops over a buffer do nothing for an empty one. -/
def loopAll (direction : Option Direction) (budget : ℕ → Option ℕ) (len : ℕ) (eof : Bool)
    (script : List Turn) : Outcome :=
  if len = 0 then ⟨[], 0, .returned 0⟩ else loop direction budget (.all len eof) 0 0 script

/-- `_recv_waitall` -/
def recvWaitall (t nbytes : ℕ) : List Turn → Outcome :=
  loopAll (some .read) (untilDeadline t) nbytes true

/-- `_patched_recv`; `waitall` says that the flags have `MSG_WAITALL` and not `MSG_PEEK`. -/
def recv (t bufsize : ℕ) (waitall : Bool) : List Turn → Outcome :=
  if waitall = true ∧ 0 < bufsize then recvWaitall t bufsize
  else loop (some .read) (eachWait t) .one 0 0

/-- `_patched_recv_into` -/
def recvInto (t len nbytes : ℕ) (waitall : Bool) : List Turn → Outcome :=
  let n := if nbytes = 0 then len else nbytes
  if waitall = true ∧ 0 < n then recvWaitall t (min n len)
  else loop (some .read) (eachWait t) .one 0 0

def send (t : ℕ) : List Turn → Outcome := loop (some .write) (untilDeadline t) .one 0 0

def sendall (t len : ℕ) : List Turn → Outcome := loopAll (some .write) (untilDeadline t) len false

def accept (t : ℕ) : List Turn → Outcome := loop (some .read) (eachWait t) .one 0 0
def recvfrom (t : ℕ) : List Turn → Outcome := loop (some .read) (eachWait t) .one 0 0
def recvfromInto (t : ℕ) : List Turn → Outcome := loop (some .read) (eachWait t) .one 0 0
def recvmsg (t : ℕ) : List Turn → Outcome := loop (some .read) (eachWait t) .one 0 0
def recvmsgInto (t : ℕ) : List Turn → Outcome := loop (some .read) (eachWait t) .one 0 0
def sendto (t : ℕ) : List Turn → Outcome := loop (some .write) (eachWait t) .one 0 0
def sendmsg (t : ℕ) : List Turn → Outcome := loop (some .write) (eachWait t) .one 0 0

/-! The direction is that of the `SSLWantReadError` or `SSLWantWriteError`. -/

def sslRecv (t : ℕ) : List Turn → Outcome := loop none (eachWait t) .one 0 0
def sslRecvInto (t : ℕ) : List Turn → Outcome := loop none (eachWait t) .one 0 0
def sslSend (t : ℕ) : List Turn → Outcome := loop none (eachWait t) .one 0 0
def sslSendall (t len : ℕ) : List Turn → Outcome := loopAll none (eachWait t) len false
def sslDoHandshake (t : ℕ) : List Turn → Outcome := loop none (eachWait t) .one 0 0
def sslUnwrap (t : ℕ) : List Turn → Outcome := loop none (eachWait t) .one 0 0

inductive Op
  | recv (bufsize : ℕ) (waitall : Bool)
  | recvInto (len nbytes : ℕ) (waitall : Bool)
  | send
  | sendall (len : ℕ)
  | accept
  | recvfrom
  | recvfromInto
  | recvmsg
  | recvmsgInto
  | sendto
  | sendmsg
  | sslRecv
  | sslRecvInto
  | sslSend
  | sslSendall (len : ℕ)
  | sslDoHandshake
  | sslUnwrap

def Op.run (t : ℕ) : Op → List Turn → Outcome
  | .recv bufsize waitall => Deadlines.recv t bufsize waitall
  | .recvInto len nbytes waitall => Deadlines.recvInto t len nbytes waitall
  | .send => Deadlines.send t
  | .sendall len => Deadlines.sendall t len
  | .accept => Deadlines.accept t
  | .recvfrom => Deadlines.recvfrom t
  | .recvfromInto => Deadlines.recvfromInto t
  | .recvmsg => Deadlines.recvmsg t
  | .recvmsgInto => Deadlines.recvmsgInto t
  | .sendto => Deadlines.sendto t
  | .sendmsg => Deadlines.sendmsg t
  | .sslRecv => Deadlines.sslRecv t
  | .sslRecvInto => Deadlines.sslRecvInto t
  | .sslSend => Deadlines.sslSend t
  | .sslSendall len => Deadlines.sslSendall t len
  | .sslDoHandshake => Deadlines.sslDoHandshake t
  | .sslUnwrap => Deadlines.sslUnwrap t

/-- `send`, `sendall` and a receive of some bytes with `MSG_WAITALL`. -/
def Op.keepsDeadline : Op → Bool
  | .recv bufsize waitall => waitall && decide (0 < bufsize)
  | .recvInto len nbytes waitall => waitall && decide (0 < if nbytes = 0 then len else nbytes)
  | .send | .sendall _ => true
  | _ => false

/-! ## What the timeout bounds -/

/-- Every wait is started before the end with what is left, and at least a millisecond. So the
operation never goes on for longer than that, and once the time is over it does not wait again. -/
structure Bounded (t : ℕ) (run : List Turn → Outcome) : Prop where
  waits : ∀ script, ∀ w ∈ (run script).waits,
    w.start < t ∧ w.timeout * millisecond ≤ max (t - w.start) millisecond
  elapsed : ∀ script, (run script).elapsed < t + millisecond
  ends : ∀ script want w rest, (run script).result = .pending → t ≤ (run script).elapsed →
    run (script ++ .block want w :: rest) = { run script with result := .timedOut }

/-- Every wait gets the whole timeout, and at least a millisecond, counted from the start of the
operation or from the last wake-up; one that ends without the descriptor being ready ends the
operation. -/
structure PerWait (t : ℕ) (run : List Turn → Outcome) : Prop where
  waits : ∀ script, ∀ w ∈ (run script).waits, w.timeout = timeoutMs t
  last : ∀ script, ∀ w ∈ (run script).waits.getLast?,
    (run script).elapsed ≤ w.start + max t millisecond
  elapsed : ∀ script, (run script).elapsed ≤ (run script).waits.length * max t millisecond
  ends : ∀ script want rest, (run script).result = .pending →
    (run (script ++ .block want .never :: rest)).result = .timedOut

/-! ## The loop -/

theorem timeoutMs_le (t : ℕ) : timeoutMs t * millisecond ≤ max t millisecond := by
  have hdiv := Nat.div_mul_le_self t millisecond
  unfold timeoutMs
  rcases Nat.le_total 1 (t / millisecond) with h | h
  · rw [Nat.max_eq_right h]
    omega
  · rw [Nat.max_eq_left h]
    omega

theorem waitFdCoop_le (timeout : ℕ) (w : Wake) :
    (waitFdCoop timeout w).1 ≤ timeout * millisecond := by
  cases w with
  | never => exact Nat.le_refl _
  | ready d | cancelled d =>
    simp only [waitFdCoop]
    split
    · assumption
    · exact Nat.le_refl _

variable {direction : Option Direction} {budget : ℕ → Option ℕ} {need : Need} {e got t : ℕ}
  {script : List Turn}

/-- Whatever holds of an operation without waits, and of one with a wait when it holds of the rest,
holds of every operation. -/
theorem loop_rule {P : ℕ → Outcome → Prop}
    (stop : ∀ e o, o.waits = [] → o.elapsed = e → P e o)
    (wait : ∀ e timeout v d o, budget e = some timeout → d ≤ timeout * millisecond → P (e + d) o →
      P e (o.waited ⟨v, timeout, e⟩)) :
    P e (loop direction budget need e got script) := by
  induction script generalizing e got with
  | nil => exact stop _ _ rfl rfl
  | cons turn rest ih =>
    cases turn with
    | raise => exact stop _ _ rfl rfl
    | ret n =>
      simp only [loop]
      split
      · exact stop _ _ rfl rfl
      · exact ih
    | block want w =>
      simp only [loop]
      cases hb : budget e with
      | none => exact stop _ _ rfl rfl
      | some timeout =>
        refine wait e timeout _ (waitFdCoop timeout w).1 _ hb (waitFdCoop_le timeout w) ?_
        split
        · rename_i d hw
          rw [hw]
          exact ih
        · rename_i d hw
          exact stop _ _ rfl (by rw [hw])
        · rename_i d hw
          exact stop _ _ rfl (by rw [hw])

theorem loop_waits : ∀ w ∈ (loop direction budget need e got script).waits,
    budget w.start = some w.timeout := by
  refine loop_rule (P := fun _ o => ∀ w ∈ o.waits, budget w.start = some w.timeout) ?_ ?_
  · intro e o hnil _ w hw
    rw [hnil] at hw
    cases hw
  · rintro e timeout v d o hb _ ih w (_ | ⟨_, hw⟩)
    · exact hb
    · exact ih w hw

/-- The operation is over by the end of the timeout of its last wait. -/
theorem loop_last : ∀ w ∈ (loop direction budget need e got script).waits.getLast?,
    (loop direction budget need e got script).elapsed ≤ w.start + w.timeout * millisecond := by
  refine (loop_rule (P := fun e o => (o.waits = [] → o.elapsed = e) ∧
    ∀ w ∈ o.waits.getLast?, o.elapsed ≤ w.start + w.timeout * millisecond) ?_ ?_).2
  · intro e o hnil he
    refine ⟨fun _ => he, fun w hw => ?_⟩
    rw [hnil] at hw
    cases hw
  · rintro e timeout v d o _ hd ⟨hfirst, hlast⟩
    refine ⟨by rintro ⟨⟩, fun w hw => ?_⟩
    simp only [Outcome.waited] at hw ⊢
    cases hws : o.waits with
    | nil =>
      rw [hws, List.getLast?_singleton] at hw
      obtain rfl := Option.some.inj hw
      have he := hfirst hws
      simp only
      omega
    | cons u us =>
      rw [hws, List.getLast?_cons_cons] at hw
      exact hlast w (by rw [hws]; exact hw)

theorem loop_elapsed {m : ℕ} (hm : ∀ e timeout, budget e = some timeout → timeout * millisecond ≤ m) :
    (loop direction budget need e got script).elapsed ≤
      e + (loop direction budget need e got script).waits.length * m := by
  refine loop_rule (P := fun e o => o.elapsed ≤ e + o.waits.length * m) ?_ ?_
  · intro e o hnil he
    rw [hnil, he]
    exact Nat.le_add_right _ _
  · intro e timeout v d o hb hd ih
    have htimeout := hm e timeout hb
    simp only [Outcome.waited, List.length_cons, Nat.succ_mul]
    omega

theorem loop_deadline (he : e < t + millisecond) :
    (loop direction (untilDeadline t) need e got script).elapsed < t + millisecond := by
  revert he
  refine loop_rule (P := fun e o => e < t + millisecond → o.elapsed < t + millisecond) ?_ ?_
  · intro e o _ heq he
    rw [heq]
    exact he
  · intro e timeout v d o hb hd ih _
    refine ih ?_
    simp only [untilDeadline, Option.ite_none_left_eq_some, Option.some.injEq] at hb
    obtain ⟨hlt, rfl⟩ := hb
    have hle := timeoutMs_le (t - e)
    have hms : 0 < millisecond := by decide
    omega

/-- A script that goes on where an operation is pending. -/
theorem loop_append (rest : List Turn)
    (h : (loop direction budget need e got script).result = .pending) :
    ∃ got', loop direction budget need e got (script ++ rest) =
      { loop direction budget need (loop direction budget need e got script).elapsed got' rest with
        waits := (loop direction budget need e got script).waits ++
          (loop direction budget need (loop direction budget need e got script).elapsed got'
            rest).waits } := by
  induction script generalizing e got with
  | nil => exact ⟨got, rfl⟩
  | cons turn script ih =>
    cases turn with
    | raise => cases h
    | ret n =>
      simp only [loop, List.cons_append] at h ⊢
      split at h
      · cases h
      · exact ih h
    | block want w =>
      cases hb : budget e with
      | none =>
        simp only [loop, hb] at h
        cases h
      | some timeout =>
        simp only [loop, List.cons_append, hb, Outcome.waited] at h ⊢
        split at h
        · rename_i d hw
          obtain ⟨got', hgot⟩ := ih h
          refine ⟨got', ?_⟩
          simp only [hgot]
        · cases h
        · cases h

/-! ## The two kinds -/

theorem bounded_loop (direction : Option Direction) (need : Need) (t : ℕ) :
    Bounded t (loop direction (untilDeadline t) need 0 0) where
  waits script w hw := by
    have hb := loop_waits w hw
    simp only [untilDeadline, Option.ite_none_left_eq_some, Option.some.injEq] at hb
    obtain ⟨hlt, heq⟩ := hb
    exact ⟨Nat.not_le.mp hlt, heq ▸ timeoutMs_le (t - w.start)⟩
  elapsed script := loop_deadline (Nat.add_pos_right _ (by decide))
  ends script want w rest hp ht := by
    obtain ⟨got, h⟩ := loop_append (.block want w :: rest) hp
    rw [h]
    simp [loop, untilDeadline, ht]

theorem perWait_loop (direction : Option Direction) (need : Need) (t : ℕ) :
    PerWait t (loop direction (eachWait t) need 0 0) where
  waits script w hw := by
    have hb : eachWait t w.start = some w.timeout := loop_waits w hw
    exact (Option.some.inj hb).symm
  last script w hw := by
    have hlast := loop_last w hw
    have hb : eachWait t w.start = some w.timeout := loop_waits w (List.mem_of_getLast? hw)
    have hle := timeoutMs_le t
    rw [← Option.some.inj hb] at hlast
    omega
  elapsed script := by
    have hm (e timeout : ℕ) (hb : eachWait t e = some timeout) :
        timeout * millisecond ≤ max t millisecond := by
      obtain rfl := Option.some.inj hb
      exact timeoutMs_le t
    have h : (loop direction (eachWait t) need 0 0 script).elapsed ≤ 0 + _ := loop_elapsed hm
    rwa [Nat.zero_add] at h
  ends script want rest hp := by
    obtain ⟨got, h⟩ := loop_append (.block want .never :: rest) hp
    rw [h]
    simp [loop, eachWait, waitFdCoop, Outcome.waited]

theorem bounded_loopAll (direction : Option Direction) (len : ℕ) (eof : Bool) (t : ℕ) :
    Bounded t (loopAll direction (untilDeadline t) len eof) := by
  by_cases hlen : len = 0
  · have heq : loopAll direction (untilDeadline t) len eof = fun _ => ⟨[], 0, .returned 0⟩ := by
      funext script
      simp [loopAll, hlen]
    rw [heq]
    exact ⟨by rintro _ _ ⟨⟩, fun _ => Nat.add_pos_right _ (by decide), by rintro _ _ _ _ ⟨⟩⟩
  · have heq : loopAll direction (untilDeadline t) len eof =
        loop direction (untilDeadline t) (.all len eof) 0 0 := by
      funext script
      simp [loopAll, hlen]
    rw [heq]
    exact bounded_loop _ _ _

theorem perWait_loopAll (direction : Option Direction) (len : ℕ) (eof : Bool) (t : ℕ) :
    PerWait t (loopAll direction (eachWait t) len eof) := by
  by_cases hlen : len = 0
  · have heq : loopAll direction (eachWait t) len eof = fun _ => ⟨[], 0, .returned 0⟩ := by
      funext script
      simp [loopAll, hlen]
    rw [heq]
    exact ⟨by rintro _ _ ⟨⟩, by rintro _ _ ⟨⟩, fun _ => Nat.zero_le _, by rintro _ _ _ ⟨⟩⟩
  · have heq : loopAll direction (eachWait t) len eof =
        loop direction (eachWait t) (.all len eof) 0 0 := by
      funext script
      simp [loopAll, hlen]
    rw [heq]
    exact perWait_loop _ _ _

/-- Two wake-ups after 0.9 s each, the first of them for nothing. -/
def twoWakes : List Turn :=
  [.block .read (.ready 900000000), .block .read (.ready 900000000), .ret 5]

end Stackweave.Monkey.Deadlines
