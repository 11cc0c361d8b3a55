import Mathlib.Data.Int.Notation
import Mathlib.Data.List.Nodup
import Stackweave.Channel.Ring
import Stackweave.Transition

/-!
# Sends, receives, closes and selects on many channels

The channel code at the grain of its shared accesses. What a call does under
`ch->lock` is split where another thread can see a difference: the claim CAS of
`waiter_claim` on `fired_case`, the write of the claimed record, and
`wake_waiter` are steps of their own, since a select that waits on several
channels is claimed under one lock and looks at its record under none. All that
only the lock's holder can see is part of the step next to it.

A waiter record is named by the park it belongs to and its case index. The
memory of a record is reused after the call; the model gives each park a new
name, so that an access to a freed record is an access to an old name.

`resume` of a parked select is enabled at any time: a stale entry of an earlier
wake may resume it as well as the wake of its claimer.
-/

namespace Stackweave.Channel.Select

open Transition

variable {V : Type*}

inductive Side
  | tx
  | rx
  deriving DecidableEq

inductive Dir (V : Type*)
  | send (value : V)
  | recv

/-- The queue a case waits in. -/
def Dir.side : Dir V → Side
  | .send _ => .tx
  | .recv => .rx

/-- `runloom_select_case_t`. -/
structure Case (V : Type*) where
  ch : ℕ
  dir : Dir V

/-- A call. `plain` is `runloom_chan_send` or `runloom_chan_recv`, and the `try`
form of it when `blocking` is off. -/
inductive Op (V : Type*)
  | plain (case : Case V) (blocking : Bool)
  | close (ch : ℕ)
  | select (cases : List (Case V)) (defaultReady : Bool)

def Op.cases : Op V → List (Case V)
  | .plain c _ => [c]
  | .close _ => []
  | .select cs _ => cs

def Op.isSelect : Op V → Bool
  | .select _ _ => true
  | _ => false

/-- One park of a fiber: the number of the call and of the attempt in it. For a
select it stands for the `struct runloom_select_park` of that attempt. -/
structure Park where
  fiber : ℕ
  call : ℕ
  attempt : ℕ
  deriving DecidableEq

/-- The name of a `runloom_chan_waiter_t`; `select` is off when its `select`
pointer is NULL. `ch` and `side` say in which queue it is linked. -/
structure Waiter where
  park : Park
  case : ℕ
  select : Bool
  ch : ℕ
  side : Side
  deriving DecidableEq

/-- The fields of a waiter record that the claimer fills in. `filled` is set by
that write and read by nobody. -/
structure Record (V : Type*) where
  value : Option V
  ok : ℤ
  sendResult : ℤ
  filled : Bool

/-- A record as its owner sets it up. -/
def Dir.record : Dir V → Record V
  | .send v => ⟨some v, 0, -1, false⟩
  | .recv => ⟨none, -1, 0, false⟩

/-- What a locked section is doing: `hand` looks for a receiver, `take` for a
sender, `got` has its result and moves a parked sender into the freed slot, and
a close pops the senders and then the receivers. -/
inductive Job (V : Type*)
  | hand (value : V)
  | take
  | got (value : Option V)
  | closeTx
  | closeRx

/-- The queue that the section pops. -/
def Job.side : Job V → Side
  | .hand _ | .closeRx => .rx
  | .take | .got _ | .closeTx => .tx

/-- `popping` is inside `waiter_pop_claimable`, `claimed` before the writes to
the popped record and `waking` before `wake_waiter`. -/
inductive Stage
  | popping
  | claimed (w : Waiter)
  | waking (w : Waiter)

/-- The record the section still accesses. -/
def Stage.record : Stage → Option Waiter
  | .popping => none
  | .claimed w | .waking w => some w

/-- Who runs the section: a plain call, or `select_try_each` at its `k`-th
visit, on case `i`. -/
inductive Caller
  | plain
  | scan (stride k i : ℕ)

def Caller.index : Caller → ℕ
  | .plain => 0
  | .scan _ _ i => i

/-- A section under way, kept with the lock it runs under. -/
structure Sect (V : Type*) where
  fiber : ℕ
  caller : Caller
  job : Job V
  stage : Stage

structure Chan (V : Type*) where
  ring : Ring V
  closed : Bool
  senders : List Waiter
  receivers : List Waiter
  lock : Option (Sect V)

def Chan.queue (c : Chan V) (d : Side) : List Waiter :=
  if d = .tx then c.senders else c.receivers

def Chan.setQueue (c : Chan V) (q : List Waiter) (d : Side) : Chan V :=
  { c with senders := if d = .tx then q else c.senders
           receivers := if d = .tx then c.receivers else q }

/-- Which call of `select_evict_self` runs: for an aborted install, after a
resume that found nothing fired, or with the fired case left out. -/
inductive Evict
  | abort
  | spurious
  | final (fired : ℕ)
  deriving DecidableEq

inductive Pc
  | idle
  | start
  | scan
  | tryCase (stride k i : ℕ)
  | locked (ch : ℕ)
  | parked
  | install (i : ℕ)
  | abort (i : ℕ)
  | selParked
  | evict (why : Evict) (j : ℕ)
  | finish (fired : ℕ)
  deriving DecidableEq

/-- A fiber and the call it is in; `call` counts the calls it finished. -/
structure Fiber (V : Type*) where
  call : ℕ
  op : Op V
  retries : ℕ
  pc : Pc

/-- What a call returns. The index of `sendClosed` is the case whose channel was
found closed; the code sets a ValueError and does not return it. `wouldBlock` is
also the default branch of a select. -/
inductive Outcome (V : Type*)
  | sent (i : ℕ)
  | received (i : ℕ) (value : Option V)
  | recvClosed (i : ℕ)
  | sendClosed (i : ℕ)
  | wouldBlock
  | noGoroutine
  | noCases
  | tooManyRetries
  | closeDone
  | closeClosed

/-- A value changes hands: `tx` when it leaves the send of this case, `rx` when
it reaches the receive. -/
structure Event (V : Type*) where
  fiber : ℕ
  call : ℕ
  case : ℕ
  ch : ℕ
  side : Side
  value : Option V

/-- `hist` and `results` are history, written and never read. -/
structure State (V : Type*) where
  chans : ℕ → Chan V
  fibers : ℕ → Fiber V
  fired : Park → Option ℕ
  records : Waiter → Record V
  hist : List (Event V)
  results : ℕ → ℕ → Option (Op V × Outcome V)

namespace State

def setChan (s : State V) (ch : ℕ) (c : Chan V) : State V :=
  { s with chans := fun j => if j = ch then c else s.chans j }

def setFiber (s : State V) (f : ℕ) (x : Fiber V) : State V :=
  { s with fibers := fun j => if j = f then x else s.fibers j }

def goto (s : State V) (f : ℕ) (pc : Pc) : State V :=
  s.setFiber f { s.fibers f with pc := pc }

def setRecord (s : State V) (w : Waiter) (r : Record V) : State V :=
  { s with records := fun v => if v = w then r else s.records v }

def setFired (s : State V) (p : Park) (k : Option ℕ) : State V :=
  { s with fired := fun q => if q = p then k else s.fired q }

def log (s : State V) (es : List (Event V)) : State V := { s with hist := s.hist ++ es }

/-- The park of the fiber's current attempt. -/
def park (s : State V) (f : ℕ) : Park := ⟨f, (s.fibers f).call, (s.fibers f).retries⟩

/-- The name of the record of case `k` in the current attempt. -/
def waiter (s : State V) (f k : ℕ) (c : Case V) : Waiter :=
  ⟨s.park f, k, (s.fibers f).op.isSelect, c.ch, c.dir.side⟩

/-- Return from the call. -/
def ret (s : State V) (f : ℕ) (out : Outcome V) : State V :=
  { s.setFiber f { s.fibers f with call := (s.fibers f).call + 1, pc := .idle } with
    results := fun g c =>
      if g = f ∧ c = (s.fibers f).call then some ((s.fibers f).op, out) else s.results g c }

/-- `goto select_retry`. -/
def retry (s : State V) (f : ℕ) : State V :=
  if (s.fibers f).retries + 1 > 10000000 then s.ret f .tooManyRetries
  else s.setFiber f { s.fibers f with retries := (s.fibers f).retries + 1, pc := .scan }

/-- Take the lock of `ch`, leave the channel as `c` and go on with `sec`. -/
def lockAs (s : State V) (ch : ℕ) (c : Chan V) (sec : Sect V) : State V :=
  (s.setChan ch { c with lock := some sec }).goto sec.fiber (.locked ch)

/-- Stay in the section of `ch`. -/
def stay (s : State V) (ch : ℕ) (c : Chan V) (sec : Sect V) : State V :=
  s.setChan ch { c with lock := some sec }

def unlock (s : State V) (ch : ℕ) (c : Chan V) : State V :=
  s.setChan ch { c with lock := none }

end State

/-- A waiter that `waiter_claim` would win. -/
def Claimable (fired : Park → Option ℕ) (w : Waiter) : Prop :=
  w.select = false ∨ fired w.park = none

/-- `waiter_has_foreign`. -/
def waiterHasForeign (q : List Waiter) (p : Park) : Bool :=
  q.any fun w => !(w.select && w.park == p)

/-- The event of the record's case. -/
def Waiter.event (w : Waiter) (p : Option V) : Event V :=
  ⟨w.park.fiber, w.park.call, w.case, w.ch, w.side, p⟩

/-- The event of the running call's case `k`. -/
def State.event (s : State V) (f k ch : ℕ) (side : Side) (p : Option V) : Event V :=
  ⟨f, (s.fibers f).call, k, ch, side, p⟩

/-! ## The locked sections -/

/-- The head of `chan_send_locked`, `chan_recv_locked` and the body of the loop
in `select_try_each`: take the lock and find out what to look for. -/
def enter (s : State V) (f : ℕ) (caller : Caller) (c : Case V) : Option (State V) :=
  let ch := s.chans c.ch
  if ch.lock.isSome then none
  else
    match c.dir with
    | .send v =>
      if ch.closed then some (s.ret f (.sendClosed caller.index))
      else some (s.lockAs c.ch ch ⟨f, caller, .hand v, .popping⟩)
    | .recv =>
      if 0 < ch.ring.len then
        some ((s.log [s.event f caller.index c.ch .rx (bufPop ch.ring).1]).lockAs c.ch
          { ch with ring := (bufPop ch.ring).2 }
          ⟨f, caller, .got (bufPop ch.ring).1, .popping⟩)
      else some (s.lockAs c.ch ch ⟨f, caller, .take, .popping⟩)

/-- The head of `runloom_chan_close`. -/
def enterClose (s : State V) (f ch : ℕ) : Option (State V) :=
  let c := s.chans ch
  if c.lock.isSome then none
  else if c.closed then some (s.ret f .closeClosed)
  else some (s.lockAs ch { c with closed := true } ⟨f, .plain, .closeTx, .popping⟩)

/-- Nothing to do and nobody to meet: `select_try_each` goes to its next case,
a plain call gives up or parks. -/
def wouldBlock (goroutine : ℕ → Bool) (s : State V) (ch : ℕ) (sec : Sect V) :
    Option (State V) :=
  let c := s.chans ch
  let f := sec.fiber
  match sec.caller, (s.fibers f).op with
  | .plain, .plain case blocking =>
    if !blocking then some ((s.unlock ch c).ret f .wouldBlock)
    else if !goroutine f then some ((s.unlock ch c).ret f .noGoroutine)
    else
      let w := s.waiter f 0 case
      some (((s.setRecord w case.dir.record).unlock ch
        (c.setQueue (c.queue w.side ++ [w]) w.side)).goto f .parked)
  | .scan stride k i, op =>
    let n := op.cases.length
    let i' := if n ≤ i + stride then i + stride - n else i + stride
    some ((s.unlock ch c).goto f (.tryCase stride (k + 1) i'))
  | _, _ => none

/-- `waiter_pop_claimable` has returned NULL. -/
def exhausted (goroutine : ℕ → Bool) (s : State V) (ch : ℕ) (sec : Sect V) :
    Option (State V) :=
  let c := s.chans ch
  let f := sec.fiber
  match sec.job with
  | .hand v =>
    if 0 < c.ring.cap ∧ c.ring.len < c.ring.cap then
      some (((s.log [s.event f sec.caller.index ch .tx (some v)]).unlock ch
        { c with ring := bufPush c.ring (some v) }).ret f (.sent sec.caller.index))
    else wouldBlock goroutine s ch sec
  | .take =>
    if c.closed then some ((s.unlock ch c).ret f (.recvClosed sec.caller.index))
    else wouldBlock goroutine s ch sec
  | .got p => some ((s.unlock ch c).ret f (.received sec.caller.index p))
  | .closeTx => some (s.stay ch c { sec with job := .closeRx })
  | .closeRx => some ((s.unlock ch c).ret f .closeDone)

/-- One round of `waiter_pop_claimable`: unlink the head and try to claim it. -/
def popRound (goroutine : ℕ → Bool) (s : State V) (ch : ℕ) (sec : Sect V) :
    Option (State V) :=
  let c := s.chans ch
  match c.queue sec.job.side with
  | [] => exhausted goroutine s ch sec
  | w :: rest =>
    let c' := c.setQueue rest sec.job.side
    if !w.select then some (s.stay ch c' { sec with stage := .claimed w })
    else
      match s.fired w.park with
      | none =>
        some ((s.setFired w.park (some w.case)).stay ch c' { sec with stage := .claimed w })
      | some _ => some (s.stay ch c' sec)

/-- The writes to the claimed record. -/
def fill (s : State V) (ch : ℕ) (sec : Sect V) (w : Waiter) : Option (State V) :=
  let c := s.chans ch
  let f := sec.fiber
  let r := s.records w
  let woken := { sec with stage := .waking w }
  match sec.job with
  | .hand v =>
    some (((s.log [s.event f sec.caller.index ch .tx (some v), w.event (some v)]).setRecord w
      { r with value := some v, ok := 1, filled := true }).stay ch c woken)
  | .take =>
    some (((s.log [w.event r.value, s.event f sec.caller.index ch .rx r.value]).setRecord w
      { r with value := none, sendResult := 0, filled := true }).stay ch c
        { woken with job := .got r.value })
  | .got _ =>
    some (((s.log [w.event r.value]).setRecord w
      { r with value := none, sendResult := 0, filled := true }).stay ch
        { c with ring := bufPush c.ring r.value } woken)
  | .closeTx =>
    some ((s.setRecord w { r with sendResult := -1, filled := true }).stay ch c woken)
  | .closeRx =>
    some ((s.setRecord w { r with value := none, ok := 0, filled := true }).stay ch c woken)

/-- `wake_waiter`, which reads the record for the fiber to wake, and what comes
after it. -/
def wakeWaiter (s : State V) (ch : ℕ) (sec : Sect V) : Option (State V) :=
  let c := s.chans ch
  match sec.job with
  | .hand _ => some ((s.unlock ch c).ret sec.fiber (.sent sec.caller.index))
  | .got p => some ((s.unlock ch c).ret sec.fiber (.received sec.caller.index p))
  | .closeTx | .closeRx => some (s.stay ch c { sec with stage := .popping })
  | .take => none

def sectionStep (goroutine : ℕ → Bool) (s : State V) (f ch : ℕ) : Option (State V) :=
  match (s.chans ch).lock with
  | none => none
  | some sec =>
    if sec.fiber ≠ f then none
    else
      match sec.stage with
      | .popping => popRound goroutine s ch sec
      | .claimed w => fill s ch sec w
      | .waking _ => wakeWaiter s ch sec

/-! ## Waiting -/

/-- `park_waiter` returns once it finds its waiter popped, with the lock taken
again; until then a resume parks again. -/
def resumePlain (s : State V) (f : ℕ) : Option (State V) :=
  match (s.fibers f).op with
  | .plain case _ =>
    let c := s.chans case.ch
    let w := s.waiter f 0 case
    let r := s.records w
    if c.lock.isSome ∨ w ∈ c.queue w.side then none
    else
      match case.dir with
      | .send _ => some (s.ret f (if r.sendResult = 0 then .sent 0 else .sendClosed 0))
      | .recv => some (s.ret f (if r.ok = 1 then .received 0 r.value else .recvClosed 0))
  | _ => none

/-- The re-check of an install: is the case ready after all? -/
def ready (c : Chan V) (p : Park) : Dir V → Bool
  | .send _ => c.closed || (decide (0 < c.ring.cap ∧ c.ring.len < c.ring.cap)) ||
      waiterHasForeign c.receivers p
  | .recv => c.closed || decide (0 < c.ring.len) || waiterHasForeign c.senders p

/-- One case of the install loop of `runloom_chan_select`. -/
def installCase (s : State V) (f i : ℕ) : Option (State V) :=
  match (s.fibers f).op.cases[i]? with
  | none => some (s.goto f .selParked)
  | some case =>
    let c := s.chans case.ch
    let w := s.waiter f i case
    if c.lock.isSome then none
    else if ready c (s.park f) case.dir then some (s.goto f (.abort i))
    else
      some ((s.setChan case.ch (c.setQueue (c.queue w.side ++ [w]) w.side)).goto f
        (.install (i + 1)))

/-- The CAS of an aborting install on its own park. -/
def abortInstall (s : State V) (f i : ℕ) : State V :=
  match s.fired (s.park f) with
  | none => (s.setFired (s.park f) (some i)).goto f (.evict .abort 0)
  | some _ => s.goto f .selParked

/-- The load of `fired_case` after the yield. -/
def loadFired (s : State V) (f : ℕ) : State V :=
  match s.fired (s.park f) with
  | some k => s.goto f (.evict (.final k) 0)
  | none => s.goto f (.evict .spurious 0)

/-- One case of `select_evict_self`, or what comes after its loop. -/
def evictCase (s : State V) (f : ℕ) (why : Evict) (j : ℕ) : Option (State V) :=
  match (s.fibers f).op.cases[j]? with
  | some case =>
    if why = .final j then some (s.goto f (.evict why (j + 1)))
    else
      let c := s.chans case.ch
      let w := s.waiter f j case
      if c.lock.isSome then none
      else
        some ((s.setChan case.ch (c.setQueue ((c.queue w.side).erase w) w.side)).goto f
          (.evict why (j + 1)))
  | none =>
    match why with
    | .abort => some (s.retry f)
    | .spurious =>
      match s.fired (s.park f) with
      | none => some (s.retry f)
      | some k => some (s.goto f (.evict (.final k) 0))
    | .final k => some (s.goto f (.finish k))

/-- The end of `runloom_chan_select`: the fired record is read without a lock. A
receive whose record holds no value was woken by a close and scans again. -/
def finishSelect (s : State V) (f k : ℕ) : Option (State V) :=
  match (s.fibers f).op.cases[k]? with
  | none => none
  | some case =>
    let r := s.records (s.waiter f k case)
    match case.dir, r.value with
    | .send _, _ => some (s.ret f (if r.sendResult = 0 then .sent k else .sendClosed k))
    | .recv, some v => some (s.ret f (.received k (some v)))
    | .recv, none => some (s.retry f)

/-- `select_try_each` at its `k`-th visit, and what comes after its loop: the
default branch, or a new park with every record set up. -/
def tryCase (goroutine : ℕ → Bool) (s : State V) (f stride k i : ℕ) : Option (State V) :=
  match (s.fibers f).op with
  | .select cases defaultReady =>
    if k < cases.length then
      match cases[i]? with
      | some c => enter s f (.scan stride k i) c
      | none => none
    else if defaultReady then some (s.ret f .wouldBlock)
    else if !goroutine f then some (s.ret f .noGoroutine)
    else
      let p := s.park f
      some ({ s.setFired p none with
        records := fun w =>
          match cases[w.case]? with
          | some c => if w.park = p then c.dir.record else s.records w
          | none => s.records w }.goto f (.install 0))
  | _ => none

def startCall (s : State V) (f : ℕ) : Option (State V) :=
  match (s.fibers f).op with
  | .plain c _ => enter s f .plain c
  | .close ch => enterClose s f ch
  | .select cases _ => some (if cases = [] then s.ret f .noCases else s.goto f .scan)

inductive Action (V : Type*)
  | call (f : ℕ) (op : Op V)
  | draw (f start stride : ℕ)
  | advance (f : ℕ)

/-- One atomic step. `draw` is the pick of a visiting order in
`select_try_each`: a start and a stride that is coprime with the number of
cases. -/
@[grind =]
def step (goroutine : ℕ → Bool) (s : State V) : Action V → Option (State V)
  | .call f op =>
    if (s.fibers f).pc = .idle then
      some (s.setFiber f { s.fibers f with op := op, retries := 0, pc := .start })
    else none
  | .draw f start stride =>
    let n := (s.fibers f).op.cases.length
    if (s.fibers f).pc = .scan ∧ start < n ∧ 1 ≤ stride ∧ (stride = 1 ∨ stride < n) ∧
        Nat.gcd stride n = 1 then
      some (s.goto f (.tryCase stride 0 start))
    else none
  | .advance f =>
    match (s.fibers f).pc with
    | .idle | .scan => none
    | .start => startCall s f
    | .tryCase stride k i => tryCase goroutine s f stride k i
    | .locked ch => sectionStep goroutine s f ch
    | .parked => resumePlain s f
    | .install i => installCase s f i
    | .abort i => some (abortInstall s f i)
    | .selParked => some (loadFired s f)
    | .evict why j => evictCase s f why j
    | .finish k => finishSelect s f k

/-- New channels of any capacities, and fibers that have called nothing yet. -/
def Initial (s : State V) : Prop :=
  (∀ ch, ∃ cap, s.chans ch = ⟨Ring.new cap, false, [], [], none⟩) ∧
    (∀ f, (s.fibers f).pc = .idle ∧ (s.fibers f).call = 0) ∧
    s.hist = [] ∧ ∀ f c, s.results f c = none

def system (goroutine : ℕ → Bool) : System (State V) (Action V) where
  init := Initial
  step := step goroutine

end Stackweave.Channel.Select
