import Mathlib.Data.Option.Basic
import Mathlib.Tactic.Common
import Stackweave.Transition

/-!
# `_StreamTransport` (`aio/transport_stream.py`, `aio/transport_stream_io.py`)

The flags of one transport, its write buffer (its length) and its io fiber. An action is
a call of one of the methods, from a protocol callback of the io fiber or from another
fiber, or the io fiber going on from where it stood to the next park or callback. What the
socket and the callbacks do are inputs. Over TLS a send, a receive and the close_notify may
park inside the TLS object.
-/

namespace Stackweave.Aio.StreamTransport

open Transition

/-- Where the io fiber stands; `r` is the read half of the readiness that is still to be
served. -/
inductive Io
  | gone
  /-- to go on at the top of its loop -/
  | yielding
  /-- `_wait_fd(fd, mask)` -/
  | waiting (r w : Bool)
  /-- inside `get_buffer` -/
  | bufferCb
  /-- inside `data_received` or `buffer_updated` -/
  | dataCb
  | eofCb
  /-- inside `resume_writing`, called by `_drain_step` -/
  | resumeCb (r : Bool)
  /-- parked inside the TLS object by `_drain_step` or `_recv_step` -/
  | sendPark (r : Bool)
  | recvPark
  /-- parked inside the TLS object by a close_notify: of the half-close at the top of the
  loop, of a drained close, of the `close()` after an EOF -/
  | notifyTop
  | notifyDrain (r : Bool)
  | eofClosing
  deriving DecidableEq

/-- A `close()` parked in its close_notify: in the io fiber or not, and its `deliver_cl`. -/
structure Closer where
  inIo : Bool
  deliver : Bool

/-- `readied`: the park inside the TLS object is over, the io fiber not yet resumed. `ahead`:
the io fiber is in its read-ahead. `kicks` are the calls of `write` that are to kick the fiber
after `pause_writing`. `scheduled` counts the `connection_lost` handed to the loop. -/
structure State where
  plain : Bool
  closed : Bool
  stopping : Bool
  paused : Bool
  readEof : Bool
  eofWritten : Bool
  eofPending : Bool
  tlsShutdownSent : Bool
  connLostCalled : Bool
  closeWhenDrained : Bool
  closeDeliverCl : Bool
  protocolPaused : Bool
  writeBuf : ℕ
  ioG : Bool
  io : Io
  readied : Bool
  ahead : Bool
  closing : Option Closer
  constructed : Bool
  kicks : ℕ
  scheduled : ℕ

/-- Inside `__init__`, in `connection_made`. -/
def start (plain : Bool) : State :=
  { plain := plain, closed := false, stopping := false, paused := false, readEof := false
    eofWritten := false, eofPending := false, tlsShutdownSent := false, connLostCalled := false
    closeWhenDrained := false, closeDeliverCl := false, protocolPaused := false, writeBuf := 0
    ioG := false, io := .gone, readied := false, ahead := false, closing := none
    constructed := false, kicks := 0, scheduled := 0 }

def highWater : ℕ := 64 * 1024

def lowWater : ℕ := 16 * 1024

inductive SendRes
  | blocked
  | error
  | sent (n : ℕ)
  | parks
  deriving DecidableEq

inductive RecvRes
  | blocked
  | error
  | data
  | eof
  /-- a buffered protocol is asked for a buffer first -/
  | getBuffer
  | parks
  deriving DecidableEq

/-! ## The io fiber from outside -/

def Io.inTls : Io → Bool
  | .sendPark _ | .recvPark | .notifyTop | .notifyDrain _ | .eofClosing => true
  | _ => false

/-- The io fiber is in a `_wait_fd` of the TLS object. -/
def State.parkedInTls (s : State) : Bool :=
  (s.io.inTls || s.closing.any Closer.inIo) && !s.readied

/-- `cancel_wait_fd`: the loop catches the `CancelledError` of its own wait only. -/
def State.cancelWaitFd (s : State) : State :=
  match s.io with
  | .waiting _ _ => { s with io := .yielding }
  | _ =>
    if s.parkedInTls then
      { s with io := .gone, closing := s.closing.filter fun c => !c.inIo }
    else s

def State.spawn (s : State) : State :=
  { s with ioG := true, io := .yielding }

/-- `_kick_io`. -/
def State.kickIo (s : State) : State :=
  if s.stopping then s else if s.ioG then s.cancelWaitFd else s.spawn

/-- The wake of the io fiber in a teardown. -/
def State.stopIo (s : State) : State :=
  if s.ioG then s.cancelWaitFd else s

/-- `_deliver_connection_lost`. -/
def State.deliver (s : State) (deliverCl : Bool) : State :=
  { s with scheduled := s.scheduled + deliverCl.toNat }

/-! ## The methods -/

/-- The end of `close()`. -/
def State.teardown (s : State) (deliverCl : Bool) : State :=
  ({ s with stopping := true, closing := none }.stopIo).deliver deliverCl

/-- `close(exc)`; `parks` is for its close_notify over TLS. -/
def State.close (s : State) (exc inIo parks : Bool) : State :=
  if s.closed then s
  else
    let deliverCl := !s.connLostCalled
    let t := { s with closed := true, connLostCalled := true }
    if !exc && decide (0 < s.writeBuf) then
      State.kickIo { t with closeDeliverCl := deliverCl, closeWhenDrained := true }
    else if !exc && !s.plain && !s.tlsShutdownSent then
      if parks then
        { t with tlsShutdownSent := true, closing := some ⟨inIo, deliverCl⟩
                 readied := s.readied && !inIo }
      else State.teardown { t with tlsShutdownSent := true } deliverCl
    else t.teardown deliverCl

def State.abort (s : State) (inIo parks : Bool) : State :=
  let t := { s with writeBuf := 0 }
  if !s.closed then t.close false inIo parks
  else if s.stopping then t
  else (State.stopIo { t with closeWhenDrained := false, stopping := true }).deliver s.closeDeliverCl

/-- `write` of `k` bytes; `r` is what the plain socket does with a direct send. -/
def State.write (s : State) (k : ℕ) (r : SendRes) (inIo : Bool) : State :=
  if s.eofWritten || s.eofPending || s.closed || k == 0 then s
  else
    let queue (s : State) (left : ℕ) : State :=
      { s with writeBuf := s.writeBuf + left, kicks := s.kicks + 1
               protocolPaused := s.protocolPaused || decide (highWater < s.writeBuf + left) }
    if s.writeBuf == 0 && s.plain then
      match r with
      | .error => s.close true inIo false
      | .sent n => if k ≤ n then s else queue s (k - n)
      | _ => queue s k
    else queue s k

def State.writeEof (s : State) : State :=
  if s.closed || s.eofWritten || s.eofPending then s
  else if 0 < s.writeBuf then { s with eofPending := true }
  else { s with eofWritten := true }

def State.resumeReading (s : State) : State :=
  if s.paused then State.kickIo { s with paused := false } else s

/-! ## The io fiber from inside -/

/-- `_recv_step`; the fiber ends where it returns False. -/
def State.recvStep (s : State) (v : RecvRes) : State :=
  match v with
  | .blocked => { s with io := .yielding }
  | .error => { s.close true true false with io := .gone }
  | .data => { s with io := .dataCb }
  | .eof => { s with io := .eofCb }
  | .getBuffer => { s with io := .bufferCb }
  | .parks => { s with io := .recvPark, readied := false }

/-- The read half of a round. -/
def State.recvPhase (s : State) (r : Bool) (v : RecvRes) : State :=
  if r && !s.paused && !s.readEof && !s.stopping then s.recvStep v
  else { s with io := .yielding }

/-- The teardown of a drained close. -/
def State.finishDrain (s : State) : State :=
  { s with closeWhenDrained := false, stopping := true }.deliver s.closeDeliverCl

/-- The deferred half-close of `write_eof`. -/
def State.flushEof (s : State) : State :=
  if s.eofPending && !s.eofWritten && !s.closed then
    { s with eofPending := false, eofWritten := true }
  else s

/-- `_drain_step` after its send. -/
def State.drained (s : State) (r : Bool) (v : RecvRes) (parks : Bool) : State :=
  if 0 < s.writeBuf then s.recvPhase r v
  else
    let t := s.flushEof
    if t.closeWhenDrained && !t.stopping then
      if !t.plain && !t.tlsShutdownSent && parks then
        { t with tlsShutdownSent := true, io := .notifyDrain r, readied := false }
      else
        (State.finishDrain { t with tlsShutdownSent := !t.plain || t.tlsShutdownSent }).recvPhase r v
    else t.recvPhase r v

/-- `_drain_step` with what the socket did, and the rest of the round. -/
def State.drain (s : State) (r : Bool) (d : SendRes) (v : RecvRes) (parks : Bool) : State :=
  match d with
  | .blocked => s.recvPhase r v
  | .error =>
    (if s.closeWhenDrained then s.finishDrain else s.close true true false).recvPhase r v
  | .sent n =>
    let t := { s with writeBuf := s.writeBuf - n }
    if t.protocolPaused && decide (t.writeBuf ≤ lowWater) then
      { t with protocolPaused := false, io := .resumeCb r }
    else t.drained r v parks
  | .parks => { s with io := .sendPark r, readied := false }

/-- The mask, and over TLS what is read ahead. -/
def State.await (s : State) (ahead : Option RecvRes) : State :=
  let r := !s.paused && !s.readEof && !s.closed
  let w := decide (0 < s.writeBuf)
  if !r && !w then { s with ioG := false, io := .gone }
  else
    match ahead with
    | some v =>
      if r && !s.plain then State.recvStep { s with ahead := true } v
      else { s with io := .waiting r w }
    | none => { s with io := .waiting r w }

/-- The top of the loop. -/
def State.top (s : State) (parks : Bool) (ahead : Option RecvRes) : State :=
  if s.stopping then { s with ioG := false, io := .gone }
  else if s.readEof && s.writeBuf == 0 && !s.closed && !s.plain && !s.tlsShutdownSent then
    if parks then { s with tlsShutdownSent := true, io := .notifyTop, readied := false }
    else State.await { s with tlsShutdownSent := true } ahead
  else s.await ahead

/-- `_handle_read_eof` after the callback. -/
def State.handleEof (s : State) (keep parks : Bool) : State :=
  if keep then { s with readEof := true, io := .yielding }
  else
    let t := s.close false true parks
    if t.closing.any Closer.inIo then { t with io := .eofClosing }
    else { t with io := if t.closeWhenDrained then .yielding else .gone }

/-- A callback of the io fiber is over. -/
def State.cbReturn (s : State) (raised keep : Bool) (v : RecvRes) (parks : Bool) : Option State :=
  match s.io with
  | .bufferCb =>
    if raised then some { s.close true true false with io := .gone } else some (s.recvStep v)
  | .dataCb =>
    if raised then some { s.close true true false with io := .gone }
    else some { s with io := .yielding }
  | .eofCb => some (s.handleEof (keep && !raised) parks)
  | .resumeCb r => some (s.drained r v parks)
  | _ => none

/-- A close_notify of the io fiber is over. -/
def State.notified (s : State) (v : RecvRes) (ahead : Option RecvRes) : Option State :=
  match s.io with
  | .notifyTop => some (s.await ahead)
  | .notifyDrain r => some (s.finishDrain.recvPhase r v)
  | _ => none

/-- The parked `close()` goes on. -/
def State.resumeClose (s : State) (c : Closer) : State :=
  let t := s.teardown c.deliver
  match s.io with
  | .eofClosing => { t with io := if t.closeWhenDrained then .yielding else .gone }
  | _ => t

inductive Action
  | construct
  | write (k : ℕ) (r : SendRes) (inIo : Bool)
  | kick
  | writeEof
  | close (inIo parks : Bool)
  | abort (inIo parks : Bool)
  | pauseReading
  | resumeReading
  | run (parks : Bool) (ahead : Option RecvRes)
  /-- the read-ahead goes on: neither `pause_reading` nor `close` ends it -/
  | again (v : RecvRes)
  | wake (r w : Bool) (d : SendRes) (v : RecvRes) (parks : Bool)
  | waitError
  | tlsReady
  | sendDone (d : SendRes) (v : RecvRes) (parks : Bool)
  | recvDone (v : RecvRes)
  | notifyDone (v : RecvRes) (ahead : Option RecvRes)
  | closeDone
  | cbReturn (raised keep : Bool) (v : RecvRes) (parks : Bool)

/-- Plain sockets do not park. -/
def State.may (s : State) (d : SendRes) (v : RecvRes) (parks : Bool) : Bool :=
  !s.plain || d != .parks && v != .parks && !parks

/-- A `close()` of its own callback holds the io fiber up. -/
def State.held (s : State) : Bool :=
  s.closing.any Closer.inIo

@[grind =]
def step (s : State) : Action → Option State
  | .construct =>
    if s.constructed then none
    else some { (if s.ioG then s else s.spawn) with constructed := true }
  | .write k r inIo => some (s.write k r inIo)
  | .kick =>
    match s.kicks with
    | 0 => none
    | n + 1 => some (State.kickIo { s with kicks := n })
  | .writeEof => some s.writeEof
  | .close inIo parks => some (s.close false inIo parks)
  | .abort inIo parks => some (s.abort inIo parks)
  | .pauseReading => some { s with paused := true }
  | .resumeReading => some s.resumeReading
  | .run parks ahead =>
    match s.io with
    | .yielding =>
      if s.may .blocked (ahead.getD .blocked) parks then
        some (State.top { s with ahead := false } parks ahead)
      else none
    | _ => none
  | .again v =>
    match s.io with
    | .yielding => if s.ahead && !s.stopping then some (s.recvStep v) else none
    | _ => none
  | .wake r w d v parks =>
    match s.io with
    | .waiting _ _ =>
      if s.may d v parks then
        if s.stopping then some { s with io := .gone }
        else if w && decide (0 < s.writeBuf) then
          some (State.drain { s with io := .yielding } r d v parks)
        else some (State.recvPhase { s with io := .yielding } r v)
      else none
    | _ => none
  | .waitError =>
    match s.io with
    | .waiting _ _ => some { s with io := if s.stopping then .gone else .yielding }
    | _ => none
  | .tlsReady => some { s with readied := true }
  | .sendDone d v parks =>
    match s.io with
    | .sendPark r =>
      if s.readied && d != .parks then some (State.drain { s with io := .yielding } r d v parks)
      else none
    | _ => none
  | .recvDone v =>
    match s.io with
    | .recvPark => if s.readied && v != .parks then some (s.recvStep v) else none
    | _ => none
  | .notifyDone v ahead => if s.readied then s.notified v ahead else none
  | .closeDone =>
    match s.closing with
    | some c => if c.inIo && !s.readied then none else some (s.resumeClose c)
    | none => none
  | .cbReturn raised keep v parks =>
    if s.held || !s.may .blocked v parks then none else s.cbReturn raised keep v parks

def system : System State Action where
  init s := ∃ plain, s = start plain
  step := step

/-! ## Exactly once -/

/-- Nothing will go on by itself: no callback is running, and the io fiber has ended or waits
for what does not come from here; `accepts` says that the socket would take the buffered
bytes, those of the TLS object included. -/
def State.Quiescent (s : State) (accepts : Bool) : Prop :=
  s.kicks = 0 ∧ (s.closing.isSome = true → accepts = false) ∧
    (s.io = .gone ∨ (∃ r w, s.io = .waiting r w ∧ (w = true → accepts = false)) ∨
      s.io.inTls = true ∧ s.readied = false ∧ accepts = false)

/-- Bytes are buffered: by `write`, or in the TLS object that a fiber is parked in. -/
def State.Buffered (s : State) : Prop :=
  0 < s.writeBuf ∨ s.io.inTls = true ∨ s.closing.isSome = true

structure Sound (s : State) : Prop where
  once : s.scheduled ≤ 1
  /-- a transport that is closing comes to rest only on bytes that the socket does not take -/
  live : ∀ accepts, s.Quiescent accepts → s.closed = true → s.scheduled = 0 →
    accepts = false ∧ s.Buffered

/-- A receive fails, or its callback raises, while a graceful close drains; the io fiber is
kicked inside the TLS object; or a drained close is aborted while its close_notify is sent. -/
@[grind =]
def amiss (s : State) : Action → Bool
  | .kick => s.parkedInTls && !s.stopping && s.ioG
  | .resumeReading => s.paused && s.parkedInTls && !s.stopping && s.ioG
  | .close _ _ => !s.closed && decide (0 < s.writeBuf) && s.parkedInTls && s.ioG
  | .abort _ _ =>
    s.closed && !s.stopping &&
      (s.held && !s.readied ||
        match s.io with
        | .notifyDrain _ => s.readied
        | _ => false)
  | .wake r _ _ v _ => s.closeWhenDrained && r && v == .error
  | .again v => s.closeWhenDrained && v == .error
  | .sendDone _ v _ => s.closeWhenDrained && v == .error
  | .recvDone v => s.closeWhenDrained && v == .error
  | .cbReturn raised _ v _ =>
    s.closeWhenDrained &&
      match s.io with
      | .dataCb => raised
      | .bufferCb => raised || v == .error
      | .resumeCb _ => v == .error
      | _ => false
  | _ => false

def steady : System State Action :=
  system.restrict fun s a => amiss s a = false

/-! ## The stages of a close -/

structure Opened (s : State) : Prop where
  closed : s.closed = false
  stopping : s.stopping = false
  drain : s.closeWhenDrained = false
  closing : s.closing = none
  scheduled : s.scheduled = 0
  called : s.connLostCalled = false
  deliver : s.closeDeliverCl = false

/-- `_close_when_drained`: the io fiber is to deliver. -/
structure Draining (s : State) : Prop where
  closed : s.closed = true
  stopping : s.stopping = false
  drain : s.closeWhenDrained = true
  closing : s.closing = none
  scheduled : s.scheduled = 0
  deliver : s.closeDeliverCl = true

/-- A `close()` is to deliver after its close_notify. -/
structure Notifying (s : State) : Prop where
  closed : s.closed = true
  drain : s.closeWhenDrained = false
  closing : ∃ c, s.closing = some c ∧ c.deliver = true
  scheduled : s.scheduled = 0
  deliver : s.closeDeliverCl = false

structure Done (s : State) : Prop where
  closed : s.closed = true
  stopping : s.stopping = true
  drain : s.closeWhenDrained = false
  closing : s.closing = none
  scheduled : s.scheduled = 1

inductive Staged (s : State) : Prop
  | opened (h : Opened s)
  | draining (h : Draining s)
  | notifying (h : Notifying s)
  | done (h : Done s)

/-- The io fiber is there when it is needed. -/
structure IoOk (s : State) : Prop where
  stale : s.io = .gone → s.ioG = true → s.closed = true
  alive : s.ioG = false → s.io = .gone
  drains : s.closeWhenDrained = true → s.io ≠ .gone ∧ ∀ r, s.io ≠ .waiting r false
  notify : ∀ r, s.io = .notifyDrain r → s.closeWhenDrained = true
  closing : s.io = .eofClosing → s.held = true

structure Inv (s : State) : Prop where
  staged : Staged s
  io : IoOk s
  queued : s.closeWhenDrained = true →
    0 < s.writeBuf ∨ (∃ r, s.io = .resumeCb r) ∨ ∃ r, s.io = .notifyDrain r

theorem inv_start (plain : Bool) : Inv (start plain) where
  staged := .opened ⟨rfl, rfl, rfl, rfl, rfl, rfl, rfl⟩
  io := ⟨by rintro _ ⟨⟩, fun _ => rfl, by rintro ⟨⟩, by rintro _ ⟨⟩, by rintro ⟨⟩⟩
  queued := by rintro ⟨⟩

section Steps

variable {s t : State}

/-- What has no part in the close. -/
theorem Staged.congr (h : Staged s) (hclosed : t.closed = s.closed)
    (hstopping : t.stopping = s.stopping) (hdrain : t.closeWhenDrained = s.closeWhenDrained)
    (hclosing : t.closing = s.closing) (hscheduled : t.scheduled = s.scheduled)
    (hcalled : t.connLostCalled = s.connLostCalled)
    (hdeliver : t.closeDeliverCl = s.closeDeliverCl) : Staged t := by
  cases h with
  | opened h =>
    exact .opened ⟨hclosed.trans h.closed, hstopping.trans h.stopping, hdrain.trans h.drain,
      hclosing.trans h.closing, hscheduled.trans h.scheduled, hcalled.trans h.called,
      hdeliver.trans h.deliver⟩
  | draining h =>
    exact .draining ⟨hclosed.trans h.closed, hstopping.trans h.stopping, hdrain.trans h.drain,
      hclosing.trans h.closing, hscheduled.trans h.scheduled, hdeliver.trans h.deliver⟩
  | notifying h =>
    refine .notifying ⟨hclosed.trans h.closed, hdrain.trans h.drain, ?_,
      hscheduled.trans h.scheduled, hdeliver.trans h.deliver⟩
    rw [hclosing]
    exact h.closing
  | done h =>
    exact .done ⟨hclosed.trans h.closed, hstopping.trans h.stopping, hdrain.trans h.drain,
      hclosing.trans h.closing, hscheduled.trans h.scheduled⟩

/-- What neither the close nor the io fiber's place depends on. -/
theorem Inv.aside (hi : Inv s)
    (paused readEof eofWritten eofPending tlsShutdownSent protocolPaused readied ahead
      constructed : Bool) (kicks : ℕ) :
    Inv { s with paused := paused, readEof := readEof, eofWritten := eofWritten
                 eofPending := eofPending, tlsShutdownSent := tlsShutdownSent
                 protocolPaused := protocolPaused, readied := readied, ahead := ahead
                 constructed := constructed, kicks := kicks } :=
  ⟨hi.staged.congr rfl rfl rfl rfl rfl rfl rfl,
    ⟨hi.io.stale, hi.io.alive, hi.io.drains, hi.io.notify, hi.io.closing⟩, hi.queued⟩

theorem Staged.draining_of (h : Staged s) (hd : s.closeWhenDrained = true) : Draining s := by
  cases h with
  | opened h => exact absurd (h.drain.symm.trans hd) (by rintro ⟨⟩)
  | draining h => exact h
  | notifying h => exact absurd (h.drain.symm.trans hd) (by rintro ⟨⟩)
  | done h => exact absurd (h.drain.symm.trans hd) (by rintro ⟨⟩)

theorem Staged.opened_of (h : Staged s) (hc : s.closed = false) : Opened s := by
  cases h with
  | opened h => exact h
  | draining h => exact absurd (h.closed.symm.trans hc) (by rintro ⟨⟩)
  | notifying h => exact absurd (h.closed.symm.trans hc) (by rintro ⟨⟩)
  | done h => exact absurd (h.closed.symm.trans hc) (by rintro ⟨⟩)

theorem Staged.notifying_of (h : Staged s) {c : Closer} (hc : s.closing = some c) :
    Notifying s := by
  cases h with
  | opened h => exact absurd (h.closing.symm.trans hc) (by rintro ⟨⟩)
  | draining h => exact absurd (h.closing.symm.trans hc) (by rintro ⟨⟩)
  | notifying h => exact h
  | done h => exact absurd (h.closing.symm.trans hc) (by rintro ⟨⟩)

/-- The wake changes where the io fiber stands, and ends a `close()` only in the fiber that
it ends. -/
theorem cancelWaitFd_eq (s : State) : ∃ io closing,
    s.cancelWaitFd = { s with io := io, closing := closing } ∧
      (s.held = false → closing = s.closing) ∧ (s.parkedInTls = false → closing = s.closing) := by
  have hkeep : s.held = false → s.closing.filter (fun c => !c.inIo) = s.closing := by
    intro hh
    cases hc : s.closing with
    | none => rfl
    | some c =>
      have hin : c.inIo = false := by simpa [State.held, hc] using hh
      simp [Option.filter, hin]
  unfold State.cancelWaitFd
  split
  · exact ⟨.yielding, s.closing, rfl, fun _ => rfl, fun _ => rfl⟩
  · split
    case isTrue hp =>
      exact ⟨.gone, _, rfl, hkeep, fun hn => absurd (hn.symm.trans hp) (by rintro ⟨⟩)⟩
    case isFalse => exact ⟨s.io, s.closing, rfl, fun _ => rfl, fun _ => rfl⟩

theorem stopIo_eq (s : State) : ∃ io closing,
    s.stopIo = { s with io := io, closing := closing } ∧
      (s.held = false → closing = s.closing) ∧ (s.parkedInTls = false → closing = s.closing) := by
  unfold State.stopIo
  split
  · exact cancelWaitFd_eq s
  · exact ⟨s.io, s.closing, rfl, fun _ => rfl, fun _ => rfl⟩

theorem held_of_none (h : s.closing = none) : s.held = false := by
  simp [State.held, h]

theorem cancelWaitFd_io (s : State) :
    s.cancelWaitFd.io = s.io ∧ s.parkedInTls = false ∨ s.cancelWaitFd.io = .yielding ∨
      s.cancelWaitFd.io = .gone := by
  unfold State.cancelWaitFd
  split
  · exact .inr (.inl rfl)
  · split
    case isTrue => exact .inr (.inr rfl)
    case isFalse hp => exact .inl ⟨rfl, by simpa using hp⟩

theorem stopIo_io (s : State) (hg : s.ioG = true) :
    s.stopIo.io = s.io ∧ s.parkedInTls = false ∨ s.stopIo.io = .yielding ∨ s.stopIo.io = .gone := by
  unfold State.stopIo
  rw [if_pos hg]
  exact cancelWaitFd_io s

/-- The io fiber of a closed transport that drains nothing. -/
theorem IoOk.of_stopIo (ht : t.io = s.stopIo.io) (hg : t.ioG = s.ioG) (hclosed : t.closed = true)
    (hdrain : t.closeWhenDrained = false) (halive : s.ioG = false → s.io = .gone)
    (hnotify : s.parkedInTls = false → ∀ r, s.io ≠ .notifyDrain r)
    (heof : s.io = .eofClosing → t.held = true) : IoOk t := by
  constructor
  case stale => exact fun _ _ => hclosed
  case alive =>
    intro hf
    rw [hg] at hf
    rw [ht, State.stopIo, hf]
    exact halive hf
  case drains =>
    intro hd
    rw [hdrain] at hd
    cases hd
  case notify =>
    intro r hr
    rw [ht] at hr
    cases hgo : s.ioG with
    | true =>
      rcases stopIo_io s hgo with ⟨he, hp⟩ | he | he
      · exact absurd (he.symm.trans hr) (hnotify hp r)
      · rw [he] at hr
        cases hr
      · rw [he] at hr
        cases hr
    | false =>
      have he : s.stopIo.io = .gone := by
        rw [State.stopIo, hgo]
        exact halive hgo
      rw [he] at hr
      cases hr
  case closing =>
    intro hr
    rw [ht] at hr
    cases hgo : s.ioG with
    | true =>
      rcases stopIo_io s hgo with ⟨he, -⟩ | he | he
      · exact heof (he.symm.trans hr)
      · rw [he] at hr
        cases hr
      · rw [he] at hr
        cases hr
    | false =>
      have he : s.stopIo.io = .gone := by
        rw [State.stopIo, hgo]
        exact halive hgo
      rw [he] at hr
      cases hr

theorem teardown_done (hclosed : s.closed = true) (hdrain : s.closeWhenDrained = false)
    (hscheduled : s.scheduled = 0) : Done (s.teardown true) := by
  obtain ⟨io, closing, he, hkeep, -⟩ := stopIo_eq { s with stopping := true, closing := none }
  have hnone : closing = none := hkeep rfl
  unfold State.teardown
  rw [he]
  exact ⟨hclosed, rfl, hdrain, hnone, congrArg (· + 1) hscheduled⟩

/-- `close()` and a parked `close()` that goes on deliver at once. -/
theorem teardown_inv (hclosed : s.closed = true) (hdrain : s.closeWhenDrained = false)
    (hscheduled : s.scheduled = 0) (halive : s.ioG = false → s.io = .gone)
    (hnotify : ∀ r, s.io ≠ .notifyDrain r) (heof : s.io ≠ .eofClosing) : Inv (s.teardown true) := by
  have hdone := teardown_done hclosed hdrain hscheduled
  refine ⟨.done hdone, ?_, fun hd => absurd (hdone.drain.symm.trans hd) (by rintro ⟨⟩)⟩
  refine IoOk.of_stopIo (s := { s with stopping := true, closing := none }) rfl ?_ hdone.closed
    hdone.drain halive (fun _ => hnotify) fun he => absurd he heof
  obtain ⟨io, closing, he, -⟩ := stopIo_eq { s with stopping := true, closing := none }
  unfold State.teardown
  rw [he]
  rfl

/-- Something is queued, wherever the io fiber has still to drain it. -/
theorem Inv.buf (hi : Inv s) (hd : s.closeWhenDrained = true) (hresume : ∀ r, s.io ≠ .resumeCb r)
    (hnotify : ∀ r, s.io ≠ .notifyDrain r) : 0 < s.writeBuf := by
  rcases hi.queued hd with hbuf | ⟨r, hr⟩ | ⟨r, hr⟩
  · exact hbuf
  · exact absurd hr (hresume r)
  · exact absurd hr (hnotify r)

/-- A kick that does not end the io fiber. -/
theorem kickIo_inv (hi : Inv s) (hok : (s.parkedInTls && !s.stopping && s.ioG) = false) :
    Inv s.kickIo := by
  unfold State.kickIo
  split
  case isTrue => exact hi
  case isFalse hst =>
    split
    case isTrue hg =>
      have hp : s.parkedInTls = false := by simpa [hst, hg] using hok
      unfold State.cancelWaitFd
      split
      case h_1 r w hw =>
        refine ⟨hi.staged.congr rfl rfl rfl rfl rfl rfl rfl,
          ⟨by rintro ⟨⟩, ?_, fun _ => ⟨by rintro ⟨⟩, by rintro _ ⟨⟩⟩, by rintro _ ⟨⟩, by rintro ⟨⟩⟩, ?_⟩
        · exact fun hf => absurd (hg.symm.trans hf) (by rintro ⟨⟩)
        · exact fun hd => .inl (hi.buf hd (by rw [hw]; rintro _ ⟨⟩) (by rw [hw]; rintro _ ⟨⟩))
      case h_2 =>
        rw [hp]
        exact hi
    case isFalse hg =>
      have hgone := hi.io.alive (by simpa using hg)
      have hd : s.closeWhenDrained = false := by
        by_contra hd
        exact (hi.io.drains (by simpa using hd)).1 hgone
      refine ⟨hi.staged.congr rfl rfl rfl rfl rfl rfl rfl,
        ⟨by rintro ⟨⟩, by rintro ⟨⟩, fun _ => ⟨by rintro ⟨⟩, by rintro _ ⟨⟩⟩, by rintro _ ⟨⟩, by rintro ⟨⟩⟩, ?_⟩
      exact fun hd' => absurd (hd.symm.trans hd') (by rintro ⟨⟩)

/-- `close()` with output queued: the io fiber will drain it. -/
theorem close_drains (hi : Inv s) (ho : Opened s) (hbuf : 0 < s.writeBuf)
    (hok : (s.parkedInTls && s.ioG) = false) :
    Inv (State.kickIo { s with closed := true, connLostCalled := true, closeDeliverCl := true
                               closeWhenDrained := true }) := by
  have hnotify : ∀ r, s.io ≠ .notifyDrain r := fun r hr =>
    absurd (ho.drain.symm.trans (hi.io.notify r hr)) (by rintro ⟨⟩)
  have heof : s.io ≠ .eofClosing := fun he =>
    absurd ((held_of_none ho.closing).symm.trans (hi.io.closing he)) (by rintro ⟨⟩)
  have hdraining : Draining { s with closed := true, connLostCalled := true, closeDeliverCl := true
                                     closeWhenDrained := true } :=
    ⟨rfl, ho.stopping, rfl, ho.closing, ho.scheduled, rfl⟩
  unfold State.kickIo
  rw [if_neg (by simp [ho.stopping])]
  split
  case isTrue hg =>
    have hg : s.ioG = true := hg
    have hp : s.parkedInTls = false := by simpa [hg] using hok
    have hgone : s.io ≠ .gone := fun he => absurd (ho.closed.symm.trans (hi.io.stale he hg)) (by rintro ⟨⟩)
    unfold State.cancelWaitFd
    split
    case h_1 =>
      exact ⟨Staged.congr (.draining hdraining) rfl rfl rfl rfl rfl rfl rfl,
        ⟨by rintro ⟨⟩, fun hf => absurd (hg.symm.trans hf) (by rintro ⟨⟩), fun _ => ⟨by rintro ⟨⟩, by rintro _ ⟨⟩⟩, by rintro _ ⟨⟩, by rintro ⟨⟩⟩,
        fun _ => .inl hbuf⟩
    case h_2 hw =>
      rw [if_neg (by simpa [State.parkedInTls] using hp)]
      exact ⟨.draining hdraining,
        ⟨fun he => absurd he hgone, fun hf => absurd (hg.symm.trans hf) (by rintro ⟨⟩),
          fun _ => ⟨hgone, fun r hr => hw r false hr⟩, fun r hr => absurd hr (hnotify r),
          fun he => absurd he heof⟩, fun _ => .inl hbuf⟩
  case isFalse =>
    exact ⟨Staged.congr (.draining hdraining) rfl rfl rfl rfl rfl rfl rfl,
      ⟨by rintro ⟨⟩, by rintro ⟨⟩, fun _ => ⟨by rintro ⟨⟩, by rintro _ ⟨⟩⟩, by rintro _ ⟨⟩, by rintro ⟨⟩⟩, fun _ => .inl hbuf⟩

variable {parks r : Bool} {v : RecvRes}

theorem close_inv {exc inIo : Bool} (hi : Inv s)
    (hok : exc = false → s.closed = false → 0 < s.writeBuf → (s.parkedInTls && s.ioG) = false) :
    Inv (s.close exc inIo parks) := by
  unfold State.close
  split
  case isTrue => exact hi
  case isFalse hc =>
    have ho := hi.staged.opened_of (by simpa using hc)
    have hnotify : ∀ r, s.io ≠ .notifyDrain r := fun r hr =>
      absurd (ho.drain.symm.trans (hi.io.notify r hr)) (by rintro ⟨⟩)
    have heof : s.io ≠ .eofClosing := fun he =>
      absurd ((held_of_none ho.closing).symm.trans (hi.io.closing he)) (by rintro ⟨⟩)
    simp only [ho.called, Bool.not_false]
    split
    case isTrue hb =>
      simp only [Bool.and_eq_true, decide_eq_true_eq, Bool.not_eq_true'] at hb
      exact close_drains hi ho hb.2 (hok hb.1 ho.closed hb.2)
    case isFalse =>
      split
      case isTrue =>
        split
        case isTrue =>
          have hnot : s.closeWhenDrained ≠ true := by rw [ho.drain]; rintro ⟨⟩
          exact ⟨.notifying ⟨rfl, ho.drain, ⟨_, rfl, rfl⟩, ho.scheduled, ho.deliver⟩,
            ⟨fun _ _ => rfl, hi.io.alive, fun hd => absurd hd hnot,
              fun r hr => absurd hr (hnotify r), fun he => absurd he heof⟩,
            fun hd => absurd hd hnot⟩
        case isFalse =>
          exact teardown_inv rfl ho.drain ho.scheduled hi.io.alive hnotify heof
      case isFalse => exact teardown_inv rfl ho.drain ho.scheduled hi.io.alive hnotify heof

/-- `close(exc)` tears down at once, or finds the transport closed. -/
theorem close_exc (inIo : Bool) (hi : Inv s) (hd : s.closeWhenDrained = false) :
    (s.close true inIo false).closed = true ∧ (s.close true inIo false).closeWhenDrained = false := by
  unfold State.close
  split
  case isTrue hc => exact ⟨hc, hd⟩
  case isFalse hc =>
    have ho := hi.staged.opened_of (by simpa using hc)
    simp only [ho.called, Bool.not_true, Bool.false_and, Bool.not_false]
    have hdone := teardown_done (s := { s with closed := true, connLostCalled := true }) rfl ho.drain
      ho.scheduled
    exact ⟨hdone.closed, hdone.drain⟩

/-- The io fiber goes on to another place. -/
theorem Inv.goto (hi : Inv s) (hg : s.ioG = true) {io : Io} {readied : Bool} (hgone : io ≠ .gone)
    (hwait : ∀ r, io ≠ .waiting r false) (hnotify : ∀ r, io ≠ .notifyDrain r)
    (heof : io ≠ .eofClosing) (hbuf : s.closeWhenDrained = true → 0 < s.writeBuf) :
    Inv { s with io := io, readied := readied } := by
  exact ⟨hi.staged.congr rfl rfl rfl rfl rfl rfl rfl,
    ⟨fun he => absurd he hgone, fun hf => absurd (hg.symm.trans hf) (by rintro ⟨⟩),
      fun _ => ⟨hgone, hwait⟩, fun r hr => absurd hr (hnotify r), fun he => absurd he heof⟩,
    fun hd => .inl (hbuf hd)⟩

/-- The io fiber ends. -/
theorem Inv.exit (hi : Inv s) (hd : s.closeWhenDrained = false) {ioG : Bool}
    (hclosed : ioG = true → s.closed = true) : Inv { s with io := .gone, ioG := ioG } := by
  have hnot : s.closeWhenDrained ≠ true := by rw [hd]; rintro ⟨⟩
  exact ⟨hi.staged.congr rfl rfl rfl rfl rfl rfl rfl,
    ⟨fun _ => hclosed, fun _ => rfl, fun hd => absurd hd hnot, by rintro _ ⟨⟩, by rintro ⟨⟩⟩,
    fun hd => absurd hd hnot⟩

theorem recvStep_inv (hi : Inv s) (hg : s.ioG = true)
    (hbuf : s.closeWhenDrained = true → 0 < s.writeBuf)
    (herr : v = .error → s.closeWhenDrained = false) : Inv (s.recvStep v) := by
  cases v with
  | error =>
    obtain ⟨hclosed, hdrain⟩ := close_exc true hi (herr rfl)
    have hc : Inv (s.close true true false) := close_inv hi (by rintro ⟨⟩)
    exact hc.exit hdrain fun _ => hclosed
  | blocked => exact hi.goto hg (by rintro ⟨⟩) (by rintro _ ⟨⟩) (by rintro _ ⟨⟩) (by rintro ⟨⟩) hbuf
  | data => exact hi.goto hg (by rintro ⟨⟩) (by rintro _ ⟨⟩) (by rintro _ ⟨⟩) (by rintro ⟨⟩) hbuf
  | eof => exact hi.goto hg (by rintro ⟨⟩) (by rintro _ ⟨⟩) (by rintro _ ⟨⟩) (by rintro ⟨⟩) hbuf
  | getBuffer => exact hi.goto hg (by rintro ⟨⟩) (by rintro _ ⟨⟩) (by rintro _ ⟨⟩) (by rintro ⟨⟩) hbuf
  | parks => exact hi.goto hg (by rintro ⟨⟩) (by rintro _ ⟨⟩) (by rintro _ ⟨⟩) (by rintro ⟨⟩) hbuf

theorem recvPhase_inv (hi : Inv s) (hg : s.ioG = true)
    (hbuf : s.closeWhenDrained = true → 0 < s.writeBuf)
    (herr : (r && v == .error) = true → s.closeWhenDrained = false) : Inv (s.recvPhase r v) := by
  unfold State.recvPhase
  split
  case isTrue h =>
    have hr : r = true := by
      simp only [Bool.and_eq_true] at h
      exact h.1.1.1
    exact recvStep_inv hi hg hbuf fun hv => herr (by rw [hr, hv]; rfl)
  case isFalse => exact hi.goto hg (by rintro ⟨⟩) (by rintro _ ⟨⟩) (by rintro _ ⟨⟩) (by rintro ⟨⟩) hbuf

theorem finishDrain_inv (hst : Staged s) (hd : s.closeWhenDrained = true) (hg : s.ioG = true) :
    Inv { s.finishDrain with io := .yielding } := by
  have h := hst.draining_of hd
  have hdone : Done { s.finishDrain with io := .yielding } := by
    refine ⟨h.closed, rfl, rfl, h.closing, ?_⟩
    simp [State.finishDrain, State.deliver, h.scheduled, h.deliver]
  exact ⟨.done hdone,
    ⟨by rintro ⟨⟩, fun hf => absurd (hg.symm.trans hf) (by rintro ⟨⟩), by rintro ⟨⟩, by rintro _ ⟨⟩, by rintro ⟨⟩⟩, by rintro ⟨⟩⟩

theorem flushEof_eq (s : State) : ∃ eofPending eofWritten,
    s.flushEof = { s with eofPending := eofPending, eofWritten := eofWritten } := by
  unfold State.flushEof
  split
  · exact ⟨_, _, rfl⟩
  · exact ⟨s.eofPending, s.eofWritten, rfl⟩

/-- A torn down transport serves nothing more in its round. -/
theorem recvPhase_stopping (hs : s.stopping = true) :
    s.recvPhase r v = { s with io := .yielding } := by
  simp [State.recvPhase, hs]

theorem drained_inv (hst : Staged s) (hio : IoOk s)
    (hg : s.ioG = true) (herr : (r && v == .error) = true → s.closeWhenDrained = false) :
    Inv (s.drained r v parks) := by
  unfold State.drained
  split
  case isTrue hb => exact recvPhase_inv ⟨hst, hio, fun _ => .inl hb⟩ hg (fun _ => hb) herr
  case isFalse =>
    obtain ⟨eofPending, eofWritten, he⟩ := flushEof_eq s
    simp only [he]
    split
    case isTrue hd =>
      simp only [Bool.and_eq_true, Bool.not_eq_true'] at hd
      split
      case isTrue =>
        exact ⟨hst.congr rfl rfl rfl rfl rfl rfl rfl,
          ⟨by rintro ⟨⟩, fun hf => absurd (hg.symm.trans hf) (by rintro ⟨⟩), fun _ => ⟨by rintro ⟨⟩, by rintro _ ⟨⟩⟩,
            fun _ _ => hd.1, by rintro ⟨⟩⟩, fun _ => .inr (.inr ⟨r, rfl⟩)⟩
      case isFalse =>
        rw [recvPhase_stopping rfl]
        refine finishDrain_inv ?_ hd.1 hg
        exact hst.congr rfl rfl rfl rfl rfl rfl rfl
    case isFalse hd =>
      -- a close that drains is not stopping
      have hnot : s.closeWhenDrained ≠ true := by
        intro hx
        simp [hx, (hst.draining_of hx).stopping] at hd
      refine recvPhase_inv ⟨hst.congr rfl rfl rfl rfl rfl rfl rfl, ?_, fun hx => absurd hx hnot⟩ hg
        (fun hx => absurd hx hnot) fun _ => by simpa using hnot
      exact ⟨hio.stale, hio.alive, hio.drains, hio.notify, hio.closing⟩

theorem drain_inv {d : SendRes} (hi : Inv s) (hg : s.ioG = true)
    (hbuf : s.closeWhenDrained = true → 0 < s.writeBuf)
    (herr : (r && v == .error) = true → s.closeWhenDrained = false) :
    Inv (s.drain r d v parks) := by
  cases d with
  | blocked => exact recvPhase_inv hi hg hbuf herr
  | error =>
    simp only [State.drain]
    split
    case isTrue hd =>
      rw [recvPhase_stopping rfl]
      exact finishDrain_inv hi.staged hd hg
    case isFalse hd =>
      obtain ⟨-, hdrain⟩ := close_exc true hi (by simpa using hd)
      have hc : Inv (s.close true true false) := close_inv hi (by rintro ⟨⟩)
      have hcg : (s.close true true false).ioG = true := by
        unfold State.close
        split
        case isTrue => exact hg
        case isFalse =>
          simp only [Bool.not_true, Bool.false_and]
          obtain ⟨io, closing, he, -⟩ := stopIo_eq { s with
            closed := true, connLostCalled := true, stopping := true, closing := none }
          simp only [State.teardown, he]
          exact hg
      refine recvPhase_inv hc hcg ?_ fun _ => hdrain
      exact fun hx => absurd (hdrain.symm.trans hx) (by rintro ⟨⟩)
  | sent n =>
    have hst : Staged { s with writeBuf := s.writeBuf - n } :=
      hi.staged.congr rfl rfl rfl rfl rfl rfl rfl
    have hok : IoOk { s with writeBuf := s.writeBuf - n } :=
      ⟨hi.io.stale, hi.io.alive, hi.io.drains, hi.io.notify, hi.io.closing⟩
    simp only [State.drain]
    split
    case isTrue =>
      exact ⟨hst.congr rfl rfl rfl rfl rfl rfl rfl,
        ⟨by rintro ⟨⟩, fun hf => absurd (hg.symm.trans hf) (by rintro ⟨⟩), fun _ => ⟨by rintro ⟨⟩, by rintro _ ⟨⟩⟩, by rintro _ ⟨⟩, by rintro ⟨⟩⟩,
        fun _ => .inr (.inl ⟨r, rfl⟩)⟩
    case isFalse => exact drained_inv hst hok hg herr
  | parks => exact hi.goto hg (by rintro ⟨⟩) (by rintro _ ⟨⟩) (by rintro _ ⟨⟩) (by rintro ⟨⟩) hbuf

theorem await_inv {ahead : Option RecvRes} (hi : Inv s) (hg : s.ioG = true)
    (hbuf : s.closeWhenDrained = true → 0 < s.writeBuf) : Inv (s.await ahead) := by
  have hwait : ∀ r, Inv { s with io := .waiting r (decide (0 < s.writeBuf)) } := by
    intro r
    refine ⟨hi.staged.congr rfl rfl rfl rfl rfl rfl rfl,
      ⟨by rintro ⟨⟩, fun hf => absurd (hg.symm.trans hf) (by rintro ⟨⟩), ?_, by rintro _ ⟨⟩, by rintro ⟨⟩⟩,
      fun hd => .inl (hbuf hd)⟩
    intro hd
    have hw : decide (0 < s.writeBuf) = true := decide_eq_true (hbuf hd)
    rw [hw]
    exact ⟨by rintro ⟨⟩, by rintro _ ⟨⟩⟩
  unfold State.await
  dsimp only
  split
  case isTrue hmask =>
    have hempty : ¬ 0 < s.writeBuf := by
      simp only [Bool.and_eq_true, Bool.not_eq_true', decide_eq_false_iff_not] at hmask
      exact hmask.2
    have hd : s.closeWhenDrained = false := by
      by_contra hd
      exact hempty (hbuf (by simpa using hd))
    exact hi.exit hd (by rintro ⟨⟩)
  case isFalse =>
    split
    case h_1 v =>
      split
      case isTrue hr =>
        -- a transport that reads is not closed
        have hc : s.closed = false := by
          simp only [Bool.and_eq_true, Bool.not_eq_true'] at hr
          exact hr.1.2
        have ht : Inv { s with ahead := true } := hi.aside _ _ _ _ _ _ _ _ _ _
        exact recvStep_inv ht hg hbuf fun _ => (hi.staged.opened_of hc).drain
      case isFalse => exact hwait _
    case h_2 => exact hwait _

theorem top_inv {ahead : Option RecvRes} (hi : Inv s) (hg : s.ioG = true)
    (hbuf : s.closeWhenDrained = true → 0 < s.writeBuf) : Inv (s.top parks ahead) := by
  unfold State.top
  split
  case isTrue hs =>
    have hd : s.closeWhenDrained = false := by
      by_contra hd
      have h := hi.staged.draining_of (by simpa using hd)
      exact absurd (h.stopping.symm.trans hs) (by rintro ⟨⟩)
    exact hi.exit hd (by rintro ⟨⟩)
  case isFalse =>
    have ht : Inv { s with tlsShutdownSent := true } := hi.aside _ _ _ _ _ _ _ _ _ _
    split
    case isTrue =>
      split
      case isTrue => exact ht.goto hg (by rintro ⟨⟩) (by rintro _ ⟨⟩) (by rintro _ ⟨⟩) (by rintro ⟨⟩) hbuf
      case isFalse => exact await_inv ht hg hbuf
    case isFalse => exact await_inv hi hg hbuf

theorem kickIo_eq (s : State) (hg : s.ioG = true) : ∃ io closing,
    s.kickIo = { s with io := io, closing := closing } := by
  unfold State.kickIo
  split
  · exact ⟨s.io, s.closing, rfl⟩
  · obtain ⟨io, closing, he, -⟩ := cancelWaitFd_eq s
    exact ⟨io, closing, he⟩

/-- What a `close()` leaves behind. -/
theorem close_frame (exc inIo parks : Bool) (hg : s.ioG = true) :
    (s.close exc inIo parks).closed = true ∧ (s.close exc inIo parks).ioG = true ∧
      (s.close exc inIo parks).writeBuf = s.writeBuf ∧
      ((s.close exc inIo parks).closeWhenDrained = true →
        s.closeWhenDrained = true ∨ 0 < s.writeBuf) := by
  unfold State.close
  split
  case isTrue hc => exact ⟨hc, hg, rfl, .inl⟩
  case isFalse =>
    dsimp only
    split
    case isTrue hb =>
      obtain ⟨io, closing, he⟩ := kickIo_eq { s with
        closed := true, connLostCalled := true, closeDeliverCl := !s.connLostCalled
        closeWhenDrained := true } hg
      simp only [Bool.and_eq_true, decide_eq_true_eq] at hb
      rw [he]
      exact ⟨rfl, hg, rfl, fun _ => .inr hb.2⟩
    case isFalse =>
      split
      case isTrue =>
        split
        case isTrue => exact ⟨rfl, hg, rfl, .inl⟩
        case isFalse =>
          obtain ⟨io, closing, he, -⟩ := stopIo_eq { s with
            closed := true, connLostCalled := true, tlsShutdownSent := true
            stopping := true, closing := none }
          simp only [State.teardown, he]
          exact ⟨rfl, hg, rfl, .inl⟩
      case isFalse =>
        obtain ⟨io, closing, he, -⟩ := stopIo_eq { s with
          closed := true, connLostCalled := true, stopping := true, closing := none }
        simp only [State.teardown, he]
        exact ⟨rfl, hg, rfl, .inl⟩

theorem Inv.ioG (hi : Inv s) (hio : s.io ≠ .gone) : s.ioG = true := by
  by_contra hg
  exact hio (hi.io.alive (by simpa using hg))

/-- Only a `close()` that parks leaves one in the io fiber. -/
theorem handleEof_inv {keep : Bool} (hi : Inv s) (hio : s.io = .eofCb)
    (hheld : s.held = false) : Inv (s.handleEof keep parks) := by
  have hg : s.ioG = true := hi.ioG (by rw [hio]; rintro ⟨⟩)
  have hbuf : s.closeWhenDrained = true → 0 < s.writeBuf := fun hd =>
    hi.buf hd (by rw [hio]; rintro _ ⟨⟩) (by rw [hio]; rintro _ ⟨⟩)
  have hpark : s.parkedInTls = false := by
    have hany : s.closing.any Closer.inIo = false := hheld
    simp [State.parkedInTls, hio, Io.inTls, hany]
  have hc : Inv (s.close false true parks) := close_inv hi fun _ _ _ => by simp [hpark]
  unfold State.handleEof
  split
  case isTrue =>
    have ht : Inv { s with readEof := true } := hi.aside _ _ _ _ _ _ _ _ _ _
    exact ht.goto hg (by rintro ⟨⟩) (by rintro _ ⟨⟩) (by rintro _ ⟨⟩) (by rintro ⟨⟩) hbuf
  case isFalse =>
    obtain ⟨hclosed, hcg, hwb, hdrain⟩ := close_frame false true parks hg
    have hcbuf : (s.close false true parks).closeWhenDrained = true →
        0 < (s.close false true parks).writeBuf := by
      intro hd
      rw [hwb]
      exact (hdrain hd).elim hbuf id
    dsimp only
    split
    case isTrue hany =>
      obtain ⟨c, hcl⟩ : ∃ c, (s.close false true parks).closing = some c := by
        cases hcl : (s.close false true parks).closing with
        | none => simp [hcl] at hany
        | some c => exact ⟨c, rfl⟩
      have hn := hc.staged.notifying_of hcl
      have hnot : (s.close false true parks).closeWhenDrained ≠ true := by
        rw [hn.drain]
        rintro ⟨⟩
      exact ⟨hc.staged.congr rfl rfl rfl rfl rfl rfl rfl,
        ⟨by rintro ⟨⟩, fun hf => absurd (hcg.symm.trans hf) (by rintro ⟨⟩), fun hd => absurd hd hnot, by rintro _ ⟨⟩,
          fun _ => hany⟩, fun hd => absurd hd hnot⟩
    case isFalse =>
      split
      case isTrue => exact hc.goto hcg (by rintro ⟨⟩) (by rintro _ ⟨⟩) (by rintro _ ⟨⟩) (by rintro ⟨⟩) hcbuf
      case isFalse hd => exact hc.exit (by simpa using hd) fun _ => hclosed

theorem cbReturn_inv {raised keep : Bool} (hi : Inv s)
    (hok : amiss s (.cbReturn raised keep v parks) = false) (hheld : s.held = false)
    (hs : s.cbReturn raised keep v parks = some t) : Inv t := by
  have hfail : s.closeWhenDrained = false → Inv { s.close true true false with io := .gone } := by
    intro hd
    obtain ⟨hclosed, hdrain⟩ := close_exc true hi hd
    have hc : Inv (s.close true true false) := close_inv hi (by rintro ⟨⟩)
    exact hc.exit hdrain fun _ => hclosed
  unfold State.cbReturn at hs
  split at hs
  case h_1 hio =>
    have hbuf : s.closeWhenDrained = true → 0 < s.writeBuf := fun hd =>
      hi.buf hd (by rw [hio]; rintro _ ⟨⟩) (by rw [hio]; rintro _ ⟨⟩)
    have hok : (s.closeWhenDrained && (raised || v == .error)) = false := by
      simpa [amiss, hio] using hok
    split at hs <;> cases hs
    case isTrue hr => exact hfail (by simpa [hr] using hok)
    case isFalse hr =>
      refine recvStep_inv hi (hi.ioG (by rw [hio]; rintro ⟨⟩)) hbuf fun hv => ?_
      simpa [hv] using hok
  case h_2 hio =>
    have hbuf : s.closeWhenDrained = true → 0 < s.writeBuf := fun hd =>
      hi.buf hd (by rw [hio]; rintro _ ⟨⟩) (by rw [hio]; rintro _ ⟨⟩)
    have hok : (s.closeWhenDrained && raised) = false := by simpa [amiss, hio] using hok
    split at hs <;> cases hs
    case isTrue hr => exact hfail (by simpa [hr] using hok)
    case isFalse =>
      exact hi.goto (hi.ioG (by rw [hio]; rintro ⟨⟩)) (by rintro ⟨⟩) (by rintro _ ⟨⟩) (by rintro _ ⟨⟩) (by rintro ⟨⟩) hbuf
  case h_3 hio =>
    cases hs
    exact handleEof_inv hi hio hheld
  case h_4 r hio =>
    cases hs
    have hok : (s.closeWhenDrained && v == .error) = false := by simpa [amiss, hio] using hok
    refine drained_inv hi.staged hi.io (hi.ioG (by rw [hio]; rintro ⟨⟩)) fun hv => ?_
    have hv : (v == .error) = true := by
      simp only [Bool.and_eq_true] at hv
      exact hv.2
    simpa [hv] using hok
  case h_5 => cases hs

theorem notified_inv {ahead : Option RecvRes} (hi : Inv s)
    (hs : s.notified v ahead = some t) : Inv t := by
  unfold State.notified at hs
  split at hs <;> cases hs
  case h_1 hio =>
    exact await_inv hi (hi.ioG (by rw [hio]; rintro ⟨⟩)) fun hd =>
      hi.buf hd (by rw [hio]; rintro _ ⟨⟩) (by rw [hio]; rintro _ ⟨⟩)
  case h_2 r hio =>
    rw [recvPhase_stopping rfl]
    exact finishDrain_inv hi.staged (hi.io.notify r hio) (hi.ioG (by rw [hio]; rintro ⟨⟩))

theorem resumeClose_inv {c : Closer} (hi : Inv s) (hc : s.closing = some c) :
    Inv (s.resumeClose c) := by
  have hn := hi.staged.notifying_of hc
  obtain ⟨c', hc', hdel⟩ := hn.closing
  rw [hc] at hc'
  cases hc'
  have hnotify : ∀ r, s.io ≠ .notifyDrain r := fun r hr =>
    absurd (hn.drain.symm.trans (hi.io.notify r hr)) (by rintro ⟨⟩)
  have hdone := teardown_done hn.closed hn.drain hn.scheduled
  unfold State.resumeClose
  rw [hdel]
  dsimp only
  split
  case h_1 =>
    have hgone : (if (s.teardown true).closeWhenDrained = true then Io.yielding else .gone) = .gone :=
      if_neg (by rw [hdone.drain]; rintro ⟨⟩)
    rw [hgone]
    exact ⟨Staged.congr (.done hdone) rfl rfl rfl rfl rfl rfl rfl,
      ⟨fun _ _ => hdone.closed, fun _ => rfl, fun hd => absurd (hdone.drain.symm.trans hd) (by rintro ⟨⟩),
        nofun, nofun⟩, fun hd => absurd (hdone.drain.symm.trans hd) nofun⟩
  case h_2 heof => exact teardown_inv hn.closed hn.drain hn.scheduled hi.io.alive hnotify heof

/-- `abort()` takes the delivery of a close that drains over from the io fiber. -/
theorem abort_draining (hi : Inv s) (h : Draining s)
    (hnote : (match s.io with | .notifyDrain _ => s.readied | _ => false) = false) :
    Inv ((State.stopIo { s with writeBuf := 0, closeWhenDrained := false
                                stopping := true }).deliver s.closeDeliverCl) := by
  obtain ⟨io, closing, he, hkeep, -⟩ := stopIo_eq { s with
    writeBuf := 0, closeWhenDrained := false, stopping := true }
  have hnone : closing = none := (hkeep (held_of_none h.closing)).trans h.closing
  have hdone : Done ((State.stopIo { s with writeBuf := 0, closeWhenDrained := false
                                            stopping := true }).deliver s.closeDeliverCl) := by
    rw [he, h.deliver]
    exact ⟨h.closed, rfl, rfl, hnone, congrArg (· + 1) h.scheduled⟩
  refine ⟨.done hdone, ?_, fun hd => absurd (hdone.drain.symm.trans hd) (by rintro ⟨⟩)⟩
  refine IoOk.of_stopIo (s := { s with writeBuf := 0, closeWhenDrained := false, stopping := true })
    rfl ?_ hdone.closed hdone.drain hi.io.alive ?_ ?_
  · rw [he]
    rfl
  · -- the flush of its close_notify was not over, so it is ended here
    intro hp r hr
    have hr : s.io = .notifyDrain r := hr
    simp only [hr] at hnote
    simp [State.parkedInTls, Io.inTls, hr, hnote] at hp
  · intro heof
    exact absurd ((held_of_none h.closing).symm.trans (hi.io.closing heof)) (by rintro ⟨⟩)

/-- `abort()` leaves the delivery to the `close()` that is parked. -/
theorem abort_notifying (hi : Inv s) (h : Notifying s) (hheld : (s.held && !s.readied) = false) :
    Inv ((State.stopIo { s with writeBuf := 0, closeWhenDrained := false
                                stopping := true }).deliver s.closeDeliverCl) := by
  obtain ⟨io, closing, he, hkeep, hpark⟩ := stopIo_eq { s with
    writeBuf := 0, closeWhenDrained := false, stopping := true }
  have hsame : closing = s.closing := by
    cases hh : s.held with
    | false => exact hkeep hh
    | true =>
      have hr : s.readied = true := by simpa [hh] using hheld
      exact hpark (by simp [State.parkedInTls, hr])
  rw [he, h.deliver, hsame]
  refine ⟨.notifying ⟨h.closed, rfl, h.closing, h.scheduled, rfl⟩, ?_, by rintro ⟨⟩⟩
  refine IoOk.of_stopIo (s := { s with writeBuf := 0, closeWhenDrained := false, stopping := true })
    ?_ rfl h.closed rfl hi.io.alive ?_ hi.io.closing
  · rw [he]
    rfl
  · exact fun _ r hr => absurd (h.drain.symm.trans (hi.io.notify r hr)) (by rintro ⟨⟩)

theorem abort_inv {inIo : Bool} (hi : Inv s) (hok : amiss s (.abort inIo parks) = false) :
    Inv (s.abort inIo parks) := by
  unfold State.abort
  dsimp only
  split
  case isTrue hc =>
    have ho := hi.staged.opened_of (by simpa using hc)
    have hnot : s.closeWhenDrained ≠ true := by rw [ho.drain]; rintro ⟨⟩
    have ht : Inv { s with writeBuf := 0 } :=
      ⟨hi.staged.congr rfl rfl rfl rfl rfl rfl rfl,
        ⟨hi.io.stale, hi.io.alive, hi.io.drains, hi.io.notify, hi.io.closing⟩,
        fun hd => absurd hd hnot⟩
    exact close_inv ht fun _ _ hb => absurd hb (Nat.lt_irrefl 0)
  case isFalse hc =>
    have hclosed : s.closed = true := by simpa using hc
    split
    case isTrue hs =>
      have hnot : s.closeWhenDrained ≠ true := fun hd =>
        absurd ((hi.staged.draining_of hd).stopping.symm.trans hs) (by rintro ⟨⟩)
      exact ⟨hi.staged.congr rfl rfl rfl rfl rfl rfl rfl,
        ⟨hi.io.stale, hi.io.alive, hi.io.drains, hi.io.notify, hi.io.closing⟩,
        fun hd => absurd hd hnot⟩
    case isFalse hs =>
      obtain ⟨hheld, hnote⟩ : (s.held && !s.readied) = false ∧
          (match s.io with | .notifyDrain _ => s.readied | _ => false) = false := by
        simpa [amiss, hclosed, hs] using hok
      cases hi.staged with
      | opened h => exact absurd (h.closed.symm.trans hclosed) (by rintro ⟨⟩)
      | done h => exact absurd h.stopping hs
      | draining h => exact abort_draining hi h hnote
      | notifying h => exact abort_notifying hi h hheld

theorem write_inv {k : ℕ} {r : SendRes} {inIo : Bool} (hi : Inv s) : Inv (s.write k r inIo) := by
  unfold State.write
  split
  case isTrue => exact hi
  case isFalse hopen =>
    have hc : s.closed = false := by
      simp only [Bool.or_eq_true, not_or, Bool.not_eq_true] at hopen
      exact hopen.1.2
    have ho := hi.staged.opened_of hc
    have hnot : s.closeWhenDrained ≠ true := by rw [ho.drain]; rintro ⟨⟩
    have hqueue : ∀ left, Inv { s with
        writeBuf := s.writeBuf + left, kicks := s.kicks + 1
        protocolPaused := s.protocolPaused || decide (highWater < s.writeBuf + left) } := fun left =>
      ⟨hi.staged.congr rfl rfl rfl rfl rfl rfl rfl,
        ⟨hi.io.stale, hi.io.alive, hi.io.drains, hi.io.notify, hi.io.closing⟩,
        fun hd => absurd hd hnot⟩
    dsimp only
    split
    case isTrue =>
      split
      case h_1 => exact close_inv hi (by rintro ⟨⟩)
      case h_2 n =>
        split
        case isTrue => exact hi
        case isFalse => exact hqueue (k - n)
      case h_3 => exact hqueue k
    case isFalse => exact hqueue k

theorem writeEof_inv (hi : Inv s) : Inv s.writeEof := by
  unfold State.writeEof
  split
  case isTrue => exact hi
  case isFalse =>
    split
    case isTrue => exact hi.aside _ _ _ _ _ _ _ _ _ _
    case isFalse => exact hi.aside _ _ _ _ _ _ _ _ _ _

/-- The wait is over: the io fiber goes on with its round. -/
theorem Inv.woken (hi : Inv s) {w : Bool} (hio : s.io = .waiting r w) :
    Inv { s with io := .yielding } ∧ s.ioG = true ∧ (s.closeWhenDrained = true → 0 < s.writeBuf) := by
  have hg : s.ioG = true := hi.ioG (by rw [hio]; rintro ⟨⟩)
  have hbuf : s.closeWhenDrained = true → 0 < s.writeBuf := fun hd =>
    hi.buf hd (by rw [hio]; rintro _ ⟨⟩) (by rw [hio]; rintro _ ⟨⟩)
  exact ⟨hi.goto hg (by rintro ⟨⟩) (by rintro _ ⟨⟩) (by rintro _ ⟨⟩) (by rintro ⟨⟩) hbuf, hg, hbuf⟩

/-- A fiber that is woken for the teardown ends. -/
theorem Inv.stopped (hi : Inv s) (hs : s.stopping = true) : Inv { s with io := .gone } := by
  have hd : s.closeWhenDrained = false := by
    by_contra hd
    exact absurd ((hi.staged.draining_of (by simpa using hd)).stopping.symm.trans hs) (by rintro ⟨⟩)
  have hclosed : s.closed = true := by
    by_contra hc
    exact absurd ((hi.staged.opened_of (by simpa using hc)).stopping.symm.trans hs) (by rintro ⟨⟩)
  exact hi.exit hd fun _ => hclosed

end Steps

variable {s : State}

theorem step_inv {t : State} {a : Action} (hi : Inv s) (hok : amiss s a = false)
    (hs : step s a = some t) : Inv t := by
  cases a with
  | construct =>
    simp only [step] at hs
    split at hs <;> cases hs
    split
    case isTrue => exact hi.aside _ _ _ _ _ _ _ _ _ _
    case isFalse hg =>
      have hgone := hi.io.alive (by simpa using hg)
      have hd : s.closeWhenDrained ≠ true := fun hd => (hi.io.drains hd).1 hgone
      exact ⟨hi.staged.congr rfl rfl rfl rfl rfl rfl rfl,
        ⟨by rintro ⟨⟩, by rintro ⟨⟩, fun _ => ⟨by rintro ⟨⟩, by rintro _ ⟨⟩⟩, by rintro _ ⟨⟩, by rintro ⟨⟩⟩, fun hx => absurd hx hd⟩
  | write k r inIo =>
    cases hs
    exact write_inv hi
  | kick =>
    simp only [step] at hs
    split at hs <;> cases hs
    case h_2 n _ =>
      have ht : Inv { s with kicks := n } := hi.aside _ _ _ _ _ _ _ _ _ _
      exact kickIo_inv ht hok
  | writeEof =>
    cases hs
    exact writeEof_inv hi
  | close inIo parks =>
    cases hs
    refine close_inv hi fun _ hc hb => ?_
    simpa [amiss, hc, hb] using hok
  | abort inIo parks =>
    cases hs
    exact abort_inv hi hok
  | pauseReading =>
    cases hs
    exact hi.aside _ _ _ _ _ _ _ _ _ _
  | resumeReading =>
    cases hs
    unfold State.resumeReading
    split
    case isTrue hp =>
      have ht : Inv { s with paused := false } := hi.aside _ _ _ _ _ _ _ _ _ _
      have hok : (s.parkedInTls && !s.stopping && s.ioG) = false := by simpa [amiss, hp] using hok
      exact kickIo_inv ht hok
    case isFalse => exact hi
  | run parks ahead =>
    simp only [step] at hs
    split at hs
    case h_1 hio =>
      split at hs <;> cases hs
      have ht : Inv { s with ahead := false } := hi.aside _ _ _ _ _ _ _ _ _ _
      exact top_inv ht (hi.ioG (by rw [hio]; rintro ⟨⟩)) fun hd =>
        hi.buf hd (by rw [hio]; rintro _ ⟨⟩) (by rw [hio]; rintro _ ⟨⟩)
    case h_2 => cases hs
  | again v =>
    simp only [step] at hs
    split at hs
    case h_1 hio =>
      split at hs <;> cases hs
      refine recvStep_inv hi (hi.ioG (by rw [hio]; rintro ⟨⟩)) ?_ fun hv => ?_
      · exact fun hd => hi.buf hd (by rw [hio]; rintro _ ⟨⟩) (by rw [hio]; rintro _ ⟨⟩)
      · simpa [amiss, hv] using hok
    case h_2 => cases hs
  | wake r w d v parks =>
    simp only [step] at hs
    split at hs
    case h_1 hio =>
      obtain ⟨ht, hg, hbuf⟩ := hi.woken hio
      have herr : (r && v == .error) = true → s.closeWhenDrained = false := by
        intro he
        simp only [Bool.and_eq_true] at he
        simpa [amiss, he] using hok
      split at hs
      case isTrue =>
        split at hs
        case isTrue hst =>
          cases hs
          exact hi.stopped hst
        case isFalse =>
          split at hs <;> cases hs
          case isTrue => exact drain_inv ht hg hbuf herr
          case isFalse => exact recvPhase_inv ht hg hbuf herr
      case isFalse => cases hs
    case h_2 => cases hs
  | waitError =>
    simp only [step] at hs
    split at hs <;> cases hs
    case h_1 hio =>
      split
      case isTrue hst => exact hi.stopped hst
      case isFalse => exact (hi.woken hio).1
  | tlsReady =>
    cases hs
    exact hi.aside _ _ _ _ _ _ _ _ _ _
  | sendDone d v parks =>
    simp only [step] at hs
    split at hs
    case h_1 r hio =>
      split at hs <;> cases hs
      have hg : s.ioG = true := hi.ioG (by rw [hio]; rintro ⟨⟩)
      have hbuf : s.closeWhenDrained = true → 0 < s.writeBuf := fun hd =>
        hi.buf hd (by rw [hio]; rintro _ ⟨⟩) (by rw [hio]; rintro _ ⟨⟩)
      have ht : Inv { s with io := .yielding } := hi.goto hg (by rintro ⟨⟩) (by rintro _ ⟨⟩) (by rintro _ ⟨⟩) (by rintro ⟨⟩) hbuf
      refine drain_inv ht hg hbuf fun he => ?_
      simp only [Bool.and_eq_true] at he
      simpa [amiss, he] using hok
    case h_2 => cases hs
  | recvDone v =>
    simp only [step] at hs
    split at hs
    case h_1 hio =>
      split at hs <;> cases hs
      refine recvStep_inv hi (hi.ioG (by rw [hio]; rintro ⟨⟩)) ?_ fun hv => ?_
      · exact fun hd => hi.buf hd (by rw [hio]; rintro _ ⟨⟩) (by rw [hio]; rintro _ ⟨⟩)
      · simpa [amiss, hv] using hok
    case h_2 => cases hs
  | notifyDone v ahead =>
    simp only [step] at hs
    split at hs
    case isTrue => exact notified_inv hi hs
    case isFalse => cases hs
  | closeDone =>
    simp only [step] at hs
    split at hs
    case h_1 c hc =>
      split at hs <;> cases hs
      exact resumeClose_inv hi hc
    case h_2 => cases hs
  | cbReturn raised keep v parks =>
    simp only [step] at hs
    split at hs
    case isTrue => cases hs
    case isFalse hh =>
      simp only [Bool.or_eq_true, not_or, Bool.not_eq_true] at hh
      exact cbReturn_inv hi hok hh.1 hs

theorem reachable_inv (hr : Reachable steady s) : Inv s := by
  refine Reachable.invariant ?_ ?_ hr
  · rintro s ⟨plain, rfl⟩
    exact inv_start plain
  · intro s a t _ hi hs
    obtain ⟨hok, hs⟩ := System.restrict_step.mp hs
    exact step_inv hi hok hs

theorem Inv.once (hi : Inv s) : s.scheduled ≤ 1 := by
  cases hi.staged with
  | opened h => simp [h.scheduled]
  | draining h => simp [h.scheduled]
  | notifying h => simp [h.scheduled]
  | done h => simp [h.scheduled]

theorem Inv.live (hi : Inv s) {accepts : Bool} (hq : s.Quiescent accepts)
    (hclosed : s.closed = true) (hsch : s.scheduled = 0) : accepts = false ∧ s.Buffered := by
  obtain ⟨-, hclosing, hio⟩ := hq
  cases hi.staged with
  | opened h => exact absurd (h.closed.symm.trans hclosed) (by rintro ⟨⟩)
  | done h => exact absurd (h.scheduled.symm.trans hsch) (by rintro ⟨⟩)
  | notifying h =>
    obtain ⟨c, hc, -⟩ := h.closing
    have hsome : s.closing.isSome = true := by rw [hc]; rfl
    exact ⟨hclosing hsome, .inr (.inr hsome)⟩
  | draining h =>
    obtain ⟨hgone, hwait⟩ := hi.io.drains h.drain
    rcases hio with hio | ⟨r, w, hio, hw⟩ | ⟨htls, -, hacc⟩
    · exact absurd hio hgone
    · -- it waits to write, so the socket takes nothing
      have hbuf := hi.buf h.drain (by rw [hio]; rintro _ ⟨⟩) (by rw [hio]; rintro _ ⟨⟩)
      cases w with
      | true => exact ⟨hw rfl, .inl hbuf⟩
      | false => exact absurd hio (hwait r)
    · exact ⟨hacc, .inr (.inl htls)⟩

/-- Over TLS a second `write` kicks the io fiber inside the send of the first: the fiber ends,
and a `close()` waits for it. -/
theorem kick_strands_close :
    ∃ s, Reachable system s ∧ s.Quiescent true ∧ s.closed = true ∧ s.scheduled = 0 ∧ ¬ Sound s := by
  have hr : Reachable system _ := reachable_of_run system
    [.construct, .write 9 .blocked false, .kick, .run false none,
      .wake false true .parks .blocked false, .write 9 .blocked false, .kick, .close false false]
    ⟨false, rfl⟩ rfl
  refine ⟨_, hr, ⟨rfl, by rintro ⟨⟩, .inl rfl⟩, rfl, rfl, fun h => ?_⟩
  exact absurd (h.live true ⟨rfl, by rintro ⟨⟩, .inl rfl⟩ rfl rfl).1 (by rintro ⟨⟩)

/-- `abort()` while the io fiber is about to go on from the close_notify of a drained close. -/
theorem abort_delivers_twice : ∃ s, Reachable system s ∧ s.scheduled = 2 ∧ ¬ Sound s := by
  have hr : Reachable system _ := reachable_of_run system
    [.construct, .write 9 .blocked false, .kick, .close false false, .run false none,
      .wake false true (.sent 9) .blocked true, .tlsReady, .abort false false,
      .notifyDone .blocked none] ⟨false, rfl⟩ rfl
  exact ⟨_, hr, rfl, fun h => absurd h.once (by decide)⟩

end Stackweave.Aio.StreamTransport
