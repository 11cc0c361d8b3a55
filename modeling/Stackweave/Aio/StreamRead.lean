import Mathlib.Data.List.Basic
import Mathlib.Tactic.Common
import Stackweave.Aio.StreamTransport

/-!
# What `_StreamTransport` reads (`aio/transport_stream_io.py`)

The transport of `StreamTransport` with the bytes that its io fiber hands to the protocol.
`kernel` are the bytes of the peer in the socket's buffer and `tls` those that the TLS object
holds (`pending()`); a plain socket has no `tls`. Two moments are told apart here: netpoll ends
the wait of the io fiber before the fiber runs again, and the read-ahead of `_io_loop` goes from
one receive to the next without a yield.
-/

namespace Stackweave.Aio.StreamRead

open Transition
open StreamTransport (Io SendRes RecvRes)

/-- What the protocol sees of the read side. -/
inductive Event (B : Type)
  | pause
  | resume
  | close
  /-- `data_received`, or `buffer_updated` with the chunk in the buffer -/
  | data (chunk : List B)
  deriving DecidableEq

/-- `ready` is what the wait of the io fiber ended with, until the fiber goes on. `going` says
that the read-ahead is about to receive again. `fin` is the end of the peer's data. The `log`
has the newest event first. -/
structure State (B : Type) where
  transport : StreamTransport.State
  ready : Option (Bool × Bool)
  going : Bool
  tls : List B
  kernel : List B
  arrived : List B
  fin : Bool
  log : List (Event B)

variable {B : Type}

/-- The TLS object may hold bytes that came with the handshake. -/
def start (plain : Bool) (tls : List B) : State B :=
  { transport := StreamTransport.start plain, ready := none, going := false, tls := tls
    kernel := [], arrived := tls, fin := false, log := [] }

inductive Action (B : Type)
  | arrive (chunk : List B)
  | finish
  /-- a TLS send that wants to read first feeds the incoming BIO -/
  | feed (k : ℕ)
  /-- netpoll ends the wait -/
  | ready (r w : Bool)
  /-- the io fiber goes on from its wait -/
  | resume (d : SendRes) (v : RecvRes) (parks : Bool) (pull n : ℕ)
  /-- any other step of the transport; `more` says that the read-ahead goes on after it -/
  | act (a : StreamTransport.Action) (pull n : ℕ) (more : Bool)

/-- A receive that yields `n` bytes. Over TLS `pull` bytes are fed from the socket first, but
only into a TLS object that holds none. -/
def State.receive (s : State B) (pull n : ℕ) : Option (State B) :=
  let held := s.tls ++ s.kernel.take pull
  if 0 < n ∧ n ≤ held.length ∧ (s.tls.isEmpty || pull == 0) = true ∧
      (!s.transport.plain || pull == n) = true then
    some { s with tls := held.drop n, kernel := s.kernel.drop pull
                  log := .data (held.take n) :: s.log }
  else none

/-- The io fiber enters `io` in this step. -/
def enters (s t : StreamTransport.State) (io : Io) : Bool :=
  t.io == io && s.io != io

/-- The transport comes to `t`, with the bytes that this takes. The end of the data is seen after
the data, except on a socket that is closed. -/
def State.settle (s : State B) (t : StreamTransport.State) (pull n : ℕ) : Option (State B) :=
  let u := { s with transport := t
                    log := if t.closed && !s.transport.closed then .close :: s.log else s.log }
  if enters s.transport t .dataCb then u.receive pull n
  else if enters s.transport t .eofCb &&
      !(t.closed || s.fin && s.tls.isEmpty && s.kernel.isEmpty) then none
  else some u

/-- The calls of `pause_reading` and `resume_reading` are logged. -/
def State.note (s : State B) : StreamTransport.Action → State B
  | .pauseReading => { s with log := .pause :: s.log }
  | .resumeReading => { s with log := .resume :: s.log }
  | _ => s

/-- Nobody else runs while the read-ahead goes on. -/
def State.allows (s : State B) : StreamTransport.Action → Bool
  | .again _ => s.going
  | .wake _ _ _ _ _ => false
  | .run _ _ => !s.going && s.ready.isNone
  | _ => !s.going

/-- The steps that look at the flags and may park in `_wait_fd`. -/
def looks : StreamTransport.Action → Bool
  | .run _ _ | .notifyDone _ _ => true
  | _ => false

/-- The io fiber parks to read only when `pending()` is 0. -/
def State.mayPark (s : State B) (a : StreamTransport.Action) (t : StreamTransport.State) : Bool :=
  match t.io with
  | .waiting true _ => !looks a || s.tls.isEmpty
  | _ => true

/-- A receive of the read-ahead is over. -/
def aheadDone (a : StreamTransport.Action) (t : StreamTransport.State) : Bool :=
  match a with
  | .run _ _ | .again _ | .recvDone _ | .cbReturn _ _ _ _ =>
    t.io == .yielding && t.ahead && !t.stopping
  | _ => false

/-- The io fiber is in `_drain_step`, or about to be. -/
def State.sends (s : State B) : Bool :=
  match s.transport.io with
  | .sendPark _ => true
  | .yielding => s.ready.isSome
  | _ => false

@[grind =]
def step (s : State B) : Action B → Option (State B)
  | .arrive chunk =>
    if s.fin then none
    else some { s with kernel := s.kernel ++ chunk, arrived := s.arrived ++ chunk }
  | .finish => some { s with fin := true }
  | .feed k =>
    if !s.transport.plain && s.sends then
      some { s with tls := s.tls ++ s.kernel.take k, kernel := s.kernel.drop k }
    else none
  | .ready r w =>
    match s.transport.io with
    | .waiting r' w' =>
      if (!r || r') && (!w || w') then
        some { s with transport := { s.transport with io := .yielding }, ready := some (r, w) }
      else none
    | _ => none
  | .resume d v parks pull n =>
    match s.ready, s.transport.io with
    | some (r, w), .yielding =>
      (StreamTransport.step { s.transport with io := .waiting r w } (.wake r w d v parks)).bind
        fun t => State.settle { s with ready := none } t pull n
    | _, _ => none
  | .act a pull n more =>
    if s.allows a then
      (StreamTransport.step s.transport a).bind fun t =>
        if s.mayPark a t then
          ((s.note a).settle t pull n).map fun u => { u with going := more && aheadDone a t }
        else none
    else none

def system : System (State B) (Action B) where
  init s := ∃ plain tls, (plain = true → tls = []) ∧ s = start plain tls
  step := step

/-! ## What the log is to show -/

/-- `pause_reading` was called and `resume_reading` not since. -/
def pausedIn : List (Event B) → Bool
  | [] => false
  | .pause :: _ => true
  | .resume :: _ => false
  | _ :: log => pausedIn log

def closedIn : List (Event B) → Bool
  | [] => false
  | .close :: _ => true
  | _ :: log => closedIn log

def delivered : List (Event B) → List B
  | [] => []
  | .data chunk :: log => delivered log ++ chunk
  | _ :: log => delivered log

/-- No data callback starts between a `pause_reading` and the next `resume_reading`, and none
after a `close`. -/
def Orderly : List (Event B) → Prop
  | [] => True
  | .data _ :: log => pausedIn log = false ∧ closedIn log = false ∧ Orderly log
  | _ :: log => Orderly log

/-- Nothing will go on by itself: the io fiber has ended, waits for what is not there, or is
parked inside the TLS object; `accepts` says that the socket would take bytes. -/
def State.Quiescent (s : State B) (accepts : Bool) : Prop :=
  s.transport.constructed = true ∧ s.ready = none ∧
    (s.transport.io = .gone ∨
      (∃ r w, s.transport.io = .waiting r w ∧ (r = true → s.kernel = []) ∧
        (w = true → accepts = false)) ∨
      s.transport.io.inTls = true ∧ s.transport.readied = false ∧ accepts = false)

structure Sound (s : State B) : Prop where
  orderly : Orderly s.log
  /-- in order and once -/
  conserved : delivered s.log ++ (s.tls ++ s.kernel) = s.arrived
  /-- an open transport that is not paused comes to rest with every byte delivered, or inside
  the TLS object on a socket that takes nothing -/
  live : ∀ accepts, s.Quiescent accepts → pausedIn s.log = false → closedIn s.log = false →
    delivered s.log = s.arrived ∨ accepts = false ∧ s.transport.io.inTls = true

/-- A receive yields data although the flags have changed since the io fiber last looked at
them: in the read-ahead, after `get_buffer`, after a park in the TLS object, or, for a `close()`
only, in a round that its readiness has started. -/
@[grind =]
def late (s : StreamTransport.State) : StreamTransport.Action → Bool
  | .again v | .recvDone v => (s.paused || s.closed) && v == .data
  | .sendDone _ v _ | .wake _ _ _ v _ => s.closed && v == .data
  | .cbReturn _ _ v _ =>
    match s.io with
    | .bufferCb => (s.paused || s.closed) && v == .data
    | .resumeCb _ => s.closed && v == .data
    | _ => false
  | _ => false

/-- The io fiber is kicked inside the TLS object. -/
def kills (s : StreamTransport.State) : StreamTransport.Action → Bool
  | .kick => !s.closed && (s.parkedInTls && s.ioG)
  | .resumeReading => s.paused && !s.closed && (s.parkedInTls && s.ioG)
  | _ => false

def amiss (s : State B) : Action B → Bool
  | .resume d v parks _ _ => late s.transport (.wake true true d v parks)
  | .act a _ _ _ => late s.transport a || kills s.transport a
  | _ => false

def heedful : System (State B) (Action B) :=
  system.restrict fun s a => amiss s a = false

/-! ## What a call and a round do to the transport -/

/-- Something of a `close()` is under way. -/
def winding (s : StreamTransport.State) : Bool :=
  s.stopping || s.closeWhenDrained || s.closing.isSome

section Transport

variable {s t u : StreamTransport.State}

structure Keeps (s t : StreamTransport.State) : Prop where
  paused : t.paused = s.paused
  readEof : t.readEof = s.readEof
  constructed : t.constructed = s.constructed
  closed : s.closed = true → t.closed = true
  winding : winding t = true → winding s = true ∨ t.closed = true

theorem Keeps.trans (h : Keeps s t) (h' : Keeps t u) : Keeps s u where
  paused := h'.paused.trans h.paused
  readEof := h'.readEof.trans h.readEof
  constructed := h'.constructed.trans h.constructed
  closed hc := h'.closed (h.closed hc)
  winding hw := (h'.winding hw).elim (fun hw => (h.winding hw).imp_right h'.closed) .inr

/-- A call by whatever fiber: it wakes the io fiber, or ends it in a transport that is closed. -/
structure Calls (s t : StreamTransport.State) : Prop extends Keeps s t where
  io : t.io = s.io ∨ t.io = .yielding ∨ t.io = .gone
  ioG : s.ioG = true → t.ioG = true
  alive : t.ioG = false → t.io = s.io ∧ s.ioG = false
  gone : t.io = .gone → t.closed = true ∨ s.io = .gone ∧ t.ioG = s.ioG

theorem Calls.trans (h : Calls s t) (h' : Calls t u) : Calls s u where
  toKeeps := h.toKeeps.trans h'.toKeeps
  io := by
    rcases h'.io with hu | hu
    · rw [hu]
      exact h.io
    · exact .inr hu
  ioG hg := h'.ioG (h.ioG hg)
  alive hg := by
    obtain ⟨hu, ht⟩ := h'.alive hg
    obtain ⟨ht, hs⟩ := h.alive ht
    exact ⟨hu.trans ht, hs⟩
  gone hu := by
    rcases h'.gone hu with hc | ⟨ht, hg⟩
    · exact .inl hc
    · exact (h.gone ht).imp h'.closed fun ⟨hs, hg'⟩ => ⟨hs, hg.trans hg'⟩

/-- A call that leaves the io fiber where it is. -/
theorem Calls.of_io (hk : Keeps s t) (hio : t.io = s.io) (hg : t.ioG = s.ioG) : Calls s t where
  toKeeps := hk
  io := .inl hio
  ioG h := hg.trans h
  alive h := ⟨hio, hg.symm.trans h⟩
  gone h := .inr ⟨hio.symm.trans h, hg⟩

theorem cancelWaitFd_calls (hg : s.ioG = true) (hok : s.closed = true ∨ s.parkedInTls = false) :
    Calls s s.cancelWaitFd := by
  have hkeeps : ∀ io, Keeps s { s with io := io } := fun _ => ⟨rfl, rfl, rfl, id, .inl⟩
  unfold StreamTransport.State.cancelWaitFd
  split
  · exact ⟨hkeeps _, .inr (.inl rfl), id, fun h => absurd (hg.symm.trans h) (by rintro ⟨⟩), by rintro ⟨⟩⟩
  · split
    case isTrue hp =>
      have hc : s.closed = true := hok.resolve_right (by rw [hp]; rintro ⟨⟩)
      exact ⟨⟨rfl, rfl, rfl, id, fun _ => .inr hc⟩, .inr (.inr rfl), id,
        fun h => absurd (hg.symm.trans h) (by rintro ⟨⟩), fun _ => .inl hc⟩
    case isFalse => exact .of_io ⟨rfl, rfl, rfl, id, .inl⟩ rfl rfl

theorem kickIo_calls (hok : s.closed = true ∨ (s.parkedInTls && s.ioG) = false) :
    Calls s s.kickIo := by
  unfold StreamTransport.State.kickIo
  split
  case isTrue => exact .of_io ⟨rfl, rfl, rfl, id, .inl⟩ rfl rfl
  case isFalse =>
    split
    case isTrue hg => exact cancelWaitFd_calls hg (hok.imp_right fun h => by simpa [hg] using h)
    case isFalse =>
      exact ⟨⟨rfl, rfl, rfl, id, .inl⟩, .inr (.inl rfl), fun _ => rfl, by rintro ⟨⟩, by rintro ⟨⟩⟩

theorem stopIo_calls (hc : s.closed = true) : Calls s s.stopIo := by
  unfold StreamTransport.State.stopIo
  split
  case isTrue hg => exact cancelWaitFd_calls hg (.inl hc)
  case isFalse => exact .of_io ⟨rfl, rfl, rfl, id, .inl⟩ rfl rfl

/-- What only marks the transport closed. -/
theorem Calls.closing (hio : t.io = s.io) (hg : t.ioG = s.ioG) (hp : t.paused = s.paused)
    (he : t.readEof = s.readEof) (hn : t.constructed = s.constructed) (hc : t.closed = true) :
    Calls s t :=
  .of_io ⟨hp, he, hn, fun _ => hc, fun _ => .inr hc⟩ hio hg

theorem deliver_calls (b : Bool) : Calls s (s.deliver b) :=
  .of_io ⟨rfl, rfl, rfl, id, .inl⟩ rfl rfl

theorem Calls.kick (h : Calls s t) (hc : t.closed = true) : Calls s t.kickIo :=
  h.trans (kickIo_calls (.inl hc))

theorem Calls.stop (h : Calls s t) (hc : t.closed = true) (b : Bool) :
    Calls s (t.stopIo.deliver b) :=
  (h.trans (stopIo_calls hc)).trans (deliver_calls b)

theorem Calls.teardown {b : Bool} (h : Calls s t) (hc : t.closed = true) :
    Calls s (t.teardown b) := by
  have hmark : Calls t { t with stopping := true, closing := none } :=
    .closing rfl rfl rfl rfl rfl hc
  exact (h.trans hmark).stop hc b

theorem close_calls (exc inIo parks : Bool) : Calls s (s.close exc inIo parks) := by
  unfold StreamTransport.State.close
  split
  case isTrue => exact .of_io ⟨rfl, rfl, rfl, id, .inl⟩ rfl rfl
  case isFalse =>
    dsimp only
    split
    case isTrue => exact Calls.kick (.closing rfl rfl rfl rfl rfl rfl) rfl
    case isFalse =>
      split
      case isTrue =>
        split
        case isTrue => exact .closing rfl rfl rfl rfl rfl rfl
        case isFalse => exact Calls.teardown (.closing rfl rfl rfl rfl rfl rfl) rfl
      case isFalse => exact Calls.teardown (.closing rfl rfl rfl rfl rfl rfl) rfl

theorem abort_calls (inIo parks : Bool) : Calls s (s.abort inIo parks) := by
  have hempty : Calls s { s with writeBuf := 0 } := .of_io ⟨rfl, rfl, rfl, id, .inl⟩ rfl rfl
  unfold StreamTransport.State.abort
  dsimp only
  split
  case isTrue => exact hempty.trans (close_calls _ _ _)
  case isFalse hc =>
    have hc : s.closed = true := by simpa using hc
    split
    case isTrue => exact hempty
    case isFalse =>
      have hmark : Calls s { s with writeBuf := 0, closeWhenDrained := false, stopping := true } :=
        .closing rfl rfl rfl rfl rfl hc
      exact hmark.stop hc _

theorem write_calls (k : ℕ) (r : SendRes) (inIo : Bool) : Calls s (s.write k r inIo) := by
  unfold StreamTransport.State.write
  split
  case isTrue => exact .of_io ⟨rfl, rfl, rfl, id, .inl⟩ rfl rfl
  case isFalse =>
    dsimp only
    split
    case isTrue =>
      split
      case h_1 => exact close_calls _ _ _
      case h_2 => split <;> exact .of_io ⟨rfl, rfl, rfl, id, .inl⟩ rfl rfl
      case h_3 => exact .of_io ⟨rfl, rfl, rfl, id, .inl⟩ rfl rfl
    case isFalse => exact .of_io ⟨rfl, rfl, rfl, id, .inl⟩ rfl rfl

theorem writeEof_calls : Calls s s.writeEof := by
  unfold StreamTransport.State.writeEof
  split
  case isTrue => exact .of_io ⟨rfl, rfl, rfl, id, .inl⟩ rfl rfl
  case isFalse => split <;> exact .of_io ⟨rfl, rfl, rfl, id, .inl⟩ rfl rfl

/-- A round of the io fiber up to its next callback, park or yield; `v` is what a receive of it
yields and `checked` says that the receive stands behind the test of `_paused`. -/
structure Serves (checked : Bool) (v : RecvRes) (s t : StreamTransport.State) : Prop
    extends Keeps s t where
  ioG : t.ioG = true
  gone : t.io = .gone → t.closed = true
  waiting : ∀ r w, t.io ≠ .waiting r w
  notify : ∀ r, t.io = .notifyDrain r → t.closed = true
  data : t.io = .dataCb → v = .data ∧ t.closed = s.closed ∧ (checked = true → s.paused = false)

variable {checked : Bool} {v : RecvRes} {a : StreamTransport.Action}

/-- The fiber goes to a place where it neither waits nor receives. -/
theorem Serves.of_io (hk : Keeps s t) (hg : t.ioG = true)
    (hgone : t.io ≠ .gone) (hwait : ∀ r w, t.io ≠ .waiting r w)
    (hnotify : ∀ r, t.io ≠ .notifyDrain r) (hdata : t.io ≠ .dataCb) : Serves checked v s t :=
  ⟨hk, hg, fun h => absurd h hgone, hwait, fun r h => absurd h (hnotify r), fun h => absurd h hdata⟩

theorem recvStep_serves (v : RecvRes) (hg : s.ioG = true) : Serves false v s (s.recvStep v) := by
  cases v with
  | error =>
    have hc := close_calls (s := s) true true false
    have hclosed := (StreamTransport.close_frame true true false hg).1
    exact ⟨⟨hc.paused, hc.readEof, hc.constructed, hc.closed, hc.winding⟩, hc.ioG hg,
      fun _ => hclosed, by rintro _ _ ⟨⟩, by rintro _ ⟨⟩, by rintro ⟨⟩⟩
  | data =>
    exact ⟨⟨rfl, rfl, rfl, id, .inl⟩, hg, by rintro ⟨⟩, by rintro _ _ ⟨⟩, by rintro _ ⟨⟩, fun _ => ⟨rfl, rfl, by rintro ⟨⟩⟩⟩
  | blocked => exact .of_io ⟨rfl, rfl, rfl, id, .inl⟩ hg (by rintro ⟨⟩) (by rintro _ _ ⟨⟩) (by rintro _ ⟨⟩) (by rintro ⟨⟩)
  | eof => exact .of_io ⟨rfl, rfl, rfl, id, .inl⟩ hg (by rintro ⟨⟩) (by rintro _ _ ⟨⟩) (by rintro _ ⟨⟩) (by rintro ⟨⟩)
  | getBuffer => exact .of_io ⟨rfl, rfl, rfl, id, .inl⟩ hg (by rintro ⟨⟩) (by rintro _ _ ⟨⟩) (by rintro _ ⟨⟩) (by rintro ⟨⟩)
  | parks => exact .of_io ⟨rfl, rfl, rfl, id, .inl⟩ hg (by rintro ⟨⟩) (by rintro _ _ ⟨⟩) (by rintro _ ⟨⟩) (by rintro ⟨⟩)

theorem recvPhase_serves (r : Bool) (v : RecvRes) (hg : s.ioG = true) :
    Serves true v s (s.recvPhase r v) := by
  unfold StreamTransport.State.recvPhase
  split
  case isTrue hr =>
    simp only [Bool.and_eq_true, Bool.not_eq_true'] at hr
    have h := recvStep_serves v hg
    exact { h with data := fun hd => ⟨(h.data hd).1, (h.data hd).2.1, fun _ => hr.1.1.2⟩ }
  case isFalse => exact .of_io ⟨rfl, rfl, rfl, id, .inl⟩ hg (by rintro ⟨⟩) (by rintro _ _ ⟨⟩) (by rintro _ ⟨⟩) (by rintro ⟨⟩)

/-- What comes before the rest of a round. -/
theorem Keeps.serves (hk : Keeps s t) (hc : t.closed = s.closed)
    (h : Serves checked v t u) : Serves checked v s u where
  toKeeps := hk.trans h.toKeeps
  ioG := h.ioG
  gone := h.gone
  waiting := h.waiting
  notify := h.notify
  data hd := by
    obtain ⟨hv, hu, hp⟩ := h.data hd
    exact ⟨hv, hu.trans hc, fun hx => hk.paused.symm.trans (hp hx)⟩

/-- A transport that is torn down in the round receives nothing more. -/
theorem Keeps.serves_stopping {r : Bool} (hk : Keeps s t) (hg : t.ioG = true)
    (hs : t.stopping = true) : Serves true v s (t.recvPhase r v) := by
  rw [StreamTransport.recvPhase_stopping hs]
  exact .of_io ⟨hk.paused, hk.readEof, hk.constructed, hk.closed, hk.winding⟩ hg (by rintro ⟨⟩) (by rintro _ _ ⟨⟩) (by rintro _ ⟨⟩)
    nofun

theorem drained_serves (r : Bool) (v : RecvRes) (parks : Bool) (hg : s.ioG = true)
    (hw : winding s = true → s.closed = true) : Serves true v s (s.drained r v parks) := by
  unfold StreamTransport.State.drained
  split
  case isTrue => exact recvPhase_serves r v hg
  case isFalse =>
    obtain ⟨eofPending, eofWritten, he⟩ := StreamTransport.flushEof_eq s
    simp only [he]
    split
    case isTrue hd =>
      simp only [Bool.and_eq_true] at hd
      have hc : s.closed = true := hw (by simp [winding, hd.1])
      split
      case isTrue => exact ⟨⟨rfl, rfl, rfl, id, .inl⟩, hg, by rintro ⟨⟩, by rintro _ _ ⟨⟩, fun _ _ => hc, by rintro ⟨⟩⟩
      case isFalse =>
        exact Keeps.serves_stopping ⟨rfl, rfl, rfl, id, fun _ => .inr hc⟩ hg rfl
    case isFalse =>
      have hk : Keeps s { s with eofPending := eofPending, eofWritten := eofWritten } :=
        ⟨rfl, rfl, rfl, id, .inl⟩
      exact hk.serves rfl (recvPhase_serves r v hg)

/-- `close(e)` tears an open transport down at once. -/
theorem close_exc_stopping (hc : s.closed = false) (inIo parks : Bool) :
    (s.close true inIo parks).stopping = true := by
  obtain ⟨io, closing, he, -⟩ := StreamTransport.stopIo_eq { s with
    closed := true, connLostCalled := true, stopping := true, closing := none }
  simp [StreamTransport.State.close, hc, StreamTransport.State.teardown, he,
    StreamTransport.State.deliver]

theorem drain_serves (r : Bool) (d : SendRes) (v : RecvRes) (parks : Bool) (hg : s.ioG = true)
    (hw : winding s = true → s.closed = true) : Serves true v s (s.drain r d v parks) := by
  cases d with
  | blocked => exact recvPhase_serves r v hg
  | error =>
    simp only [StreamTransport.State.drain]
    split
    case isTrue hd =>
      have hc : s.closed = true := hw (by simp [winding, hd])
      exact Keeps.serves_stopping ⟨rfl, rfl, rfl, id, fun _ => .inr hc⟩ hg rfl
    case isFalse =>
      have hcall := close_calls (s := s) true true false
      cases hc : s.closed with
      | true =>
        have he : s.close true true false = s := by simp [StreamTransport.State.close, hc]
        rw [he]
        exact recvPhase_serves r v hg
      | false => exact hcall.toKeeps.serves_stopping (hcall.ioG hg) (close_exc_stopping hc _ _)
  | sent n =>
    simp only [StreamTransport.State.drain]
    split
    case isTrue => exact .of_io ⟨rfl, rfl, rfl, id, .inl⟩ hg (by rintro ⟨⟩) (by rintro _ _ ⟨⟩) (by rintro _ ⟨⟩) (by rintro ⟨⟩)
    case isFalse =>
      have hk : Keeps s { s with writeBuf := s.writeBuf - n } := ⟨rfl, rfl, rfl, id, .inl⟩
      exact hk.serves rfl (drained_serves r v parks hg hw)
  | parks => exact .of_io ⟨rfl, rfl, rfl, id, .inl⟩ hg (by rintro ⟨⟩) (by rintro _ _ ⟨⟩) (by rintro _ ⟨⟩) (by rintro ⟨⟩)

/-- The io fiber looks at the flags. -/
structure Looks (s t : StreamTransport.State) : Prop extends Keeps s t where
  alive : t.ioG = false → t.io = .gone
  gone : t.io = .gone → t.closed = true ∨ t.ioG = false ∧ (t.paused = true ∨ t.readEof = true)
  waiting : ∀ r w, t.io = .waiting r w →
    r = true ∨ t.paused = true ∨ t.readEof = true ∨ t.closed = true
  notify : ∀ r, t.io = .notifyDrain r → t.closed = true
  data : t.io = .dataCb → t.paused = false ∧ t.closed = false

theorem await_looks (ahead : Option RecvRes) (hg : s.ioG = true) : Looks s (s.await ahead) := by
  have hwait : ∀ r w, (r = true ∨ s.paused = true ∨ s.readEof = true ∨ s.closed = true) →
      Looks s { s with io := .waiting r w } := by
    intro r w hr
    refine ⟨⟨rfl, rfl, rfl, id, .inl⟩, fun h => absurd (hg.symm.trans h) (by rintro ⟨⟩), by rintro ⟨⟩, ?_, by rintro _ ⟨⟩,
      (by intros; contradiction)⟩
    rintro r' w' ⟨rfl⟩
    exact hr
  have hmask : ∀ r, r = (!s.paused && !s.readEof && !s.closed) →
      r = true ∨ s.paused = true ∨ s.readEof = true ∨ s.closed = true := by
    rintro r rfl
    cases s.paused <;> cases s.readEof <;> cases s.closed <;> simp
  unfold StreamTransport.State.await
  dsimp only
  split
  case isTrue hm =>
    simp only [Bool.and_eq_true, Bool.not_eq_true'] at hm
    refine ⟨⟨rfl, rfl, rfl, id, .inl⟩, fun _ => rfl, fun _ => ?_, (by intros; contradiction), (by intros; contradiction), (by intros; contradiction)⟩
    rcases hmask _ rfl with hr | hp | he | hc
    · rw [hm.1] at hr
      cases hr
    · exact .inr ⟨rfl, .inl hp⟩
    · exact .inr ⟨rfl, .inr he⟩
    · exact .inl hc
  case isFalse =>
    split
    case h_1 v =>
      split
      case isTrue hr =>
        simp only [Bool.and_eq_true, Bool.not_eq_true'] at hr
        obtain ⟨⟨⟨hp, -⟩, hc⟩, -⟩ := hr
        have h := recvStep_serves (s := { s with ahead := true }) v hg
        refine ⟨⟨h.paused, h.readEof, h.constructed, h.closed, h.winding⟩,
          fun hf => absurd (h.ioG.symm.trans hf) nofun, fun hgone => .inl (h.gone hgone),
          fun r w hx => absurd hx (h.waiting r w), h.notify, fun hd => ?_⟩
        exact ⟨h.paused.trans hp, (h.data hd).2.1.trans hc⟩
      case isFalse => exact hwait _ _ (hmask _ rfl)
    case h_2 => exact hwait _ _ (hmask _ rfl)

theorem top_looks (parks : Bool) (ahead : Option RecvRes) (hg : s.ioG = true)
    (hw : winding s = true → s.closed = true) : Looks s (s.top parks ahead) := by
  unfold StreamTransport.State.top
  split
  case isTrue hs =>
    have hc : s.closed = true := hw (by simp [winding, hs])
    exact ⟨⟨rfl, rfl, rfl, id, .inl⟩, fun _ => rfl, fun _ => .inl hc, by rintro _ _ ⟨⟩, by rintro _ ⟨⟩, by rintro ⟨⟩⟩
  case isFalse =>
    split
    case isTrue =>
      split
      case isTrue =>
        exact ⟨⟨rfl, rfl, rfl, id, .inl⟩, fun h => absurd (hg.symm.trans h) (by rintro ⟨⟩), by rintro ⟨⟩, by rintro _ _ ⟨⟩,
          (by intros; contradiction), (by intros; contradiction)⟩
      case isFalse =>
        have h := await_looks (s := { s with tlsShutdownSent := true }) ahead hg
        exact { h with
          toKeeps := ⟨h.paused, h.readEof, h.constructed, h.closed, h.winding⟩ }
    case isFalse => exact await_looks ahead hg

/-! ## The read side over a step of the transport -/

/-- The io fiber is there when it is needed. -/
structure Reading (s : StreamTransport.State) : Prop where
  winding : winding s = true → s.closed = true
  alive : s.ioG = false → s.io = .gone
  gone : s.io = .gone → s.closed = true ∨
    s.ioG = false ∧ (s.constructed = true → s.paused = true ∨ s.readEof = true)
  waiting : ∀ r w, s.io = .waiting r w →
    r = true ∨ s.paused = true ∨ s.readEof = true ∨ s.closed = true
  notify : ∀ r, s.io = .notifyDrain r → s.closed = true

theorem reading_start (plain : Bool) : Reading (StreamTransport.start plain) :=
  ⟨by rintro ⟨⟩, fun _ => rfl, fun _ => .inr ⟨rfl, by rintro ⟨⟩⟩, by rintro _ _ ⟨⟩, by rintro _ ⟨⟩⟩

theorem Reading.ioG (h : Reading s) (hio : s.io ≠ .gone) : s.ioG = true := by
  by_contra hg
  exact hio (h.alive (by simpa using hg))

/-- `_paused` after a step. -/
def pausedAfter (s : StreamTransport.State) : StreamTransport.Action → Bool
  | .pauseReading => true
  | .resumeReading => false
  | _ => s.paused

structure Steps (s : StreamTransport.State) (a : StreamTransport.Action)
    (t : StreamTransport.State) : Prop where
  reading : Reading t
  closed : s.closed = true → t.closed = true
  paused : t.paused = pausedAfter s a
  readEof : t.readEof = true → s.readEof = true ∨ s.io = .eofCb
  waiting : looks a = false → ∀ r w, t.io = .waiting r w → s.io = .waiting r w
  data : t.io = .dataCb → s.io = .dataCb ∨ late s a = true ∨ t.paused = false ∧ t.closed = false

theorem Calls.steps (hr : Reading s) (h : Calls s t)
    (hp : pausedAfter s a = s.paused) : Steps s a t where
  reading := by
    constructor
    case winding =>
      intro hw
      exact (h.winding hw).elim (fun hw => h.closed (hr.winding hw)) id
    case alive =>
      intro hg
      obtain ⟨hio, hg⟩ := h.alive hg
      exact hio.trans (hr.alive hg)
    case gone =>
      intro hio
      rcases h.gone hio with hc | ⟨hs, hg⟩
      · exact .inl hc
      · rw [h.paused, h.readEof, h.constructed, hg]
        exact (hr.gone hs).imp_left h.closed
    case waiting =>
      intro r w hio
      rcases h.io with he | he | he
      · rw [h.paused, h.readEof]
        exact (hr.waiting r w (he.symm.trans hio)).imp_right
          fun hx => hx.imp_right fun hx => hx.imp_right h.closed
      · exact absurd (he.symm.trans hio) (by rintro ⟨⟩)
      · exact absurd (he.symm.trans hio) (by rintro ⟨⟩)
    case notify =>
      intro r hio
      rcases h.io with he | he | he
      · exact h.closed (hr.notify r (he.symm.trans hio))
      · exact absurd (he.symm.trans hio) (by rintro ⟨⟩)
      · exact absurd (he.symm.trans hio) (by rintro ⟨⟩)
  closed := h.closed
  paused := h.paused.trans hp.symm
  readEof he := .inl (h.readEof.symm.trans he)
  waiting _ r w hio := by
    rcases h.io with he | he | he
    · exact he.symm.trans hio
    · exact absurd (he.symm.trans hio) (by rintro ⟨⟩)
    · exact absurd (he.symm.trans hio) (by rintro ⟨⟩)
  data hio := by
    rcases h.io with he | he | he
    · exact .inl (he.symm.trans hio)
    · exact absurd (he.symm.trans hio) (by rintro ⟨⟩)
    · exact absurd (he.symm.trans hio) (by rintro ⟨⟩)

theorem Serves.steps
    (hw : winding s = true → s.closed = true) (h : Serves checked v s t)
    (hp : pausedAfter s a = s.paused)
    (hlate : v = .data → s.closed = true ∨ checked = false ∧ s.paused = true → late s a = true) :
    Steps s a t where
  reading :=
    ⟨fun hx => (h.winding hx).elim (fun hx => h.closed (hw hx)) id,
      fun hg => absurd (h.ioG.symm.trans hg) (by rintro ⟨⟩), fun hio => .inl (h.gone hio),
      fun r w hio => absurd hio (h.waiting r w), h.notify⟩
  closed := h.closed
  paused := h.paused.trans hp.symm
  readEof he := .inl (h.readEof.symm.trans he)
  waiting _ r w hio := absurd hio (h.waiting r w)
  data hio := by
    obtain ⟨hv, hc, hchecked⟩ := h.data hio
    refine .inr ?_
    rw [h.paused, hc]
    cases hclosed : s.closed with
    | true => exact .inl (hlate hv (.inl hclosed))
    | false =>
      cases hpaused : s.paused with
      | false => exact .inr ⟨rfl, rfl⟩
      | true =>
        have hx : checked = false := by
          by_contra hx
          exact absurd (hpaused.symm.trans (hchecked (by simpa using hx))) (by rintro ⟨⟩)
        exact .inl (hlate hv (.inr ⟨hx, hpaused⟩))

theorem Looks.steps (hw : winding s = true → s.closed = true)
    (h : Looks s t) (ha : looks a = true) (hp : pausedAfter s a = s.paused) : Steps s a t where
  reading :=
    ⟨fun hx => (h.winding hx).elim (fun hx => h.closed (hw hx)) id, h.alive,
      fun hio => (h.gone hio).imp_right fun ⟨hg, hx⟩ => ⟨hg, fun _ => hx⟩, h.waiting, h.notify⟩
  closed := h.closed
  paused := h.paused.trans hp.symm
  readEof he := .inl (h.readEof.symm.trans he)
  waiting hx := absurd (ha.symm.trans hx) (by rintro ⟨⟩)
  data hio := .inr (.inr (h.data hio))

/-- The io fiber ends, or goes to a place without a callback, in a transport that is closed. -/
theorem Serves.of_closed (hk : Keeps s t) (hg : t.ioG = true)
    (hc : t.closed = true) (hwait : ∀ r w, t.io ≠ .waiting r w) (hdata : t.io ≠ .dataCb) :
    Serves checked v s t :=
  ⟨hk, hg, fun _ => hc, hwait, fun _ _ => hc, fun h => absurd h hdata⟩

/-- A receive callback raises. -/
theorem raised_serves (hg : s.ioG = true) :
    Serves checked v s { s.close true true false with io := .gone } := by
  have hc := close_calls (s := s) true true false
  exact .of_closed ⟨hc.paused, hc.readEof, hc.constructed, hc.closed, hc.winding⟩ (hc.ioG hg)
    (StreamTransport.close_frame true true false hg).1 (by rintro _ _ ⟨⟩) (by rintro ⟨⟩)

/-- A kick of an open transport takes its io fiber out of the wait, or spawns it. -/
theorem kickIo_io (hst : s.stopping = false) (hgone : s.io = .gone → s.ioG = false)
    (hok : (s.parkedInTls && s.ioG) = false) :
    s.kickIo.io ≠ .gone ∧ ∀ r w, s.kickIo.io ≠ .waiting r w := by
  unfold StreamTransport.State.kickIo
  rw [if_neg (by simp [hst])]
  split
  case isTrue hg =>
    have hp : s.parkedInTls = false := by simpa [hg] using hok
    unfold StreamTransport.State.cancelWaitFd
    split
    case h_1 => exact ⟨by rintro ⟨⟩, by rintro _ _ ⟨⟩⟩
    case h_2 hw =>
      rw [if_neg (by simp [hp])]
      exact ⟨fun he => absurd (hg.symm.trans (hgone he)) (by rintro ⟨⟩), hw⟩
  case isFalse => exact ⟨by rintro ⟨⟩, by rintro _ _ ⟨⟩⟩

theorem resumed_steps (hr : Reading s) (h : Calls { s with paused := false } t)
    (hopen : s.closed = false → t.io ≠ .gone ∧ ∀ r w, t.io ≠ .waiting r w) :
    Steps s .resumeReading t := by
  have hclosed : t.io = .gone ∨ (∃ r w, t.io = .waiting r w) → t.closed = true := by
    intro hio
    refine h.closed ?_
    by_contra hc
    obtain ⟨hgone, hwait⟩ := hopen (by simpa using hc)
    rcases hio with he | ⟨r, w, he⟩
    · exact hgone he
    · exact hwait r w he
  have hsame : ∀ io, t.io = io → io ≠ .yielding → io ≠ .gone → s.io = io := by
    intro io hio hy hg
    rcases h.io with he | he | he
    · exact he.symm.trans hio
    · exact absurd (hio.symm.trans he) hy
    · exact absurd (hio.symm.trans he) hg
  constructor
  case reading =>
    refine ⟨fun hw => ?_, fun hg => ?_, fun he => .inl (hclosed (.inl he)), fun r w he => ?_,
      fun r he => ?_⟩
    · exact (h.winding hw).elim (fun hw => h.closed (hr.winding hw)) id
    · obtain ⟨hio, hg⟩ := h.alive hg
      exact hio.trans (hr.alive hg)
    · exact .inr (.inr (.inr (hclosed (.inr ⟨r, w, he⟩))))
    · exact h.closed (hr.notify r (hsame _ he (by rintro ⟨⟩) (by rintro ⟨⟩)))
  case closed => exact h.closed
  case paused => exact h.paused
  case readEof => exact fun he => .inl (h.readEof.symm.trans he)
  case waiting => exact fun _ r w he => hsame _ he (by rintro ⟨⟩) (by rintro ⟨⟩)
  case data => exact fun he => .inl (hsame _ he (by rintro ⟨⟩) (by rintro ⟨⟩))

theorem resumeReading_steps (hr : Reading s) (hk : kills s .resumeReading = false) :
    Steps s .resumeReading s.resumeReading := by
  unfold StreamTransport.State.resumeReading
  split
  case isFalse hp =>
    have hp : s.paused = false := by simpa using hp
    exact ⟨hr, id, hp, .inl, fun _ _ _ => id, .inl⟩
  case isTrue hp =>
    have hok : s.closed = true ∨ (s.parkedInTls && s.ioG) = false := by
      cases hc : s.closed with
      | true => exact .inl rfl
      | false => exact .inr (by simpa [kills, hp, hc] using hk)
    refine resumed_steps hr (kickIo_calls hok) fun hc => ?_
    have hst : s.stopping = false := by
      by_contra hst
      exact absurd (hc.symm.trans (hr.winding (by simp [winding, hst]))) (by rintro ⟨⟩)
    refine kickIo_io hst (fun hgone => ?_) (hok.resolve_left (by rw [hc]; rintro ⟨⟩))
    exact ((hr.gone hgone).resolve_left (by rw [hc]; rintro ⟨⟩)).1

theorem construct_steps (hr : Reading s) :
    Steps s .construct { (if s.ioG then s else s.spawn) with constructed := true } := by
  split
  case isTrue hg =>
    refine ⟨⟨hr.winding, hr.alive, fun he => (hr.gone he).imp_right ?_, hr.waiting, hr.notify⟩, id,
      rfl, .inl, fun _ _ _ => id, .inl⟩
    exact fun ⟨hf, _⟩ => absurd (hg.symm.trans hf) (by rintro ⟨⟩)
  case isFalse =>
    exact ⟨⟨hr.winding, by rintro ⟨⟩, by rintro ⟨⟩, by rintro _ _ ⟨⟩, by rintro _ ⟨⟩⟩, id, rfl, .inl, by rintro _ _ _ ⟨⟩, by rintro ⟨⟩⟩

theorem pauseReading_steps (hr : Reading s) : Steps s .pauseReading { s with paused := true } where
  reading :=
    ⟨hr.winding, hr.alive, fun he => (hr.gone he).imp_right fun ⟨hg, _⟩ => ⟨hg, fun _ => .inl rfl⟩,
      fun _ _ _ => .inr (.inl rfl), hr.notify⟩
  closed := id
  paused := rfl
  readEof := .inl
  waiting _ _ _ := id
  data := .inl

theorem handleEof_steps {raised keep parks : Bool} (hr : Reading s)
    (hio : s.io = .eofCb) (k : Bool) :
    Steps s (.cbReturn raised keep v parks) (s.handleEof k parks) := by
  have hg : s.ioG = true := hr.ioG (by rw [hio]; rintro ⟨⟩)
  unfold StreamTransport.State.handleEof
  split
  case isTrue =>
    exact ⟨⟨hr.winding, fun hf => absurd (hg.symm.trans hf) (by rintro ⟨⟩), by rintro ⟨⟩, by rintro _ _ ⟨⟩, by rintro _ ⟨⟩⟩, id, rfl,
      fun _ => .inr hio, by rintro _ _ _ ⟨⟩, by rintro ⟨⟩⟩
  case isFalse =>
    have hc := close_calls (s := s) false true parks
    have hclosed := (StreamTransport.close_frame false true parks hg).1
    have hk : ∀ io, Keeps s { s.close false true parks with io := io } := fun _ =>
      ⟨hc.paused, hc.readEof, hc.constructed, hc.closed, hc.winding⟩
    have hserves : ∀ io, (∀ r w, io ≠ .waiting r w) → io ≠ .dataCb →
        Steps s (.cbReturn raised keep v parks) { s.close false true parks with io := io } := by
      intro io hwait hdata
      have h : Serves true .blocked s { s.close false true parks with io := io } :=
        .of_closed (hk io) (hc.ioG hg) hclosed hwait hdata
      exact h.steps hr.winding rfl (by rintro ⟨⟩)
    dsimp only
    split
    case isTrue => exact hserves _ (by rintro _ _ ⟨⟩) (by rintro ⟨⟩)
    case isFalse => split <;> exact hserves _ (by rintro _ _ ⟨⟩) (by rintro ⟨⟩)

theorem cbReturn_steps {raised keep parks : Bool} (hr : Reading s)
    (hs : s.cbReturn raised keep v parks = some t) : Steps s (.cbReturn raised keep v parks) t := by
  unfold StreamTransport.State.cbReturn at hs
  split at hs
  case h_1 hio =>
    have hg : s.ioG = true := hr.ioG (by rw [hio]; rintro ⟨⟩)
    have hlate : v = .data → s.closed = true ∨ false = false ∧ s.paused = true →
        late s (.cbReturn raised keep v parks) = true := by
      rintro rfl (hc | ⟨-, hp⟩)
      · simp [late, hio, hc]
      · simp [late, hio, hp]
    split at hs <;> cases hs
    case isTrue => exact (raised_serves hg).steps hr.winding rfl hlate
    case isFalse => exact (recvStep_serves v hg).steps hr.winding rfl hlate
  case h_2 hio =>
    have hg : s.ioG = true := hr.ioG (by rw [hio]; rintro ⟨⟩)
    split at hs <;> cases hs
    case isTrue =>
      have h : Serves true .blocked s { s.close true true false with io := .gone } :=
        raised_serves hg
      exact h.steps hr.winding rfl (by rintro ⟨⟩)
    case isFalse =>
      have h : Serves true .blocked s { s with io := .yielding } :=
        .of_io ⟨rfl, rfl, rfl, id, .inl⟩ hg (by rintro ⟨⟩) (by rintro _ _ ⟨⟩) (by rintro _ ⟨⟩) (by rintro ⟨⟩)
      exact h.steps hr.winding rfl (by rintro ⟨⟩)
  case h_3 hio =>
    cases hs
    exact handleEof_steps hr hio _
  case h_4 r hio =>
    cases hs
    have hg : s.ioG = true := hr.ioG (by rw [hio]; rintro ⟨⟩)
    refine (drained_serves r v parks hg hr.winding).steps hr.winding rfl ?_
    rintro rfl (hc | ⟨hx, -⟩)
    · simp [late, hio, hc]
    · cases hx
  case h_5 => cases hs

theorem notified_steps {ahead : Option RecvRes} (hr : Reading s)
    (hs : s.notified v ahead = some t) : Steps s (.notifyDone v ahead) t := by
  unfold StreamTransport.State.notified at hs
  split at hs
  case h_1 hio =>
    cases hs
    exact (await_looks ahead (hr.ioG (by rw [hio]; rintro ⟨⟩))).steps hr.winding rfl rfl
  case h_2 r hio =>
    cases hs
    have hg : s.ioG = true := hr.ioG (by rw [hio]; rintro ⟨⟩)
    have hc : s.closed = true := hr.notify r hio
    have hk : Keeps s s.finishDrain := ⟨rfl, rfl, rfl, id, fun _ => .inr hc⟩
    have h : Serves true .blocked s (s.finishDrain.recvPhase r v) := by
      rw [StreamTransport.recvPhase_stopping rfl]
      exact .of_io ⟨rfl, rfl, rfl, id, hk.winding⟩ hg (by rintro ⟨⟩) (by rintro _ _ ⟨⟩) (by rintro _ ⟨⟩) (by rintro ⟨⟩)
    exact h.steps hr.winding rfl (by rintro ⟨⟩)
  case h_3 => cases hs

theorem resumeClose_steps {c : StreamTransport.Closer} (hr : Reading s)
    (hcl : s.closing = some c) : Steps s .closeDone (s.resumeClose c) := by
  have hc : s.closed = true := hr.winding (by simp [winding, hcl])
  have h : Calls s (s.teardown c.deliver) :=
    Calls.teardown (.of_io ⟨rfl, rfl, rfl, id, .inl⟩ rfl rfl) hc
  unfold StreamTransport.State.resumeClose
  split
  case h_1 hio =>
    have hg : s.ioG = true := hr.ioG (by rw [hio]; rintro ⟨⟩)
    have hserves : ∀ io, (∀ r w, io ≠ .waiting r w) → io ≠ .dataCb →
        Steps s .closeDone { s.teardown c.deliver with io := io } := by
      intro io hwait hdata
      have hx : Serves true .blocked s { s.teardown c.deliver with io := io } :=
        .of_closed ⟨h.paused, h.readEof, h.constructed, h.closed, h.winding⟩ (h.ioG hg)
          (h.closed hc) hwait hdata
      exact hx.steps hr.winding rfl (by rintro ⟨⟩)
    dsimp only
    split <;> exact hserves _ (by rintro _ _ ⟨⟩) (by rintro ⟨⟩)
  case h_2 => exact h.steps hr rfl

theorem step_steps (hr : Reading s) (hk : kills s a = false)
    (hs : StreamTransport.step s a = some t) (ha : ∀ r w d v parks, a ≠ .wake r w d v parks) :
    Steps s a t := by
  cases a with
  | construct =>
    simp only [StreamTransport.step] at hs
    split at hs <;> cases hs
    exact construct_steps hr
  | write k r inIo =>
    cases hs
    exact (write_calls k r inIo).steps hr rfl
  | kick =>
    simp only [StreamTransport.step] at hs
    split at hs <;> cases hs
    case h_2 n _ =>
      have hok : s.closed = true ∨ (s.parkedInTls && s.ioG) = false := by
        cases hc : s.closed with
        | true => exact .inl rfl
        | false => exact .inr (by simpa [kills, hc] using hk)
      have hcount : Calls s { s with kicks := n } := .of_io ⟨rfl, rfl, rfl, id, .inl⟩ rfl rfl
      exact (hcount.trans (kickIo_calls hok)).steps hr rfl
  | writeEof =>
    cases hs
    exact writeEof_calls.steps hr rfl
  | close inIo parks =>
    cases hs
    exact (close_calls false inIo parks).steps hr rfl
  | abort inIo parks =>
    cases hs
    exact (abort_calls inIo parks).steps hr rfl
  | pauseReading =>
    cases hs
    exact pauseReading_steps hr
  | resumeReading =>
    cases hs
    exact resumeReading_steps hr hk
  | run parks ahead =>
    simp only [StreamTransport.step] at hs
    split at hs
    case h_1 hio =>
      split at hs <;> cases hs
      have hg : s.ioG = true := hr.ioG (by rw [hio]; rintro ⟨⟩)
      have h := top_looks (s := { s with ahead := false }) parks ahead hg hr.winding
      exact Looks.steps hr.winding
        { h with toKeeps := ⟨h.paused, h.readEof, h.constructed, h.closed, h.winding⟩ } rfl rfl
    case h_2 => cases hs
  | again v =>
    simp only [StreamTransport.step] at hs
    split at hs
    case h_1 hio =>
      split at hs <;> cases hs
      have hg : s.ioG = true := hr.ioG (by rw [hio]; rintro ⟨⟩)
      refine (recvStep_serves v hg).steps hr.winding rfl ?_
      rintro rfl (hc | ⟨-, hp⟩)
      · simp [late, hc]
      · simp [late, hp]
    case h_2 => cases hs
  | wake r w d v parks => exact absurd rfl (ha r w d v parks)
  | waitError =>
    simp only [StreamTransport.step] at hs
    split at hs <;> cases hs
    case h_1 hio =>
      have hg : s.ioG = true := hr.ioG (by rw [hio]; rintro ⟨⟩)
      have h : Serves true .blocked s { s with io := if s.stopping then .gone else .yielding } := by
        split
        case isTrue hst =>
          have hc : s.closed = true := hr.winding (by simp [winding, hst])
          exact .of_closed ⟨rfl, rfl, rfl, id, .inl⟩ hg hc (by rintro _ _ ⟨⟩) (by rintro ⟨⟩)
        case isFalse => exact .of_io ⟨rfl, rfl, rfl, id, .inl⟩ hg (by rintro ⟨⟩) (by rintro _ _ ⟨⟩) (by rintro _ ⟨⟩) (by rintro ⟨⟩)
      exact h.steps hr.winding rfl (by rintro ⟨⟩)
  | tlsReady =>
    cases hs
    exact Calls.steps hr (.of_io ⟨rfl, rfl, rfl, id, .inl⟩ rfl rfl) rfl
  | sendDone d v parks =>
    simp only [StreamTransport.step] at hs
    split at hs
    case h_1 r hio =>
      split at hs <;> cases hs
      have hg : s.ioG = true := hr.ioG (by rw [hio]; rintro ⟨⟩)
      have hk : Keeps s { s with io := .yielding } := ⟨rfl, rfl, rfl, id, .inl⟩
      refine (hk.serves rfl (drain_serves r d v parks hg hr.winding)).steps hr.winding rfl ?_
      rintro rfl (hc | ⟨hx, -⟩)
      · simp [late, hc]
      · cases hx
    case h_2 => cases hs
  | recvDone v =>
    simp only [StreamTransport.step] at hs
    split at hs
    case h_1 hio =>
      split at hs <;> cases hs
      have hg : s.ioG = true := hr.ioG (by rw [hio]; rintro ⟨⟩)
      refine (recvStep_serves v hg).steps hr.winding rfl ?_
      rintro rfl (hc | ⟨-, hp⟩)
      · simp [late, hc]
      · simp [late, hp]
    case h_2 => cases hs
  | notifyDone v ahead =>
    simp only [StreamTransport.step] at hs
    split at hs
    case isTrue => exact notified_steps hr hs
    case isFalse => cases hs
  | closeDone =>
    simp only [StreamTransport.step] at hs
    split at hs
    case h_1 c hc =>
      split at hs <;> cases hs
      exact resumeClose_steps hr hc
    case h_2 => cases hs
  | cbReturn raised keep v parks =>
    simp only [StreamTransport.step] at hs
    split at hs
    case isTrue => cases hs
    case isFalse => exact cbReturn_steps hr hs

/-- The io fiber goes on from its wait. -/
theorem wake_steps {r w parks : Bool} {d : SendRes} (hr : Reading s)
    (hio : s.io = .yielding)
    (hs : StreamTransport.step { s with io := .waiting r w } (.wake r w d v parks) = some t) :
    Steps s (.wake r w d v parks) t := by
  have hg : s.ioG = true := hr.ioG (by rw [hio]; rintro ⟨⟩)
  have hk : Keeps s { s with io := .yielding } := ⟨rfl, rfl, rfl, id, .inl⟩
  have hlate : v = .data → s.closed = true ∨ true = false ∧ s.paused = true →
      late s (.wake r w d v parks) = true := by
    rintro rfl (hc | ⟨hx, -⟩)
    · simp [late, hc]
    · cases hx
  simp only [StreamTransport.step] at hs
  split at hs
  case isTrue =>
    split at hs
    case isTrue hst =>
      cases hs
      have hc : s.closed = true := hr.winding (by simp [winding, hst])
      have h : Serves true v s { s with io := .gone } :=
        .of_closed ⟨rfl, rfl, rfl, id, .inl⟩ hg hc (by rintro _ _ ⟨⟩) (by rintro ⟨⟩)
      exact h.steps hr.winding rfl hlate
    case isFalse =>
      split at hs <;> cases hs
      case isTrue =>
        exact (hk.serves rfl (drain_serves r d v parks hg hr.winding)).steps hr.winding rfl hlate
      case isFalse =>
        exact (hk.serves rfl (recvPhase_serves r v hg)).steps hr.winding rfl hlate
  case isFalse => cases hs

end Transport

/-! ## The bytes -/

section Steps

variable {s t : State B}

structure Inv (s : State B) : Prop where
  reading : Reading s.transport
  /-- a fiber that waits to read has left nothing in the TLS object -/
  parked : ∀ w, s.transport.io = .waiting true w → s.tls = []
  eof : s.transport.io = .eofCb ∨ s.transport.readEof = true →
    s.transport.closed = true ∨ s.fin = true ∧ s.tls = [] ∧ s.kernel = []
  paused : pausedIn s.log = s.transport.paused
  closed : closedIn s.log = s.transport.closed
  orderly : Orderly s.log
  conserved : delivered s.log ++ (s.tls ++ s.kernel) = s.arrived

theorem inv_start (plain : Bool) (tls : List B) : Inv (start plain tls) where
  reading := reading_start plain
  parked := by rintro _ ⟨⟩
  eof h := h.elim (by rintro ⟨⟩) (by rintro ⟨⟩)
  paused := rfl
  closed := rfl
  orderly := trivial
  conserved := by simp [start, delivered]

/-- The invariant with the transport at `t` already, but for the bytes and for the log of a
`close`. -/
structure Arrives (s : State B) (t : StreamTransport.State) : Prop where
  reading : Reading t
  parked : ∀ w, t.io = .waiting true w → s.tls = []
  eof : s.transport.io = .eofCb ∨ t.readEof = true →
    t.closed = true ∨ s.fin = true ∧ s.tls = [] ∧ s.kernel = []
  paused : pausedIn s.log = t.paused
  closed : closedIn s.log = s.transport.closed
  kept : s.transport.closed = true → t.closed = true
  orderly : Orderly s.log
  conserved : delivered s.log ++ (s.tls ++ s.kernel) = s.arrived
  data : t.io = .dataCb → s.transport.io = .dataCb ∨ t.paused = false ∧ t.closed = false

theorem Inv.arrives {a : StreamTransport.Action} {u : StreamTransport.State} (hi : Inv s)
    (h : Steps s.transport a u) (hlate : late s.transport a = false)
    (hpark : ∀ w, u.io = .waiting true w → s.tls = []) : Arrives (s.note a) u := by
  have hnote : (s.note a).transport = s.transport ∧ (s.note a).tls = s.tls ∧
      (s.note a).kernel = s.kernel ∧ (s.note a).arrived = s.arrived ∧ (s.note a).fin = s.fin := by
    unfold State.note
    split <;> exact ⟨rfl, rfl, rfl, rfl, rfl⟩
  obtain ⟨htr, htls, hker, harr, hfin⟩ := hnote
  constructor
  case reading => exact h.reading
  case parked =>
    rw [htls]
    exact hpark
  case eof =>
    rw [htr, hfin, htls, hker]
    intro he
    refine (hi.eof ?_).imp_left h.closed
    rcases he with he | he
    · exact .inl he
    · exact (h.readEof he).symm
  case paused =>
    rw [h.paused]
    unfold State.note pausedAfter
    split
    · rfl
    · rfl
    · exact hi.paused
  case closed =>
    rw [htr, ← hi.closed]
    unfold State.note
    split <;> rfl
  case kept =>
    rw [htr]
    exact h.closed
  case orderly =>
    unfold State.note
    split <;> exact hi.orderly
  case conserved =>
    rw [htls, hker, harr, ← hi.conserved]
    unfold State.note
    split <;> rfl
  case data =>
    rw [htr]
    intro hd
    refine (h.data hd).imp_right fun hx => hx.resolve_left ?_
    rw [hlate]
    rintro ⟨⟩

variable {pull n : ℕ}

/-- A receive takes the next bytes. -/
theorem receive_inv (hio : s.transport.io = .dataCb) (hr : Reading s.transport)
    (heof : s.transport.readEof = true → s.tls = [] ∧ s.kernel = [])
    (hpaused : pausedIn s.log = false) (hclosed : closedIn s.log = false)
    (hp : s.transport.paused = false) (hc : s.transport.closed = false) (horderly : Orderly s.log)
    (hconserved : delivered s.log ++ (s.tls ++ s.kernel) = s.arrived)
    (hs : s.receive pull n = some t) : Inv t := by
  unfold State.receive at hs
  dsimp only at hs
  split at hs <;> cases hs
  case isTrue h =>
    obtain ⟨hn, hle, -⟩ := h
    constructor
    case reading => exact hr
    case parked => exact fun w hw => absurd (hio.symm.trans hw) (by rintro ⟨⟩)
    case eof =>
      rintro (he | he)
      · exact absurd (hio.symm.trans he) (by rintro ⟨⟩)
      · obtain ⟨htls, hker⟩ := heof he
        simp only [htls, hker, List.take_nil, List.append_nil, List.length_nil] at hle
        omega
    case paused => exact hpaused.trans hp.symm
    case closed => exact hclosed.trans hc.symm
    case orderly => exact ⟨hpaused, hclosed, horderly⟩
    case conserved =>
      calc delivered s.log ++ (s.tls ++ s.kernel.take pull).take n ++
            ((s.tls ++ s.kernel.take pull).drop n ++ s.kernel.drop pull)
        _ = delivered s.log ++ (((s.tls ++ s.kernel.take pull).take n ++
              (s.tls ++ s.kernel.take pull).drop n) ++ s.kernel.drop pull) := by
          simp only [List.append_assoc]
        _ = delivered s.log ++ (s.tls ++ s.kernel) := by
          rw [List.take_append_drop, List.append_assoc, List.take_append_drop]
        _ = s.arrived := hconserved

theorem Arrives.settle {u : StreamTransport.State} (h : Arrives s u)
    (hs : s.settle u pull n = some t) : Inv t := by
  unfold State.settle at hs
  dsimp only at hs
  split at hs
  case isTrue hd =>
    simp only [enters, Bool.and_eq_true, beq_iff_eq, bne_iff_ne, ne_eq] at hd
    obtain ⟨hp, hc⟩ := (h.data hd.1).resolve_left hd.2
    have hold : s.transport.closed = false := by
      by_contra hold
      exact absurd (hc.symm.trans (h.kept (by simpa using hold))) (by rintro ⟨⟩)
    rw [if_neg (by simp [hc])] at hs
    refine receive_inv (s := { s with transport := u }) hd.1 h.reading (fun he => ?_)
      (h.paused.trans hp) (h.closed.trans hold) hp hc h.orderly h.conserved hs
    exact ((h.eof (.inr he)).resolve_left (by rw [hc]; rintro ⟨⟩)).2
  case isFalse hd =>
    split at hs <;> cases hs
    case isFalse he =>
      constructor
      case reading => exact h.reading
      case parked => exact h.parked
      case eof =>
        rintro (hx | hx)
        · by_cases hold : s.transport.io = .eofCb
          · exact h.eof (.inl hold)
          · have hx : u.io = .eofCb := hx
            simpa [enters, hx, hold, or_iff_not_imp_left, and_assoc] using he
        · exact h.eof (.inr hx)
      case paused =>
        rw [← h.paused]
        split <;> rfl
      case closed =>
        split
        case isTrue hc =>
          simp only [Bool.and_eq_true] at hc
          exact hc.1.symm
        case isFalse hc =>
          rw [h.closed]
          cases hold : s.transport.closed with
          | true => exact (h.kept hold).symm
          | false => simpa [hold] using hc
      case orderly => split <;> exact h.orderly
      case conserved =>
        rw [← h.conserved]
        split <;> rfl

theorem Inv.with_going (hi : Inv s) (going : Bool) : Inv { s with going := going } :=
  ⟨hi.reading, hi.parked, hi.eof, hi.paused, hi.closed, hi.orderly, hi.conserved⟩

theorem Inv.with_ready (hi : Inv s) (ready : Option (Bool × Bool)) : Inv { s with ready := ready } :=
  ⟨hi.reading, hi.parked, hi.eof, hi.paused, hi.closed, hi.orderly, hi.conserved⟩

theorem arrive_inv (hi : Inv s) (chunk : List B) (hfin : s.fin = false) :
    Inv { s with kernel := s.kernel ++ chunk, arrived := s.arrived ++ chunk } where
  reading := hi.reading
  parked := hi.parked
  eof he := by
    rcases hi.eof he with hc | ⟨hf, -⟩
    · exact .inl hc
    · exact absurd (hfin.symm.trans hf) (by rintro ⟨⟩)
  paused := hi.paused
  closed := hi.closed
  orderly := hi.orderly
  conserved := by
    change delivered s.log ++ (s.tls ++ (s.kernel ++ chunk)) = s.arrived ++ chunk
    rw [← hi.conserved]
    simp only [List.append_assoc]

theorem feed_inv (hi : Inv s) (k : ℕ) (hio : ∀ r w, s.transport.io ≠ .waiting r w) :
    Inv { s with tls := s.tls ++ s.kernel.take k, kernel := s.kernel.drop k } where
  reading := hi.reading
  parked w hw := absurd hw (hio true w)
  eof he := by
    rcases hi.eof he with hc | ⟨hf, ht, hk⟩
    · exact .inl hc
    · refine .inr ⟨hf, ?_, ?_⟩
      · change s.tls ++ s.kernel.take k = []
        simp [ht, hk]
      · change s.kernel.drop k = []
        simp [hk]
  paused := hi.paused
  closed := hi.closed
  orderly := hi.orderly
  conserved := by
    change delivered s.log ++ (s.tls ++ s.kernel.take k ++ s.kernel.drop k) = s.arrived
    rw [List.append_assoc, List.take_append_drop]
    exact hi.conserved

/-- Netpoll ends the wait: the io fiber is to go on. -/
theorem ready_inv (hi : Inv s) {r w : Bool} (hio : s.transport.io = .waiting r w)
    (ready : Option (Bool × Bool)) :
    Inv { s with transport := { s.transport with io := .yielding }, ready := ready } where
  reading :=
    ⟨hi.reading.winding,
      fun hg => absurd ((hi.reading.ioG (by rw [hio]; rintro ⟨⟩)).symm.trans hg) (by rintro ⟨⟩),
      (by intros; contradiction), (by intros; contradiction), (by intros; contradiction)⟩
  parked := nofun
  eof he := hi.eof (.inr (he.resolve_left nofun))
  paused := hi.paused
  closed := hi.closed
  orderly := hi.orderly
  conserved := hi.conserved

theorem act_inv {a : StreamTransport.Action} {more : Bool} (hi : Inv s)
    (hok : amiss s (.act a pull n more) = false) (hs : step s (.act a pull n more) = some t) :
    Inv t := by
  simp only [amiss, Bool.or_eq_false_iff] at hok
  simp only [step] at hs
  split at hs
  case isFalse => cases hs
  case isTrue hallow =>
    obtain ⟨u, hu, hs⟩ := Option.bind_eq_some_iff.mp hs
    split at hs
    case isFalse => cases hs
    case isTrue hpark =>
      obtain ⟨t, ht, rfl⟩ := Option.map_eq_some_iff.mp hs
      have hsteps : Steps s.transport a u := by
        refine step_steps hi.reading hok.2 hu ?_
        rintro r w d v parks rfl
        exact absurd hallow (by rintro ⟨⟩)
      refine Inv.with_going ((hi.arrives hsteps hok.1 fun w hw => ?_).settle ht) _
      -- a fiber that parks in this step has looked at `pending()`
      cases hl : looks a with
      | false => exact hi.parked w (hsteps.waiting hl true w hw)
      | true => simpa [State.mayPark, hw, hl] using hpark

theorem resume_inv {d : SendRes} {v : RecvRes} {parks : Bool} (hi : Inv s)
    (hok : amiss s (.resume d v parks pull n) = false)
    (hs : step s (.resume d v parks pull n) = some t) : Inv t := by
  simp only [step] at hs
  split at hs
  case h_1 r w _ hio =>
    obtain ⟨u, hu, hs⟩ := Option.bind_eq_some_iff.mp hs
    have hsteps := wake_steps hi.reading hio hu
    refine ((hi.with_ready none).arrives hsteps hok fun w' hw => ?_).settle hs
    exact hi.parked w' (hsteps.waiting rfl true w' hw)
  case h_2 => cases hs

theorem step_inv {a : Action B} (hi : Inv s) (hok : amiss s a = false) (hs : step s a = some t) :
    Inv t := by
  cases a with
  | arrive chunk =>
    simp only [step] at hs
    split at hs
    case isTrue => cases hs
    case isFalse hfin =>
      cases hs
      exact arrive_inv hi chunk (by simpa using hfin)
  | finish =>
    cases hs
    refine ⟨hi.reading, hi.parked, fun he => ?_, hi.paused, hi.closed, hi.orderly, hi.conserved⟩
    exact (hi.eof he).imp_right fun ⟨_, hx⟩ => ⟨rfl, hx⟩
  | feed k =>
    simp only [step] at hs
    split at hs
    case isFalse => cases hs
    case isTrue hsend =>
      cases hs
      refine feed_inv hi k fun r w hio => ?_
      simp [State.sends, hio] at hsend
  | ready r w =>
    simp only [step] at hs
    split at hs
    case h_1 hio =>
      split at hs <;> cases hs
      exact ready_inv hi hio _
    case h_2 => cases hs
  | resume d v parks pull n => exact resume_inv hi hok hs
  | act a pull n more => exact act_inv hi hok hs

end Steps

theorem reachable_inv {s : State B} (hr : Reachable heedful s) : Inv s := by
  refine Reachable.invariant ?_ ?_ hr
  · rintro s ⟨plain, tls, -, rfl⟩
    exact inv_start plain tls
  · intro s a t _ hi hs
    obtain ⟨hok, hs⟩ := System.restrict_step.mp hs
    exact step_inv hi hok hs

theorem Inv.live {s : State B} (hi : Inv s) {accepts : Bool} (hq : s.Quiescent accepts)
    (hp : pausedIn s.log = false) (hc : closedIn s.log = false) :
    delivered s.log = s.arrived ∨ accepts = false ∧ s.transport.io.inTls = true := by
  obtain ⟨hbuilt, -, hio⟩ := hq
  rw [hi.paused] at hp
  rw [hi.closed] at hc
  have hall : s.tls = [] → s.kernel = [] → delivered s.log = s.arrived := by
    intro htls hker
    rw [← hi.conserved, htls, hker, List.append_nil, List.append_nil]
  have heof : s.transport.readEof = true → delivered s.log = s.arrived := by
    intro he
    obtain ⟨-, htls, hker⟩ := (hi.eof (.inr he)).resolve_left (by rw [hc]; rintro ⟨⟩)
    exact hall htls hker
  rcases hio with hgone | ⟨r, w, hwait, hr, -⟩ | ⟨htls, -, hacc⟩
  · obtain ⟨-, hx⟩ := (hi.reading.gone hgone).resolve_left (by rw [hc]; rintro ⟨⟩)
    exact .inl (heof ((hx hbuilt).resolve_left (by rw [hp]; rintro ⟨⟩)))
  · rcases hi.reading.waiting r w hwait with hrr | hx | hx | hx
    · cases hrr
      exact .inl (hall (hi.parked w hwait) (hr rfl))
    · exact absurd (hp.symm.trans hx) (by rintro ⟨⟩)
    · exact .inl (heof hx)
    · exact absurd (hc.symm.trans hx) (by rintro ⟨⟩)
  · exact .inr ⟨hacc, htls⟩

/-- `get_buffer` calls `pause_reading`. -/
theorem getBuffer_ignores_pause : ∃ s : State ℕ, Reachable system s ∧
    s.log = [.data [1], .pause] ∧ ¬ Sound s := by
  have hr : Reachable system _ := reachable_of_run system
    [.act .construct 0 0 false, .act (.run false none) 0 0 false, .arrive [1], .ready true false,
      .resume .blocked .getBuffer false 0 0, .act .pauseReading 0 0 false,
      .act (.cbReturn false false .data false) 1 1 false] ⟨true, [], fun _ => rfl, rfl⟩ rfl
  exact ⟨_, hr, rfl, fun h => absurd h.orderly.1 (by rintro ⟨⟩)⟩

/-- Netpoll has ended the wait of the io fiber when another fiber calls `close()` with output
queued. -/
theorem round_ignores_close : ∃ s : State ℕ, Reachable system s ∧
    s.log = [.data [1], .close] ∧ ¬ Sound s := by
  have hrun : (system.run (start true []) [.act .construct 0 0 false,
      .act (.run false none) 0 0 false, .arrive [1], .ready true false,
      .act (.write 9 (.sent 2) false) 0 0 false, .act .kick 0 0 false,
      .act (.close false false) 0 0 false, .resume .blocked .data false 1 1]).any
        (fun s => s.log = [.data [1], .close]) = true := by decide +kernel
  obtain ⟨s, hs, h⟩ := (Option.any_eq_true _ _).mp hrun
  have hlog : s.log = [.data [1], .close] := of_decide_eq_true h
  refine ⟨s, reachable_of_run system _ ⟨true, [], fun _ => rfl, rfl⟩ hs, hlog, fun h => ?_⟩
  have ho := h.orderly
  rw [hlog] at ho
  exact absurd ho.2.1 (by rintro ⟨⟩)

/-- `resume_reading` finds the io fiber inside the TLS object and ends it. -/
theorem resume_strands_bytes : ∃ s : State ℕ, Reachable system s ∧ s.Quiescent true ∧
    s.log = [.resume, .pause] ∧ s.arrived = [1] ∧ ¬ Sound s := by
  have hr : Reachable system _ := reachable_of_run system
    [.act .construct 0 0 false, .act (.write 9 .blocked false) 0 0 false, .act .kick 0 0 false,
      .act (.run false none) 0 0 false, .ready false true, .resume .parks .blocked false 0 0,
      .act .pauseReading 0 0 false, .arrive [1], .act .resumeReading 0 0 false]
    ⟨false, [], by rintro ⟨⟩, rfl⟩ rfl
  refine ⟨_, hr, ⟨rfl, rfl, .inl rfl⟩, rfl, rfl, fun h => ?_⟩
  rcases h.live true ⟨rfl, rfl, .inl rfl⟩ rfl rfl with hx | hx
  · exact absurd hx (by rintro ⟨⟩)
  · exact absurd hx.1 (by rintro ⟨⟩)

end Stackweave.Aio.StreamRead
