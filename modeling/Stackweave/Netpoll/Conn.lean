import Mathlib.Data.Nat.Basic
import Stackweave.Transition

/-!
# Closing a `TCPConn` that is in use (`runloom_tcp_conn_io.c.inc`)

Any number of `close` calls against any number of `recv`, `recv_into`, `send`,
`send_all` and `accept` calls on one connection, on the netpoll backend. Each
access to `self->fd` and `self->closed`, each system call and each part of
`wait_fd` is one step. The critical section of the connection is a lock that a
holder gives up only while it is parked, with its parker linked.

A descriptor is `true` for the number that the connection was opened with and
`false` for -1. After close(2) the number may belong to somebody else, so that
the results of a system call and of `wait_fd` on it are left open.
-/

namespace Stackweave.Netpoll.Conn

open Transition

inductive Op
  | recv
  | recvInto
  | send
  | sendAll
  | accept
  deriving DecidableEq

/-- `recv` and `recv_into` take the section; the others do not. -/
def Op.locked : Op → Bool
  | .recv | .recvInto => true
  | _ => false

/-- `send` and `send_all` read the descriptor once and keep it. -/
def Op.caches : Op → Bool
  | .send | .sendAll => true
  | _ => false

/-- Where a call stands. `call` and `link` carry the descriptor in hand; a parker
that is `linked` may have been claimed by `cancel_fd`; `woken` and `unlock` carry
whether `wait_fd` reported readiness. The last nine are those of `close`. -/
inductive Pc
  | idle
  | testClosed (op : Op)
  | testFd (op : Op)
  | lock (op : Op)
  | heldClosed (op : Op)
  | heldFd (op : Op)
  | read (op : Op)
  | call (op : Op) (fd : Bool)
  | reread (op : Op)
  | link (op : Op) (fd : Bool)
  | linked (op : Op) (claimed : Bool)
  | parked (op : Op)
  | woken (op : Op) (ok : Bool)
  | unlock (op : Op) (ok : Bool)
  | returned
  | closeLock
  | closeTest
  | closeTestFd
  | closeRead
  | closeFd (fd : Bool)
  | closeFlag (fd : Bool)
  | closeUnlock (fd : Bool)
  | cancel
  | unregister
  | close2
  | closed (won : Bool)
  deriving DecidableEq

/-- `next` numbers the calls as they start. History: how often close(2) ran, and
whether a system call or a `wait_fd` was issued on the number after it. -/
structure State where
  fd : Bool
  closed : Bool
  owner : Option ℕ
  pc : ℕ → Pc
  next : ℕ
  closes : ℕ
  late : Bool

def init : State :=
  { fd := true, closed := false, owner := none, pc := fun _ => .idle, next := 0
    closes := 0, late := false }

/-- `step` is the only way on; at a system call it is the would-block branch.
`done` is any other result of a system call and `more` a short write of
`send_all`. `ready` and `fail` end a wait, with readiness or with -1. -/
inductive Action
  | call (op : Op)
  | close
  | step (c : ℕ)
  | done (c : ℕ)
  | more (c : ℕ)
  | ready (c : ℕ)
  | fail (c : ℕ)

def State.goto (s : State) (c : ℕ) (p : Pc) : State :=
  { s with pc := Function.update s.pc c p }

/-- Issue a system call or a `wait_fd` on a descriptor. -/
def State.issue (s : State) (fd : Bool) : State :=
  { s with late := s.late || (fd && decide (0 < s.closes)) }

/-- Where the loop of a call goes on after a wait. -/
def Op.retry : Op → Pc
  | .recv => .lock .recv
  | .recvInto => .lock .recvInto
  | .send => .call .send true
  | .sendAll => .call .sendAll true
  | .accept => .read .accept

/-- Where a call goes on when it leaves the loop, or `wait_fd`, while it runs. -/
def Op.leave (op : Op) (ok : Bool) : Pc :=
  if op.locked then .unlock op ok else if ok then op.retry else .returned

/-- What `runloom_netpoll_cancel_fd` does to a call: it claims a linked parker, and
a committed one is woken too. -/
@[grind =]
def Pc.cancelled : Pc → Pc
  | .linked op _ => .linked op true
  | .parked op => .woken op false
  | p => p

/-- The statements of `RunloomTCPConn_recv`, `_send`, `_accept` and `_close`. -/
def advance (s : State) (c : ℕ) : Option State :=
  match s.pc c with
  | .testClosed op => some (s.goto c (if s.closed then .returned else .testFd op))
  | .testFd op =>
    some (s.goto c (if s.fd then (if op.locked then .lock op else .read op) else .returned))
  | .lock op =>
    if s.owner = none then some { s.goto c (.heldClosed op) with owner := some c } else none
  | .heldClosed op => some (s.goto c (if s.closed then .unlock op false else .heldFd op))
  | .heldFd op => some (s.goto c (if s.fd then .read op else .unlock op false))
  | .read op => some (s.goto c (.call op s.fd))
  | .call op fd =>
    -- a call on -1 fails with EBADF, it does not block
    if fd then
      some ((s.issue fd).goto c (if op = .accept then .reread op else .link op fd))
    else none
  | .reread op => some (s.goto c (.link op s.fd))
  | .link op fd =>
    some (if fd then (s.issue fd).goto c (.linked op false) else s.goto c (op.leave false))
  | .linked op claimed =>
    if claimed then some (s.goto c (op.leave false))
    else
      some { s.goto c (.parked op) with owner := if op.locked then none else s.owner }
  | .woken op ok =>
    if op.locked then
      if s.owner = none then some { s.goto c (.unlock op ok) with owner := some c } else none
    else some (s.goto c (op.leave ok))
  | .unlock op ok =>
    some { s.goto c (if ok then .lock op else .returned) with owner := none }
  | .closeLock =>
    if s.owner = none then some { s.goto c .closeTest with owner := some c } else none
  | .closeTest => some (s.goto c (if s.closed then .closeUnlock false else .closeTestFd))
  | .closeTestFd => some (s.goto c (if s.fd then .closeRead else .closeUnlock false))
  | .closeRead => some (s.goto c (.closeFd s.fd))
  | .closeFd fd => some { s.goto c (.closeFlag fd) with fd := false }
  | .closeFlag fd => some { s.goto c (.closeUnlock fd) with closed := true }
  | .closeUnlock fd =>
    some { s.goto c (if fd then .cancel else .closed false) with owner := none }
  | .cancel =>
    some { s with pc := Function.update (fun d => (s.pc d).cancelled) c .unregister }
  | .unregister => some (s.goto c .close2)
  | .close2 => some { s.goto c (.closed true) with closes := s.closes + 1 }
  | _ => none

@[grind =]
def step (s : State) : Action → Option State
  | .call op => some { s.goto s.next (.testClosed op) with next := s.next + 1 }
  | .close => some { s.goto s.next .closeLock with next := s.next + 1 }
  | .step c => advance s c
  | .done c =>
    match s.pc c with
    | .call op fd => some ((s.issue fd).goto c (op.leave false))
    | _ => none
  | .more c =>
    match s.pc c with
    | .call .sendAll fd => some (s.issue fd)
    | _ => none
  | .ready c =>
    match s.pc c with
    | .linked op _ => some (s.goto c (op.leave true))
    | .parked op => some (s.goto c (.woken op true))
    | _ => none
  | .fail c =>
    match s.pc c with
    | .linked op _ => some (s.goto c (op.leave false))
    | .parked op => some (s.goto c (.woken op false))
    | _ => none

def system : System State Action where
  init s := s = init
  step := step

/-- The call has the number in hand outside the section and is not parked: it can
still issue a call on it, or link a parker for it. -/
def Pc.loose : Pc → Bool
  | .call op fd | .link op fd => !op.locked && fd
  | .linked op _ => op.caches
  | .woken op ok => op.caches && ok
  | _ => false

/-- `close` reaches `cancel_fd` while a `send`, `send_all` or `accept` has the number
in hand and is not parked. -/
def straggler (s : State) : Action → Bool
  | .step c => s.pc c == .cancel && (List.range s.next).any fun d => (s.pc d).loose
  | _ => false

/-- The runs in which `cancel_fd` reaches everybody who has the number. -/
def orderly : System State Action :=
  system.restrict fun s a => straggler s a = false

/-! ## Who closes -/

/-- The call is in the section. -/
@[grind =]
def Pc.inside : Pc → Bool
  | .heldClosed _ | .heldFd _ | .unlock _ _ | .closeTest | .closeTestFd | .closeRead
  | .closeFd _ | .closeFlag _ | .closeUnlock _ => true
  | .read op | .call op _ | .link op _ | .linked op _ => op.locked
  | _ => false

/-- The call is in the section and has found the descriptor there. -/
@[grind =]
def Pc.sees : Pc → Bool
  | .closeRead | .closeFd _ => true
  | .read op | .call op _ | .link op _ | .linked op _ => op.locked
  | _ => false

/-- The call has taken the descriptor out of the connection. -/
@[grind =]
def Pc.won : Pc → Bool
  | .closeFlag fd | .closeUnlock fd | .closed fd => fd
  | .cancel | .unregister | .close2 => true
  | _ => false

/-- The call has found the connection closed. -/
@[grind =]
def Pc.lost : Pc → Bool
  | .closeUnlock fd | .closed fd => !fd
  | _ => false

/-- The positions that no call is ever in. -/
@[grind =]
def Pc.odd : Pc → Bool
  | .lock op | .heldClosed op | .heldFd op | .unlock op _ => !op.locked
  | .reread op => op.locked
  | .closeFd fd | .closeFlag fd => !fd
  | _ => false

/-- How often close(2) ran, against who has returned from it. -/
def Counted (closes : ℕ) (pc : ℕ → Pc) : Prop :=
  closes = 0 ∧ (∀ d, pc d ≠ .closed true) ∨ closes = 1 ∧ ∃ d, pc d = .closed true

theorem Counted.congr {n : ℕ} {pc pc' : ℕ → Pc} (h : Counted n pc)
    (hshut : ∀ d, pc' d = .closed true ↔ pc d = .closed true) : Counted n pc' := by
  unfold Counted
  simp only [Ne, hshut]
  exact h

variable {c : ℕ} {p : Pc} {s t : State}

theorem Counted.update {n : ℕ} {pc : ℕ → Pc} (h : Counted n pc)
    (hshut : p = .closed true ↔ pc c = .closed true) : Counted n (Function.update pc c p) := by
  apply h.congr
  intro d
  by_cases hd : d = c
  · rw [hd, Function.update_self, hshut]
  · rw [Function.update_of_ne hd]

structure Claimed (s : State) : Prop where
  fresh : ∀ d, s.next ≤ d → s.pc d = .idle
  owner : ∀ d, (s.pc d).inside = true ↔ s.owner = some d
  sees : ∀ d, (s.pc d).sees = true → s.fd = true
  odd : ∀ d, (s.pc d).odd = false
  won : ∀ d, (s.pc d).won = true → s.fd = false
  one : ∀ d e, (s.pc d).won = true → (s.pc e).won = true → d = e
  taken : s.fd = false → ∃ d, (s.pc d).won = true
  flag : s.closed = true → s.fd = false
  lost : ∀ d, (s.pc d).lost = true → s.fd = false
  closes : Counted s.closes s.pc

/-- A step of call `c` keeps the section, takes it or gives it up. -/
def Passes (s : State) (c : ℕ) (p : Pc) (o : Option ℕ) : Prop :=
  (p.inside = (s.pc c).inside ∧ o = s.owner) ∨ (s.owner = none ∧ p.inside = true ∧ o = some c) ∨
    ((s.pc c).inside = true ∧ p.inside = false ∧ o = none)

theorem Claimed.passes (h : Claimed s) {o : Option ℕ}
    (hp : Passes s c p o) (d : ℕ) :
    (Function.update s.pc c p d).inside = true ↔ o = some d := by
  by_cases hd : d = c
  · subst d
    rw [Function.update_self]
    rcases hp with ⟨hin, rfl⟩ | ⟨-, hin, rfl⟩ | ⟨-, hin, rfl⟩
    · rw [hin]
      exact h.owner c
    · simp [hin]
    · simp [hin]
  · rw [Function.update_of_ne hd]
    rcases hp with ⟨-, rfl⟩ | ⟨hnone, -, rfl⟩ | ⟨hin, -, rfl⟩
    · exact h.owner d
    · rw [h.owner d, hnone]
      simp [Ne.symm hd]
    · rw [h.owner d, (h.owner c).mp hin]
      simp [Ne.symm hd]

/-- A step of one call that leaves the descriptor in place. -/
theorem Claimed.move (h : Claimed s)
    (hpc : t.pc = Function.update s.pc c p) (hfd : t.fd = s.fd)
    (hclosed : t.closed = true → s.fd = false) (hnext : t.next = s.next)
    (hcloses : Counted t.closes t.pc) (hc : s.pc c ≠ .idle)
    (hpass : Passes s c p t.owner) (hsees : p.sees = true → s.fd = true) (hodd : p.odd = false)
    (hwon : p.won = (s.pc c).won) (hlost : p.lost = true → s.fd = false) : Claimed t := by
  have hone : ∀ d, (t.pc d).won = (s.pc d).won := by
    intro d
    rw [hpc]
    by_cases hd : d = c
    · rw [hd, Function.update_self, hwon]
    · rw [Function.update_of_ne hd]
  constructor
  case fresh =>
    intro d hd
    rw [hnext] at hd
    have hdc : d ≠ c := fun e => hc (e ▸ h.fresh d hd)
    rw [hpc, Function.update_of_ne hdc]
    exact h.fresh d hd
  case owner =>
    rw [hpc]
    exact h.passes hpass
  case sees =>
    intro d hd
    rw [hfd]
    rw [hpc] at hd
    by_cases hdc : d = c
    · rw [hdc, Function.update_self] at hd
      exact hsees hd
    · rw [Function.update_of_ne hdc] at hd
      exact h.sees d hd
  case odd =>
    intro d
    rw [hpc]
    by_cases hdc : d = c
    · rw [hdc, Function.update_self, hodd]
    · rw [Function.update_of_ne hdc]
      exact h.odd d
  case won =>
    intro d hd
    rw [hfd]
    rw [hone] at hd
    exact h.won d hd
  case one =>
    intro d e hd he
    rw [hone] at hd he
    exact h.one d e hd he
  case taken =>
    rw [hfd]
    intro hf
    obtain ⟨d, hd⟩ := h.taken hf
    exact ⟨d, by rw [hone, hd]⟩
  case flag => rw [hfd]; exact hclosed
  case lost =>
    intro d hd
    rw [hfd]
    rw [hpc] at hd
    by_cases hdc : d = c
    · rw [hdc, Function.update_self] at hd
      exact hlost hd
    · rw [Function.update_of_ne hdc] at hd
      exact h.lost d hd
  case closes => exact hcloses

/-- The positions of the calls that use the descriptor. -/
@[grind =]
def Pc.uses : Pc → Bool
  | .testClosed _ | .testFd _ | .lock _ | .heldClosed _ | .heldFd _ | .read _ | .call _ _
  | .reread _ | .link _ _ | .linked _ _ | .parked _ | .woken _ _ | .unlock _ _
  | .returned => true
  | _ => false

theorem Pc.uses_plain (h : p.uses = true) :
    p ≠ .idle ∧ p.won = false ∧ p.lost = false ∧ p ≠ .closed true := by
  cases p <;> simp_all [Pc.uses, Pc.won, Pc.lost]

@[simp] theorem Op.leave_uses (op : Op) (ok : Bool) : (op.leave ok).uses = true := by
  cases op <;> cases ok <;> rfl

@[simp] theorem Op.leave_inside (op : Op) (ok : Bool) : (op.leave ok).inside = op.locked := by
  cases op <;> cases ok <;> rfl

@[simp] theorem Op.leave_sees (op : Op) (ok : Bool) : (op.leave ok).sees = false := by
  cases op <;> cases ok <;> rfl

@[simp] theorem Op.leave_odd (op : Op) (ok : Bool) : (op.leave ok).odd = false := by
  cases op <;> cases ok <;> rfl

theorem Claimed.use (h : Claimed s)
    (hpc : t.pc = Function.update s.pc c p) (hfd : t.fd = s.fd) (hclosed : t.closed = s.closed)
    (hnext : t.next = s.next) (hcloses : t.closes = s.closes) (hc : (s.pc c).uses = true)
    (hp : p.uses = true) (hpass : Passes s c p t.owner) (hsees : p.sees = true → s.fd = true)
    (hodd : p.odd = false) : Claimed t := by
  obtain ⟨hidle, hwon, -, hshut⟩ := Pc.uses_plain hc
  obtain ⟨-, hwon', hlost', hshut'⟩ := Pc.uses_plain hp
  have hcount : Counted t.closes t.pc := by
    rw [hcloses, hpc]
    exact h.closes.update (iff_of_false hshut' hshut)
  exact h.move hpc hfd (by rw [hclosed]; exact h.flag) hnext hcount hidle hpass hsees hodd
    (hwon'.trans hwon.symm) (by simp [hlost'])

/-- `self->fd = -1`: the caller takes the descriptor. -/
theorem Claimed.take (h : Claimed s) {fd : Bool} (hpc : s.pc c = .closeFd fd) :
    Claimed { s.goto c (.closeFlag fd) with fd := false } := by
  have hfd : s.fd = true := h.sees c (by rw [hpc]; rfl)
  have hin : s.owner = some c := (h.owner c).mp (by rw [hpc]; rfl)
  have hodd := h.odd c
  rw [hpc] at hodd
  obtain rfl : fd = true := by simpa [Pc.odd] using hodd
  have hno : ∀ d, (s.pc d).won = false := by
    intro d
    by_contra hd
    have := h.won d (by simpa using hd)
    rw [hfd] at this
    cases this
  have hpass := h.passes (c := c) (p := .closeFlag true) (.inl ⟨by rw [hpc]; rfl, rfl⟩)
  constructor
  case fresh =>
    intro d hd
    have hdc : d ≠ c := by
      rintro rfl
      have := h.fresh d hd
      rw [hpc] at this
      cases this
    exact (Function.update_of_ne hdc _ _).trans (h.fresh d hd)
  case owner => exact hpass
  case sees =>
    -- whoever has found the descriptor is in the section, which is the caller's
    intro d hd
    by_cases hdc : d = c
    · subst d
      simp [State.goto, Pc.sees] at hd
    · simp only [State.goto, Function.update_of_ne hdc] at hd
      have hsome := (h.owner d).mp (by
        generalize s.pc d = p at hd
        cases p <;> first | exact hd | cases hd)
      rw [hin] at hsome
      exact absurd (Option.some.inj hsome).symm hdc
  case odd =>
    intro d
    by_cases hdc : d = c
    · subst d
      simp [State.goto, Pc.odd]
    · simp only [State.goto, Function.update_of_ne hdc]
      exact h.odd d
  case won => intro d _; rfl
  case one =>
    have hmine : ∀ d, ((s.goto c (.closeFlag true)).pc d).won = true → d = c := by
      intro d hd
      by_contra hdc
      simp only [State.goto, Function.update_of_ne hdc, hno] at hd
      cases hd
    intro d e hd he
    rw [hmine d hd, hmine e he]
  case taken => exact fun _ => ⟨c, by simp [State.goto, Pc.won]⟩
  case flag => exact fun _ => rfl
  case lost => intro d _; rfl
  case closes =>
    rcases h.closes with ⟨hz, hd⟩ | ⟨-, d, hd⟩
    · exact Counted.update (.inl ⟨hz, hd⟩) (by simp [hpc])
    · have := hno d
      rw [hd] at this
      cases this

/-- A call starts. -/
theorem Claimed.start (h : Claimed s) (hin : p.inside = false)
    (hsees : p.sees = false) (hodd : p.odd = false) (hwon : p.won = false)
    (hlost : p.lost = false) (hshut : p ≠ .closed true) :
    Claimed { s.goto s.next p with next := s.next + 1 } := by
  have hidle : s.pc s.next = .idle := h.fresh _ le_rfl
  have hothers : ∀ (f : Pc → Bool), f p = false → ∀ d, f (Function.update s.pc s.next p d) = true →
      f (s.pc d) = true := by
    intro f hf d hd
    by_cases hdn : d = s.next
    · rw [hdn, Function.update_self, hf] at hd
      cases hd
    · rwa [Function.update_of_ne hdn] at hd
  constructor
  case fresh =>
    intro d hd
    have hdn : d ≠ s.next := by
      dsimp only at hd
      omega
    exact (Function.update_of_ne hdn _ _).trans (h.fresh d (by dsimp only at hd; omega))
  case owner => exact h.passes (.inl ⟨by rw [hidle, hin]; rfl, rfl⟩)
  case sees => exact fun d hd => h.sees d (hothers _ hsees d hd)
  case odd =>
    intro d
    rw [← Bool.not_eq_true]
    intro hd
    have := hothers _ hodd d hd
    rw [h.odd d] at this
    cases this
  case won => exact fun d hd => h.won d (hothers _ hwon d hd)
  case one => exact fun d e hd he => h.one d e (hothers _ hwon d hd) (hothers _ hwon e he)
  case taken =>
    intro hf
    obtain ⟨d, hd⟩ := h.taken hf
    have hdn : d ≠ s.next := by
      rintro rfl
      rw [hidle] at hd
      cases hd
    exact ⟨d, by simpa [State.goto, Function.update_of_ne hdn] using hd⟩
  case flag => exact h.flag
  case lost => exact fun d hd => h.lost d (hothers _ hlost d hd)
  case closes => exact h.closes.update (iff_of_false hshut (by simp [hidle]))

/-- What `cancel_fd` does to the parkers changes nothing else about their calls. -/
theorem Claimed.cancelled (h : Claimed s) :
    Claimed { s with pc := fun d => (s.pc d).cancelled } := by
  have hin : ∀ p : Pc, p.cancelled.inside = p.inside := fun p => by cases p <;> rfl
  have hsees : ∀ p : Pc, p.cancelled.sees = p.sees := fun p => by cases p <;> rfl
  have hodd : ∀ p : Pc, p.cancelled.odd = p.odd := fun p => by cases p <;> rfl
  have hwon : ∀ p : Pc, p.cancelled.won = p.won := fun p => by cases p <;> rfl
  have hlost : ∀ p : Pc, p.cancelled.lost = p.lost := fun p => by cases p <;> rfl
  constructor
  case fresh =>
    intro d hd
    dsimp only
    rw [h.fresh d hd]
    rfl
  case owner => simp only [hin]; exact h.owner
  case sees => simp only [hsees]; exact h.sees
  case odd => simp only [hodd]; exact h.odd
  case won => simp only [hwon]; exact h.won
  case one => simp only [hwon]; exact h.one
  case taken => simp only [hwon]; exact h.taken
  case flag => exact h.flag
  case lost => simp only [hlost]; exact h.lost
  case closes =>
    apply h.closes.congr
    intro d
    dsimp only
    generalize s.pc d = p
    cases p <;> simp [Pc.cancelled]

theorem Claimed.close2 (h : Claimed s) (hpc : s.pc c = .close2) :
    Counted (s.closes + 1) (Function.update s.pc c (.closed true)) := by
  rcases h.closes with ⟨hz, -⟩ | ⟨-, d, hd⟩
  · exact .inr ⟨by omega, c, Function.update_self ..⟩
  · have hdc : d = c := h.one d c (by rw [hd]; rfl) (by rw [hpc]; rfl)
    rw [hdc, hpc] at hd
    cases hd

theorem Claimed.issue (h : Claimed s) (fd : Bool) : Claimed (s.issue fd) :=
  { fresh := h.fresh, owner := h.owner, sees := h.sees, odd := h.odd, won := h.won, one := h.one
    taken := h.taken, flag := h.flag, lost := h.lost, closes := h.closes }

/-- A call goes on inside the section, or outside of it. -/
theorem Claimed.stay (h : Claimed s) (hc : (s.pc c).uses = true)
    (hp : p.uses = true) (hin : p.inside = (s.pc c).inside) (hsees : p.sees = true → s.fd = true)
    (hodd : p.odd = false) : Claimed (s.goto c p) :=
  h.use rfl rfl rfl rfl rfl hc hp (.inl ⟨hin, rfl⟩) hsees hodd

theorem Claimed.leave (h : Claimed s) {op : Op} {ok : Bool}
    (hc : (s.pc c).uses = true) (hin : op.locked = (s.pc c).inside) :
    Claimed (s.goto c (op.leave ok)) :=
  h.stay hc (op.leave_uses ok) (by rw [op.leave_inside ok, hin])
    (by rw [op.leave_sees ok]; exact fun hp => by cases hp) (op.leave_odd ok)

theorem Claimed.lock (h : Claimed s) (hc : (s.pc c).uses = true)
    (hnone : s.owner = none) (hp : p.uses = true) (hin : p.inside = true)
    (hsees : p.sees = true → s.fd = true) (hodd : p.odd = false) :
    Claimed { s.goto c p with owner := some c } :=
  h.use rfl rfl rfl rfl rfl hc hp (.inr (.inl ⟨hnone, hin, rfl⟩)) hsees hodd

/-- A step of `close` that leaves the descriptor and the count alone. -/
theorem Claimed.closing (h : Claimed s)
    (hpc : t.pc = Function.update s.pc c p) (hfd : t.fd = s.fd)
    (hclosed : t.closed = true → s.fd = false) (hnext : t.next = s.next)
    (hcloses : t.closes = s.closes) (hc : s.pc c ≠ .idle)
    (hshut : p = .closed true ↔ s.pc c = .closed true) (hpass : Passes s c p t.owner)
    (hsees : p.sees = true → s.fd = true) (hodd : p.odd = false) (hwon : p.won = (s.pc c).won)
    (hlost : p.lost = true → s.fd = false) : Claimed t := by
  have hcount : Counted t.closes t.pc := by
    rw [hcloses, hpc]
    exact h.closes.update hshut
  exact h.move hpc hfd hclosed hnext hcount hc hpass hsees hodd hwon hlost

theorem Claimed.advance (h : Claimed s) (hs : advance s c = some t) :
    Claimed t := by
  have hseen := h.sees c
  have hodd := h.odd c
  dsimp only [Conn.advance] at hs
  split at hs
  case h_1 op hpc =>
    cases hs
    split
    · exact h.stay (by rw [hpc]; rfl) rfl (by rw [hpc]; rfl) (by rintro ⟨⟩) rfl
    · exact h.stay (by rw [hpc]; rfl) rfl (by rw [hpc]; rfl) (by rintro ⟨⟩) rfl
  case h_2 op hpc =>
    cases hs
    split
    case isTrue hfd =>
      refine h.stay (by rw [hpc]; rfl) ?_ ?_ (fun _ => hfd) ?_
      · cases op <;> rfl
      · rw [hpc]
        cases op <;> rfl
      · cases op <;> rfl
    case isFalse => exact h.stay (by rw [hpc]; rfl) rfl (by rw [hpc]; rfl) (by rintro ⟨⟩) rfl
  case h_3 op hpc =>
    rw [hpc] at hodd
    split at hs
    case isTrue hnone =>
      cases hs
      exact h.lock (by rw [hpc]; rfl) hnone rfl rfl (by rintro ⟨⟩) hodd
    case isFalse => cases hs
  case h_4 op hpc =>
    rw [hpc] at hodd
    cases hs
    split
    · exact h.stay (by rw [hpc]; rfl) rfl (by rw [hpc]; rfl) (by rintro ⟨⟩) hodd
    · exact h.stay (by rw [hpc]; rfl) rfl (by rw [hpc]; rfl) (by rintro ⟨⟩) hodd
  case h_5 op hpc =>
    rw [hpc] at hodd
    have hlocked : op.locked = true := by simpa [Pc.odd] using hodd
    cases hs
    split
    case isTrue hfd =>
      exact h.stay (by rw [hpc]; rfl) rfl (by rw [hpc]; exact hlocked) (fun _ => hfd) rfl
    case isFalse => exact h.stay (by rw [hpc]; rfl) rfl (by rw [hpc]; rfl) (by rintro ⟨⟩) hodd
  case h_6 op hpc =>
    rw [hpc] at hseen
    cases hs
    exact h.stay (by rw [hpc]; rfl) rfl (by rw [hpc]; rfl) hseen rfl
  case h_7 op fd hpc =>
    rw [hpc] at hseen
    split at hs
    case isTrue =>
      cases hs
      apply (h.issue fd).stay (by simp only [State.issue, hpc]; rfl)
      · split <;> rfl
      · simp only [State.issue, hpc]
        split
        case isTrue ha => rw [ha]; rfl
        case isFalse => rfl
      · split
        · rintro ⟨⟩
        · exact hseen
      · split
        case isTrue ha => rw [ha]; rfl
        case isFalse => rfl
    case isFalse => cases hs
  case h_8 op hpc =>
    rw [hpc] at hodd
    cases hs
    apply h.stay (by rw [hpc]; rfl) rfl
    · rw [hpc]
      exact hodd
    · exact fun hp => absurd (hodd.symm.trans hp) (by rintro ⟨⟩)
    · rfl
  case h_9 op fd hpc =>
    rw [hpc] at hseen
    cases hs
    split
    · exact (h.issue fd).stay (by simp only [State.issue, hpc]; rfl) rfl
        (by simp only [State.issue, hpc]; rfl) hseen rfl
    · exact h.leave (by rw [hpc]; rfl) (by rw [hpc]; rfl)
  case h_10 op claimed hpc =>
    split at hs
    · cases hs
      exact h.leave (by rw [hpc]; rfl) (by rw [hpc]; rfl)
    · cases hs
      refine h.use rfl rfl rfl rfl rfl (by rw [hpc]; rfl) rfl ?_ (by rintro ⟨⟩) rfl
      rw [Passes, hpc]
      cases hl : op.locked
      · exact .inl ⟨hl.symm, rfl⟩
      · exact .inr (.inr ⟨hl, rfl, rfl⟩)
  case h_11 op ok hpc =>
    split at hs
    case isTrue hl =>
      split at hs
      case isTrue hnone =>
        cases hs
        exact h.lock (by rw [hpc]; rfl) hnone rfl rfl (by rintro ⟨⟩) (by simp [Pc.odd, hl])
      case isFalse => cases hs
    case isFalse hl =>
      cases hs
      exact h.leave (by rw [hpc]; rfl) (by rw [hpc]; simpa [Pc.inside] using hl)
  case h_12 op ok hpc =>
    rw [hpc] at hodd
    cases hs
    split
    · exact h.use rfl rfl rfl rfl rfl (by rw [hpc]; rfl) rfl
        (.inr (.inr ⟨by rw [hpc]; rfl, rfl, rfl⟩)) (by rintro ⟨⟩) hodd
    · exact h.use rfl rfl rfl rfl rfl (by rw [hpc]; rfl) rfl
        (.inr (.inr ⟨by rw [hpc]; rfl, rfl, rfl⟩)) (by rintro ⟨⟩) rfl
  case h_13 hpc =>
    split at hs
    case isTrue hnone =>
      cases hs
      exact h.closing rfl rfl h.flag rfl rfl (by simp [hpc]) (by simp [hpc])
        (.inr (.inl ⟨hnone, rfl, rfl⟩)) (by rintro ⟨⟩) rfl (by rw [hpc]; rfl) (by rintro ⟨⟩)
    case isFalse => cases hs
  case h_14 hpc =>
    cases hs
    split
    case isTrue hc =>
      exact h.closing rfl rfl h.flag rfl rfl (by simp [hpc]) (by simp [hpc])
        (.inl ⟨by rw [hpc]; rfl, rfl⟩) (by rintro ⟨⟩) rfl (by rw [hpc]; rfl) (fun _ => h.flag hc)
    case isFalse =>
      exact h.closing rfl rfl h.flag rfl rfl (by simp [hpc]) (by simp [hpc])
        (.inl ⟨by rw [hpc]; rfl, rfl⟩) (by rintro ⟨⟩) rfl (by rw [hpc]; rfl) (by rintro ⟨⟩)
  case h_15 hpc =>
    cases hs
    split
    case isTrue hfd =>
      exact h.closing rfl rfl h.flag rfl rfl (by simp [hpc]) (by simp [hpc])
        (.inl ⟨by rw [hpc]; rfl, rfl⟩) (fun _ => hfd) rfl (by rw [hpc]; rfl) (by rintro ⟨⟩)
    case isFalse hfd =>
      exact h.closing rfl rfl h.flag rfl rfl (by simp [hpc]) (by simp [hpc])
        (.inl ⟨by rw [hpc]; rfl, rfl⟩) (by rintro ⟨⟩) rfl (by rw [hpc]; rfl) (fun _ => by simpa using hfd)
  case h_16 hpc =>
    have hfd : s.fd = true := hseen (by rw [hpc]; rfl)
    cases hs
    exact h.closing rfl rfl h.flag rfl rfl (by simp [hpc]) (by simp [hpc])
      (.inl ⟨by rw [hpc]; rfl, rfl⟩) (fun _ => hfd) (by simp [Pc.odd, hfd]) (by rw [hpc]; rfl) (by rintro ⟨⟩)
  case h_17 fd hpc =>
    cases hs
    exact h.take hpc
  case h_18 fd hpc =>
    rw [hpc] at hodd
    obtain rfl : fd = true := by simpa [Pc.odd] using hodd
    have hfd : s.fd = false := h.won c (by rw [hpc]; rfl)
    cases hs
    exact h.closing rfl rfl (fun _ => hfd) rfl rfl (by simp [hpc]) (by simp [hpc])
      (.inl ⟨by rw [hpc]; rfl, rfl⟩) (by rintro ⟨⟩) rfl (by rw [hpc]; rfl) (by rintro ⟨⟩)
  case h_19 fd hpc =>
    have hlost := h.lost c
    rw [hpc] at hlost
    cases hs
    cases fd with
    | true =>
      exact h.closing rfl rfl h.flag rfl rfl (by simp [hpc]) (by simp [hpc])
        (.inr (.inr ⟨by rw [hpc]; rfl, rfl, rfl⟩)) (by rintro ⟨⟩) rfl (by rw [hpc]; rfl) (by rintro ⟨⟩)
    | false =>
      exact h.closing rfl rfl h.flag rfl rfl (by simp [hpc]) (by simp [hpc])
        (.inr (.inr ⟨by rw [hpc]; rfl, rfl, rfl⟩)) (by rintro ⟨⟩) rfl (by rw [hpc]; rfl) hlost
  case h_20 hpc =>
    cases hs
    have hc : (s.pc c).cancelled = .cancel := by rw [hpc]; rfl
    exact h.cancelled.closing rfl rfl h.flag rfl rfl (by simp [hc]) (by simp [hc])
      (.inl ⟨by simp only [hc]; rfl, rfl⟩) (by rintro ⟨⟩) rfl (by simp only [hc]; rfl) (by rintro ⟨⟩)
  case h_21 hpc =>
    cases hs
    exact h.closing rfl rfl h.flag rfl rfl (by simp [hpc]) (by simp [hpc])
      (.inl ⟨by rw [hpc]; rfl, rfl⟩) (by rintro ⟨⟩) rfl (by rw [hpc]; rfl) (by rintro ⟨⟩)
  case h_22 hpc =>
    cases hs
    exact h.move rfl rfl h.flag rfl (h.close2 hpc) (by simp [hpc])
      (.inl ⟨by rw [hpc]; rfl, rfl⟩) (by rintro ⟨⟩) rfl (by rw [hpc]; rfl) (by rintro ⟨⟩)
  case h_23 => cases hs

theorem claimed_init : Claimed init :=
  { fresh := fun _ _ => rfl
    owner := by simp [init, Pc.inside]
    sees := fun _ => by rintro ⟨⟩
    odd := fun _ => rfl
    won := fun _ => by rintro ⟨⟩
    one := fun _ _ => by rintro ⟨⟩
    taken := by rintro ⟨⟩
    flag := by rintro ⟨⟩
    lost := fun _ => by rintro ⟨⟩
    closes := .inl ⟨rfl, fun _ => (by rintro ⟨⟩)⟩ }

theorem Claimed.next {a : Action} (h : Claimed s) (hs : step s a = some t) :
    Claimed t := by
  cases a with
  | call op =>
    cases hs
    exact h.start rfl rfl rfl rfl rfl (by rintro ⟨⟩)
  | close =>
    cases hs
    exact h.start rfl rfl rfl rfl rfl (by rintro ⟨⟩)
  | step c => exact h.advance hs
  | done c =>
    dsimp only [step] at hs
    split at hs
    case h_1 op fd hpc =>
      cases hs
      exact (h.issue fd).leave (by simp only [State.issue, hpc]; rfl)
        (by simp only [State.issue, hpc]; rfl)
    case h_2 => cases hs
  | more c =>
    dsimp only [step] at hs
    split at hs
    case h_1 fd hpc =>
      cases hs
      exact h.issue fd
    case h_2 => cases hs
  | ready c =>
    dsimp only [step] at hs
    split at hs
    case h_1 op claimed hpc =>
      cases hs
      exact h.leave (by rw [hpc]; rfl) (by rw [hpc]; rfl)
    case h_2 op hpc =>
      cases hs
      exact h.stay (by rw [hpc]; rfl) rfl (by rw [hpc]; rfl) (by rintro ⟨⟩) rfl
    case h_3 => cases hs
  | fail c =>
    dsimp only [step] at hs
    split at hs
    case h_1 op claimed hpc =>
      cases hs
      exact h.leave (by rw [hpc]; rfl) (by rw [hpc]; rfl)
    case h_2 op hpc =>
      cases hs
      exact h.stay (by rw [hpc]; rfl) rfl (by rw [hpc]; rfl) (by rintro ⟨⟩) rfl
    case h_3 => cases hs

theorem reachable_claimed (hr : Reachable system s) : Claimed s := by
  apply Reachable.invariant (P := Claimed) ?_ ?_ hr
  · intro s hs
    cases hs
    exact claimed_init
  · intro s a t _ h hs
    exact h.next hs

/-! ## Who is reached by `cancel_fd` -/

/-- The closer has run `cancel_fd`. -/
def Pc.past : Pc → Bool
  | .unregister | .close2 => true
  | .closed won => won
  | _ => false

/-- The call can still use the number without reading it again, or is parked on it. -/
@[grind =]
def Pc.hot : Pc → Bool
  | .call _ fd | .link _ fd => fd
  | .linked op claimed => op.caches || !claimed
  | .parked _ => true
  | .woken op ok => op.caches && ok
  | _ => false

structure Swept (s : State) : Prop where
  past : ∀ c d, (s.pc c).past = true → (s.pc d).hot = false
  late : s.late = false

theorem Pc.won_of_past (h : p.past = true) : p.won = true := by
  cases p <;> first | rfl | exact h | cases h

/-- A call can have the number in hand afterwards only if it had it before, or if it
has just read the descriptor. -/
theorem Swept.move (hc : Claimed s) (h : Swept s)
    (hpc : t.pc = Function.update s.pc c p) (hlate : t.late = false)
    (hpast : p.past = true → (s.pc c).past = true)
    (hhot : p.hot = true → (s.pc c).hot = true ∨ s.fd = true) : Swept t := by
  constructor
  case past =>
    intro e d he
    rw [hpc] at he ⊢
    have hold : (s.pc e).past = true := by
      by_cases hec : e = c
      · rw [hec, Function.update_self] at he
        rw [hec]
        exact hpast he
      · rwa [Function.update_of_ne hec] at he
    by_cases hdc : d = c
    · rw [hdc, Function.update_self, ← Bool.not_eq_true]
      intro hp
      rcases hhot hp with hh | hfd
      · rw [h.past e c hold] at hh
        cases hh
      · rw [hc.won e (Pc.won_of_past hold)] at hfd
        cases hfd
    · rw [Function.update_of_ne hdc]
      exact h.past e d hold
  case late => exact hlate

/-- Nothing is issued on the number after close(2). -/
theorem Swept.issue (hc : Claimed s) (h : Swept s) {fd : Bool}
    (hhot : fd = true → (s.pc c).hot = true) : (s.issue fd).late = false := by
  dsimp only [State.issue]
  rw [h.late, Bool.false_or, Bool.and_eq_false_iff, decide_eq_false_iff_not]
  cases fd with
  | false => exact .inl rfl
  | true =>
    right
    intro hpos
    rcases hc.closes with ⟨hz, -⟩ | ⟨-, d, hd⟩
    · omega
    · have := h.past d c (by rw [hd]; rfl)
      rw [hhot rfl] at this
      cases this

theorem Op.leave_past (op : Op) (ok : Bool) : (op.leave ok).past = false := by
  cases op <;> cases ok <;> rfl

theorem Op.leave_false_hot (op : Op) : (op.leave false).hot = false := by
  cases op <;> rfl

/-- Only a call that keeps the number goes on with it after a wait. -/
theorem Op.leave_true_hot (op : Op) : (op.leave true).hot = op.caches := by
  cases op <;> rfl

/-- `cancel_fd`, when nobody has the number in hand outside the section. -/
theorem Swept.cancel (hc : Claimed s) (h : Swept s) (hpc : s.pc c = .cancel)
    (hloose : ∀ d, (s.pc d).loose = false) :
    Swept { s with pc := Function.update (fun d => (s.pc d).cancelled) c .unregister } := by
  have hfd : s.fd = false := hc.won c (by rw [hpc]; rfl)
  constructor
  case past =>
    intro _ d _
    by_cases hdc : d = c
    · rw [hdc]
      simp [Pc.hot]
    · simp only [Function.update_of_ne hdc]
      have hl := hloose d
      have hsees : (s.pc d).sees = false := by
        rw [← Bool.not_eq_true]
        intro hd
        rw [hc.sees d hd] at hfd
        cases hfd
      generalize s.pc d = p at hl hsees
      cases p with
      | call op fd => cases op <;> first | exact hl | cases hsees
      | link op fd => cases op <;> first | exact hl | cases hsees
      | linked op claimed => cases op <;> first | rfl | cases hl
      | woken op ok => exact hl
      | parked op => cases op <;> rfl
      | _ => rfl
  case late => exact h.late

theorem Swept.advance (hc : Claimed s) (h : Swept s)
    (hok : s.pc c = .cancel → ∀ d, (s.pc d).loose = false) (hs : advance s c = some t) :
    Swept t := by
  dsimp only [Conn.advance] at hs
  split at hs
  case h_1 op hpc =>
    cases hs
    split <;> exact h.move hc rfl h.late (by rintro ⟨⟩) (by rintro ⟨⟩)
  case h_2 op hpc =>
    cases hs
    refine h.move hc rfl h.late ?_ ?_
    · cases op <;> split <;> rintro ⟨⟩
    · cases op <;> split <;> rintro ⟨⟩
  case h_3 op hpc =>
    split at hs
    · cases hs
      exact h.move hc rfl h.late (by rintro ⟨⟩) (by rintro ⟨⟩)
    · cases hs
  case h_4 op hpc =>
    cases hs
    split <;> exact h.move hc rfl h.late (by rintro ⟨⟩) (by rintro ⟨⟩)
  case h_5 op hpc =>
    cases hs
    split <;> exact h.move hc rfl h.late (by rintro ⟨⟩) (by rintro ⟨⟩)
  case h_6 op hpc =>
    cases hs
    exact h.move hc rfl h.late (by rintro ⟨⟩) .inr
  case h_7 op fd hpc =>
    have hhot : fd = true → (s.pc c).hot = true := by
      rw [hpc]
      exact id
    split at hs
    case isTrue hfd =>
      cases hs
      split
      · exact h.move hc rfl (h.issue hc hhot) (by rintro ⟨⟩) (by rintro ⟨⟩)
      · exact h.move hc rfl (h.issue hc hhot) (by rintro ⟨⟩) (fun hp => .inl (hhot hp))
    case isFalse => cases hs
  case h_8 op hpc =>
    cases hs
    exact h.move hc rfl h.late (by rintro ⟨⟩) .inr
  case h_9 op fd hpc =>
    have hhot : fd = true → (s.pc c).hot = true := by
      rw [hpc]
      exact id
    cases hs
    split
    case isTrue hfd => exact h.move hc rfl (h.issue hc hhot) (by rintro ⟨⟩) (fun _ => .inl (hhot hfd))
    case isFalse =>
      exact h.move hc rfl h.late (by simp [op.leave_past]) (by simp [op.leave_false_hot])
  case h_10 op claimed hpc =>
    split at hs
    · cases hs
      exact h.move hc rfl h.late (by simp [op.leave_past]) (by simp [op.leave_false_hot])
    case isFalse hcl =>
      cases hs
      refine h.move hc rfl h.late (by rintro ⟨⟩) (fun _ => .inl ?_)
      rw [hpc]
      simp [Pc.hot, hcl]
  case h_11 op ok hpc =>
    split at hs
    · split at hs
      · cases hs
        exact h.move hc rfl h.late (by rintro ⟨⟩) (by rintro ⟨⟩)
      · cases hs
    · cases hs
      refine h.move hc rfl h.late (by simp [op.leave_past]) ?_
      cases ok with
      | false => simp [op.leave_false_hot]
      | true =>
        rw [op.leave_true_hot, hpc]
        exact fun hp => .inl (by rw [Pc.hot, hp]; rfl)
  case h_12 op ok hpc =>
    cases hs
    split <;> exact h.move hc rfl h.late (by rintro ⟨⟩) (by rintro ⟨⟩)
  case h_13 hpc =>
    split at hs
    · cases hs
      exact h.move hc rfl h.late (by rintro ⟨⟩) (by rintro ⟨⟩)
    · cases hs
  case h_14 hpc =>
    cases hs
    split <;> exact h.move hc rfl h.late (by rintro ⟨⟩) (by rintro ⟨⟩)
  case h_15 hpc =>
    cases hs
    split <;> exact h.move hc rfl h.late (by rintro ⟨⟩) (by rintro ⟨⟩)
  case h_16 hpc =>
    cases hs
    exact h.move hc rfl h.late (by rintro ⟨⟩) (by rintro ⟨⟩)
  case h_17 fd hpc =>
    cases hs
    exact h.move hc rfl h.late (by rintro ⟨⟩) (by rintro ⟨⟩)
  case h_18 fd hpc =>
    cases hs
    exact h.move hc rfl h.late (by rintro ⟨⟩) (by rintro ⟨⟩)
  case h_19 fd hpc =>
    cases hs
    split <;> exact h.move hc rfl h.late (by rintro ⟨⟩) (by rintro ⟨⟩)
  case h_20 hpc =>
    cases hs
    exact h.cancel hc hpc (hok hpc)
  case h_21 hpc =>
    cases hs
    exact h.move hc rfl h.late (fun _ => by rw [hpc]; rfl) (by rintro ⟨⟩)
  case h_22 hpc =>
    cases hs
    exact h.move hc rfl h.late (fun _ => by rw [hpc]; rfl) (by rintro ⟨⟩)
  case h_23 => cases hs

theorem swept_init : Swept init :=
  { past := fun _ _ => (by rintro ⟨⟩), late := rfl }

theorem Swept.start (hc : Claimed s) (h : Swept s)
    (hpc : t.pc = Function.update s.pc s.next p) (hlate : t.late = s.late)
    (hpast : p.past = false) (hhot : p.hot = false) : Swept t :=
  h.move hc hpc (hlate.trans h.late) (by simp [hpast]) (by simp [hhot])

theorem Swept.next {a : Action} (hc : Claimed s) (h : Swept s)
    (hok : straggler s a = false) (hs : step s a = some t) : Swept t := by
  cases a with
  | call op =>
    cases hs
    exact h.start hc rfl rfl rfl rfl
  | close =>
    cases hs
    exact h.start hc rfl rfl rfl rfl
  | step c =>
    refine h.advance hc (fun hpc d => ?_) hs
    simp only [straggler, hpc, beq_self_eq_true, Bool.true_and, List.any_eq_false, List.mem_range,
      Bool.not_eq_true] at hok
    by_cases hd : d < s.next
    · exact hok d hd
    · rw [hc.fresh d (by omega)]
      rfl
  | done c =>
    dsimp only [step] at hs
    split at hs
    case h_1 op fd hpc =>
      cases hs
      have hlate : (s.issue fd).late = false := h.issue hc (c := c) (by rw [hpc]; exact id)
      exact h.move hc rfl hlate (by simp [op.leave_past]) (by simp [op.leave_false_hot])
    case h_2 => cases hs
  | more c =>
    dsimp only [step] at hs
    split at hs
    case h_1 fd hpc =>
      cases hs
      exact { past := h.past, late := h.issue hc (c := c) (by rw [hpc]; exact id) }
    case h_2 => cases hs
  | ready c =>
    dsimp only [step] at hs
    split at hs
    case h_1 op claimed hpc =>
      cases hs
      refine h.move hc rfl h.late (by simp [op.leave_past]) ?_
      rw [op.leave_true_hot, hpc]
      exact fun hp => .inl (by rw [Pc.hot, hp]; rfl)
    case h_2 op hpc =>
      cases hs
      exact h.move hc rfl h.late (by rintro ⟨⟩) (fun _ => .inl (by rw [hpc]; rfl))
    case h_3 => cases hs
  | fail c =>
    dsimp only [step] at hs
    split at hs
    case h_1 op claimed hpc =>
      cases hs
      exact h.move hc rfl h.late (by simp [op.leave_past]) (by simp [op.leave_false_hot])
    case h_2 op hpc =>
      cases hs
      exact h.move hc rfl h.late (by rintro ⟨⟩) (fun _ => .inl (by rw [hpc]; rfl))
    case h_3 => cases hs

theorem reachable_swept (hr : Reachable orderly s) : Swept s := by
  apply Reachable.invariant (P := Swept) ?_ ?_ hr
  · intro s hs
    cases hs
    exact swept_init
  · intro s a t hr h hs
    obtain ⟨hok, hs⟩ := System.restrict_step.mp hs
    exact h.next (reachable_claimed hr.of_restrict) hok hs

/-! ## The connection is closed once and left by everybody -/

/-- close(2) runs at most once, and it has run when the call that took the descriptor
has returned; a call that returned without it left it to one that has the
descriptor. Nothing is issued on the number afterwards, and nobody stays parked. -/
structure Closed (s : State) : Prop where
  once : s.closes ≤ 1
  returned : ∀ c, s.pc c = .closed true → s.closes = 1
  left : ∀ c, s.pc c = .closed false → ∃ d, (s.pc d).won = true
  late : s.late = false
  parked : ∀ c, s.pc c = .closed true → ∀ d op, s.pc d ≠ .parked op

theorem orderly_closed {s : State} (hr : Reachable orderly s) : Closed s := by
  have hc := reachable_claimed hr.of_restrict
  have h := reachable_swept hr
  constructor
  case once => rcases hc.closes with ⟨hz, -⟩ | ⟨hz, -⟩ <;> omega
  case returned =>
    intro c hpc
    rcases hc.closes with ⟨-, hno⟩ | ⟨hz, -⟩
    · exact absurd hpc (hno c)
    · exact hz
  case left =>
    intro c hpc
    exact hc.taken (hc.lost c (by rw [hpc]; rfl))
  case late => exact h.late
  case parked =>
    intro c hpc d op hd
    have := h.past c d (by rw [hpc]; rfl)
    rw [hd] at this
    cases this

/-- A parked `recv` and a parked `send` are woken, and a second `close` finds nothing to do. -/
theorem orderly_closed_parked :
    ∃ s, Reachable orderly s ∧ s.pc 2 = .closed true ∧ s.pc 3 = .closed false ∧
      s.pc 0 = .woken .recv false ∧ s.pc 1 = .returned ∧ Closed s := by
  have hr : ∃ s, Reachable orderly s ∧ s.pc 2 = .closed true ∧ s.pc 3 = .closed false ∧
      s.pc 0 = .woken .recv false ∧ s.pc 1 = .returned :=
    ⟨_, reachable_of_run orderly
      (.flatten [[.call .recv], .replicate 9 (.step 0), [.call .send], .replicate 6 (.step 1),
        [.close], .replicate 10 (.step 2), [.close], .replicate 3 (.step 3), [.step 1]])
      rfl rfl, rfl, rfl, rfl, rfl⟩
  obtain ⟨s, hr, h2, h3, h0, h1⟩ := hr
  exact ⟨s, hr, h2, h3, h0, h1, orderly_closed hr⟩

/-- A `send` that got EAGAIN links its parker after `cancel_fd` and stays parked on the
closed descriptor; a `send_all` that read the number before writes to it after close(2). -/
theorem send_leftBehind :
    ∃ s, Reachable system s ∧ s.pc 2 = .closed true ∧ s.pc 0 = .parked .send ∧ s.late = true ∧
      ¬ Closed s := by
  have hr : ∃ s, Reachable system s ∧ s.pc 2 = .closed true ∧ s.pc 0 = .parked .send ∧
      s.late = true :=
    ⟨_, reachable_of_run system
      (.flatten [[.call .send], .replicate 4 (.step 0), [.call .sendAll], .replicate 3 (.step 1),
        [.close], .replicate 8 (.step 2), .replicate 2 (.step 0), .replicate 2 (.step 2),
        [.done 1]])
      rfl rfl, rfl, rfl, rfl⟩
  obtain ⟨s, hr, h2, h0, hl⟩ := hr
  exact ⟨s, hr, h2, h0, hl, fun h => h.parked 2 h2 0 .send h0⟩

end Stackweave.Netpoll.Conn
