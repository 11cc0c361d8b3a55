import Mathlib.Data.Nat.Basic
import Stackweave.Transition

/-!
# Closing a patched socket that is in use (`monkey/sockets.py`)

One `_patched_close` against any number of patched `recv`, `recv_into`, `accept`
and `connect` calls on the same socket. Each real call, each read of `fileno()`
and each part of `wait_fd` is one step: the link of the parker, the registration
of the descriptor in the arm cache and the commit of the park.

A descriptor is `true` for the number of the socket and `false` for -1. The
results of the real calls, of the registration and of the wait are left open.
-/

namespace Stackweave.Monkey.Sockets

open Transition Function

inductive Dir
  | read
  | write
  deriving DecidableEq

/-- The three ways through a receive: the C loop on a number that is read once,
`_recv_waitall`, which calls through the socket but waits on a number read once,
and the loop that reads `fileno()` for each wait. -/
inductive Path
  | fast
  | waitall
  | loop
  deriving DecidableEq

inductive Op
  | recv (path : Path)
  | recvInto (path : Path)
  | accept
  | connect

def Op.path : Op → Path
  | .recv p | .recvInto p => p
  | .accept | .connect => .loop

def Op.dir : Op → Dir
  | .connect => .write
  | _ => .read

/-- Where a call stands. `linked` is inside `wait_fd` before the registration and
`registered` after it; the flag says that `cancel_fd` has claimed the parker. The
real call of `connect` is `connect_ex` first and `getsockopt(SO_ERROR)` then. -/
inductive Pc
  | idle
  | fetch (op : Op)
  | call (op : Op) (fd : Bool)
  | refetch (op : Op)
  | link (op : Op) (fd : Bool)
  | linked (op : Op) (claimed : Bool)
  | registered (op : Op) (claimed : Bool)
  | parked (op : Op)
  | woken (op : Op) (ok : Bool)
  | returned

/-- What `_patched_close` does next. -/
inductive Closer
  | fileno
  | unregister
  | cleanup
  | cancel
  | close
  | returned
  deriving DecidableEq

/-- `live` says that the socket still has its descriptor, `armed` is the arm cache for
the number, and `next` numbers the calls as they start. -/
structure State where
  live : Bool
  armed : Dir → Bool
  closer : Closer
  pc : ℕ → Pc
  next : ℕ

def init : State :=
  { live := true, armed := fun _ => false, closer := .fileno, pc := fun _ => .idle, next := 0 }

/-- `step` is the only way on; at a real call it is the would-block branch and inside
`wait_fd` the registration that succeeds. `done` is any other result of a real call.
`ready` and `fail` end a wait, with readiness or otherwise. -/
inductive Action
  | call (op : Op)
  | close
  | step (c : ℕ)
  | done (c : ℕ)
  | ready (c : ℕ)
  | fail (c : ℕ)

def State.goto (s : State) (c : ℕ) (p : Pc) : State :=
  { s with pc := Function.update s.pc c p }

/-- `runloom_netpoll_cancel_fd` claims a linked parker, and a committed one is woken. -/
def Pc.cancelled : Pc → Pc
  | .linked op _ => .linked op true
  | .registered op _ => .registered op true
  | .parked op => .woken op false
  | p => p

/-- A real call on a closed socket, or on -1, fails at once. -/
def State.blocks (s : State) (op : Op) (fd : Bool) : Bool :=
  if op.path = .fast then fd else s.live

def advance (s : State) (c : ℕ) : Option State :=
  match s.pc c with
  | .fetch op => some (s.goto c (.call op s.live))
  | .call op fd =>
    if s.blocks op fd then
      some (s.goto c (if op.path = .loop then .refetch op else .link op fd))
    else none
  | .refetch op => some (s.goto c (.link op s.live))
  | .link op fd => some (s.goto c (if fd then .linked op false else .returned))
  | .linked op claimed =>
    some { s.goto c (.registered op claimed) with armed := Function.update s.armed op.dir true }
  | .registered op claimed => some (s.goto c (if claimed then .returned else .parked op))
  | .woken op ok => some (s.goto c (if ok then .call op true else .returned))
  | _ => none

/-- The statements of `_patched_close`. -/
def close (s : State) : Option State :=
  match s.closer with
  | .fileno => some { s with closer := .unregister }
  | .unregister => some { s with armed := fun _ => false, closer := .cleanup }
  | .cleanup => some { s with closer := .cancel }
  | .cancel => some { s with pc := fun d => (s.pc d).cancelled, closer := .close }
  | .close => some { s with live := false, closer := .returned }
  | .returned => none

@[grind =]
def step (s : State) : Action → Option State
  | .call op =>
    some { s.goto s.next (if op.path = .loop then .call op true else .fetch op) with
      next := s.next + 1 }
  | .close => close s
  | .step c => advance s c
  | .done c =>
    match s.pc c with
    | .call _ _ => some (s.goto c .returned)
    | _ => none
  | .ready c =>
    match s.pc c with
    | .linked op _ | .registered op _ => some (s.goto c (.call op true))
    | .parked op => some (s.goto c (.woken op true))
    | _ => none
  | .fail c =>
    match s.pc c with
    | .linked _ _ | .registered _ _ => some (s.goto c .returned)
    | .parked op => some (s.goto c (.woken op false))
    | _ => none

def system : System State Action where
  init s := s = init
  step := step

/-- The close has dropped the registration. -/
def Closer.dropped : Closer → Bool
  | .fileno | .unregister => false
  | _ => true

/-- The close has run `cancel_fd`. -/
def Closer.swept : Closer → Bool
  | .close | .returned => true
  | _ => false

/-- The call has linked its parker and not yet registered the descriptor. -/
def Pc.arming : Pc → Bool
  | .linked _ _ => true
  | _ => false

/-- The call enters `wait_fd` with the number in hand. -/
def Pc.enters : Pc → Bool
  | .link _ fd => fd
  | _ => false

/-- The close drops the registration while a call is about to register, or a call
enters `wait_fd` after the close has dropped it. -/
@[grind =]
def overtaken (s : State) : Action → Bool
  | .close => s.closer == .unregister && (List.range s.next).any fun d => (s.pc d).arming
  | .step c => s.closer.dropped && (s.pc c).enters
  | _ => false

/-- The runs in which nobody waits on the number past the unregister. -/
def orderly : System State Action :=
  system.restrict fun s a => overtaken s a = false

/-! ## Who still waits -/

/-- The parker is armed and nobody has claimed it. -/
@[grind =]
def Pc.waits : Pc → Bool
  | .registered _ claimed => !claimed
  | .parked _ => true
  | _ => false

structure Dropped (s : State) : Prop where
  fresh : ∀ d, s.next ≤ d → s.pc d = .idle
  arming : s.closer.dropped = true → ∀ d, (s.pc d).arming = false
  armed : s.closer.dropped = true → ∀ dir, s.armed dir = false
  waits : s.closer.swept = true → ∀ d, (s.pc d).waits = false

theorem Closer.dropped_of_swept {k : Closer} (h : k.swept = true) : k.dropped = true := by
  cases k <;> first | rfl | cases h

variable {s t : State} {c : ℕ}

/-- A step of one call that registers nothing. -/
theorem Dropped.move (h : Dropped s) {p : Pc}
    (hpc : t.pc = update s.pc c p) (hcloser : t.closer = s.closer)
    (harmed : t.armed = s.armed) (hnext : t.next = s.next) (hc : s.pc c ≠ .idle)
    (harming : s.closer.dropped = true → p.arming = false)
    (hwaits : s.closer.swept = true → p.waits = false) : Dropped t := by
  constructor
  case fresh =>
    intro d hd
    rw [hnext] at hd
    have hdc : d ≠ c := fun e => hc (e ▸ h.fresh d hd)
    rw [hpc, update_of_ne hdc]
    exact h.fresh d hd
  case arming =>
    intro hdrop d
    rw [hcloser] at hdrop
    rw [hpc]
    by_cases hdc : d = c
    · rw [hdc, update_self]
      exact harming hdrop
    · rw [update_of_ne hdc]
      exact h.arming hdrop d
  case armed =>
    rw [hcloser, harmed]
    exact h.armed
  case waits =>
    intro hswept d
    rw [hcloser] at hswept
    rw [hpc]
    by_cases hdc : d = c
    · rw [hdc, update_self]
      exact hwaits hswept
    · rw [update_of_ne hdc]
      exact h.waits hswept d

/-- A step to a position where the call neither arms nor waits. -/
theorem Dropped.quiet (h : Dropped s) {p : Pc} (hc : s.pc c ≠ .idle)
    (harming : p.arming = false) (hwaits : p.waits = false) : Dropped (s.goto c p) :=
  h.move rfl rfl rfl rfl hc (fun _ => harming) (fun _ => hwaits)

/-- The registration: the close has not dropped it yet. -/
theorem Dropped.register (h : Dropped s) {op : Op} {claimed : Bool}
    (hpc : s.pc c = .linked op claimed) :
    Dropped { s.goto c (.registered op claimed) with
      armed := update s.armed op.dir true } := by
  have hdrop : s.closer.dropped = false := by
    rw [← Bool.not_eq_true]
    intro hd
    have := h.arming hd c
    rw [hpc] at this
    cases this
  have hswept : s.closer.swept = false := by
    rw [← Bool.not_eq_true]
    intro hw
    rw [Closer.dropped_of_swept hw] at hdrop
    cases hdrop
  have hq : Dropped (s.goto c (.registered op claimed)) :=
    h.move rfl rfl rfl rfl (by simp [hpc]) (fun _ => rfl)
      (fun hw => absurd (hw.symm.trans hswept) (by rintro ⟨⟩))
  exact { hq with armed := fun hd => absurd (hd.symm.trans hdrop) (by rintro ⟨⟩) }

theorem Dropped.advance (h : Dropped s)
    (hok : s.closer.dropped = true → (s.pc c).enters = false) (hs : advance s c = some t) :
    Dropped t := by
  dsimp only [Sockets.advance] at hs
  split at hs
  case h_1 op hpc =>
    cases hs
    exact h.quiet (by simp [hpc]) rfl rfl
  case h_2 op fd hpc =>
    split at hs
    · cases hs
      split <;> exact h.quiet (by simp [hpc]) rfl rfl
    · cases hs
  case h_3 op hpc =>
    cases hs
    exact h.quiet (by simp [hpc]) rfl rfl
  case h_4 op fd hpc =>
    rw [hpc] at hok
    cases hs
    cases fd with
    | false => exact h.quiet (by simp [hpc]) rfl rfl
    | true =>
      -- the condition: the close has not dropped the registration
      exact h.move rfl rfl rfl rfl (by simp [hpc]) (fun hd => absurd (hok hd) (by rintro ⟨⟩)) (fun _ => rfl)
  case h_5 op claimed hpc =>
    cases hs
    exact h.register hpc
  case h_6 op claimed hpc =>
    cases hs
    split
    case isTrue => exact h.quiet (by simp [hpc]) rfl rfl
    case isFalse hcl =>
      refine h.move rfl rfl rfl rfl (by simp [hpc]) (fun _ => rfl) (fun hw => ?_)
      have := h.waits hw c
      rw [hpc] at this
      exact absurd this (by simp [Pc.waits, hcl])
  case h_7 op ok hpc =>
    cases hs
    split <;> exact h.quiet (by simp [hpc]) rfl rfl
  case h_8 => cases hs

theorem Pc.cancelled_arming (p : Pc) : p.cancelled.arming = p.arming := by
  cases p <;> rfl

theorem Pc.cancelled_waits (p : Pc) : p.cancelled.waits = false := by
  cases p <;> rfl

theorem Dropped.close (h : Dropped s)
    (hok : s.closer = .unregister → ∀ d, (s.pc d).arming = false) (hs : close s = some t) :
    Dropped t := by
  dsimp only [Sockets.close] at hs
  split at hs
  case h_1 hk =>
    cases hs
    exact { fresh := h.fresh, arming := (by rintro ⟨⟩), armed := (by rintro ⟨⟩), waits := (by rintro ⟨⟩) }
  case h_2 hk =>
    cases hs
    exact { fresh := h.fresh, arming := fun _ => hok hk, armed := fun _ _ => rfl, waits := (by rintro ⟨⟩) }
  case h_3 hk =>
    cases hs
    exact { fresh := h.fresh, arming := fun _ => h.arming (by rw [hk]; rfl)
            armed := fun _ => h.armed (by rw [hk]; rfl), waits := (by rintro ⟨⟩) }
  case h_4 hk =>
    cases hs
    constructor
    case fresh =>
      intro d hd
      dsimp only
      rw [h.fresh d hd]
      rfl
    case arming =>
      intro _ d
      exact (s.pc d).cancelled_arming.trans (h.arming (by rw [hk]; rfl) d)
    case armed => exact fun _ => h.armed (by rw [hk]; rfl)
    case waits => exact fun _ d => (s.pc d).cancelled_waits
  case h_5 hk =>
    cases hs
    exact { fresh := h.fresh, arming := fun _ => h.arming (by rw [hk]; rfl)
            armed := fun _ => h.armed (by rw [hk]; rfl)
            waits := fun _ => h.waits (by rw [hk]; rfl) }
  case h_6 => cases hs

theorem Dropped.start (h : Dropped s) {p : Pc} (harming : p.arming = false)
    (hwaits : p.waits = false) : Dropped { s.goto s.next p with next := s.next + 1 } := by
  have hothers : ∀ (f : Pc → Bool), f p = false → (∀ d, f (s.pc d) = false) →
      ∀ d, f (update s.pc s.next p d) = false := by
    intro f hp hf d
    by_cases hd : d = s.next
    · rw [hd, update_self, hp]
    · rw [update_of_ne hd, hf]
  constructor
  case fresh =>
    intro d hd
    dsimp only at hd
    have hdn : d ≠ s.next := by omega
    exact (update_of_ne hdn _ _).trans (h.fresh d (by omega))
  case arming => exact fun hd => hothers _ harming (h.arming hd)
  case armed => exact h.armed
  case waits => exact fun hw => hothers _ hwaits (h.waits hw)

theorem Dropped.next {a : Action} (h : Dropped s) (hok : overtaken s a = false)
    (hs : step s a = some t) : Dropped t := by
  cases a with
  | call op =>
    cases hs
    split <;> exact h.start rfl rfl
  | close =>
    refine h.close (fun hk d => ?_) hs
    simp only [overtaken, hk, beq_self_eq_true, Bool.true_and, List.any_eq_false, List.mem_range,
      Bool.not_eq_true] at hok
    by_cases hd : d < s.next
    · exact hok d hd
    · rw [h.fresh d (by omega)]
      rfl
  | step c =>
    refine h.advance (fun hd => ?_) hs
    simpa [overtaken, hd] using hok
  | done c =>
    dsimp only [step] at hs
    split at hs
    case h_1 hpc =>
      cases hs
      exact h.quiet (by simp [hpc]) rfl rfl
    case h_2 => cases hs
  | ready c =>
    dsimp only [step] at hs
    split at hs
    case h_1 hpc =>
      cases hs
      exact h.quiet (by simp [hpc]) rfl rfl
    case h_2 hpc =>
      cases hs
      exact h.quiet (by simp [hpc]) rfl rfl
    case h_3 hpc =>
      cases hs
      exact h.quiet (by simp [hpc]) rfl rfl
    case h_4 => cases hs
  | fail c =>
    dsimp only [step] at hs
    split at hs
    case h_1 hpc =>
      cases hs
      exact h.quiet (by simp [hpc]) rfl rfl
    case h_2 hpc =>
      cases hs
      exact h.quiet (by simp [hpc]) rfl rfl
    case h_3 hpc =>
      cases hs
      exact h.quiet (by simp [hpc]) rfl rfl
    case h_4 => cases hs

theorem reachable_dropped (hr : Reachable orderly s) : Dropped s := by
  apply Reachable.invariant (P := Dropped) ?_ ?_ hr
  · intro s hs
    cases hs
    exact { fresh := fun _ _ => rfl, arming := (by rintro ⟨⟩), armed := (by rintro ⟨⟩), waits := (by rintro ⟨⟩) }
  · intro s a t _ h hs
    obtain ⟨hok, hs⟩ := System.restrict_step.mp hs
    exact h.next hok hs

/-! ## Nobody is left behind -/

/-- When the close has returned, no call is parked on the number and the arm cache
records no direction for it. -/
def Deserted (s : State) : Prop :=
  s.closer = .returned → (∀ d op, s.pc d ≠ .parked op) ∧ ∀ dir, s.armed dir = false

theorem orderly_deserted {s : State} (hr : Reachable orderly s) : Deserted s := by
  have h := reachable_dropped hr
  intro hk
  constructor
  · intro d op hd
    have := h.waits (by rw [hk]; rfl) d
    rw [hd] at this
    cases this
  · exact h.armed (by rw [hk]; rfl)

/-- A parked `recv`, a `connect` that has registered and an `accept` between its real call
and its wait: the close wakes two of them, and the third finds -1. -/
theorem orderly_deserted_parked :
    ∃ s, Reachable orderly s ∧ s.closer = .returned ∧ s.pc 0 = .woken (.recv .fast) false ∧
      s.pc 1 = .returned ∧ s.pc 2 = .returned ∧ Deserted s := by
  have hr : ∃ s, Reachable orderly s ∧ s.closer = .returned ∧
      s.pc 0 = .woken (.recv .fast) false ∧ s.pc 1 = .returned ∧ s.pc 2 = .returned :=
    ⟨_, reachable_of_run orderly
      (.flatten [[.call (.recv .fast), .step 0, .step 0, .step 0, .step 0, .step 0, .call .connect,
        .step 1, .step 1, .step 1, .step 1, .call .accept, .step 2], .replicate 5 .close, [.step 1,
        .step 2, .step 2]])
      rfl rfl, rfl, rfl, rfl, rfl⟩
  obtain ⟨s, hr, hk, h0, h1, h2⟩ := hr
  exact ⟨s, hr, hk, h0, h1, h2, orderly_deserted hr⟩

/-- The call has returned, raised or parked. -/
def Pc.rests : Pc → Bool
  | .idle | .parked _ | .returned => true
  | _ => false

/-- A `recv` that got EAGAIN enters `wait_fd` after `cancel_fd` and before the real
close: it stays parked, with the direction armed. -/
theorem recv_leftBehind :
    ∃ s, Reachable system s ∧ s.closer = .returned ∧ (∀ d, (s.pc d).rests = true) ∧
      s.pc 0 = .parked (.recv .fast) ∧ s.armed .read = true ∧ ¬ Deserted s := by
  have hr : ∃ s, Reachable system s ∧ s.closer = .returned ∧
      s.pc = Function.update (fun _ => .idle) 0 (.parked (.recv .fast)) ∧ s.armed .read = true :=
    ⟨_, reachable_of_run system
      (.flatten [[.call (.recv .fast), .step 0, .step 0], .replicate 4 .close, [.step 0, .step 0,
        .step 0, .close]])
      rfl rfl, rfl, by funext d; cases d <;> rfl, rfl⟩
  obtain ⟨s, hr, hk, hpc, ha⟩ := hr
  have h0 : s.pc 0 = .parked (.recv .fast) := by simp [hpc]
  refine ⟨s, hr, hk, fun d => ?_, h0, ha, fun h => (h hk).1 0 _ h0⟩
  by_cases hd : d = 0
  · rw [hd, h0]
    rfl
  · rw [hpc, Function.update_of_ne hd]
    rfl

end Stackweave.Monkey.Sockets
