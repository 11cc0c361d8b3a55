import Mathlib.Logic.Function.Basic
import Mathlib.Tactic.Common
import Stackweave.Transition

/-!
# The targeted pump kick (`runloom_netpoll_wake_pump`, `runloom_netpoll_pump`)

One hub, its pump and any number of wakers, each with `runloom_mn_hub_submit` up to the write of
`runloom_netpoll_wake_pump`. The pool is the hub's own, so no other thread reads its eventfd;
hubs past the 64th, which share the default pool, are not modelled.

After every pump the hub comes to its loop top before it waits again.
-/

namespace Stackweave.PumpKick

open Transition

inductive Waker
  | idle
  /-- the g is on the submission list -/
  | pushed
  /-- the exchange returned 0 -/
  | writes
  deriving DecidableEq

inductive Hub
  /-- the loop top, before the drain of the submission list -/
  | top
  | drained
  /-- in `epoll_wait`, to stay there until something is ready, or not -/
  | waits (blocking : Bool)
  /-- `epoll_wait` returned with the eventfd among its events -/
  | reported
  /-- the eventfd is read, and `wake_pending` not cleared yet -/
  | read
  deriving DecidableEq

structure State where
  subs : List ℕ
  wakePending : Bool
  counter : ℕ
  hub : Hub
  waker : ℕ → Waker

def start : State :=
  { subs := [], wakePending := false, counter := 0, hub := .top, waker := fun _ => .idle }

inductive Action
  /-- a waker with its g -/
  | push (i g : ℕ)
  | exchange (i : ℕ)
  | write (i : ℕ)
  | drain
  | pump (blocking : Bool)
  | turn
  | report
  /-- a timeout, or other events only -/
  | ret
  | readCounter
  | clear

def State.goto (s : State) (i : ℕ) (w : Waker) : State :=
  { s with waker := Function.update s.waker i w }

@[grind =]
def step (s : State) : Action → Option State
  | .push i g =>
    if s.waker i = .idle then some ({ s with subs := s.subs ++ [g] }.goto i .pushed) else none
  | .exchange i =>
    if s.waker i = .pushed then
      some ({ s with wakePending := true }.goto i (if s.wakePending then .idle else .writes))
    else none
  | .write i =>
    if s.waker i = .writes then some ({ s with counter := s.counter + 1 }.goto i .idle) else none
  | .drain => if s.hub = .top then some { s with subs := [], hub := .drained } else none
  -- the self-pump, the pump after the poll of the ring, or the idle wait
  | .pump blocking =>
    if s.hub = .drained ∨ s.hub = .top ∧ blocking = false then
      some { s with hub := .waits blocking }
    else none
  -- a fiber was resumed
  | .turn => if s.hub = .drained then some { s with hub := .top } else none
  | .report =>
    match s.hub with
    | .waits _ => if s.counter = 0 then none else some { s with hub := .reported }
    | _ => none
  | .ret =>
    match s.hub with
    | .waits _ => some { s with hub := .top }
    | _ => none
  | .readCounter =>
    if s.hub = .reported then some { s with counter := 0, hub := .read } else none
  | .clear => if s.hub = .read then some { s with wakePending := false, hub := .top } else none

def system : System State Action where
  init s := s = start
  step := step

/-- The hub is blocked, has a g to take, and nothing is on its way to wake it. -/
def State.Stranded (s : State) : Prop :=
  s.hub = .waits true ∧ s.subs ≠ [] ∧ s.counter = 0 ∧ ∀ i, s.waker i = .idle

/-! ## The flag and the kick -/

/-- A kick is on its way: it is written or will be. -/
def State.Kicked (s : State) : Prop :=
  0 < s.counter ∨ ∃ i, s.waker i = .writes

/-- The hub is on its way to the drain, and does not stay in a wait before it. -/
def Hub.Returns : Hub → Prop
  | .drained | .waits true => False
  | .top | .waits false | .reported | .read => True

structure Inv (s : State) : Prop where
  /-- while the flag is set, there is a kick, or the hub is about to clear it -/
  flag : s.wakePending = true → s.Kicked ∨ s.hub = .read
  /-- a g that came after the drain has a kick, or a waker that has not tried yet -/
  list : s.subs ≠ [] → s.Kicked ∨ (∃ i, s.waker i = .pushed) ∨ s.hub.Returns

theorem Inv.unstranded {s : State} (h : Inv s) : ¬ s.Stranded := by
  rintro ⟨hhub, hsubs, hcounter, hidle⟩
  rcases h.list hsubs with (hpos | ⟨i, hi⟩) | ⟨i, hi⟩ | hret
  · omega
  · rw [hidle i] at hi
    cases hi
  · rw [hidle i] at hi
    cases hi
  · rw [hhub] at hret
    exact hret

section Step

variable {s : State} {i : ℕ} {w : Waker}

theorem goto_self : (s.goto i w).waker i = w := Function.update_self ..

theorem goto_of_ne {j : ℕ} (hj : j ≠ i) : (s.goto i w).waker j = s.waker j :=
  Function.update_of_ne hj ..

/-- A waker that was not about to write moves. -/
theorem kicked_goto (hi : s.waker i ≠ .writes) (h : s.Kicked) : (s.goto i w).Kicked := by
  rcases h with hpos | ⟨j, hj⟩
  · exact .inl hpos
  · have hne : j ≠ i := by
      rintro rfl
      exact hi hj
    exact .inr ⟨j, by rw [goto_of_ne hne, hj]⟩

theorem push_inv {g : ℕ} (h : Inv s) (hi : s.waker i = .idle) :
    Inv ({ s with subs := s.subs ++ [g] }.goto i .pushed) := by
  have hne : s.waker i ≠ .writes := by rw [hi]; rintro ⟨⟩
  constructor
  · intro hflag
    refine (h.flag hflag).imp (fun hk => ?_) id
    exact kicked_goto (s := { s with subs := s.subs ++ [g] }) hne hk
  · intro _
    exact .inr (.inl ⟨i, goto_self⟩)

theorem exchange_inv (h : Inv s) (hi : s.waker i = .pushed) :
    Inv ({ s with wakePending := true }.goto i (if s.wakePending then .idle else .writes)) := by
  have hne : s.waker i ≠ .writes := by rw [hi]; rintro ⟨⟩
  have hkick : ({ s with wakePending := true }.goto i
      (if s.wakePending then .idle else .writes)).Kicked ∨ s.hub = .read := by
    cases hwp : s.wakePending with
    | true => exact (h.flag hwp).imp (kicked_goto (s := { s with wakePending := true }) hne) id
    | false => exact .inl (.inr ⟨i, goto_self⟩)
  constructor
  · intro _
    exact hkick
  · intro _
    refine hkick.imp id fun hread => .inr ?_
    change s.hub.Returns
    rw [hread]
    trivial

theorem write_inv : Inv ({ s with counter := s.counter + 1 }.goto i .idle) :=
  ⟨fun _ => .inl (.inl (Nat.succ_pos _)), fun _ => .inl (.inl (Nat.succ_pos _))⟩

/-- The hub moves, with the flag and the counter as they were. -/
theorem hub_inv {hub : Hub} (h : Inv s) (hread : s.hub ≠ .read)
    (hlist : s.subs ≠ [] → s.Kicked ∨ (∃ i, s.waker i = .pushed) ∨ hub.Returns) :
    Inv { s with hub := hub } :=
  ⟨fun hflag => .inl ((h.flag hflag).resolve_right hread), hlist⟩

end Step

theorem step_inv {s t : State} {a : Action} (h : Inv s) (hs : step s a = some t) : Inv t := by
  cases a with
  | push i g =>
    simp only [step] at hs
    split at hs
    · next hi => cases hs; exact push_inv h hi
    · cases hs
  | exchange i =>
    simp only [step] at hs
    split at hs
    · next hi => cases hs; exact exchange_inv h hi
    · cases hs
  | write i =>
    simp only [step] at hs
    split at hs
    · cases hs; exact write_inv
    · cases hs
  | drain =>
    simp only [step] at hs
    split at hs
    · next hhub =>
      cases hs
      refine ⟨fun hflag => .inl ?_, fun hne => absurd rfl hne⟩
      exact (h.flag hflag).resolve_right (by rw [hhub]; rintro ⟨⟩)
    · cases hs
  | pump blocking =>
    simp only [step] at hs
    split at hs
    · next hhub =>
      cases hs
      rcases hhub with hdrained | ⟨htop, rfl⟩
      · refine hub_inv h (by rw [hdrained]; rintro ⟨⟩) fun hne => ?_
        -- what came after the drain has its waker or its kick
        refine (h.list hne).imp id (.imp id fun hret => ?_)
        rw [hdrained] at hret
        exact hret.elim
      · exact hub_inv h (by rw [htop]; rintro ⟨⟩) fun _ => .inr (.inr trivial)
    · cases hs
  | turn =>
    simp only [step] at hs
    split at hs
    · next hhub =>
      cases hs
      exact hub_inv h (by rw [hhub]; rintro ⟨⟩) fun _ => .inr (.inr trivial)
    · cases hs
  | report =>
    simp only [step] at hs
    split at hs
    · next hhub =>
      split at hs
      · cases hs
      · cases hs
        exact hub_inv h (by rw [hhub]; rintro ⟨⟩) fun _ => .inr (.inr trivial)
    · cases hs
  | ret =>
    simp only [step] at hs
    split at hs
    · next hhub =>
      cases hs
      exact hub_inv h (by rw [hhub]; rintro ⟨⟩) fun _ => .inr (.inr trivial)
    · cases hs
  | readCounter =>
    simp only [step] at hs
    split at hs
    · cases hs
      exact ⟨fun _ => .inr rfl, fun _ => .inr (.inr trivial)⟩
    · cases hs
  | clear =>
    simp only [step] at hs
    split at hs
    · cases hs
      exact ⟨by rintro ⟨⟩, fun _ => .inr (.inr trivial)⟩
    · cases hs

theorem start_inv : Inv start := ⟨by rintro ⟨⟩, fun hne => absurd rfl hne⟩

/-- No kick is lost: with a g on the list, a blocked hub has a count to read or a waker at work. -/
theorem reachable_kick_not_lost {s : State} (hr : Reachable system s) : ¬ s.Stranded := by
  refine Inv.unstranded (Reachable.invariant ?_ ?_ hr)
  · rintro _ rfl
    exact start_inv
  · exact fun _ _ _ _ h hs => step_inv h hs

/-- The hub blocks with two gs on its list. The second waker found the flag of the first, which
is yet to write. -/
theorem reachable_kick_not_lost_skipped : ∃ s, Reachable system s ∧ s.hub = .waits true ∧
    s.subs = [7, 8] ∧ s.counter = 0 ∧ s.waker 0 = .writes ∧ s.waker 1 = .idle ∧ ¬ s.Stranded := by
  have hr := reachable_of_run system
    [.drain, .push 0 7, .exchange 0, .push 1 8, .exchange 1, .pump true] rfl rfl
  exact ⟨_, hr, rfl, rfl, rfl, rfl, rfl, reachable_kick_not_lost hr⟩

end Stackweave.PumpKick
