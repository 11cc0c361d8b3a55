import Mathlib.Algebra.Order.BigOperators.Group.Finset
import Stackweave.Tally
import Stackweave.Transition

/-!
# WAKEP (`runloom_mn_park_enter`, `runloom_mn_park_exit`, `runloom_mn_wakep_one`)

`n` hubs and `m` other threads. Hub `h` is thread `h`. Each access to `idle_parked` and to
`runloom_mn_nidle` is a step, and so is each queue that the scan of a parking hub looks at.
The idle backoff is on.

An entry of a queue is `told` once its producer has been through a `wakep_one`, or, pinned, a
`wakep_pinned` for its hub, after the push. A repin is a take and a push.
-/

namespace Stackweave.Wakep

open Transition Tally Function

inductive Place
  | deque (o : ℕ)
  | runq
  /-- the entries of the run-queue that are pinned to the hub -/
  | pinned (h : ℕ)
  deriving DecidableEq

/-- The hubs, other than the owner, that may take what is there. -/
def Place.takes (n : ℕ) : Place → ℕ → Prop
  | .deque o, h => h < n ∧ h ≠ o
  | .runq, h => h < n
  | .pinned k, h => h < n ∧ h = k

def Place.isPinned : Place → Bool
  | .pinned _ => true
  | _ => false

structure Entry where
  g : ℕ
  producer : ℕ
  told : Bool
  deriving DecidableEq

inductive Hub
  /-- past the loop top -/
  | out
  /-- in `park_enter` -/
  | loads
  | stores
  | counts
  /-- the scan, with the number of the look that comes next -/
  | scans (k : ℕ)
  | backs
  /-- a CAS on the own flag was won -/
  | uncounts (exit : Bool)
  /-- `park_enter` returned 0 -/
  | blocked
  /-- back from the wait, up to the loop top -/
  | woke
  /-- in `park_exit` -/
  | exits
  deriving DecidableEq

/-- Where a thread is in `wakep_one` (`one`) or `wakep_pinned`. -/
inductive Call
  | idle
  | hint
  | reads (one : Bool) (i : ℕ)
  | cas (one : Bool) (i : ℕ)
  | uncounts (one : Bool) (i : ℕ)
  | signals (one : Bool) (i : ℕ)
  deriving DecidableEq

structure State where
  queue : Place → List Entry
  yieldq : ℕ → ℕ
  idleParked : ℕ → Bool
  nidle : ℤ
  hub : ℕ → Hub
  call : ℕ → Call
  /-- a kick came since the hub last set its flag -/
  signalled : ℕ → Bool

def start : State :=
  { queue := fun _ => [], yieldq := fun _ => 0, idleParked := fun _ => false, nidle := 0,
    hub := fun _ => .out, call := fun _ => .idle, signalled := fun _ => false }

inductive Action
  | push (t : ℕ) (p : Place) (g : ℕ)
  | take (p : Place) (k : ℕ)
  | yields (h size : ℕ)
  | park (h : ℕ)
  /-- the wait ends, for whatever reason -/
  | leave (h : ℕ)
  | hub (h : ℕ)
  | wakepOne (t : ℕ)
  | wakepPinned (t k : ℕ)
  | call (t : ℕ)

namespace State

variable (n m : ℕ) (s : State)

def goto (h : ℕ) (pc : Hub) : State := { s with hub := Function.update s.hub h pc }

def setCall (t : ℕ) (c : Call) : State := { s with call := Function.update s.call t c }

def setFlag (h : ℕ) (b : Bool) : State :=
  { s with idleParked := Function.update s.idleParked h b }

def setSignalled (h : ℕ) (b : Bool) : State :=
  { s with signalled := Function.update s.signalled h b }

def addIdle (d : ℤ) : State := { s with nidle := s.nidle + d }

/-- `runloom_mn_any_stealable_work`, one look. -/
@[grind =]
def stealable (h : ℕ) : ℕ → Bool
  | 0 => s.queue .runq ≠ []
  | 1 => s.queue (.pinned h) ≠ []
  | k + 2 => if k % 2 = 0 then s.queue (.deque (k / 2)) ≠ [] else 1 < s.yieldq (k / 2)

/-- `runloom_mn_park_enter` and `runloom_mn_park_exit`. -/
def hubStep (h : ℕ) : Option State :=
  match s.hub h with
  | .out | .blocked => none
  | .loads => some (s.goto h (if s.idleParked h then .blocked else .stores))
  | .stores => some (((s.setFlag h true).setSignalled h false).goto h .counts)
  | .counts => some ((s.addIdle 1).goto h (.scans 0))
  | .scans k =>
    if k < 2 + 2 * n then some (s.goto h (if s.stealable h k then .backs else .scans (k + 1)))
    else some (s.goto h .blocked)
  | .backs =>
    if s.idleParked h then some ((s.setFlag h false).goto h (.uncounts false))
    else some (s.goto h .woke)
  | .uncounts exit => some ((s.addIdle (-1)).goto h (if exit then .out else .woke))
  -- the loop top
  | .woke => some (s.goto h (if s.idleParked h then .exits else .out))
  | .exits =>
    if s.idleParked h then some ((s.setFlag h false).goto h (.uncounts true))
    else some (s.goto h .out)

/-- What a call tells of. -/
def covers (one : Bool) (i : ℕ) (p : Place) : Bool :=
  if one then !p.isPinned else p = .pinned i

/-- The call returns. -/
def complete (t : ℕ) (one : Bool) (i : ℕ) : State :=
  { s with
    queue := fun p =>
      if covers one i p then
        (s.queue p).map fun e => if e.producer = t then { e with told := true } else e
      else s.queue p
    call := Function.update s.call t .idle }

/-- `runloom_mn_wakep_kick` returned 0. -/
def missed (t : ℕ) (one : Bool) (i : ℕ) : State :=
  if one then s.setCall t (.reads true (i + 1)) else s.complete t false i

/-- `runloom_mn_wakep_one`, `runloom_mn_wakep_pinned` and `runloom_mn_wakep_kick`. -/
def callStep (t : ℕ) : Option State :=
  match s.call t with
  | .idle => none
  | .hint => some (if s.nidle ≤ 0 then s.complete t true 0 else s.setCall t (.reads true 0))
  | .reads one i =>
    if i < n then
      some (if s.idleParked i then s.setCall t (.cas one i) else s.missed t one i)
    else some (s.complete t one i)
  | .cas one i =>
    some (if s.idleParked i then (s.setFlag i false).setCall t (.uncounts one i)
      else s.missed t one i)
  | .uncounts one i => some ((s.addIdle (-1)).setCall t (.signals one i))
  | .signals one i => some ((s.setSignalled i true).complete t one i)

/-- The thread may push and call: a hub does so in its loop, in a fiber, and from the pump of
the wait it comes back from. -/
def Free (t : ℕ) : Prop :=
  t < n + m ∧ s.call t = .idle ∧ (t < n → s.hub t = .out ∨ s.hub t = .woke)

instance (t : ℕ) : Decidable (s.Free n m t) :=
  inferInstanceAs (Decidable (_ ∧ _ ∧ (_ → _)))

end State

/-- Only its hub pushes onto a deque. -/
def Place.pushedBy (n t : ℕ) : Place → Prop
  | .deque o => o = t ∧ o < n
  | _ => True

instance (n t : ℕ) : (p : Place) → Decidable (p.pushedBy n t)
  | .deque _ => inferInstanceAs (Decidable (_ ∧ _))
  | .runq | .pinned _ => .isTrue trivial

@[grind =]
def step (n m : ℕ) (s : State) : Action → Option State
  | .push t p g =>
    if s.Free n m t ∧ p.pushedBy n t then
      some { s with queue := Function.update s.queue p (s.queue p ++ [⟨g, t, false⟩]) }
    else none
  | .take p k => some { s with queue := Function.update s.queue p ((s.queue p).eraseIdx k) }
  | .yields h size => some { s with yieldq := Function.update s.yieldq h size }
  | .park h =>
    if h < n ∧ s.hub h = .out ∧ s.call h = .idle then some (s.goto h .loads) else none
  | .leave h => if h < n ∧ s.hub h = .blocked then some (s.goto h .woke) else none
  | .hub h => if h < n ∧ s.call h = .idle then s.hubStep n h else none
  | .wakepOne t => if s.Free n m t then some (s.setCall t .hint) else none
  | .wakepPinned t k => if s.Free n m t then some (s.setCall t (.reads false k)) else none
  | .call t => if t < n + m then s.callStep n t else none

def system (n m : ℕ) : System State Action where
  init s := s = start
  step := step n m

/-! ## What is lost -/

@[grind =]
def Call.kicks (h : ℕ) : Call → Prop
  | .uncounts _ i | .signals _ i => i = h
  | _ => False

/-- A kick came or is on its way. -/
def State.Kicked (s : State) (h : ℕ) : Prop :=
  s.signalled h = true ∨ ∃ t, (s.call t).kicks h

def State.Asleep (s : State) (h : ℕ) : Prop :=
  s.hub h = .blocked ∧ ¬ s.Kicked h

/-- An entry its producer told of, and all the hubs that could take it asleep. -/
def State.Stranded (n : ℕ) (s : State) (p : Place) : Prop :=
  (∃ e ∈ s.queue p, e.told = true) ∧ (∃ h, p.takes n h) ∧ ∀ h, p.takes n h → s.Asleep h

/-- A hub that pushes onto the place, its own deque, has no flag set. -/
def Unregistered (p : Place) (s : State) : Action → Prop
  | .push t q _ => q = p → q = .deque t → s.idleParked t = false
  | _ => True

instance (p : Place) (s : State) : (a : Action) → Decidable (Unregistered p s a)
  | .push .. => inferInstanceAs (Decidable (_ → _ → _))
  | .take .. | .yields .. | .park _ | .leave _ | .hub _ | .wakepOne _ | .wakepPinned .. | .call _ =>
    .isTrue trivial

/-! ## Hubs that will look -/

/-- The number of the look at the place. -/
@[grind =]
def Place.look : Place → ℕ
  | .runq => 0
  | .pinned _ => 1
  | .deque o => 2 + 2 * o

/-- The hub looks there before it blocks. -/
@[grind =]
def Hub.Heeds (k₀ : ℕ) : Hub → Prop
  | .scans k => k ≤ k₀
  | .blocked => False
  | _ => True

def State.Aware (s : State) (p : Place) (h : ℕ) : Prop :=
  (s.hub h).Heeds p.look ∨ s.Kicked h

/-- In `park_enter` with the flag set, or in the wait that follows. -/
@[grind =]
def Hub.Parks : Hub → Prop
  | .counts | .scans _ | .backs | .blocked => True
  | _ => False

/-- What the hub adds to `runloom_mn_nidle`, or is about to. -/
@[grind =]
def Hub.weight (flag : Bool) : Hub → ℤ
  | .counts => if flag then 0 else -1
  | .uncounts _ => if flag then 2 else 1
  | _ => if flag then 1 else 0

def Call.weight : Call → ℤ
  | .uncounts .. => 1
  | _ => 0

def State.owed (n m : ℕ) (s : State) : ℤ :=
  ∑ h ∈ Finset.range n, (s.hub h).weight (s.idleParked h) +
    ∑ t ∈ Finset.range (n + m), (s.call t).weight

structure Inv (n m : ℕ) (p : Place) (s : State) : Prop where
  /-- only a hub that parks, or is yet to come to its loop top, has its flag set -/
  flagged : ∀ h, s.idleParked h = true → (s.hub h).Parks ∨ s.hub h = .woke ∨ s.hub h = .exits
  /-- whoever cleared the flag of a hub that parks kicks it -/
  kicked : ∀ h, (s.hub h).Parks → s.idleParked h = true ∨ s.Kicked h
  hint : s.nidle = s.owed n m
  calls : ∀ t < n, s.call t ≠ .idle → s.hub t = .out ∨ s.hub t = .woke
  mine : ∀ o, p = .deque o → ∀ e ∈ s.queue p, e.producer = o ∧ o < n
  /-- the owner does not block over its own entries -/
  own : ∀ o, p = .deque o → s.queue p ≠ [] → s.idleParked o = true →
    (s.hub o).Parks ∧ (s.hub o).Heeds p.look
  /-- the hubs a `wakep_one` has passed by -/
  passed : ∀ t i, s.call t = .reads true i ∨ s.call t = .cas true i → p.isPinned = false →
    (∃ e ∈ s.queue p, e.producer = t) → ∀ j < i, p.takes n j → s.Aware p j
  aims : ∀ t one i, s.call t = .cas one i → i < n
  hit : ∀ t i, (s.call t).kicks i → i < n ∧ (p = .deque t → s.queue p ≠ [] → i ≠ t)
  told : (∃ e ∈ s.queue p, e.told = true) → (∃ h, p.takes n h) →
    ∃ h, p.takes n h ∧ s.Aware p h

theorem Inv.unstranded {n m : ℕ} {p : Place} {s : State} (h : Inv n m p s) :
    ¬ s.Stranded n p := by
  rintro ⟨he, htakes, hasleep⟩
  obtain ⟨j, hj, haware⟩ := h.told he htakes
  obtain ⟨hblocked, hkicked⟩ := hasleep j hj
  rcases haware with hheeds | hk
  · rw [hblocked] at hheeds
    exact hheeds
  · exact hkicked hk

/-! ## A step of a hub -/

section HubStep

variable {n m : ℕ} {p : Place} {s t : State} {h j : ℕ}

/-- The steps of a hub. -/
inductive HubMove (n : ℕ) (s : State) (h : ℕ) : State → Prop
  | park (hpc : s.hub h = .out) : HubMove n s h (s.goto h .loads)
  | leave (hpc : s.hub h = .blocked) : HubMove n s h (s.goto h .woke)
  | load (hpc : s.hub h = .loads) :
      HubMove n s h (s.goto h (if s.idleParked h then .blocked else .stores))
  | store (hpc : s.hub h = .stores) :
      HubMove n s h (((s.setFlag h true).setSignalled h false).goto h .counts)
  | count (hpc : s.hub h = .counts) : HubMove n s h ((s.addIdle 1).goto h (.scans 0))
  | look (k : ℕ) (hpc : s.hub h = .scans k) (hk : k < 2 + 2 * n) :
      HubMove n s h (s.goto h (if s.stealable h k then .backs else .scans (k + 1)))
  | block (k : ℕ) (hpc : s.hub h = .scans k) (hk : 2 + 2 * n ≤ k) :
      HubMove n s h (s.goto h .blocked)
  | clear (exit : Bool) (hpc : s.hub h = if exit then .exits else .backs)
      (hflag : s.idleParked h = true) :
      HubMove n s h ((s.setFlag h false).goto h (.uncounts exit))
  | cleared (exit : Bool) (hpc : s.hub h = if exit then .exits else .backs)
      (hflag : s.idleParked h = false) :
      HubMove n s h (s.goto h (if exit then .out else .woke))
  | uncount (exit : Bool) (hpc : s.hub h = .uncounts exit) :
      HubMove n s h ((s.addIdle (-1)).goto h (if exit then .out else .woke))
  | top (hpc : s.hub h = .woke) :
      HubMove n s h (s.goto h (if s.idleParked h then .exits else .out))

theorem hubStep_moves (hs : s.hubStep n h = some t) : HubMove n s h t := by
  cases hpc : s.hub h with
  | out => simp [State.hubStep, hpc] at hs
  | blocked => simp [State.hubStep, hpc] at hs
  | loads =>
    simp only [State.hubStep, hpc, Option.some.injEq] at hs
    subst hs
    exact .load hpc
  | stores =>
    simp only [State.hubStep, hpc, Option.some.injEq] at hs
    subst hs
    exact .store hpc
  | counts =>
    simp only [State.hubStep, hpc, Option.some.injEq] at hs
    subst hs
    exact .count hpc
  | scans k =>
    simp only [State.hubStep, hpc] at hs
    split at hs
    · next hk =>
      cases hs
      exact .look k hpc hk
    · next hk =>
      cases hs
      exact .block k hpc (Nat.le_of_not_lt hk)
  | backs =>
    simp only [State.hubStep, hpc] at hs
    split at hs
    · next hf =>
      cases hs
      exact .clear false hpc hf
    · next hf =>
      cases hs
      exact .cleared false hpc (eq_false_of_ne_true hf)
  | uncounts exit =>
    simp only [State.hubStep, hpc, Option.some.injEq] at hs
    subst hs
    exact .uncount exit hpc
  | woke =>
    simp only [State.hubStep, hpc, Option.some.injEq] at hs
    subst hs
    exact .top hpc
  | exits =>
    simp only [State.hubStep, hpc] at hs
    split at hs
    · next hf =>
      cases hs
      exact .clear true hpc hf
    · next hf =>
      cases hs
      exact .cleared true hpc (eq_false_of_ne_true hf)

/-- What a step of hub `h` leaves alone. -/
structure HubFrame (h : ℕ) (s t : State) : Prop where
  queue : t.queue = s.queue
  call : t.call = s.call
  hub : ∀ j, j ≠ h → t.hub j = s.hub j
  flag : ∀ j, j ≠ h → t.idleParked j = s.idleParked j
  signalled : ∀ j, j ≠ h → t.signalled j = s.signalled j

theorem HubMove.frame (hm : HubMove n s h t) : HubFrame h s t := by
  cases hm
  all_goals
    refine ⟨rfl, rfl, fun j hj => update_of_ne hj .., fun j hj => ?_, fun j hj => ?_⟩
    all_goals first | rfl | exact update_of_ne hj ..

theorem kicked_congr (hcall : t.call = s.call) (hsig : t.signalled j = s.signalled j)
    (hk : s.Kicked j) : t.Kicked j := by
  unfold State.Kicked
  rw [hsig, hcall]
  exact hk

/-- Only the store of its flag forgets the kick of a hub. -/
theorem HubMove.keeps_kicked (hm : HubMove n s h t) (hstores : s.hub h ≠ .stores)
    (hk : s.Kicked h) : t.Kicked h := by
  cases hm with
  | store hpc => exact absurd hpc hstores
  | _ => exact kicked_congr rfl rfl hk

theorem HubMove.weight (hm : HubMove n s h t)
    (hstores : s.hub h = .stores → s.idleParked h = false) :
    t.nidle = s.nidle + ((t.hub h).weight (t.idleParked h) -
      (s.hub h).weight (s.idleParked h)) := by
  cases hm with
  | park hpc | leave hpc | load hpc =>
    cases hf : s.idleParked h <;> simp [State.goto, hpc, hf, Hub.weight]
  | store hpc =>
    simp [State.goto, State.setFlag, State.setSignalled, hpc, hstores hpc, Hub.weight]
  | count hpc =>
    cases hf : s.idleParked h <;> simp [State.goto, State.addIdle, hpc, hf, Hub.weight]
  | look k hpc hk =>
    cases s.stealable h k <;> simp [State.goto, hpc, Hub.weight]
  | block k hpc hk =>
    cases hf : s.idleParked h <;> simp [State.goto, hpc, hf, Hub.weight]
  | clear exit hpc hflag =>
    cases exit <;> simp [State.goto, State.setFlag, hpc, hflag, Hub.weight]
  | cleared exit hpc hflag =>
    cases exit <;> simp [State.goto, hpc, hflag, Hub.weight]
  | uncount exit hpc =>
    cases exit <;> cases hf : s.idleParked h <;>
      simp [State.goto, State.addIdle, hpc, hf, Hub.weight]
  | top hpc =>
    cases hf : s.idleParked h <;> simp [State.goto, hpc, hf, Hub.weight]

theorem HubMove.heeds {k₀ : ℕ} (hm : HubMove n s h t)
    (hloads : s.hub h = .loads → s.idleParked h = false) (hfinds : s.stealable h k₀ = true)
    (hk₀ : k₀ < 2 + 2 * n) (hheeds : (s.hub h).Heeds k₀) : (t.hub h).Heeds k₀ := by
  cases hm with
  | load hpc =>
    rw [hloads hpc]
    simp [State.goto, Hub.Heeds]
  | look k hpc hk =>
    rw [hpc] at hheeds
    simp only [State.goto, update_self]
    cases hfound : s.stealable h k with
    | true => trivial
    | false =>
      have hne : k ≠ k₀ := by
        rintro rfl
        rw [hfound] at hfinds
        cases hfinds
      exact Nat.lt_of_le_of_ne hheeds hne
  | block k hpc hk =>
    rw [hpc] at hheeds
    exact absurd (Nat.lt_of_le_of_lt hheeds hk₀) (Nat.not_lt.mpr hk)
  | park | leave | store | count => simp [State.goto, Hub.Heeds]
  | clear | cleared | uncount | top =>
    simp only [State.goto, update_self]
    first | trivial | (split <;> trivial)

/-- The hub keeps its own part of the invariant. -/
theorem HubMove.parks (hm : HubMove n s h t)
    (hflagged : s.idleParked h = true → (s.hub h).Parks ∨ s.hub h = .woke ∨ s.hub h = .exits)
    (hkicked : (s.hub h).Parks → s.idleParked h = true ∨ s.Kicked h) :
    (t.idleParked h = true → (t.hub h).Parks ∨ t.hub h = .woke ∨ t.hub h = .exits) ∧
    ((t.hub h).Parks → t.idleParked h = true ∨ t.Kicked h) := by
  cases hm with
  | park hpc | load hpc =>
    have hflag : s.idleParked h = false := by simpa [hpc, Hub.Parks] using hflagged
    simp [State.goto, hflag, Hub.Parks]
  | leave hpc => simp [State.goto, Hub.Parks]
  | store hpc => simp [State.goto, State.setFlag, State.setSignalled, Hub.Parks]
  | count hpc =>
    refine ⟨fun _ => .inl (by simp [State.goto, Hub.Parks]), fun _ => ?_⟩
    exact (hkicked (by simp [hpc, Hub.Parks])).imp id (kicked_congr rfl rfl)
  | look k hpc hk =>
    refine ⟨fun _ => .inl ?_, fun _ => ?_⟩
    · cases hfound : s.stealable h k <;> simp [State.goto, Hub.Parks]
    · exact (hkicked (by simp [hpc, Hub.Parks])).imp id (kicked_congr rfl rfl)
  | block k hpc hk =>
    refine ⟨fun _ => .inl (by simp [State.goto, Hub.Parks]), fun _ => ?_⟩
    exact (hkicked (by simp [hpc, Hub.Parks])).imp id (kicked_congr rfl rfl)
  | clear exit hpc hflag => simp [State.goto, State.setFlag, Hub.Parks]
  | cleared exit hpc hflag => cases exit <;> simp [State.goto, hflag, Hub.Parks]
  | uncount exit hpc =>
    have hflag : s.idleParked h = false := by simpa [hpc, Hub.Parks] using hflagged
    cases exit <;> simp [State.goto, State.addIdle, hflag, Hub.Parks]
  | top hpc => cases hf : s.idleParked h <;> simp [State.goto, hf, Hub.Parks]

theorem HubMove.own {k₀ : ℕ} (hm : HubMove n s h t)
    (hown : s.idleParked h = true → (s.hub h).Parks ∧ (s.hub h).Heeds k₀)
    (hfinds : s.stealable h k₀ = true) (hk₀ : k₀ < 2 + 2 * n) (hflag : t.idleParked h = true) :
    (t.hub h).Parks ∧ (t.hub h).Heeds k₀ := by
  by_cases hwas : s.idleParked h = true
  · obtain ⟨hparks, hheeds⟩ := hown hwas
    have hloads : s.hub h ≠ .loads := by
      intro hpc
      rw [hpc] at hparks
      exact hparks
    refine ⟨?_, hm.heeds (fun hpc => absurd hpc hloads) hfinds hk₀ hheeds⟩
    cases hm with
    | park hpc =>
      rw [hpc] at hparks
      exact hparks.elim
    | leave hpc =>
      rw [hpc] at hheeds
      exact hheeds.elim
    | load hpc => exact absurd hpc hloads
    | store | count | block => simp [State.goto, Hub.Parks]
    | look k hpc hk => cases s.stealable h k <;> simp [State.goto, Hub.Parks]
    | clear => simp [State.goto, State.setFlag] at hflag
    | cleared exit hpc hf =>
      rw [hf] at hwas
      cases hwas
    | uncount exit hpc =>
      rw [hpc] at hparks
      exact hparks.elim
    | top hpc =>
      rw [hpc] at hparks
      exact hparks.elim
  · cases hm with
    | store => simp [State.goto, Hub.Parks, Hub.Heeds]
    | clear => simp [State.goto, State.setFlag] at hflag
    | _ => exact absurd hflag hwas

theorem stealable_look (hq : s.queue p ≠ []) (hp : ∀ k, p = .pinned k → h = k) :
    s.stealable h p.look = true := by
  cases p with
  | runq => simpa [State.stealable, Place.look] using hq
  | pinned k =>
    obtain rfl := hp k rfl
    simpa [State.stealable, Place.look] using hq
  | deque o =>
    have hlook : (Place.deque o).look = 2 * o + 2 := Nat.add_comm ..
    rw [hlook]
    simpa [State.stealable] using hq

theorem Place.takes.pinned {k : ℕ} (ht : p.takes n h) (hp : p = .pinned k) : h = k := by
  subst hp
  exact ht.2

theorem Inv.look_lt (hi : Inv n m p s) (hq : s.queue p ≠ []) : p.look < 2 + 2 * n := by
  cases p with
  | runq => simp only [Place.look]; omega
  | pinned k => simp only [Place.look]; omega
  | deque o =>
    obtain ⟨e, he⟩ := List.exists_mem_of_ne_nil _ hq
    have ho := (hi.mine o rfl e he).2
    simp only [Place.look]
    omega

theorem Inv.loads (hi : Inv n m p s) (hpc : s.hub h = .loads) : s.idleParked h = false := by
  simpa [hpc, Hub.Parks] using hi.flagged h

theorem Inv.stores (hi : Inv n m p s) (hpc : s.hub h = .stores) : s.idleParked h = false := by
  simpa [hpc, Hub.Parks] using hi.flagged h

/-- A hub that is to look at an entry, or is kicked, stays so. -/
theorem HubMove.aware (hm : HubMove n s h t) (hi : Inv n m p s) (hq : s.queue p ≠ [])
    (hj : p.takes n j) (ha : s.Aware p j) : t.Aware p j := by
  have hf := hm.frame
  by_cases hjh : j = h
  · subst hjh
    rcases ha with hheeds | hk
    · refine .inl (hm.heeds hi.loads ?_ (hi.look_lt hq) hheeds)
      exact stealable_look hq fun k hp => hj.pinned hp
    · by_cases hstores : s.hub j = .stores
      · left
        cases hm with
        | store => simp [State.goto, Hub.Heeds]
        | clear exit hpc => cases exit <;> simp [hstores] at hpc
        | cleared exit hpc => cases exit <;> simp [hstores] at hpc
        | _ => simp_all
      · exact .inr (hm.keeps_kicked hstores hk)
  · refine ha.imp (fun hheeds => ?_) (kicked_congr hf.call (hf.signalled j hjh))
    rwa [hf.hub j hjh]

theorem HubMove.inv (hm : HubMove n s h t) (hi : Inv n m p s) (hh : h < n)
    (hcall : s.call h = .idle) : Inv n m p t := by
  have hf := hm.frame
  have hmoved := hm.parks (hi.flagged h) (hi.kicked h)
  constructor
  case flagged =>
    intro j
    by_cases hjh : j = h
    · exact hjh ▸ hmoved.1
    · rw [hf.hub j hjh, hf.flag j hjh]
      exact hi.flagged j
  case kicked =>
    intro j
    by_cases hjh : j = h
    · exact hjh ▸ hmoved.2
    · rw [hf.hub j hjh, hf.flag j hjh]
      exact fun hp => (hi.kicked j hp).imp id (kicked_congr hf.call (hf.signalled j hjh))
  case hint =>
    have hsum := sum_range_update (f := fun j => (s.hub j).weight (s.idleParked j))
      (g := fun j => (t.hub j).weight (t.idleParked j)) hh fun j hj => by
        rw [hf.hub j hj, hf.flag j hj]
    have hw := hm.weight hi.stores
    have hhint := hi.hint
    simp only [State.owed, hf.call] at hhint ⊢
    omega
  case calls =>
    intro k hk hbusy
    rw [hf.call] at hbusy
    have hne : k ≠ h := by
      rintro rfl
      exact hbusy hcall
    rw [hf.hub k hne]
    exact hi.calls k hk hbusy
  case mine => rw [hf.queue]; exact hi.mine
  case own =>
    intro o hp hq hflag
    rw [hf.queue] at hq
    by_cases hoh : o = h
    · subst hoh
      refine hm.own (hi.own o hp hq) ?_ (hi.look_lt hq) hflag
      exact stealable_look hq fun k hpk => by rw [hp] at hpk; cases hpk
    · rw [hf.flag o hoh] at hflag
      rw [hf.hub o hoh]
      exact hi.own o hp hq hflag
  case passed =>
    intro k i hc hp he j hji htk
    rw [hf.queue] at he
    rw [hf.call] at hc
    obtain ⟨e, hmem, heq⟩ := he
    exact hm.aware hi (List.ne_nil_of_mem hmem) htk (hi.passed k i hc hp ⟨e, hmem, heq⟩ j hji htk)
  case aims => rw [hf.call]; exact hi.aims
  case hit =>
    intro k i
    rw [hf.call, hf.queue]
    exact hi.hit k i
  case told =>
    rintro ⟨e, hmem, htold⟩ htakes
    rw [hf.queue] at hmem
    obtain ⟨j, hj, haware⟩ := hi.told ⟨e, hmem, htold⟩ htakes
    exact ⟨j, hj, hm.aware hi (List.ne_nil_of_mem hmem) hj haware⟩

end HubStep

end Stackweave.Wakep
