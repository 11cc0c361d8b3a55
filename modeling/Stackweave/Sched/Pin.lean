import Stackweave.WakeState

/-!
# Pinned fibers (`runloom_mn_pin_for_wake`, `runloom_mn_woken_enqueue`)

The g of `WakeState` with its `pin_hub1`: the hub it is confined to plus one, or 0. Hub `i` is
thread `i`, for `i < n`. Every enqueue reads the pin and then pushes, and a `G.pin` may come
between the two. A pull from the global run-queue and a `G.pin` are under one lock.

A fresh g is on the submission list of a hub until that hub drains it.
-/

namespace Stackweave.Pin

open Transition WakeState Function

/-- `seen` is what a thread read of the pin for the push that it is about to make. All after it is
history: `since i` is that the wake of thread `i` began after the last `G.pin`, `noted` that such
a wake is remembered in `wake_state`, `due` that the next resume is the answer to such a wake, and
`astray` that a resume of this kind was by another hub than that of the pin. -/
structure State where
  base : WakeState.State
  sub : Option ℕ
  pin : ℕ
  seen : ℕ → Option ℕ
  since : ℕ → Bool
  noted : Bool
  due : Bool
  resumed : List ℕ
  astray : Bool

/-- `runloom_mn_fiber_core` has placed the g on hub `h`, pinned or not. -/
def submitted (h : ℕ) (pinned : Bool) : State :=
  { base := start (.ring h), sub := some h, pin := if pinned then h + 1 else 0
    seen := fun _ => none, since := fun _ => false, noted := false, due := false
    resumed := [], astray := false }

inductive Action
  /-- `G.pin`, with the new `pin_hub1` -/
  | pin (k : ℕ)
  /-- the hub drains its submission list -/
  | drain (pl : Place)
  | look (i : ℕ)
  | turn (a : WakeState.Action)

namespace State

variable (n : ℕ) (s : State)

/-- Where the drain of hub `h` puts the g. The deque may be full, and the yield queue too. -/
def drains (h : ℕ) (pl : Place) : Bool :=
  if s.pin = h + 1 then pl = .ring h
  else pl = .deque || pl = .ring h || s.pin = 0 && pl = .yieldq

/-- The timer is of a hub that the g is not pinned to. -/
def elsewhere (i : ℕ) : Bool := s.pin ≠ 0 && s.pin ≠ i + 1

/-- `runloom_mn_woken_enqueue`: only a hub has a deque, and it may be full. -/
def enqueues (i : ℕ) (pl : Place) : Bool :=
  s.seen i ≠ none && (pl = .runq || s.seen i = some 0 && i < n)

/-- `runloom_mn_requeue_local`. -/
def requeues (i : ℕ) (pl : Place) : Bool :=
  s.seen i ≠ none && (pl = .ring i || s.seen i = some 0)

@[grind =]
def allows : WakeState.Action → Bool
  | .timer i _ e => i < n && e == s.elsewhere i
  | .pop i pl => i < n && (pl ≠ .runq || s.pin = 0 || s.pin = i + 1)
  | .advance i pl =>
    match s.base.pc i with
    | .pushing _ _ _ => s.enqueues n i pl
    | .requeues => s.requeues i pl
    | _ => true
  | _ => true

/-- Whether the next resume answers a wake that began since the last `G.pin`, after the next
access of thread `i`: it takes the edge into QUEUED or the timer claim, or finds QUEUED. -/
def dueAfter (i : ℕ) : Bool :=
  match s.base.pc i with
  | .called _ => s.due || s.since i && s.base.ws = .queued
  | .waking _ st | .timing _ _ st =>
    if s.base.ws = st then if st = .parked then s.since i else s.due
    else s.due || s.since i && s.base.ws = .queued
  | .sweepWoken | .parkWoken _ _ => s.noted
  | .claimed _ _ => s.due && s.base.done
  | _ => s.due

def notedAfter (i : ℕ) : Bool :=
  match s.base.pc i with
  | .called _ => s.noted || s.since i && s.base.ws.pending && s.base.ws ≠ .queued
  | .waking _ st | .timing _ _ st =>
    if s.base.ws = st then if st = .parked then s.noted else s.since i
    else s.noted || s.since i && s.base.ws.pending && s.base.ws ≠ .queued
  | .sweepWoken | .parkWoken _ _ => false
  | _ => s.noted

/-- Thread `i` is about to resume the g. -/
def resumes (i : ℕ) : Bool :=
  match s.base.pc i with
  | .claimed _ _ => !s.base.done
  | _ => false

@[grind =]
def history : WakeState.Action → State
  | .call i _ | .timer i _ _ => { s with since := Function.update s.since i true }
  | .advance i _ =>
    { s with
      seen := Function.update s.seen i none
      noted := s.notedAfter i
      due := s.dueAfter i
      resumed := if s.resumes i then i :: s.resumed else s.resumed
      astray := s.astray || s.resumes i && s.due && s.elsewhere i }
  | .yield _ => { s with noted := false }
  | _ => s

end State

@[grind =]
def step (n : ℕ) (s : State) : Action → Option State
  | .pin k =>
    if k ≤ n then
      some { s with pin := k, since := fun _ => false, noted := false, due := false }
    else none
  | .drain pl =>
    match s.sub with
    | some h => if s.drains h pl then some { s with base := start pl, sub := none } else none
    | none => none
  | .look i =>
    match s.base.pc i with
    | .pushing _ _ _ | .requeues => some { s with seen := Function.update s.seen i (some s.pin) }
    | _ => none
  | .turn a =>
    if s.sub = none ∧ s.allows n a = true then
      (WakeState.step s.base a).map fun b => { s.history a with base := b }
    else none

def system (n : ℕ) : System State Action where
  init s := ∃ h < n, ∃ pinned, s = submitted h pinned
  step := step n

/-- With a `G.pin` to `k`, no wake is pending past the reach of the pin: on a deque, read for one,
or with a hub that is about to resume the g. -/
def Movable (s : State) (k : ℕ) : Prop :=
  (∀ e ∈ s.base.entries, e.2.isSome = true → e.1 = .runq) ∧
  ∀ i, ((s.base.pc i).enqueues = true → s.seen i ≠ some 0) ∧
    ((s.base.pc i).claims = true → i + 1 = k)

def Steady (s : State) : Action → Prop
  | .pin k => k = 0 ∨ Movable s k
  | _ => True

/-! ## Pinned at the spawn -/

/-- Only a hub that has the g, or is to requeue it, is there. -/
def onHub : Pc → Bool
  | .requeues | .popped _ | .claiming _ | .claimed _ _ | .running _ _ _ | .parkWoken _ _
  | .dropping _ true | .timing _ false _ => true
  | _ => false

theorem after_onHub {fr requeue : Bool} {ref : Option ℕ}
    (h : onHub (.after fr ref requeue) = true) : requeue = true := by
  cases fr <;> cases requeue <;> first | rfl | cases h

/-- The g is with hub `k`, on its ready ring, or on the run-queue. -/
structure With (k : ℕ) (b : WakeState.State) : Prop where
  entries : ∀ e ∈ b.entries, e.1 = .ring k ∨ e.1 = .runq
  hubs : ∀ i, onHub (b.pc i) = true → i = k

section With

variable {k i : ℕ} {b c : WakeState.State} {q : Pc}

theorem With.hubs_goto (h : With k b) (hpc : c.pc = b.pc) (hq : onHub q = true → i = k) (j : ℕ)
    (hj : onHub ((c.goto i q).pc j) = true) : j = k := by
  simp only [WakeState.State.goto, hpc] at hj
  by_cases hji : j = i
  · subst hji
    rw [update_self] at hj
    exact hq hj
  · rw [update_of_ne hji] at hj
    exact h.hubs j hj

theorem With.goto (h : With k b) (hpc : c.pc = b.pc) (he : c.entries = b.entries)
    (hq : onHub q = true → i = k) : With k (c.goto i q) := by
  refine ⟨?_, h.hubs_goto hpc hq⟩
  change ∀ e ∈ c.entries, _
  rw [he]
  exact h.entries

theorem With.push (h : With k b) {e : Place × Option ℕ} (hpc : c.pc = b.pc)
    (he : c.entries = e :: b.entries) (hpl : e.1 = .ring k ∨ e.1 = .runq)
    (hq : onHub q = true → i = k) : With k (c.goto i q) := by
  refine ⟨?_, h.hubs_goto hpc hq⟩
  change ∀ e ∈ c.entries, _
  rw [he]
  rintro e' he'
  rcases List.mem_cons.mp he' with rfl | he'
  · exact hpl
  · exact h.entries e' he'

theorem With.reread {p : ℕ} (h : With k b) : With k (b.reread i p) := by
  unfold WakeState.State.reread
  split
  · exact h.goto rfl rfl (by rintro ⟨⟩)
  · exact h.goto rfl rfl (by rintro ⟨⟩)

theorem With.retime {p : ℕ} {e : Bool} (h : With k b) (he : e = false → i = k) :
    With k (b.retime i p e) := by
  unfold WakeState.State.retime
  split
  · refine h.goto rfl rfl fun hq => he ?_
    cases e
    · rfl
    · cases hq
  · exact h.goto rfl rfl (by rintro ⟨⟩)

theorem With.advance {pl : Place} (h : With k b) (hs : WakeState.advance b i pl = some c)
    (hpush : ∀ r fr old, b.pc i = .pushing r fr old → pl = .runq)
    (hrequeue : b.pc i = .requeues → pl = .ring i) : With k c := by
  have hhub : onHub (b.pc i) = true → i = k := h.hubs i
  cases hpc : b.pc i with
  | idle => simp [WakeState.advance, hpc] at hs
  | running fr ref sq => simp [WakeState.advance, hpc] at hs
  | called p =>
    simp only [WakeState.advance, hpc, Option.some.injEq] at hs
    exact hs ▸ h.reread
  | waking p st =>
    simp only [WakeState.advance, hpc] at hs
    split at hs
    · split at hs
      · cases hs
        exact h.goto rfl rfl (by rintro ⟨⟩)
      · cases hs
        exact h.goto rfl rfl (by rintro ⟨⟩)
    · cases hs
      exact h.reread
  | increfs fr old =>
    simp only [WakeState.advance, hpc, Option.some.injEq] at hs
    exact hs ▸ h.goto rfl rfl (by rintro ⟨⟩)
  | pushing r fr old =>
    have hrunq := hpush r fr old hpc
    simp only [WakeState.advance, hpc] at hs
    split at hs
    · cases hs
      exact h.push rfl rfl (.inr hrunq) fun hq => absurd (after_onHub hq) (by rintro ⟨⟩)
    · cases hs
  | timing p e st =>
    have he : e = false → i = k := by
      rintro rfl
      exact hhub (by rw [hpc]; rfl)
    simp only [WakeState.advance, hpc] at hs
    split at hs
    · split at hs
      · split at hs
        · cases hs
          exact h.goto rfl rfl (by rintro ⟨⟩)
        · next hnot =>
          cases hs
          exact h.goto rfl rfl fun _ => he (eq_false_of_ne_true hnot)
      · cases hs
        exact h.goto rfl rfl (by rintro ⟨⟩)
    · cases hs
      exact h.retime he
  | requeues =>
    have hi : i = k := hhub (by rw [hpc]; rfl)
    have hring := hrequeue hpc
    simp only [WakeState.advance, hpc] at hs
    split at hs
    · cases hs
      exact h.push rfl rfl (.inl (hi ▸ hring)) (by rintro ⟨⟩)
    · cases hs
  | sweeping =>
    simp only [WakeState.advance, hpc] at hs
    split at hs
    · cases hs
      exact h.goto rfl rfl (by rintro ⟨⟩)
    · cases hs
      exact h.goto rfl rfl (by rintro ⟨⟩)
  | sweepWoken =>
    simp only [WakeState.advance, hpc, Option.some.injEq] at hs
    exact hs ▸ h.goto rfl rfl (by rintro ⟨⟩)
  | popped ref =>
    have hi : i = k := hhub (by rw [hpc]; rfl)
    simp only [WakeState.advance, hpc] at hs
    split at hs
    · cases hs
      exact h.goto rfl rfl fun _ => hi
    · cases hs
      exact h.goto rfl rfl fun _ => hi
  | claiming ref =>
    have hi : i = k := hhub (by rw [hpc]; rfl)
    simp only [WakeState.advance, hpc] at hs
    split at hs
    · cases hs
      exact h.goto rfl rfl fun _ => hi
    · cases hs
      exact h.goto (drop_pc ref) (drop_entries ref) (by rintro ⟨⟩)
  | claimed fr ref =>
    have hi : i = k := hhub (by rw [hpc]; rfl)
    simp only [WakeState.advance, hpc] at hs
    split at hs
    · split at hs
      · cases hs
        exact h.goto (drop_pc ref) (drop_entries ref) (by rintro ⟨⟩)
      · cases hs
        exact h.goto rfl rfl (by rintro ⟨⟩)
    · cases hs
      exact h.goto rfl rfl fun _ => hi
  | parkWoken fr ref =>
    simp only [WakeState.advance, hpc, Option.some.injEq] at hs
    exact hs ▸ h.goto rfl rfl (by rintro ⟨⟩)
  | dropping ref requeue =>
    simp only [WakeState.advance, hpc, Option.some.injEq] at hs
    refine hs ▸ h.goto (drop_pc ref) (drop_entries ref) fun hq => ?_
    cases requeue with
    | true => exact hhub (by rw [hpc]; rfl)
    | false => cases hq

/-- A step of the g that heeds the pin. -/
theorem With.step {n : ℕ} {s : State} {a : WakeState.Action} (h : With k s.base)
    (hpin : s.pin = k + 1) (hseen : ∀ i v, s.seen i = some v → v = k + 1)
    (hok : s.allows n a = true) (hs : WakeState.step s.base a = some c) : With k c := by
  have hseen0 : ∀ i, s.seen i ≠ some 0 := fun i h0 => absurd (hseen i 0 h0) (by rintro ⟨⟩)
  cases a with
  | call i p =>
    simp only [WakeState.step] at hs
    split at hs
    · cases hs
      exact h.goto rfl rfl (by rintro ⟨⟩)
    · cases hs
  | timer i p e =>
    simp only [WakeState.step] at hs
    split at hs
    · cases hs
      refine h.goto rfl rfl fun hq => ?_
      cases e with
      | true => cases hq
      | false =>
        have hboth : i < n ∧ k = i := by simpa [State.allows, State.elsewhere, hpin] using hok
        exact hboth.2.symm
    · cases hs
  | sweep i =>
    simp only [WakeState.step] at hs
    split at hs
    · cases hs
      exact h.goto rfl rfl (by rintro ⟨⟩)
    · cases hs
  | pop i pl =>
    simp only [WakeState.step] at hs
    split at hs
    · next e hfind =>
      split at hs
      · next hc =>
        cases hs
        have hpl : e.1 = pl := by simpa using List.find?_some hfind
        have hi : i = k := by
          rcases h.entries e (List.mem_of_find?_eq_some hfind) with hring | hrunq
          · have hreach := hc.2
            rw [← hpl, hring] at hreach
            exact (by simpa [Place.reach] using hreach : k = i).symm
          · have hpull := hok
            rw [← hpl, hrunq] at hpull
            have hboth : i < n ∧ k = i := by simpa [State.allows, hpin] using hpull
            exact hboth.2.symm
        refine ⟨fun e' he' => h.entries e' (List.mem_of_mem_erase he'), ?_⟩
        exact h.hubs_goto rfl fun _ => hi
      · cases hs
    · cases hs
  | advance i pl =>
    refine h.advance hs ?_ ?_
    · intro r fr old hpc
      have hboth : ¬ s.seen i = none ∧ pl = .runq := by
        simpa [State.allows, hpc, State.enqueues, hseen0 i] using hok
      exact hboth.2
    · intro hpc
      have hboth : ¬ s.seen i = none ∧ pl = .ring i := by
        simpa [State.allows, hpc, State.requeues, hseen0 i] using hok
      exact hboth.2
  | preempt i =>
    simp only [WakeState.step] at hs
    split at hs
    · next fr ref hpc =>
      cases hs
      have hi : i = k := h.hubs i (by rw [hpc]; rfl)
      exact h.push rfl rfl (.inl (hi ▸ rfl)) fun _ => hi
    · cases hs
  | finish i =>
    simp only [WakeState.step] at hs
    split at hs
    · split at hs
      · cases hs
      · cases hs
        exact h.goto rfl rfl fun hq => absurd (after_onHub hq) (by rintro ⟨⟩)
    · cases hs
  | park i =>
    simp only [WakeState.step] at hs
    split at hs
    · next fr ref hpc =>
      have hi : i = k := h.hubs i (by rw [hpc]; rfl)
      split at hs
      · cases hs
        exact h.goto rfl rfl fun _ => hi
      · cases hs
        exact h.goto rfl rfl fun _ => hi
    · cases hs
  | yield i =>
    simp only [WakeState.step] at hs
    split at hs
    · next fr ref sq hpc =>
      have hi : i = k := h.hubs i (by rw [hpc]; rfl)
      split at hs
      · cases hs
      · cases hs
        exact h.goto rfl rfl fun _ => hi
    · cases hs

end With

structure Confined (k : ℕ) (s : State) : Prop where
  pin : s.pin = k + 1
  sub : ∀ h, s.sub = some h → h = k
  place : With k s.base
  seen : ∀ i v, s.seen i = some v → v = k + 1
  resumed : ∀ i ∈ s.resumed, i = k

theorem start_with {k : ℕ} : With k (start (.ring k)) :=
  ⟨fun e he => .inl (by rw [List.mem_singleton.mp he]), by rintro _ ⟨⟩⟩

theorem submitted_confined {k : ℕ} : Confined k (submitted k true) :=
  ⟨rfl, fun _ h => (Option.some.inj h).symm, start_with, by rintro _ _ ⟨⟩, by rintro _ ⟨⟩⟩

section Turn

variable {n k : ℕ} {s t : State} {a : WakeState.Action} {b : WakeState.State}

theorem history_pin : (s.history a).pin = s.pin := by cases a <;> rfl

theorem history_sub : (s.history a).sub = s.sub := by cases a <;> rfl

theorem turn_confined (h : Confined k s) (hok : s.allows n a = true)
    (hs : WakeState.step s.base a = some b) : Confined k { s.history a with base := b } := by
  refine ⟨history_pin.trans h.pin, ?_, h.place.step h.pin h.seen hok hs, ?_, ?_⟩
  · change ∀ h, (s.history a).sub = some h → _
    rw [history_sub]
    exact h.sub
  · cases a with
    | advance i pl =>
      intro j v hj
      by_cases hji : j = i
      · subst hji
        simp [State.history] at hj
      · exact h.seen j v (by simpa [State.history, update_of_ne hji] using hj)
    | _ => exact h.seen
  · cases a with
    | advance i pl =>
      simp only [State.history]
      split
      · next hres =>
        intro j hj
        rcases List.mem_cons.mp hj with rfl | hj
        · refine h.place.hubs j ?_
          unfold State.resumes at hres
          split at hres
          · next hpc => rw [hpc]; rfl
          · cases hres
        · exact h.resumed j hj
      · exact h.resumed
    | _ => exact h.resumed

theorem step_confined {a : Action} (h : Confined k s) (hnever : ∀ j, a ≠ .pin j)
    (hs : step n s a = some t) : Confined k t := by
  cases a with
  | pin j => exact absurd rfl (hnever j)
  | drain pl =>
    simp only [step] at hs
    split at hs
    · next h' hsub =>
      split at hs
      · next hd =>
        cases hs
        obtain rfl := h.sub h' hsub
        have hpl : pl = .ring h' := by simpa [State.drains, h.pin] using hd
        exact ⟨h.pin, by rintro _ ⟨⟩, hpl ▸ start_with, h.seen, h.resumed⟩
      · cases hs
    · cases hs
  | look i =>
    have hseen : ∀ j v, update s.seen i (some s.pin) j = some v → v = k + 1 := by
      intro j v hj
      by_cases hji : j = i
      · subst hji
        rw [update_self] at hj
        exact (Option.some.inj hj).symm.trans h.pin
      · rw [update_of_ne hji] at hj
        exact h.seen j v hj
    simp only [step] at hs
    split at hs <;> cases hs
    all_goals exact ⟨h.pin, h.sub, h.place, hseen, h.resumed⟩
  | turn a =>
    simp only [step] at hs
    split at hs
    · next hok =>
      obtain ⟨b, hb, rfl⟩ := Option.map_eq_some_iff.mp hs
      exact turn_confined h hok.2 hb
    · cases hs

theorem run_confined {as : List Action} (h : Confined k s) (hnever : ∀ j, .pin j ∉ as)
    (hrun : (system n).run s as = some t) : Confined k t := by
  induction as generalizing s with
  | nil =>
    cases hrun
    exact h
  | cons a as ih =>
    obtain ⟨u, hu, hrest⟩ := Option.bind_eq_some_iff.mp hrun
    refine ih (step_confined h (fun j haj => ?_) hu) (fun j hj => ?_) hrest
    · exact hnever j (haj ▸ List.mem_cons_self)
    · exact hnever j (List.mem_cons_of_mem _ hj)

end Turn

/-! ## Pinned later -/

/-- The hub has the g, and no wake to claim. -/
@[grind =]
def onWay : Pc → Bool
  | .claimed _ _ | .popped none | .requeues => true
  | _ => false

/-- The hub of the pin is on its way to resume the g. -/
def State.heads (s : State) (i : ℕ) : Prop :=
  i + 1 = s.pin ∧ onWay (s.base.pc i) = true ∧ (s.base.pc i = .requeues → s.seen i ≠ some 0)

/-- The g comes to the hub of the pin. -/
def State.Heading (s : State) : Prop :=
  (∃ i, s.heads i) ∨ ∃ i, i + 1 = s.pin ∧ (.ring i, none) ∈ s.base.entries

structure Held (s : State) : Prop where
  routed : Movable s s.pin
  timers : ∀ i p st, s.base.pc i = .timing p false st → s.since i = true → i + 1 = s.pin
  heading : s.due = true → s.base.ws = .queued ∨ s.Heading

section Held

variable {s t : State} {i : ℕ} {c : WakeState.State} {q : Pc}

/-- Thread `i` moves on to `q`. -/
theorem Held.goto (h : Held s) (hb : t.base = c.goto i q) (hpc : c.pc = s.base.pc)
    (hent : ∀ e ∈ c.entries, e ∈ s.base.entries ∨ (e.2.isSome = true → e.1 = .runq))
    (hpin : t.pin = s.pin) (hseen : ∀ j, j ≠ i → t.seen j = s.seen j)
    (hsince : ∀ j, j ≠ i → t.since j = s.since j) (hclaims : q.claims = true → i + 1 = s.pin)
    (henq : q.enqueues = true → t.seen i ≠ some 0)
    (htiming : ∀ p st, q = .timing p false st → t.since i = true → i + 1 = s.pin)
    (hdue : t.due = true → t.base.ws = .queued ∨ t.Heading) : Held t := by
  have hself : t.base.pc i = q := by
    rw [hb]
    exact update_self ..
  have hother : ∀ j, j ≠ i → t.base.pc j = s.base.pc j := by
    intro j hj
    rw [hb, ← hpc]
    exact update_of_ne hj ..
  refine ⟨⟨?_, fun j => ?_⟩, fun j p st hj hsj => ?_, hdue⟩
  · intro e he
    rw [hb] at he
    rcases hent e he with he | he
    · exact h.routed.1 e he
    · exact he
  · rw [hpin]
    by_cases hji : j = i
    · subst hji
      rw [hself]
      exact ⟨henq, hclaims⟩
    · rw [hother j hji, hseen j hji]
      exact h.routed.2 j
  · rw [hpin]
    by_cases hji : j = i
    · subst hji
      rw [hself] at hj
      exact htiming p st hj hsj
    · rw [hother j hji] at hj
      rw [hsince j hji] at hsj
      exact h.timers j p st hj hsj

/-- A thread that is not the one on its way. -/
theorem State.Heading.keep (h : s.Heading) (hb : t.base = c.goto i q) (hpc : c.pc = s.base.pc)
    (hent : ∀ e ∈ s.base.entries, e ∈ c.entries) (hpin : t.pin = s.pin)
    (hseen : ∀ j, j ≠ i → t.seen j = s.seen j) (hnot : ¬ s.heads i) : t.Heading := by
  rcases h with ⟨j, hj⟩ | ⟨j, hj, hmem⟩
  · have hji : j ≠ i := by
      rintro rfl
      exact hnot hj
    have hjpc : t.base.pc j = s.base.pc j := by
      rw [hb, ← hpc]
      exact update_of_ne hji ..
    refine .inl ⟨j, ?_⟩
    unfold State.heads
    rw [hjpc, hpin, hseen j hji]
    exact hj
  · refine .inr ⟨j, by rw [hpin]; exact hj, ?_⟩
    rw [hb]
    exact hent _ hmem

/-- Thread `i` moves on, away from the way to the resume, and the entries stay. -/
theorem Held.pass (h : Held s) (hb : t.base = c.goto i q) (hpc : c.pc = s.base.pc)
    (hent : c.entries = s.base.entries) (hpin : t.pin = s.pin)
    (hseen : ∀ j, j ≠ i → t.seen j = s.seen j) (hsince : ∀ j, j ≠ i → t.since j = s.since j)
    (hclaims : q.claims = true → i + 1 = s.pin) (henq : q.enqueues = true → t.seen i ≠ some 0)
    (htiming : ∀ p st, q = .timing p false st → t.since i = true → i + 1 = s.pin)
    (hdue : t.due = true → s.due = true ∨ t.base.ws = .queued)
    (hws : s.base.ws = .queued → t.base.ws = .queued) (hnot : ¬ s.heads i) : Held t := by
  refine h.goto hb hpc (fun e he => .inl (hent ▸ he)) hpin hseen hsince hclaims henq htiming ?_
  intro hd
  rcases hdue hd with hd | hd
  · refine (h.heading hd).imp hws fun hh => ?_
    exact hh.keep hb hpc (fun e he => by rw [hent]; exact he) hpin hseen hnot
  · exact .inl hd

theorem not_heads (hpc : s.base.pc i = q) (hq : onWay q = false) : ¬ s.heads i := by
  rintro ⟨-, hh, -⟩
  rw [hpc, hq] at hh
  cases hh

variable {n : ℕ} {b : WakeState.State} {o : Owner} {w : ℕ → Holder} {pl : Place}

/-- The access of a thread that has not looked at the pin. -/
theorem Held.access (h : Held s) (hpc : c.pc = s.base.pc) (hent : c.entries = s.base.entries)
    (hclaims : q.claims = true → i + 1 = s.pin)
    (htiming : ∀ p st, q = .timing p false st → s.since i = true → i + 1 = s.pin)
    (hdue : s.dueAfter i = true → s.due = true ∨ c.ws = .queued)
    (hws : s.base.ws = .queued → c.ws = .queued) (hnot : onWay (s.base.pc i) = false) :
    Held { s.history (.advance i pl) with base := c.goto i q } := by
  refine h.pass rfl hpc hent rfl (fun j hj => update_of_ne hj ..) (fun _ _ => rfl)
    hclaims (fun _ => ?_) htiming hdue hws (not_heads rfl hnot)
  simp [State.history]

/-- The loop of `runloom_mn_wake_g` goes round, or finds a wake pending. -/
theorem reread_held (h : Held s) {p : ℕ} (hnot : onWay (s.base.pc i) = false)
    (hdue : s.dueAfter i = true → s.due = true ∨ s.base.ws = .queued) :
    Held { s.history (.advance i pl) with base := s.base.reread i p } := by
  unfold WakeState.State.reread
  split
  · exact h.access rfl rfl (by rintro ⟨⟩) (by rintro _ _ ⟨⟩) hdue id hnot
  · exact h.access rfl rfl (by rintro ⟨⟩) (by rintro _ _ ⟨⟩) hdue id hnot

theorem retime_held (h : Held s) {p : ℕ} {e : Bool} {st : Ws}
    (hpc : s.base.pc i = .timing p e st)
    (hdue : s.dueAfter i = true → s.due = true ∨ s.base.ws = .queued) :
    Held { s.history (.advance i pl) with base := s.base.retime i p e } := by
  have hnot : onWay (s.base.pc i) = false := by rw [hpc]; rfl
  unfold WakeState.State.retime
  split
  · refine h.access rfl rfl (by rintro ⟨⟩) ?_ hdue id hnot
    rintro p' st' heq hsince
    cases heq
    exact h.timers i p st hpc hsince
  · exact h.access rfl rfl (by rintro ⟨⟩) (by rintro _ _ ⟨⟩) hdue id hnot

theorem found_due (hd : (s.due || s.since i && (s.base.ws = .queued : Bool)) = true) :
    s.due = true ∨ s.base.ws = .queued := by
  rcases Bool.or_eq_true_iff.mp hd with hd | hd
  · exact .inl hd
  · exact .inr (by simpa using (Bool.and_eq_true_iff.mp hd).2)

theorem timerClaim_held (h : Held s) {p : ℕ} {e : Bool} {st : Ws}
    (hpc : s.base.pc i = .timing p e st) (hws : s.base.ws = st) (hst : st = .parked)
    (he : e = false) :
    Held { s.history (.advance i pl) with base := (s.base.unpark.answer p).goto i .requeues } := by
  subst he
  refine h.goto rfl rfl (fun e he => .inl he) rfl (fun j hj => update_of_ne hj ..)
    (fun _ _ => rfl) (by rintro ⟨⟩) (by rintro ⟨⟩) (by rintro _ _ ⟨⟩) fun hd => .inr (.inl ⟨i, ?_, ?_⟩)
  · refine h.timers i p st hpc ?_
    simpa [State.history, State.dueAfter, hpc, hws, hst] using hd
  · simp [WakeState.State.goto, onWay, State.history]

theorem push_held (h : Held s) {r : ℕ} {fr : Bool} {old : Option ℕ}
    (hpc : s.base.pc i = .pushing r fr old) (hok : s.allows n (.advance i pl) = true) :
    Held { s.history (.advance i pl) with
      base := { s.base with
        entries := (pl, some r) :: s.base.entries
        enqueued := update s.base.enqueued s.base.park
          (s.base.enqueued s.base.park + 1) }.goto i (.after fr old false) } := by
  have hseen : s.seen i ≠ some 0 := (h.routed.2 i).1 (by rw [hpc]; rfl)
  have hrunq : ¬ s.seen i = none ∧ pl = .runq := by
    simpa [State.allows, hpc, State.enqueues, hseen] using hok
  have hq : ∀ p st, Pc.after fr old false ≠ .timing p false st := by cases fr <;> rintro _ _ ⟨⟩
  refine h.goto rfl rfl ?_ rfl (fun j hj => update_of_ne hj ..) (fun _ _ => rfl)
    ?_ ?_ (fun p st heq => absurd heq (hq p st)) fun hd => ?_
  · intro e he
    rcases List.mem_cons.mp he with rfl | he
    · exact .inr fun _ => hrunq.2
    · exact .inl he
  · rw [Pc.after_claims]
    rintro ⟨⟩
  · cases fr <;> rintro ⟨⟩
  · have hwas : s.due = true := by simpa [State.history, State.dueAfter, hpc] using hd
    refine (h.heading hwas).imp id fun hh => ?_
    exact hh.keep rfl rfl (fun e he => List.mem_cons_of_mem _ he) rfl
      (fun j hj => update_of_ne hj ..) (not_heads hpc rfl)

theorem requeue_held (h : Held s) (hpc : s.base.pc i = .requeues)
    (hok : s.allows n (.advance i pl) = true) :
    Held { s.history (.advance i pl) with
      base := { s.base with entries := (pl, none) :: s.base.entries }.goto i .idle } := by
  refine h.goto rfl rfl ?_ rfl (fun j hj => update_of_ne hj ..) (fun _ _ => rfl)
    nofun nofun nofun fun hd => ?_
  · intro e he
    rcases List.mem_cons.mp he with rfl | he
    · exact .inr nofun
    · exact .inl he
  · have hwas : s.due = true := by simpa [State.history, State.dueAfter, hpc] using hd
    refine (h.heading hwas).imp id fun hh => ?_
    by_cases hheads : s.heads i
    · have hring : ¬ s.seen i = none ∧ pl = .ring i := by
        simpa [State.allows, hpc, State.requeues, hheads.2.2 hpc] using hok
      exact .inr ⟨i, hheads.1, hring.2 ▸ List.mem_cons_self⟩
    · exact hh.keep rfl rfl (fun e he => List.mem_cons_of_mem _ he) rfl
        (fun j hj => update_of_ne hj ..) hheads

theorem claims_held (h : Held s) (hi : WakeState.Inv s.base o w) {ref : Option ℕ}
    (hpc : s.base.pc i = .popped ref) (hws : s.base.ws = .queued) :
    Held { s.history (.advance i pl) with base := s.base.goto i (.claiming ref) } := by
  obtain ⟨-, -, -, hadm⟩ := hi.owner hpc rfl
  cases ref with
  | none =>
    rw [hws] at hadm
    cases hadm
  | some r =>
    refine h.access rfl rfl (fun _ => (h.routed.2 i).2 (by rw [hpc]; rfl)) (by rintro _ _ ⟨⟩)
      (fun _ => .inr hws) id (by rw [hpc]; rfl)

theorem ready_held (h : Held s) {ref : Option ℕ} (hpc : s.base.pc i = .popped ref)
    (hws : s.base.ws ≠ .queued) :
    Held { s.history (.advance i pl) with base := s.base.goto i (.claimed false ref) } := by
  refine h.goto rfl rfl (fun e he => .inl he) rfl (fun j hj => update_of_ne hj ..)
    (fun _ _ => rfl) (by rintro ⟨⟩) (by rintro ⟨⟩) (by rintro _ _ ⟨⟩) fun hd => .inr ?_
  have hwas : s.due = true := by simpa [State.history, State.dueAfter, hpc] using hd
  have hh := (h.heading hwas).resolve_left hws
  by_cases hheads : s.heads i
  · exact .inl ⟨i, hheads.1, by simp [WakeState.State.goto, onWay]⟩
  · exact hh.keep rfl rfl (fun e he => he) rfl (fun j hj => update_of_ne hj ..) hheads

theorem advance_held (h : Held s) (hi : WakeState.Inv s.base o w)
    (hok : s.allows n (.advance i pl) = true) (hs : WakeState.advance s.base i pl = some b) :
    Held { s.history (.advance i pl) with base := b } := by
  have htidy := hi.tidy i
  cases hpc : s.base.pc i with
  | idle => simp [WakeState.advance, hpc] at hs
  | running fr ref sq => simp [WakeState.advance, hpc] at hs
  | called p =>
    simp only [WakeState.advance, hpc, Option.some.injEq] at hs
    subst hs
    refine reread_held h (by rw [hpc]; rfl) fun hd => found_due (i := i) ?_
    simpa [State.dueAfter, hpc] using hd
  | waking p st =>
    have hnot : onWay (s.base.pc i) = false := by rw [hpc]; rfl
    simp only [WakeState.advance, hpc] at hs
    split at hs
    · next hws =>
      split at hs
      · next hst =>
        cases hs
        exact h.access rfl rfl (by rintro ⟨⟩) (by rintro _ _ ⟨⟩) (fun _ => .inr rfl) (fun _ => rfl) hnot
      · next hst =>
        cases hs
        refine h.access rfl rfl (by rintro ⟨⟩) (by rintro _ _ ⟨⟩) (fun hd => ?_) (fun hq => ?_) hnot
        · simp only [State.dueAfter, hpc, hws, if_true, if_neg hst] at hd
          exact .inl hd
        · simp [hpc, ← hws, hq, Pc.tidy, Ws.pending] at htidy
    · next hws =>
      cases hs
      refine reread_held h hnot fun hd => found_due (i := i) ?_
      simpa [State.dueAfter, hpc, hws] using hd
  | timing p e st =>
    have hnot : onWay (s.base.pc i) = false := by rw [hpc]; rfl
    simp only [WakeState.advance, hpc] at hs
    split at hs
    · next hws =>
      split at hs
      · next hst =>
        split at hs
        · cases hs
          exact h.access rfl rfl (by rintro ⟨⟩) (by rintro _ _ ⟨⟩) (fun _ => .inr rfl) (fun _ => rfl) hnot
        · next he =>
          cases hs
          exact timerClaim_held h hpc hws hst (eq_false_of_ne_true he)
      · next hst =>
        cases hs
        refine h.access rfl rfl (by rintro ⟨⟩) (by rintro _ _ ⟨⟩) (fun hd => ?_) (fun hq => ?_) hnot
        · simp only [State.dueAfter, hpc, hws, if_true, if_neg hst] at hd
          exact .inl hd
        · simp [hpc, ← hws, hq, Pc.tidy] at htidy
    · next hws =>
      cases hs
      refine retime_held h hpc fun hd => found_due (i := i) ?_
      simpa [State.dueAfter, hpc, hws] using hd
  | increfs fr old =>
    simp only [WakeState.advance, hpc, Option.some.injEq] at hs
    subst hs
    exact h.access rfl rfl (by rintro ⟨⟩) (by rintro _ _ ⟨⟩) (fun hd => .inl (by simpa [State.dueAfter, hpc] using hd)) id
      (by rw [hpc]; rfl)
  | sweeping =>
    have hnot : onWay (s.base.pc i) = false := by rw [hpc]; rfl
    obtain ⟨-, -, -, hadm⟩ := hi.owner hpc rfl
    have hdue : s.dueAfter i = true → s.due = true := by simp [State.dueAfter, hpc]
    simp only [WakeState.advance, hpc] at hs
    split at hs
    · next hws =>
      cases hs
      refine h.access rfl rfl (by rintro ⟨⟩) (by rintro _ _ ⟨⟩) (fun hd => .inl (hdue hd)) (fun hq => ?_) hnot
      rw [hws] at hq
      cases hq
    · cases hs
      exact h.access rfl rfl (by rintro ⟨⟩) (by rintro _ _ ⟨⟩) (fun hd => .inl (hdue hd)) id hnot
  | sweepWoken =>
    simp only [WakeState.advance, hpc, Option.some.injEq] at hs
    subst hs
    exact h.access rfl rfl (by rintro ⟨⟩) (by rintro _ _ ⟨⟩) (fun _ => .inr rfl) (fun _ => rfl) (by rw [hpc]; rfl)
  | parkWoken fr ref =>
    simp only [WakeState.advance, hpc, Option.some.injEq] at hs
    subst hs
    exact h.access rfl rfl (by rintro ⟨⟩) (by rintro _ _ ⟨⟩) (fun _ => .inr rfl) (fun _ => rfl) (by rw [hpc]; rfl)
  | dropping ref requeue =>
    simp only [WakeState.advance, hpc, Option.some.injEq] at hs
    subst hs
    refine h.access (drop_pc ref) (drop_entries ref) ?_ ?_ ?_ ?_ (by rw [hpc]; rfl)
    · cases requeue <;> rintro ⟨⟩
    · cases requeue <;> rintro _ _ ⟨⟩
    · exact fun hd => .inl (by simpa [State.dueAfter, hpc] using hd)
    · rw [drop_ws]
      exact id
  | pushing r fr old =>
    simp only [WakeState.advance, hpc] at hs
    split at hs
    · cases hs
      exact push_held h hpc hok
    · cases hs
  | requeues =>
    simp only [WakeState.advance, hpc] at hs
    split at hs
    · cases hs
      exact requeue_held h hpc hok
    · cases hs
  | popped ref =>
    simp only [WakeState.advance, hpc] at hs
    split at hs
    · next hws =>
      cases hs
      exact claims_held h hi hpc hws
    · next hws =>
      cases hs
      exact ready_held h hpc hws
  | claiming ref =>
    have hclaims : i + 1 = s.pin := (h.routed.2 i).2 (by rw [hpc]; rfl)
    simp only [WakeState.advance, hpc] at hs
    split at hs
    · cases hs
      exact h.goto rfl rfl (fun e he => .inl he) rfl (fun j hj => update_of_ne hj ..)
        (fun _ _ => rfl) (by rintro ⟨⟩) (by rintro ⟨⟩) (by rintro _ _ ⟨⟩) fun _ => .inr (.inl ⟨i, hclaims, by
          simp [WakeState.State.goto, WakeState.State.unpark, onWay]⟩)
    · next hws =>
      cases hs
      refine h.access (drop_pc ref) (drop_entries ref) (by rintro ⟨⟩) (by rintro _ _ ⟨⟩) ?_ (fun hq => absurd hq hws)
        (by rw [hpc]; rfl)
      exact fun hd => .inl (by simpa [State.dueAfter, hpc] using hd)
  | claimed fr ref =>
    obtain ⟨-, -, hdone, -⟩ := hi.owner hpc rfl
    simp only [WakeState.advance, hpc, hdone, Bool.false_eq_true, if_false, Option.some.injEq] at hs
    subst hs
    refine h.goto rfl rfl (fun e he => .inl he) rfl (fun j hj => update_of_ne hj ..)
      (fun _ _ => rfl) (by rintro ⟨⟩) (by rintro ⟨⟩) (by rintro _ _ ⟨⟩) fun hd => ?_
    simp [State.history, State.dueAfter, hpc, hdone] at hd

theorem pop_held (h : Held s) (hpin : s.pin ≠ 0)
    {e : Place × Option ℕ} (hok : s.allows n (.pop i pl) = true) (hmem : e ∈ s.base.entries)
    (hpl : e.1 = pl) (hidle : s.base.pc i = .idle) (hreach : pl.reach i = true) :
    Held { s with
      base := { s.base with entries := s.base.entries.erase e }.goto i
        (if pl = Place.runq then .claiming e.2 else .popped e.2) } := by
  have hpull : pl = .runq → i + 1 = s.pin := by
    rintro rfl
    have hboth : i < n ∧ s.pin = i + 1 := by simpa [State.allows, hpin] using hok
    exact hboth.2.symm
  have hrunq : e.2.isSome = true → pl = .runq := fun hsome => hpl ▸ h.routed.1 e hmem hsome
  refine h.goto rfl rfl (fun e' he' => .inl (List.mem_of_mem_erase he')) rfl (fun _ _ => rfl)
    (fun _ _ => rfl) ?_ ?_ ?_ fun hd => ?_
  · split
    · next hr => exact fun _ => hpull hr
    · next hr => exact fun hsome => absurd (hrunq hsome) hr
  · split <;> rintro ⟨⟩
  · split <;> rintro _ _ ⟨⟩
  · refine (h.heading hd).imp id fun hh => ?_
    rcases hh with hh | ⟨j, hj, hring⟩
    · obtain ⟨j, hj⟩ := hh
      have hji : j ≠ i := by
        rintro rfl
        exact not_heads hidle rfl hj
      refine .inl ⟨j, ?_⟩
      simp only [State.heads, WakeState.State.goto, update_of_ne hji]
      exact hj
    · by_cases heq : (Place.ring j, none) = e
      · subst heq
        subst hpl
        have hji : j = i := by simpa [Place.reach] using hreach
        refine .inl ⟨i, hji ▸ hj, ?_⟩
        simp [WakeState.State.goto, onWay]
      · exact .inr ⟨j, hj, (List.mem_erase_of_ne heq).mpr hring⟩

theorem turn_held {a : WakeState.Action} (h : Held s) (hpin : s.pin ≠ 0)
    (hi : WakeState.Inv s.base o w) (hok : s.allows n a = true)
    (hs : WakeState.step s.base a = some b) : Held { s.history a with base := b } := by
  cases a with
  | call i p =>
    simp only [WakeState.step] at hs
    split at hs
    · next hc =>
      cases hs
      exact h.pass rfl rfl rfl rfl (fun _ _ => rfl) (fun j hj => update_of_ne hj ..)
        nofun nofun nofun .inl id (not_heads hc.1 rfl)
    · cases hs
  | timer i p e =>
    simp only [WakeState.step] at hs
    split at hs
    · next hc =>
      cases hs
      refine h.pass rfl rfl rfl rfl (fun _ _ => rfl) (fun j hj => update_of_ne hj ..)
        nofun nofun ?_ .inl id (not_heads hc.1 rfl)
      rintro p' st heq -
      cases heq
      have hboth : i < n ∧ s.pin = i + 1 := by
        simpa [State.allows, State.elsewhere, hpin] using hok
      exact hboth.2.symm
    · cases hs
  | sweep i =>
    simp only [WakeState.step] at hs
    split at hs
    · next hc =>
      cases hs
      refine h.pass rfl rfl rfl rfl (fun _ _ => rfl) (fun _ _ => rfl) nofun nofun nofun .inl
        (fun hq => ?_) (not_heads hc.1 rfl)
      rw [hc.2] at hq
      cases hq
    · cases hs
  | pop i pl =>
    simp only [WakeState.step] at hs
    split at hs
    · next e hfind =>
      split at hs
      · next hc =>
        cases hs
        exact pop_held h hpin hok (List.mem_of_find?_eq_some hfind)
          (by simpa using List.find?_some hfind) hc.1 hc.2
      · cases hs
    · cases hs
  | advance i pl => exact advance_held h hi hok hs
  | preempt i =>
    simp only [WakeState.step] at hs
    split at hs
    · next fr ref hpc =>
      cases hs
      refine h.goto rfl rfl ?_ rfl (fun _ _ => rfl) (fun _ _ => rfl) nofun nofun nofun fun hd => ?_
      · intro e he
        rcases List.mem_cons.mp he with rfl | he
        · exact .inr nofun
        · exact .inl he
      · refine (h.heading hd).imp id fun hh => ?_
        exact hh.keep rfl rfl (fun e he => List.mem_cons_of_mem _ he) rfl (fun _ _ => rfl)
          (not_heads hpc rfl)
    · cases hs
  | finish i =>
    simp only [WakeState.step] at hs
    split at hs
    · next fr ref hpc =>
      split at hs
      · cases hs
      · cases hs
        refine h.pass rfl rfl rfl rfl (fun _ _ => rfl) (fun _ _ => rfl) ?_ ?_ ?_ .inl id
          (not_heads hpc rfl)
        all_goals cases fr <;> nofun
    · cases hs
  | park i =>
    simp only [WakeState.step] at hs
    split at hs
    · next fr ref hpc =>
      split at hs
      · next hws =>
        cases hs
        refine h.pass rfl rfl rfl rfl (fun _ _ => rfl) (fun _ _ => rfl) ?_ ?_ ?_ .inl
          (fun hq => absurd (hws.symm.trans hq) nofun) (not_heads hpc rfl)
        all_goals cases fr <;> nofun
      · cases hs
        exact h.pass rfl rfl rfl rfl (fun _ _ => rfl) (fun _ _ => rfl) nofun nofun nofun .inl id
          (not_heads hpc rfl)
    · cases hs
  | yield i =>
    simp only [WakeState.step] at hs
    split at hs
    · next fr ref sq hpc =>
      obtain ⟨-, -, -, hadm⟩ := hi.owner hpc rfl
      split at hs
      · cases hs
      · cases hs
        refine h.pass rfl rfl rfl rfl (fun _ _ => rfl) (fun _ _ => rfl) ?_ ?_ ?_ .inl
          (fun hq => ?_) (not_heads hpc rfl)
        · rw [Pc.after_claims]
          nofun
        · cases fr <;> cases sq <;> nofun
        · cases fr <;> cases sq <;> nofun
        · rw [hq] at hadm
          cases hadm
    · cases hs

/-- A resume that is due is by the hub of the pin. -/
theorem resumes_held (h : Held s) (hi : WakeState.Inv s.base o w) (hres : s.resumes i = true)
    (hd : s.due = true) : i + 1 = s.pin := by
  have hpc : ∃ fr ref, s.base.pc i = .claimed fr ref := by
    unfold State.resumes at hres
    split at hres
    · next fr ref hpc => exact ⟨fr, ref, hpc⟩
    · cases hres
  obtain ⟨fr, ref, hpc⟩ := hpc
  obtain ⟨hent, -, -, hadm⟩ := hi.owner hpc rfl
  rcases h.heading hd with hws | ⟨j, hj, hway, -⟩ | ⟨j, hj, hmem⟩
  · rw [hws] at hadm
    cases hadm
  · have howns : (s.base.pc j).owns = true := by
      cases hjpc : s.base.pc j <;> rw [hjpc] at hway <;> first | rfl | cases hway
    have hj' := hi.own.sole j howns
    have hi' := hi.own.sole i (by rw [hpc]; rfl)
    cases hi'.symm.trans hj'
    exact hj
  · rw [hent] at hmem
    cases hmem

end Held

structure Inv (s : State) : Prop where
  base : Reachable WakeState.system s.base
  fresh : s.sub ≠ none → s.due = false
  held : s.pin ≠ 0 → Held s
  astray : s.astray = false

section Inv

variable {n k : ℕ} {s t : State}

theorem start_held {pl : Place} (hb : s.base = start pl) (hd : s.due = false) : Held s := by
  refine ⟨⟨?_, fun i => ?_⟩, ?_, ?_⟩
  · rw [hb]
    intro e he
    rw [List.mem_singleton.mp he]
    rintro ⟨⟩
  · rw [hb]
    exact ⟨by rintro ⟨⟩, by rintro ⟨⟩⟩
  · rw [hb]
    rintro _ _ _ ⟨⟩
  · rw [hd]
    rintro ⟨⟩

theorem submitted_inv {h : ℕ} {pinned : Bool} : Inv (submitted h pinned) where
  base := .start ⟨.ring h, by rintro ⟨⟩, rfl⟩
  fresh _ := rfl
  held _ := start_held rfl rfl
  astray := rfl

theorem turn_inv {a : WakeState.Action} {b : WakeState.State} (h : Inv s) (hsub : s.sub = none)
    (hok : s.allows n a = true) (hs : WakeState.step s.base a = some b) :
    Inv { s.history a with base := b } := by
  obtain ⟨o, w, hi⟩ := reachable_inv h.base
  refine ⟨h.base.next hs, ?_, fun hpin => ?_, ?_⟩
  · change (s.history a).sub ≠ none → _
    rw [history_sub]
    exact fun hne => absurd hsub hne
  · have hpin : s.pin ≠ 0 := by rwa [← history_pin (s := s) (a := a)]
    exact turn_held (h.held hpin) hpin hi hok hs
  · cases a with
    | advance i pl =>
      change (s.astray || s.resumes i && s.due && s.elsewhere i) = false
      rw [h.astray, Bool.false_or]
      cases hd : s.resumes i && s.due with
      | false => rfl
      | true =>
        obtain ⟨hres, hdue⟩ := Bool.and_eq_true_iff.mp hd
        by_cases hpin : s.pin = 0
        · simp [State.elsewhere, hpin]
        · simp [State.elsewhere, resumes_held (h.held hpin) hi hres hdue]
    | _ => exact h.astray

theorem look_held {i : ℕ} (h : Held s) (hpin : s.pin ≠ 0) :
    Held { s with seen := update s.seen i (some s.pin) } := by
  have hseen : ∀ j, s.seen j ≠ some 0 → update s.seen i (some s.pin) j ≠ some 0 := by
    intro j hj
    by_cases hji : j = i
    · subst hji
      rw [update_self]
      exact fun heq => hpin (Option.some.inj heq)
    · rwa [update_of_ne hji]
  refine ⟨⟨h.routed.1, fun j => ⟨fun he => hseen j ((h.routed.2 j).1 he), (h.routed.2 j).2⟩⟩,
    h.timers, fun hd => (h.heading hd).imp id fun hh => ?_⟩
  rcases hh with ⟨j, hj, hway, hsj⟩ | hring
  · exact .inl ⟨j, hj, hway, fun hpc => hseen j (hsj hpc)⟩
  · exact .inr hring

theorem step_inv {a : Action} (h : Inv s) (hsteady : Steady s a) (hs : step n s a = some t) :
    Inv t := by
  cases a with
  | pin k =>
    simp only [step] at hs
    split at hs
    · cases hs
      refine ⟨h.base, fun _ => rfl, fun hpin => ⟨?_, by rintro _ _ _ _ ⟨⟩, by rintro ⟨⟩⟩, h.astray⟩
      exact hsteady.resolve_left hpin
    · cases hs
  | drain pl =>
    simp only [step] at hs
    split at hs
    · next h' hsub =>
      split at hs
      · next hd =>
        cases hs
        have hpl : pl ≠ .runq := by
          rintro rfl
          simp [State.drains] at hd
        have hdue : s.due = false := h.fresh (by rw [hsub]; rintro ⟨⟩)
        exact ⟨.start ⟨pl, hpl, rfl⟩, fun hne => absurd rfl hne, fun _ => start_held rfl hdue,
          h.astray⟩
      · cases hs
    · cases hs
  | look i =>
    simp only [step] at hs
    split at hs <;> cases hs
    all_goals exact ⟨h.base, h.fresh, fun hpin => look_held (h.held hpin) hpin, h.astray⟩
  | turn a =>
    simp only [step] at hs
    split at hs
    · next hok =>
      obtain ⟨b, hb, rfl⟩ := Option.map_eq_some_iff.mp hs
      exact turn_inv h hok.1 hok.2 hb
    · cases hs

/-- A fiber that pins itself has no wake pending. -/
theorem movable_of_running {i : ℕ} {fr sq : Bool} {ref : Option ℕ} (h : Inv s)
    (hpc : s.base.pc i = .running fr ref sq) : Movable s k := by
  obtain ⟨o, w, hi⟩ := reachable_inv h.base
  obtain ⟨hent, -⟩ := hi.owner hpc rfl
  have hsole : ∀ j, (s.base.pc j).owns = true → j = i := by
    intro j hj
    have ho := hi.own.sole i (by rw [hpc]; rfl)
    cases ho.symm.trans (hi.own.sole j hj)
    rfl
  refine ⟨?_, fun j => ⟨fun he => ?_, fun hc => ?_⟩⟩
  · rw [hent]
    intro e he
    cases sq with
    | true =>
      rw [List.mem_singleton.mp he]
      rintro ⟨⟩
    | false => cases he
  · obtain rfl := hsole j (Pc.owns_of_enqueues he)
    rw [hpc] at he
    cases he
  · obtain rfl := hsole j (Pc.owns_of_claims hc)
    rw [hpc] at hc
    cases hc

open scoped Classical in
theorem reachable_steady_inv (hr : Reachable ((system n).restrict Steady) s) : Inv s := by
  refine Reachable.invariant ?_ ?_ hr
  · rintro _ ⟨h, -, pinned, rfl⟩
    exact submitted_inv
  · intro s a t _ hi hs
    obtain ⟨hok, hs⟩ := System.restrict_step.mp hs
    exact step_inv hi hok hs

end Inv

open scoped Classical in
/-- A fiber that is pinned at its spawn and never again is resumed by its hub only. One that is
pinned while no wake is pending past the reach of the pin is resumed by the hub of the pin
whenever it answers a wake that began later. -/
theorem pin_confines (n : ℕ) :
    (∀ k as t, (∀ j, .pin j ∉ as) → (system n).run (submitted k true) as = some t →
      ∀ i ∈ t.resumed, i = k) ∧
    ∀ s, Reachable ((system n).restrict Steady) s → s.astray = false :=
  ⟨fun _ _ _ hnever hrun => (run_confined submitted_confined hnever hrun).resumed,
    fun _ hr => (reachable_steady_inv hr).astray⟩

open scoped Classical in
theorem steady_run {n : ℕ} {s t : State} {as : List Action}
    (hr : Reachable ((system n).restrict Steady) s) (hnever : ∀ j, .pin j ∉ as)
    (hrun : (system n).run s as = some t) : Reachable ((system n).restrict Steady) t := by
  induction as generalizing s with
  | nil =>
    cases hrun
    exact hr
  | cons a as ih =>
    obtain ⟨u, hu, hrest⟩ := Option.bind_eq_some_iff.mp hrun
    have hsteady : Steady s a := by
      cases a with
      | pin k => exact absurd List.mem_cons_self (hnever k)
      | _ => trivial
    refine ih (hr.next (System.restrict_step.mpr ⟨hsteady, hu⟩)) (fun j hj => ?_) hrest
    exact hnever j (List.mem_cons_of_mem _ hj)

/-- A wake of the g by thread `i`, up to the push onto `pl`. -/
def wakes (i : ℕ) (pl : Place) : List Action :=
  Action.turn (.call i 0) :: List.replicate 3 (.turn (.advance i pl)) ++
    [Action.look i, .turn (.advance i pl)]

/-- A pop by hub `i`, up to the resume. -/
def resumesFrom (i : ℕ) (pl : Place) (accesses : ℕ) : List Action :=
  .turn (.pop i pl) :: List.replicate accesses (.turn (.advance i pl))

open scoped Classical in
/-- A fiber of hub 1, pinned at the spawn, parks and is woken by hub 0. A fiber of hub 0 pins itself
to hub 1, parks, and is woken by hub 0. -/
theorem pin_confines_both :
    (∃ t, (system 2).run (submitted 1 true) (.drain (.ring 1) :: resumesFrom 1 (.ring 1) 2 ++
      .turn (.park 1) :: wakes 0 .runq ++ resumesFrom 1 .runq 2) = some t ∧
      t.resumed = [1, 1] ∧ ∀ i ∈ t.resumed, i = 1) ∧
    ∃ t, Reachable ((system 2).restrict Steady) t ∧ t.pin = 2 ∧ t.resumed = [1, 0] ∧
      t.astray = false := by
  constructor
  · have hrun : ((system 2).run (submitted 1 true) (.drain (.ring 1) :: resumesFrom 1 (.ring 1) 2 ++
        .turn (.park 1) :: wakes 0 .runq ++ resumesFrom 1 .runq 2)).map
        (fun s => s.resumed) = some [1, 1] := by decide +kernel
    obtain ⟨t, ht, hresumed⟩ := Option.map_eq_some_iff.mp hrun
    exact ⟨t, ht, hresumed, (pin_confines 2).1 1 _ t (by simp [wakes, resumesFrom]) ht⟩
  · have hfirst : ((system 2).run (submitted 0 false)
        (.drain .deque :: resumesFrom 0 .deque 2)).map (fun s => s.base.pc 0) =
        some (.running false none false) := by decide +kernel
    obtain ⟨s, hs, hpc⟩ := Option.map_eq_some_iff.mp hfirst
    have hr : Reachable ((system 2).restrict Steady) s :=
      steady_run (.start ⟨0, by decide, false, rfl⟩) (by simp [resumesFrom]) hs
    have hsteady : Steady s (.pin 2) :=
      .inr (movable_of_running (reachable_steady_inv hr) hpc)
    have hboth : ((system 2).run (submitted 0 false) ((.drain .deque :: resumesFrom 0 .deque 2) ++
        .pin 2 :: .turn (.park 0) :: wakes 0 .runq ++ resumesFrom 1 .runq 2)).map
        (fun s => (s.pin, s.resumed)) = some (2, [1, 0]) := by decide +kernel
    obtain ⟨t, ht, hobs⟩ := Option.map_eq_some_iff.mp hboth
    simp only [Prod.mk.injEq] at hobs
    rw [List.append_assoc, System.run_append, hs] at ht
    have hpin : Reachable ((system 2).restrict Steady)
        { s with pin := 2, since := fun _ => false, noted := false, due := false } :=
      hr.next (System.restrict_step.mpr ⟨hsteady, rfl⟩)
    have hrt := steady_run hpin (by simp [wakes, resumesFrom]) ht
    exact ⟨t, hrt, hobs.1, hobs.2, (pin_confines 2).2 t hrt⟩

/-- A wake has put the g on the deque of hub 1. Then the g is pinned to hub 0, and a second wake,
begun after that, finds the first one pending: the g is resumed by hub 1. -/
theorem queued_on_deque_astray : ∃ s, Reachable (system 2) s ∧ s.pin = 1 ∧
    s.resumed = [1, 0] ∧ s.astray = true := by
  have hrun : ((system 2).run (submitted 0 false) (.drain .deque :: resumesFrom 0 .deque 2 ++
      Action.turn (.park 0) :: wakes 1 .deque ++
      [Action.pin 1, .turn (.call 2 0), .turn (.advance 2 .runq)] ++ resumesFrom 1 .deque 3)).map
      (fun s => (s.pin, s.resumed, s.astray)) = some (1, [1, 0], true) := by decide +kernel
  obtain ⟨s, hs, hobs⟩ := Option.map_eq_some_iff.mp hrun
  simp only [Prod.mk.injEq] at hobs
  exact ⟨s, reachable_of_run _ _ ⟨0, by decide, false, rfl⟩ hs, hobs⟩

end Stackweave.Pin
