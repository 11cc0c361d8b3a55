import Mathlib
import Stackweave.Tally
import Stackweave.WakeState

/-!
# References at teardown (`runloom_mn_fini`, `runloom_mn_hub_drain_leftovers`)

Any number of gs under `n` threads. Each has the wake state of `WakeState`, its sleep ticket with
the entries it left on the sleep heaps, and its reference count. A sleep is one step; so are the
pop of an entry, the claim of its ticket, and the drop of its reference. The claims of one ticket
by the timer and by a signal are the only wakes of a sleeper.

`drain` is what `runloom_mn_fini` does to the counts once all hubs are joined.
-/

namespace Stackweave.Teardown

open Transition Tally WakeState Function

/-- A thread that has popped a sleep entry. -/
inductive Popper
  | idle
  | popped (ticket : ℕ)
  /-- the claim is made, or lost; the reference of the entry is to be dropped -/
  | drops
  deriving DecidableEq

/-- `asleep` is that the g sleeps, or is about to, with a ticket nobody has claimed. `handles` are
the references from outside the scheduler. -/
structure Fiber where
  base : WakeState.State
  sub : Option ℕ
  ticket : ℕ
  heap : List (ℕ × ℕ)
  popper : ℕ → Popper
  asleep : Bool
  handles : ℕ
  refs : ℤ

/-- `runloom_mn_fiber_core` has put the g on the submission list of hub `h`. -/
def spawned (h : ℕ) : Fiber :=
  { base := start (.ring h), sub := some h, ticket := 0, heap := [], popper := fun _ => .idle
    asleep := false, handles := 0, refs := 1 }

/-- `ticket | 1` -/
def claim (t : ℕ) : ℕ := if t % 2 = 0 then t + 1 else t

inductive Move
  | drainSub (pl : Place)
  | incref
  | decref
  | turn (a : WakeState.Action)
  /-- `runloom_sched_sleep_until_ex` of the fiber that runs on hub `i` -/
  | sleep (i : ℕ)
  | pop (i t : ℕ)
  | claimTimer (i : ℕ) (elsewhere : Bool)
  | dropEntry (i : ℕ)
  | purge (i t : ℕ)
  /-- `runloom_sched_sleep_signal_wake`, by thread `j` -/
  | signal (j : ℕ)

/-- A thread is on its way with a wake. -/
@[grind =]
def wakes : Pc → Bool
  | .called _ | .waking _ _ | .timing _ _ _ => true
  | _ => false

def actor : WakeState.Action → ℕ
  | .call i _ | .timer i _ _ | .sweep i | .pop i _ | .advance i _ | .preempt i | .finish i
  | .park i | .yield i => i

namespace Fiber

variable (n : ℕ) (f : Fiber)

/-- A sleeper is woken by a claim of its ticket, and a fiber that goes to sleep parks next. -/
@[grind =]
def allows : WakeState.Action → Bool
  | .timer _ _ _ => false
  | .call _ _ | .preempt _ | .finish _ | .yield _ => !f.asleep
  | _ => true

/-- The change of the count with a step of the wake state. -/
@[grind =]
def delta : WakeState.Action → ℤ
  | .advance i _ =>
    match f.base.pc i with
    | .increfs _ _ => 1
    | .dropping _ _ => -1
    | .claiming _ => if f.base.ws = .queued then 0 else -1
    | .claimed fr _ => if f.base.done ∧ fr = true then -1 else 0
    | _ => 0
  -- the scheduler ref
  | .finish _ => -1
  | _ => 0

/-- The fiber runs on hub `i`, and no wake is on its way. -/
def maySleep (i : ℕ) : Bool :=
  match f.base.pc i with
  | .running _ _ false =>
    !f.asleep && f.base.ws = .running && decide (∀ j < n, wakes (f.base.pc j) = false)
  | _ => false

def turn (a : WakeState.Action) : Option Fiber :=
  (WakeState.step f.base a).map fun b => { f with base := b, refs := f.refs + f.delta a }

@[grind =]
def step : Move → Option Fiber
  | .drainSub pl =>
    if f.sub ≠ none ∧ pl ≠ .runq then some { f with base := start pl, sub := none } else none
  | .incref => some { f with handles := f.handles + 1, refs := f.refs + 1 }
  | .decref =>
    if 0 < f.handles then some { f with handles := f.handles - 1, refs := f.refs - 1 } else none
  | .turn a =>
    if f.sub = none ∧ actor a < n ∧ f.allows a = true then f.turn a else none
  | .sleep i =>
    if f.sub = none ∧ i < n ∧ f.maySleep n i = true then
      some { f with
        ticket := claim f.ticket + 1, heap := (i, claim f.ticket + 1) :: f.heap
        asleep := true, refs := f.refs + 1 }
    else none
  | .pop i t =>
    if i < n ∧ f.popper i = .idle ∧ f.base.pc i = .idle ∧ (i, t) ∈ f.heap then
      some { f with
        heap := f.heap.erase (i, t), popper := Function.update f.popper i (.popped t) }
    else none
  | .claimTimer i elsewhere =>
    match f.popper i with
    | .popped t =>
      if f.ticket = t then
        { f with
          ticket := claim t, asleep := false
          popper := Function.update f.popper i .drops }.turn (.timer i f.base.park elsewhere)
      else some { f with popper := Function.update f.popper i .drops }
    | _ => none
  | .dropEntry i =>
    if f.popper i = .drops ∧ f.base.pc i = .idle then
      some { f with popper := Function.update f.popper i .idle, refs := f.refs - 1 }
    else none
  | .purge i t =>
    if (i, t) ∈ f.heap ∧ f.ticket ≠ t then
      some { f with heap := f.heap.erase (i, t), refs := f.refs - 1 }
    else none
  | .signal j =>
    if j < n ∧ f.asleep = true then
      { f with ticket := claim f.ticket, asleep := false }.turn (.call j f.base.park)
    else none

end Fiber

/-- The gs, by name. -/
abbrev State := ℕ → Option Fiber

inductive Action
  | spawn (g h : ℕ)
  | move (g : ℕ) (m : Move)

def step (n : ℕ) (s : State) : Action → Option State
  | .spawn g h => if s g = none then some (Function.update s g (some (spawned h))) else none
  | .move g m => ((s g).bind fun f => f.step n m).map fun f => Function.update s g (some f)

def system (n : ℕ) : System State Action where
  init s := s = fun _ => none
  step := step n

/-! ## The drains -/

/-- What `runloom_mn_fini` finds of a g. -/
inductive Leftover
  | sub
  | queue (pl : Place)
  | sleep (ticket : ℕ)
  deriving DecidableEq

/-- A reference count: how often it came to 0, and whether it went below. -/
structure Count where
  refs : ℤ
  freed : ℕ
  below : Bool
  deriving DecidableEq

/-- `runloom_g_decref` -/
def Count.decref (c : Count) : Count :=
  { refs := c.refs - 1
    freed := if c.refs - 1 = 0 then c.freed + 1 else c.freed
    below := c.below || c.refs - 1 < 0 }

namespace Fiber

variable (f : Fiber)

def leftovers : List Leftover :=
  (if f.sub = none then f.base.entries.map fun e => .queue e.1 else [Leftover.sub]) ++
    f.heap.map fun e => Leftover.sleep e.2

/-- The decrefs that the drains make for it. -/
@[grind =]
def drops : Leftover → ℕ
  | .sub => 1
  | .queue .runq => if f.base.ws = .queued then 2 else 1
  | .queue _ => 1
  | .sleep t => if f.ticket = t then 2 else 1

end Fiber

/-- The drains, with what is left of all the gs in the order they come to it. -/
def drain (s : State) (l : List (ℕ × Leftover)) : ℕ → Count :=
  l.foldl (fun c x => match s x.1 with
    | some f => Function.update c x.1 (Count.decref^[f.drops x.2] (c x.1))
    | none => c) fun g => ⟨(s g).elim 0 Fiber.refs, 0, false⟩

/-- All that is left of the gs, in some order. -/
def Leaves (s : State) (l : List (ℕ × Leftover)) : Prop :=
  ∀ g, ((l.filter fun x => x.1 = g).map Prod.snd).Perm ((s g).elim [] Fiber.leftovers)

/-- No thread is in the middle of anything. -/
def Quiet (s : State) : Prop :=
  ∀ g f, s g = some f → ∀ i, f.base.pc i = .idle ∧ f.popper i = .idle

namespace Fiber

variable (f : Fiber)

/-- Its sleep entry is live. -/
def Live : Prop := ∃ e ∈ f.heap, e.2 = f.ticket

instance : Decidable f.Live := inferInstanceAs (Decidable (∃ e ∈ f.heap, e.2 = f.ticket))

/-- The scheduler ref is with a queue or with a live sleep entry. -/
def Scheduled : Prop := f.sub ≠ none ∨ f.base.entries ≠ [] ∨ f.Live

instance : Decidable f.Scheduled := inferInstanceAs (Decidable (_ ∨ _ ∨ _))

/-- The references that the queues and the heaps do not hold: the handles, and the scheduler ref of
a g that is parked elsewhere. -/
def outside : ℕ := f.handles + if f.base.done ∨ f.Scheduled then 0 else 1

/-- The drains have dropped what the scheduler held and no more. -/
def Released (c : Count) : Prop :=
  c.refs = f.outside ∧ c.below = false ∧ c.freed = if f.outside = 0 then 1 else 0

/-- A woken g waits on a deque. -/
def QueuedOnDeque : Prop :=
  f.sub = none ∧ f.base.ws = .queued ∧ ∃ e ∈ f.base.entries, e.1 = .deque

end Fiber

theorem decref_iterate {r k : ℕ} (hk : k ≤ r) :
    Count.decref^[k] ⟨r, 0, false⟩ = ⟨(r : ℤ) - k, if 0 < k ∧ k = r then 1 else 0, false⟩ := by
  induction k with
  | zero => simp
  | succ k ih =>
    rw [Function.iterate_succ_apply', ih (by omega)]
    have hne : ¬ (0 < k ∧ k = r) := by omega
    simp only [Count.decref, hne, if_false, Count.mk.injEq]
    refine ⟨by omega, ?_, ?_⟩
    · by_cases h : k + 1 = r
      · rw [if_pos (by omega), if_pos (by omega)]
      · rw [if_neg (by omega), if_neg (by omega)]
    · simp only [Bool.false_or, decide_eq_false_iff_not]
      omega

theorem foldl_drain {s : State} {l : List (ℕ × Leftover)} {c : ℕ → Count} {g : ℕ} {f : Fiber}
    (hg : s g = some f) :
    (l.foldl (fun c x => match s x.1 with
      | some f => update c x.1 (Count.decref^[f.drops x.2] (c x.1))
      | none => c) c) g =
      Count.decref^[((l.filter fun x => x.1 = g).map fun x => f.drops x.2).sum] (c g) := by
  induction l generalizing c with
  | nil => rfl
  | cons x l ih =>
    rw [List.foldl_cons, ih]
    by_cases hx : x.1 = g
    · subst hx
      simp only [hg, List.filter_cons, decide_true, if_true, List.map_cons, List.sum_cons,
        update_self]
      rw [Nat.add_comm, Function.iterate_add_apply]
    · have hfilter : (x :: l).filter (fun x => x.1 = g) = l.filter fun x => x.1 = g := by
        simp [hx]
      rw [hfilter]
      cases s x.1 with
      | none => rfl
      | some f' => simp only [update_of_ne (Ne.symm hx)]

/-! ## The count of a g -/

/-- The queue refs, with the entries and with the threads. -/
def queueRefs (n : ℕ) (b : WakeState.State) : ℤ :=
  (b.entries.countP fun e => e.2.isSome : ℕ) +
    ∑ i ∈ Finset.range n, ((b.pc i).refs.length : ℤ)

def schedRef (b : WakeState.State) : ℤ := if b.done then 0 else 1

section Turn

variable {n i : ℕ} {b c : WakeState.State} {q : Pc} {f : Fiber} {o : Owner} {w : ℕ → Holder}

/-- A thread moves on with what queue refs it has. -/
theorem queueRefs_goto (hi : i < n) (hpc : c.pc = b.pc) :
    queueRefs n (c.goto i q) = (c.entries.countP fun e => e.2.isSome : ℕ) +
      ∑ j ∈ Finset.range n, ((b.pc j).refs.length : ℤ) +
        ((q.refs.length : ℤ) - (b.pc i).refs.length) := by
  have hsum := sum_range_update (f := fun j => ((b.pc j).refs.length : ℤ))
    (g := fun j => (((c.goto i q).pc j).refs.length : ℤ)) hi fun j hj => by
      simp [WakeState.State.goto, hpc, update_of_ne hj]
  simp only [WakeState.State.goto, hpc, update_self] at hsum
  simp only [queueRefs, WakeState.State.goto, hpc]
  omega

theorem queueRefs_same (hi : i < n) (hpc : c.pc = b.pc) (hent : c.entries = b.entries)
    (hq : q.refs.length = (b.pc i).refs.length) :
    queueRefs n (c.goto i q) = queueRefs n b := by
  rw [queueRefs_goto hi hpc, hent, hq]
  simp [queueRefs]

theorem reread_count {p : ℕ} (hi : i < n) (hrefs : (b.pc i).refs = []) :
    queueRefs n (b.reread i p) = queueRefs n b ∧ (b.reread i p).done = b.done := by
  unfold WakeState.State.reread
  split
  · exact ⟨queueRefs_same hi rfl rfl (by rw [hrefs]; rfl), rfl⟩
  · exact ⟨queueRefs_same hi rfl rfl (by rw [hrefs]; rfl), rfl⟩

theorem retime_count {p : ℕ} {e : Bool} (hi : i < n) (hrefs : (b.pc i).refs = []) :
    queueRefs n (b.retime i p e) = queueRefs n b ∧ (b.retime i p e).done = b.done := by
  unfold WakeState.State.retime
  split
  · exact ⟨queueRefs_same hi rfl rfl (by rw [hrefs]; rfl), rfl⟩
  · exact ⟨queueRefs_same hi rfl rfl (by rw [hrefs]; rfl), rfl⟩

theorem advance_count {pl : Place} (hi : WakeState.Inv f.base o w) (hin : i < n)
    (hs : WakeState.advance f.base i pl = some b) :
    queueRefs n b = queueRefs n f.base + f.delta (.advance i pl) ∧ b.done = f.base.done := by
  have htidy := hi.tidy i
  cases hpc : f.base.pc i with
  | idle => simp [WakeState.advance, hpc] at hs
  | running fr ref sq => simp [WakeState.advance, hpc] at hs
  | called p =>
    have hrefs : (f.base.pc i).refs = [] := by rw [hpc]; rfl
    simp only [WakeState.advance, hpc, Option.some.injEq] at hs
    subst hs
    simpa [Fiber.delta, hpc] using reread_count (p := p) hin hrefs
  | waking p st =>
    have hrefs : (f.base.pc i).refs = [] := by rw [hpc]; rfl
    have hdelta : f.delta (.advance i pl) = 0 := by simp [Fiber.delta, hpc]
    rw [hdelta, add_zero]
    simp only [WakeState.advance, hpc] at hs
    split at hs
    · split at hs
      · cases hs
        exact ⟨queueRefs_same hin rfl rfl (by rw [hrefs]; rfl), rfl⟩
      · cases hs
        exact ⟨queueRefs_same hin rfl rfl (by rw [hrefs]; rfl), rfl⟩
    · cases hs
      exact reread_count hin hrefs
  | timing p e st =>
    have hrefs : (f.base.pc i).refs = [] := by rw [hpc]; rfl
    have hdelta : f.delta (.advance i pl) = 0 := by simp [Fiber.delta, hpc]
    rw [hdelta, add_zero]
    simp only [WakeState.advance, hpc] at hs
    split at hs
    · split at hs
      · split at hs
        · cases hs
          exact ⟨queueRefs_same hin rfl rfl (by rw [hrefs]; rfl), rfl⟩
        · cases hs
          exact ⟨queueRefs_same hin rfl rfl (by rw [hrefs]; rfl), rfl⟩
      · cases hs
        exact ⟨queueRefs_same hin rfl rfl (by rw [hrefs]; rfl), rfl⟩
    · cases hs
      exact retime_count hin hrefs
  | increfs fr old =>
    simp only [WakeState.advance, hpc, Option.some.injEq] at hs
    subst hs
    refine ⟨Eq.trans (queueRefs_goto (b := f.base) hin ?_) ?_, rfl⟩
    · rfl
    · simp only [queueRefs, Fiber.delta, hpc, Pc.refs, List.length_cons]
      omega
  | pushing r fr old =>
    have hafter : (Pc.after fr old false).refs = old.toList :=
      Pc.after_refs (by simpa [hpc, Pc.tidy] using htidy)
    simp only [WakeState.advance, hpc] at hs
    split at hs
    · cases hs
      refine ⟨Eq.trans (queueRefs_goto (b := f.base) hin ?_) ?_, rfl⟩
      · rfl
      · rw [hafter]
        simp only [queueRefs, Fiber.delta, hpc, Pc.refs, List.length_cons, List.countP_cons,
          Option.isSome_some, if_true]
        omega
    · cases hs
  | requeues =>
    simp only [WakeState.advance, hpc] at hs
    split at hs
    · cases hs
      refine ⟨Eq.trans (queueRefs_goto (b := f.base) hin ?_) ?_, rfl⟩
      · rfl
      · simp [queueRefs, Fiber.delta, hpc, Pc.refs]
    · cases hs
  | sweeping =>
    have hrefs : (f.base.pc i).refs = [] := by rw [hpc]; rfl
    have hdelta : f.delta (.advance i pl) = 0 := by simp [Fiber.delta, hpc]
    rw [hdelta, add_zero]
    simp only [WakeState.advance, hpc] at hs
    split at hs
    · cases hs
      exact ⟨queueRefs_same hin rfl rfl (by rw [hrefs]; rfl), rfl⟩
    · cases hs
      exact ⟨queueRefs_same hin rfl rfl (by rw [hrefs]; rfl), rfl⟩
  | sweepWoken =>
    simp only [WakeState.advance, hpc, Option.some.injEq] at hs
    subst hs
    have hdelta : f.delta (.advance i pl) = 0 := by simp [Fiber.delta, hpc]
    rw [hdelta, add_zero]
    exact ⟨queueRefs_same hin rfl rfl (by rw [hpc]; rfl), rfl⟩
  | popped ref =>
    have hdelta : f.delta (.advance i pl) = 0 := by simp [Fiber.delta, hpc]
    rw [hdelta, add_zero]
    simp only [WakeState.advance, hpc] at hs
    split at hs
    · cases hs
      exact ⟨queueRefs_same hin rfl rfl (by rw [hpc]; rfl), rfl⟩
    · cases hs
      exact ⟨queueRefs_same hin rfl rfl (by rw [hpc]; rfl), rfl⟩
  | claiming ref =>
    obtain ⟨-, -, -, hadm⟩ := hi.owner hpc rfl
    have hws : f.base.ws = .queued := by simpa [Pc.admits] using hadm
    have hdelta : f.delta (.advance i pl) = 0 := by simp [Fiber.delta, hpc, hws]
    simp only [WakeState.advance, hpc, hws, if_true, Option.some.injEq] at hs
    subst hs
    rw [hdelta, add_zero]
    exact ⟨queueRefs_same hin rfl rfl (by rw [hpc]; rfl), rfl⟩
  | claimed fr ref =>
    obtain ⟨-, -, hdone, -⟩ := hi.owner hpc rfl
    have hdelta : f.delta (.advance i pl) = 0 := by simp [Fiber.delta, hpc, hdone]
    simp only [WakeState.advance, hpc, hdone, Bool.false_eq_true, if_false, Option.some.injEq] at hs
    subst hs
    rw [hdelta, add_zero]
    exact ⟨queueRefs_same hin rfl rfl (by rw [hpc]; rfl), rfl⟩
  | parkWoken fr ref =>
    simp only [WakeState.advance, hpc, Option.some.injEq] at hs
    subst hs
    have hdelta : f.delta (.advance i pl) = 0 := by simp [Fiber.delta, hpc]
    rw [hdelta, add_zero]
    exact ⟨queueRefs_same hin rfl rfl (by rw [hpc]; rfl), rfl⟩
  | dropping ref requeue =>
    simp only [WakeState.advance, hpc, Option.some.injEq] at hs
    subst hs
    refine ⟨?_, drop_done ref⟩
    have href : ref.isSome = true := by simpa [hpc, Pc.tidy] using htidy
    obtain ⟨r, rfl⟩ := Option.isSome_iff_exists.mp href
    rw [queueRefs_goto (b := f.base) hin (drop_pc _), drop_entries, hpc]
    cases requeue <;> simp [queueRefs, Fiber.delta, hpc, Pc.refs]

theorem schedRef_goto (c : WakeState.State) (i : ℕ) (q : Pc) :
    schedRef (c.goto i q) = schedRef c := rfl

/-- The queue refs and the scheduler ref change as the count does. -/
theorem turn_count {a : WakeState.Action} (hi : WakeState.Inv f.base o w) (hin : actor a < n)
    (hs : WakeState.step f.base a = some b) :
    queueRefs n b + schedRef b = queueRefs n f.base + schedRef f.base + f.delta a := by
  cases a with
  | call i p =>
    change i < n at hin
    simp only [WakeState.step] at hs
    split at hs
    · next hc =>
      cases hs
      have hq : queueRefs n ((f.base.issue p).goto i (.called p)) = queueRefs n f.base :=
        queueRefs_same hin rfl rfl (by rw [hc.1]; rfl)
      rw [hq, schedRef_goto]
      exact (add_zero _).symm
    · cases hs
  | timer i p e =>
    change i < n at hin
    simp only [WakeState.step] at hs
    split at hs
    · next hc =>
      cases hs
      have hq : queueRefs n ((f.base.issue p).goto i (.timing p e .parked)) =
          queueRefs n f.base := queueRefs_same hin rfl rfl (by rw [hc.1]; rfl)
      rw [hq, schedRef_goto]
      exact (add_zero _).symm
    · cases hs
  | sweep i =>
    change i < n at hin
    simp only [WakeState.step] at hs
    split at hs
    · next hc =>
      cases hs
      have hq : queueRefs n ({ f.base with ws := .sweeping }.goto i .sweeping) =
          queueRefs n f.base := queueRefs_same hin rfl rfl (by rw [hc.1]; rfl)
      rw [hq, schedRef_goto]
      exact (add_zero _).symm
    · cases hs
  | advance i pl =>
    obtain ⟨hq, hd⟩ := advance_count hi hin hs
    rw [hq, show schedRef b = schedRef f.base by simp only [schedRef, hd]]
    exact add_right_comm _ _ _
  | pop i pl =>
    change i < n at hin
    simp only [WakeState.step] at hs
    split at hs
    · next e hfind =>
      split at hs
      · next hc =>
        cases hs
        have he : e ∈ f.base.entries := List.mem_of_find?_eq_some hfind
        have hlen : ((if pl = Place.runq then Pc.claiming e.2 else .popped e.2).refs.length : ℤ) =
            if e.2.isSome then 1 else 0 := by
          cases e.2 <;> split <;> rfl
        have hcount := List.countP_erase (fun e : Place × Option ℕ => e.2.isSome) f.base.entries e
        have hpos : e.2.isSome = true → 0 < f.base.entries.countP fun e => e.2.isSome :=
          fun h => List.countP_pos_iff.mpr ⟨e, he, h⟩
        rw [queueRefs_goto (b := f.base) (c := { f.base with entries := f.base.entries.erase e }) hin
          rfl, schedRef_goto, hlen, hc.1]
        simp only [hcount, he, true_and, queueRefs, Fiber.delta, Pc.refs, List.length_nil]
        change _ + schedRef f.base = _
        split
        · next hsome =>
          have := hpos hsome
          omega
        · omega
      · cases hs
    · cases hs
  | preempt i =>
    change i < n at hin
    simp only [WakeState.step] at hs
    split at hs
    · next fr ref hpc =>
      cases hs
      rw [queueRefs_goto (b := f.base)
        (c := { f.base with entries := (.ring i, none) :: f.base.entries }) hin rfl, schedRef_goto,
        hpc]
      simp only [List.countP_cons, Option.isSome_none, Bool.false_eq_true, if_false, queueRefs,
        Fiber.delta, Pc.refs]
      change _ + schedRef f.base = _
      omega
    · cases hs
  | finish i =>
    change i < n at hin
    simp only [WakeState.step] at hs
    split at hs
    · next fr ref hpc =>
      split at hs
      · cases hs
      · cases hs
        have htidy := hi.tidy i
        have hdone : f.base.done = false := (hi.owner hpc rfl).2.2.1
        have hrefs : (Pc.after fr ref false).refs = ref.toList :=
          Pc.after_refs (by simpa [hpc, Pc.tidy] using htidy)
        have hq : queueRefs n ({ f.base with done := true }.goto i (.after fr ref false)) =
            queueRefs n f.base :=
          queueRefs_same hin rfl rfl (by rw [hpc, hrefs]; rfl)
        rw [hq, schedRef_goto]
        simp [schedRef, hdone, Fiber.delta]
    · cases hs
  | park i =>
    change i < n at hin
    simp only [WakeState.step] at hs
    split at hs
    · next fr ref hpc =>
      have htidy := hi.tidy i
      have hrefs : (Pc.after fr ref false).refs = ref.toList :=
        Pc.after_refs (by simpa [hpc, Pc.tidy] using htidy)
      split at hs
      · cases hs
        have hq : queueRefs n ({ f.base with ws := .parked }.goto i (.after fr ref false)) =
            queueRefs n f.base := queueRefs_same hin rfl rfl (by rw [hpc, hrefs]; rfl)
        rw [hq, schedRef_goto]
        exact (add_zero _).symm
      · cases hs
        have hq : queueRefs n (f.base.goto i (.parkWoken fr ref)) = queueRefs n f.base :=
          queueRefs_same hin rfl rfl (by rw [hpc]; rfl)
        rw [hq, schedRef_goto]
        exact (add_zero _).symm
    · cases hs
  | yield i =>
    change i < n at hin
    simp only [WakeState.step] at hs
    split at hs
    · next fr ref sq hpc =>
      have htidy := hi.tidy i
      have hrefs : (Pc.after fr ref (!sq)).refs = ref.toList :=
        Pc.after_refs (by simpa [hpc, Pc.tidy] using htidy)
      split at hs
      · cases hs
      · cases hs
        have hq : queueRefs n ({ f.base with
            ws := .running
            remembered := update f.base.remembered f.base.park false }.goto i
              (.after fr ref (!sq))) = queueRefs n f.base :=
          queueRefs_same hin rfl rfl (by rw [hpc, hrefs]; rfl)
        rw [hq, schedRef_goto]
        exact (add_zero _).symm
    · cases hs

end Turn

/-! ## A sleeper -/

/-- No wake is on its way, and the fiber is parked or is about to be. -/
def Dozes (b : WakeState.State) : Prop :=
  (∀ i, wakes (b.pc i) = false) ∧
    (b.ws = .parked ∨ b.ws = .sweeping ∨ b.ws = .running ∧ ∃ i fr ref, b.pc i = .running fr ref false)

section Dozes

variable {i : ℕ} {b c : WakeState.State} {q : Pc} {o : Owner} {w : ℕ → Holder}

/-- Only a sweeper or the hub of the fiber itself can move a sleeper on. -/
theorem Dozes.owner (hd : Dozes b) (hi : WakeState.Inv b o w) (hown : (b.pc i).owns = true) :
    b.pc i = .sweeping ∧ b.ws = .sweeping ∨
      (∃ fr ref, b.pc i = .running fr ref false) ∧ b.ws = .running := by
  obtain ⟨-, -, -, hadm⟩ := hi.owner rfl hown
  rcases hd.2 with hws | hws | ⟨hws, j, fr, ref, hj⟩
  · rw [hws] at hadm
    cases hpc : b.pc i with
    | popped ref => cases ref <;> simp [hpc, Pc.admits, Ws.runs] at hadm
    | _ => simp [hpc, Pc.admits, Ws.runs] at hadm
  · rw [hws] at hadm
    cases hpc : b.pc i with
    | sweeping => exact .inl ⟨rfl, hws⟩
    | popped ref => cases ref <;> simp [hpc, Pc.admits, Ws.runs] at hadm
    | _ => simp [hpc, Pc.admits, Ws.runs] at hadm
  · have hji := (hi.own.sole j (by rw [hj]; rfl)).symm.trans (hi.own.sole i hown)
    cases hji
    exact .inr ⟨⟨fr, ref, hj⟩, hws⟩

theorem Dozes.entries (hd : Dozes b) (hi : WakeState.Inv b o w) : b.entries = [] := by
  cases o with
  | nobody => exact hi.own.holds.1
  | entry pl ref =>
    obtain ⟨-, -, -, hx⟩ := hi.own.holds
    rcases hd.2 with hws | hws | ⟨-, j, fr, ref', hj⟩
    · rw [hws] at hx
      cases ref <;> simp [Ws.runs] at hx
    · rw [hws] at hx
      cases ref <;> simp [Ws.runs] at hx
    · cases hi.own.sole j (by rw [hj]; rfl)
  | thread i =>
    obtain ⟨hent, -, -, hown, -⟩ := hi.own.holds
    rw [hent]
    rcases hd.owner hi hown with ⟨hpc, -⟩ | ⟨⟨fr, ref, hpc⟩, -⟩ <;> rw [hpc] <;> rfl

theorem wakes_update {pc : ℕ → Pc} (h : ∀ j, wakes (pc j) = false) (hq : wakes q = false) :
    ∀ j, wakes (update pc i q j) = false := by
  intro j
  by_cases hji : j = i
  · rw [hji, update_self, hq]
  · rw [update_of_ne hji, h j]

theorem after_wakes (fr : Bool) (ref : Option ℕ) (requeue : Bool) :
    wakes (Pc.after fr ref requeue) = false := by
  cases fr <;> cases requeue <;> rfl

theorem Dozes.advance {pl : Place} (hd : Dozes b) (hi : WakeState.Inv b o w)
    (hs : WakeState.advance b i pl = some c) : Dozes c := by
  cases hown : (b.pc i).owns with
  | true =>
    rcases hd.owner hi hown with ⟨hpc, hws⟩ | ⟨⟨fr, ref, hpc⟩, -⟩
    · simp only [WakeState.advance, hpc, hws, if_true, Option.some.injEq] at hs
      subst hs
      exact ⟨wakes_update hd.1 rfl, .inl rfl⟩
    · simp [WakeState.advance, hpc] at hs
  | false =>
    have hwakes := hd.1 i
    cases hpc : b.pc i with
    | idle => simp [WakeState.advance, hpc] at hs
    | called p => simp [hpc, wakes] at hwakes
    | waking p st => simp [hpc, wakes] at hwakes
    | timing p e st => simp [hpc, wakes] at hwakes
    | dropping ref requeue =>
      have hreq : requeue = false := by simpa [hpc, Pc.owns] using hown
      simp only [WakeState.advance, hpc, hreq, Option.some.injEq] at hs
      subst hs
      refine ⟨?_, ?_⟩
      · simp only [WakeState.State.goto, drop_pc]
        exact wakes_update hd.1 rfl
      · rcases hd.2 with hws | hws | ⟨hws, j, fr, ref', hj⟩
        · exact .inl ((drop_ws ref).trans hws)
        · exact .inr (.inl ((drop_ws ref).trans hws))
        · refine .inr (.inr ⟨(drop_ws ref).trans hws, j, fr, ref', ?_⟩)
          have hji : j ≠ i := by
            rintro rfl
            rw [hpc] at hj
            cases hj
          simp only [WakeState.State.goto, drop_pc, update_of_ne hji, hj]
    | _ => simp [hpc, Pc.owns] at hown

/-- The steps that are left to a sleeper keep it asleep. -/
theorem Dozes.step {f : Fiber} {a : WakeState.Action} (hd : Dozes f.base)
    (hi : WakeState.Inv f.base o w) (hsleep : f.asleep = true) (ha : f.allows a = true)
    (hs : WakeState.step f.base a = some c) : Dozes c := by
  cases a with
  | call i p => simp [Fiber.allows, hsleep] at ha
  | timer i p e => cases ha
  | preempt i => simp [Fiber.allows, hsleep] at ha
  | finish i => simp [Fiber.allows, hsleep] at ha
  | yield i => simp [Fiber.allows, hsleep] at ha
  | sweep i =>
    simp only [WakeState.step] at hs
    split at hs
    · cases hs
      exact ⟨wakes_update hd.1 rfl, .inr (.inl rfl)⟩
    · cases hs
  | pop i pl => simp [WakeState.step, hd.entries hi] at hs
  | advance i pl => exact hd.advance hi hs
  | park i =>
    simp only [WakeState.step] at hs
    split at hs
    · next fr ref hpc =>
      have hws : f.base.ws = .running := by
        rcases hd.owner hi (i := i) (by rw [hpc]; rfl) with ⟨hx, -⟩ | ⟨-, hws⟩
        · rw [hpc] at hx
          cases hx
        · exact hws
      rw [if_pos hws] at hs
      cases hs
      exact ⟨wakes_update hd.1 (after_wakes _ _ _), .inl rfl⟩
    · cases hs

end Dozes

/-! ## What holds of a g in every run -/

theorem advance_others {b c : WakeState.State} {i j : ℕ} {pl : Place} (hj : j ≠ i)
    (hs : WakeState.advance b i pl = some c) : c.pc j = b.pc j := by
  have hgoto : ∀ (d : WakeState.State) q, (d.goto i q).pc j = d.pc j :=
    fun d q => update_of_ne hj ..
  have hreread : ∀ p, (b.reread i p).pc j = b.pc j := by
    intro p
    unfold WakeState.State.reread
    split <;> exact hgoto _ _
  have hretime : ∀ p e, (b.retime i p e).pc j = b.pc j := by
    intro p e
    unfold WakeState.State.retime
    split <;> exact hgoto _ _
  unfold WakeState.advance at hs
  repeat' split at hs
  all_goals cases hs
  all_goals first
    | exact hreread _
    | exact hretime _ _
    | exact hgoto _ _
    | rw [hgoto, drop_pc]

/-- A step moves its own thread. -/
theorem step_others {b c : WakeState.State} {j : ℕ} {a : WakeState.Action} (hj : j ≠ actor a)
    (hs : WakeState.step b a = some c) : c.pc j = b.pc j := by
  cases a with
  | advance i pl => exact advance_others hj hs
  | _ =>
    simp only [WakeState.step] at hs
    repeat' split at hs
    all_goals cases hs
    all_goals exact update_of_ne hj ..

/-- A popped entry keeps its reference until it is dropped. -/
def Popper.refs : Popper → ℤ
  | .idle => 0
  | _ => 1

/-- All the references to a g, with those of the threads. -/
def Fiber.held (n : ℕ) (f : Fiber) : ℤ :=
  f.handles + (queueRefs n f.base + schedRef f.base) + f.heap.length +
    ∑ i ∈ Finset.range n, (f.popper i).refs

structure Kept (n : ℕ) (f : Fiber) : Prop where
  reach : Reachable WakeState.system f.base
  bound : ∀ i, n ≤ i → f.base.pc i = .idle ∧ f.popper i = .idle
  fresh : f.sub ≠ none →
    (∃ pl, f.base = start pl) ∧ f.heap = [] ∧ f.asleep = false ∧ ∀ i, f.popper i = .idle
  count : f.refs = f.held n
  /-- a claimed ticket is odd -/
  tickets : ∀ e ∈ f.heap, e.2 % 2 = 0 ∧ e.2 ≤ f.ticket
  single : f.heap.countP (fun e => e.2 = f.ticket) ≤ 1
  live : f.Live → f.asleep = true
  dozes : f.asleep = true → Dozes f.base

section Kept

variable {n i t : ℕ} {f f' : Fiber}

theorem spawned_kept (n h : ℕ) : Kept n (spawned h) where
  reach := .start ⟨.ring h, by rintro ⟨⟩, rfl⟩
  bound _ _ := ⟨rfl, rfl⟩
  fresh _ := ⟨⟨_, rfl⟩, rfl, rfl, fun _ => rfl⟩
  count := by simp [spawned, Fiber.held, queueRefs, schedRef, start, Pc.refs, Popper.refs]
  tickets := by rintro _ ⟨⟩
  single := Nat.zero_le _
  live := fun ⟨_, he, _⟩ => by cases he
  dozes := by rintro ⟨⟩

theorem Kept.turn {a : WakeState.Action} (h : Kept n f) (hsub : f.sub = none)
    (hin : actor a < n) (ha : f.asleep = true → f.allows a = true) (hs : f.turn a = some f') :
    Kept n f' := by
  obtain ⟨o, w, hi⟩ := reachable_inv h.reach
  obtain ⟨b, hb, rfl⟩ := Option.map_eq_some_iff.mp hs
  constructor
  case reach => exact h.reach.next hb
  case bound =>
    intro j hj
    refine ⟨?_, (h.bound j hj).2⟩
    rw [step_others (by omega) hb]
    exact (h.bound j hj).1
  case fresh => exact fun hx => absurd hsub hx
  case count =>
    have hcount := h.count
    have hturn := turn_count hi hin hb
    simp only [Fiber.held] at hcount ⊢
    omega
  case tickets => exact h.tickets
  case single => exact h.single
  case live => exact h.live
  case dozes => exact fun hx => (h.dozes hx).step hi hx (ha hx) hb

theorem claim_odd (t : ℕ) : claim t % 2 = 1 ∧ t ≤ claim t := by
  unfold claim
  split <;> omega

/-- An entry with an odd ticket is not live. -/
theorem Kept.claim (h : Kept n f) : Kept n { f with ticket := claim f.ticket, asleep := false } := by
  have hodd := claim_odd f.ticket
  have hnot : ∀ e ∈ f.heap, e.2 ≠ Teardown.claim f.ticket := by
    intro e he hx
    have := (h.tickets e he).1
    omega
  constructor
  case reach => exact h.reach
  case bound => exact h.bound
  case fresh => exact fun hx => ⟨(h.fresh hx).1, (h.fresh hx).2.1, rfl, (h.fresh hx).2.2.2⟩
  case count => exact h.count
  case tickets => exact fun e he => ⟨(h.tickets e he).1, (h.tickets e he).2.trans hodd.2⟩
  case single =>
    have hzero : f.heap.countP (fun e => e.2 = Teardown.claim f.ticket) = 0 :=
      List.countP_eq_zero.mpr fun e he => by simpa using hnot e he
    exact hzero.le.trans (Nat.zero_le 1)
  case live => exact fun ⟨e, he, hx⟩ => absurd hx (hnot e he)
  case dozes => rintro ⟨⟩

/-- A thread that has an entry goes on with it. -/
theorem Kept.popper {q : Popper} {k : ℤ} (h : Kept n f) (hin : i < n) (hsub : f.sub = none)
    (hk : q.refs - (f.popper i).refs = k) :
    Kept n { f with popper := update f.popper i q, refs := f.refs + k } := by
  constructor
  case reach => exact h.reach
  case bound =>
    intro j hj
    have hji : j ≠ i := by omega
    exact ⟨(h.bound j hj).1, (update_of_ne hji ..).trans (h.bound j hj).2⟩
  case fresh => exact fun hx => absurd hsub hx
  case count =>
    have hcount := h.count
    have hsum := sum_range_update (f := fun j => (f.popper j).refs)
      (g := fun j => (update f.popper i q j).refs) hin fun j hj => by
        rw [update_of_ne hj]
    simp only [update_self] at hsum
    simp only [Fiber.held] at hcount ⊢
    omega
  case tickets => exact h.tickets
  case single => exact h.single
  case live => exact h.live
  case dozes => exact h.dozes

/-- An entry leaves a heap with its reference. -/
theorem Kept.erase {e : ℕ × ℕ} (h : Kept n f) (hmem : e ∈ f.heap) :
    Kept n { f with heap := f.heap.erase e, refs := f.refs - 1 } := by
  constructor
  case reach => exact h.reach
  case bound => exact h.bound
  case fresh =>
    intro hx
    rw [(h.fresh hx).2.1] at hmem
    cases hmem
  case count =>
    have hcount := h.count
    have hlen := List.length_erase_of_mem hmem
    have hpos := List.length_pos_of_mem hmem
    simp only [Fiber.held] at hcount ⊢
    omega
  case tickets => exact fun e' he => h.tickets e' (List.mem_of_mem_erase he)
  case single => exact List.erase_sublist.countP_le.trans h.single
  case live => exact fun ⟨e', he, hx⟩ => h.live ⟨e', List.mem_of_mem_erase he, hx⟩
  case dozes => exact h.dozes

theorem Kept.not_fresh (h : Kept n f) (hpop : f.popper i ≠ .idle) : i < n ∧ f.sub = none := by
  constructor
  · by_contra hin
    exact hpop (h.bound i (by omega)).2
  · by_contra hsub
    exact hpop ((h.fresh hsub).2.2.2 i)

theorem Kept.sleep (h : Kept n f) (hsub : f.sub = none) (hmay : f.maySleep n i = true) :
    Kept n { f with
      ticket := Teardown.claim f.ticket + 1, heap := (i, Teardown.claim f.ticket + 1) :: f.heap
      asleep := true, refs := f.refs + 1 } := by
  have hodd := claim_odd f.ticket
  have hnot : ∀ e ∈ f.heap, e.2 ≠ Teardown.claim f.ticket + 1 := by
    intro e he
    have := (h.tickets e he).2
    omega
  unfold Fiber.maySleep at hmay
  split at hmay
  · next fr ref hpc =>
    simp only [Bool.and_eq_true, decide_eq_true_eq] at hmay
    obtain ⟨⟨-, hws⟩, hwakes⟩ := hmay
    constructor
    case reach => exact h.reach
    case bound => exact h.bound
    case fresh => exact fun hx => absurd hsub hx
    case count =>
      have hcount := h.count
      simp only [Fiber.held, List.length_cons] at hcount ⊢
      omega
    case tickets =>
      intro e he
      rcases List.mem_cons.mp he with rfl | he
      · exact ⟨by simp only; omega, le_rfl⟩
      · exact ⟨(h.tickets e he).1, (h.tickets e he).2.trans (by simp only; omega)⟩
    case single =>
      have hzero : f.heap.countP (fun e => e.2 = Teardown.claim f.ticket + 1) = 0 :=
        List.countP_eq_zero.mpr fun e he => by simpa using hnot e he
      simp [hzero]
    case live => exact fun _ => rfl
    case dozes =>
      refine fun _ => ⟨fun j => ?_, .inr (.inr ⟨hws, i, fr, ref, hpc⟩)⟩
      by_cases hj : j < n
      · exact hwakes j hj
      · exact congrArg wakes (h.bound j (by omega)).1
  · cases hmay

theorem Kept.step {m : Move} (h : Kept n f) (hs : f.step n m = some f') : Kept n f' := by
  cases m with
  | drainSub pl =>
    simp only [Fiber.step] at hs
    split at hs
    · next hc =>
      cases hs
      obtain ⟨⟨pl', hb⟩, hheap, hasleep, hpop⟩ := h.fresh hc.1
      constructor
      case reach => exact .start ⟨pl, hc.2, rfl⟩
      case bound => exact fun j hj => ⟨rfl, (h.bound j hj).2⟩
      case fresh => exact fun hx => absurd rfl hx
      case count => simpa [Fiber.held, hb, queueRefs, schedRef, start] using h.count
      case tickets => exact h.tickets
      case single => exact h.single
      case live => exact h.live
      case dozes => exact fun hx => absurd (hasleep.symm.trans hx) (by rintro ⟨⟩)
    · cases hs
  | incref =>
    simp only [Fiber.step, Option.some.injEq] at hs
    subst hs
    have hcount := h.count
    refine ⟨h.reach, h.bound, h.fresh, ?_, h.tickets, h.single, h.live, h.dozes⟩
    simp only [Fiber.held] at hcount ⊢
    omega
  | decref =>
    simp only [Fiber.step] at hs
    split at hs
    · cases hs
      have hcount := h.count
      refine ⟨h.reach, h.bound, h.fresh, ?_, h.tickets, h.single, h.live, h.dozes⟩
      simp only [Fiber.held] at hcount ⊢
      omega
    · cases hs
  | turn a =>
    simp only [Fiber.step] at hs
    split at hs
    · next hc => exact h.turn hc.1 hc.2.1 (fun _ => hc.2.2) hs
    · cases hs
  | sleep i =>
    simp only [Fiber.step] at hs
    split at hs
    · next hc =>
      cases hs
      exact h.sleep hc.1 hc.2.2
    · cases hs
  | pop i t =>
    simp only [Fiber.step] at hs
    split at hs
    · next hc =>
      cases hs
      obtain ⟨hin, hidle, -, hmem⟩ := hc
      have hsub : f.sub = none := by
        by_contra hx
        rw [(h.fresh hx).2.1] at hmem
        cases hmem
      have hkept := (h.erase hmem).popper (q := .popped t) (k := 1) hin hsub (by
        simp only [hidle]
        rfl)
      simpa using hkept
    · cases hs
  | claimTimer i elsewhere =>
    simp only [Fiber.step] at hs
    split at hs
    · next t hpop =>
      obtain ⟨hin, hsub⟩ := h.not_fresh (i := i) (by rw [hpop]; rintro ⟨⟩)
      have hdrops := h.popper (q := .drops) (k := 0) hin hsub (by rw [hpop]; rfl)
      rw [add_zero] at hdrops
      split at hs
      · next ht =>
        subst ht
        exact hdrops.claim.turn (a := .timer i f.base.park elsewhere) hsub hin (by rintro ⟨⟩) hs
      · cases hs
        exact hdrops
    · cases hs
  | dropEntry i =>
    simp only [Fiber.step] at hs
    split at hs
    · next hc =>
      cases hs
      obtain ⟨hin, hsub⟩ := h.not_fresh (i := i) (by rw [hc.1]; rintro ⟨⟩)
      exact h.popper (q := .idle) (k := -1) hin hsub (by rw [hc.1]; rfl)
    · cases hs
  | purge i t =>
    simp only [Fiber.step] at hs
    split at hs
    · next hc =>
      cases hs
      exact h.erase hc.1
    · cases hs
  | signal j =>
    simp only [Fiber.step] at hs
    split at hs
    · next hc =>
      have hsub : f.sub = none := by
        by_contra hx
        exact absurd ((h.fresh hx).2.2.1.symm.trans hc.2) (by rintro ⟨⟩)
      exact h.claim.turn (a := .call j f.base.park) hsub hc.1 (by rintro ⟨⟩) hs
    · cases hs

end Kept

/-- Every g of every run is kept. -/
theorem reachable_kept {n : ℕ} {s : State} (hr : Reachable (system n) s) :
    ∀ g f, s g = some f → Kept n f := by
  refine Reachable.invariant (P := fun s : State => ∀ g f, s g = some f → Kept n f) ?_ ?_ hr
  · rintro s rfl g f hg
    cases hg
  · rintro s a t - hs hstep g f hg
    cases a with
    | spawn g' h =>
      simp only [system, step] at hstep
      split at hstep
      · cases hstep
        by_cases hgg : g = g'
        · subst hgg
          rw [update_self] at hg
          cases hg
          exact spawned_kept n h
        · rw [update_of_ne hgg] at hg
          exact hs g f hg
      · cases hstep
    | move g' m =>
      obtain ⟨f', hf', rfl⟩ := Option.map_eq_some_iff.mp hstep
      obtain ⟨f₀, hf₀, hm⟩ := Option.bind_eq_some_iff.mp hf'
      by_cases hgg : g = g'
      · subst hgg
        rw [update_self] at hg
        cases hg
        exact (hs g f₀ hf₀).step hm
      · rw [update_of_ne hgg] at hg
        exact hs g f hg

/-! ## What the drains drop -/

section Drain

variable {n g : ℕ} {s : State} {l : List (ℕ × Leftover)} {f : Fiber}

/-- The decrefs of a g are those for all that is left of it, in whatever order. -/
theorem drain_eq (hg : s g = some f) (hl : Leaves s l) :
    drain s l g = Count.decref^[(f.leftovers.map f.drops).sum] ⟨f.refs, 0, false⟩ := by
  have hperm := ((hl g).map f.drops).sum_eq
  rw [List.map_map, hg] at hperm
  unfold drain
  rw [foldl_drain hg]
  simp only [hg, Option.elim_some] at hperm ⊢
  rw [← hperm]
  rfl

theorem sum_sleep (f : Fiber) (h : List (ℕ × ℕ)) :
    ((h.map fun e => Leftover.sleep e.2).map f.drops).sum =
      h.length + h.countP fun e => e.2 = f.ticket := by
  induction h with
  | nil => rfl
  | cons e h ih =>
    rw [List.map_cons, List.map_cons, List.sum_cons, ih, List.length_cons, List.countP_cons]
    by_cases he : e.2 = f.ticket
    · simp [Fiber.drops, he]
      omega
    · simp [Fiber.drops, he, Ne.symm he]
      omega

theorem Kept.live_iff (h : Kept n f) :
    f.heap.countP (fun e => e.2 = f.ticket) = if f.Live then 1 else 0 := by
  have hpos : 0 < f.heap.countP (fun e => e.2 = f.ticket) ↔ f.Live := by
    simp [List.countP_pos_iff, Fiber.Live]
  have hle := h.single
  split
  · next hlive =>
    have := hpos.mpr hlive
    omega
  · next hlive =>
    have := mt hpos.mp hlive
    omega

/-- With no thread at work, the references are with the handles, the entries and the heaps. -/
theorem Kept.quiet_count (h : Kept n f) (hq : ∀ i, f.base.pc i = .idle ∧ f.popper i = .idle) :
    f.refs = f.handles + ((f.base.entries.countP fun e => e.2.isSome : ℕ) + schedRef f.base) +
      f.heap.length := by
  rw [h.count]
  simp [Fiber.held, queueRefs, hq, Pc.refs, Popper.refs]

instance : Decidable f.QueuedOnDeque :=
  inferInstanceAs (Decidable (_ ∧ _ ∧ ∃ e ∈ f.base.entries, e.1 = .deque))

theorem Fiber.leftovers_of_sub (hsub : f.sub ≠ none) (hheap : f.heap = []) :
    f.leftovers = [.sub] := by
  simp [Fiber.leftovers, hsub, hheap]

theorem Fiber.sum_drops (hsub : f.sub = none) :
    (f.leftovers.map f.drops).sum =
      ((f.base.entries.map fun e => Leftover.queue e.1).map f.drops).sum +
        (f.heap.length + f.heap.countP fun e => e.2 = f.ticket) := by
  rw [Fiber.leftovers, if_pos hsub, List.map_append, List.sum_append, sum_sleep]

/-- The drains leave what is outside, and the queue ref of a g that waits QUEUED on a deque. -/
theorem Kept.owed (h : Kept n f) (hq : ∀ i, f.base.pc i = .idle ∧ f.popper i = .idle) :
    f.refs = ((f.outside + (f.leftovers.map f.drops).sum +
      if f.QueuedOnDeque then 1 else 0 : ℕ) : ℤ) := by
  have hcount := h.quiet_count hq
  by_cases hsub : f.sub = none
  · obtain ⟨o, w, hi⟩ := reachable_inv h.reach
    have hlive := h.live_iff
    have hsum := Fiber.sum_drops hsub
    cases o with
    | nobody =>
      obtain ⟨hent, -, hx⟩ := hi.own.holds
      have hnot : ¬ f.QueuedOnDeque := by simp [Fiber.QueuedOnDeque, hent]
      have hdone : f.base.done = true → ¬ f.Live := by
        intro hd hl
        rcases hx with hx | ⟨-, hruns⟩
        · exact absurd (hx.1.symm.trans hd) (by rintro ⟨⟩)
        · rcases (h.dozes (h.live hl)).2 with hws | hws | ⟨-, i, fr, ref, hpc⟩
          · simp [hws, Ws.runs] at hruns
          · simp [hws, Ws.runs] at hruns
          · rw [(hq i).1] at hpc
            cases hpc
      rw [hcount, hsum, hlive]
      simp only [Fiber.outside, Fiber.Scheduled, schedRef, hent, hsub, hnot]
      cases hd : f.base.done with
      | true => simp [hdone hd]
      | false =>
        by_cases hl : f.Live
        · simp [hl]
          omega
        · simp [hl]
    | entry pl ref =>
      obtain ⟨hent, -, hdone, hx⟩ := hi.own.holds
      have hnlive : ¬ f.Live := by
        intro hl
        have hempty := (h.dozes (h.live hl)).entries hi
        rw [hent] at hempty
        cases hempty
      rw [hcount, hsum, hlive]
      cases ref with
      | none =>
        have hws : f.base.ws ≠ .queued := by
          intro hws
          rw [hws] at hx
          cases hx.1
        have hnot : ¬ f.QueuedOnDeque := fun hy => hws hy.2.1
        cases pl with
        | runq => exact absurd rfl hx.2
        | _ =>
          simp [Fiber.outside, Fiber.Scheduled, schedRef, hent, hdone, hnlive, hnot, Fiber.drops]
          omega
      | some r =>
        obtain ⟨hws, hpl⟩ := hx
        rcases hpl with rfl | rfl
        · have hyes : f.QueuedOnDeque :=
            ⟨hsub, hws, _, by rw [hent]; exact List.mem_singleton_self _, rfl⟩
          simp [Fiber.outside, Fiber.Scheduled, schedRef, hent, hdone, hnlive, hyes, Fiber.drops]
          omega
        · have hnot : ¬ f.QueuedOnDeque := by simp [Fiber.QueuedOnDeque, hent]
          simp [Fiber.outside, Fiber.Scheduled, schedRef, hent, hdone, hnlive, hnot, Fiber.drops,
            hws]
          omega
    | thread i =>
      obtain ⟨-, -, -, hown, -⟩ := hi.own.holds
      rw [(hq i).1] at hown
      cases hown
  · obtain ⟨⟨pl, hb⟩, hheap, -, -⟩ := h.fresh hsub
    have hnot : ¬ f.QueuedOnDeque := fun hy => hsub hy.1
    rw [hcount, Fiber.leftovers_of_sub hsub hheap]
    simp [Fiber.outside, Fiber.Scheduled, hsub, hb, start, schedRef, hheap, hnot, Fiber.drops]

end Drain

theorem Fiber.drops_pos (f : Fiber) (x : Leftover) : 0 < f.drops x := by
  cases x with
  | sub => exact Nat.one_pos
  | queue pl =>
    cases pl with
    | runq =>
      simp only [Fiber.drops]
      split <;> omega
    | _ => exact Nat.one_pos
  | sleep t =>
    simp only [Fiber.drops]
    split <;> omega

/-- When the hubs are joined, the drains drop exactly what the scheduler holds on a g, unless the
g waits QUEUED on a deque. -/
theorem drain_releases {n : ℕ} {s : State} (hr : Reachable (system n) s) (hq : Quiet s)
    {l : List (ℕ × Leftover)} (hl : Leaves s l) {g : ℕ} {f : Fiber} (hg : s g = some f)
    (hleft : f.leftovers ≠ []) :
    f.Released (drain s l g) ↔ ¬ f.QueuedOnDeque := by
  have howed := (reachable_kept hr g f hg).owed (hq g f hg)
  rw [drain_eq hg hl, howed]
  have hpos : 0 < (f.leftovers.map f.drops).sum := by
    obtain ⟨x, rest, hx⟩ := List.exists_cons_of_ne_nil hleft
    have := f.drops_pos x
    rw [hx, List.map_cons, List.sum_cons]
    omega
  generalize (f.leftovers.map f.drops).sum = k at hpos ⊢
  rw [decref_iterate (by omega)]
  by_cases hy : f.QueuedOnDeque
  · simp only [hy, Fiber.Released, not_true, iff_false, if_true]
    omega
  · simp only [hy, Fiber.Released, not_false_eq_true, iff_true, if_false]
    refine ⟨by omega, trivial, ?_⟩
    by_cases ho : f.outside = 0
    · rw [if_pos (by omega), if_pos ho]
    · rw [if_neg (by omega), if_neg ho]

/-! ## One g -/

section Alone

variable {n : ℕ} {f f' : Fiber}

/-- The state with one g. -/
def alone (f : Fiber) : State := Function.update (fun _ => none) 0 (some f)

def Fiber.moves (n : ℕ) : Fiber → List Move → Option Fiber
  | f, [] => some f
  | f, m :: ms => (f.step n m).bind fun f' => f'.moves n ms

theorem alone_moves {ms : List Move} (hr : Reachable (system n) (alone f))
    (hm : f.moves n ms = some f') : Reachable (system n) (alone f') := by
  induction ms generalizing f with
  | nil =>
    cases hm
    exact hr
  | cons m ms ih =>
    obtain ⟨f₁, hf₁, hrest⟩ := Option.bind_eq_some_iff.mp hm
    refine ih (hr.next (a := .move 0 m) ?_) hrest
    simp [system, step, alone, hf₁, update_idem]

theorem reachable_alone {h : ℕ} {ms : List Move} (hm : (spawned h).moves n ms = some f) :
    Reachable (system n) (alone f) := by
  refine alone_moves (.next (.start rfl) (a := .spawn 0 h) ?_) hm
  simp [system, step, alone]

theorem leaves_alone (f : Fiber) : Leaves (alone f) (f.leftovers.map fun x => (0, x)) := by
  intro g
  by_cases hg : g = 0
  · subst hg
    simp [alone, List.filter_map, Function.comp_def]
  · simp [alone, hg, List.filter_map, Function.comp_def, Ne.symm hg]

def Fiber.idle (n : ℕ) (f : Fiber) : Bool :=
  decide (∀ i < n, f.base.pc i = .idle ∧ f.popper i = .idle)

theorem quiet_alone (hr : Reachable (system n) (alone f)) (hidle : f.idle n = true) :
    Quiet (alone f) := by
  intro g f' hg i
  have hkept := reachable_kept hr g f' hg
  by_cases hgz : g = 0
  · subst hgz
    obtain rfl : f = f' := Option.some.inj (by simpa [alone] using hg)
    by_cases hi : i < n
    · exact of_decide_eq_true hidle i hi
    · exact hkept.bound i (by omega)
  · simp [alone, hgz] at hg

end Alone

/-- A sleeper was woken by a signal and waits on the global run-queue, and its abandoned entry is
still on the heap: it has three references. -/
theorem drain_releases_abandoned :
    ∃ f l, Reachable (system 2) (alone f) ∧ Quiet (alone f) ∧ Leaves (alone f) l ∧
      f.leftovers = [.queue .runq, .sleep 2] ∧ f.refs = 3 ∧ f.Released (drain (alone f) l 0) := by
  have hrun : ((spawned 0).moves 2 [.drainSub .deque, .turn (.pop 0 .deque), .turn (.advance 0 .deque),
      .turn (.advance 0 .deque), .sleep 0, .turn (.park 0), .signal 1, .turn (.advance 1 .deque),
      .turn (.advance 1 .deque), .turn (.advance 1 .deque),
      .turn (.advance 1 .runq)]).map (fun f =>
        (f.leftovers, f.refs, f.idle 2, decide f.QueuedOnDeque)) =
      some ([.queue .runq, .sleep 2], 3, true, false) := by decide +kernel
  obtain ⟨f, hf, hobs⟩ := Option.map_eq_some_iff.mp hrun
  simp only [Prod.mk.injEq] at hobs
  obtain ⟨hleft, hrefs, hidle, hdeque⟩ := hobs
  have hr := reachable_alone hf
  have hq := quiet_alone hr hidle
  refine ⟨f, _, hr, hq, leaves_alone f, hleft, hrefs, ?_⟩
  exact (drain_releases hr hq (leaves_alone f) (f := f) rfl (by rw [hleft]; rintro ⟨⟩)).mpr
    (of_decide_eq_false hdeque)

/-- A hub wakes a parked fiber and pushes it on its deque; the run is torn down before the fiber is
resumed. One of the two references is dropped. -/
theorem queued_on_deque_leaks :
    ¬ ∀ n s, Reachable (system n) s → Quiet s → ∀ l, Leaves s l → ∀ g f, s g = some f →
      f.leftovers ≠ [] → f.Released (drain s l g) := by
  intro h
  have hrun : ((spawned 0).moves 2 [.drainSub .deque, .turn (.pop 0 .deque), .turn (.advance 0 .deque),
      .turn (.advance 0 .deque), .turn (.park 0), .turn (.call 1 0), .turn (.advance 1 .deque),
      .turn (.advance 1 .deque), .turn (.advance 1 .deque),
      .turn (.advance 1 .deque)]).map (fun f =>
        (f.leftovers, f.idle 2, f.outside, drain (alone f) [(0, .queue .deque)] 0)) =
      some ([.queue .deque], true, 0, ⟨1, 0, false⟩) := by decide +kernel
  obtain ⟨f, hf, hobs⟩ := Option.map_eq_some_iff.mp hrun
  simp only [Prod.mk.injEq] at hobs
  obtain ⟨hleft, hidle, hout, hdrain⟩ := hobs
  have hr := reachable_alone hf
  have hq := quiet_alone hr hidle
  have hl := leaves_alone f
  rw [hleft] at hl
  have hrel := h 2 _ hr hq _ hl 0 f rfl (by rw [hleft]; rintro ⟨⟩)
  rw [List.map_singleton, hdrain] at hrel
  have hrefs := hrel.1
  rw [hout] at hrefs
  cases hrefs

end Stackweave.Teardown
