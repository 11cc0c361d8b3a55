import Mathlib.Algebra.BigOperators.Group.Finset.Basic
import Mathlib.Algebra.BigOperators.Group.Finset.Piecewise
import Mathlib.Algebra.Order.Group.Int
import Mathlib.Tactic.Linarith
import Stackweave.Tally
import Stackweave.Transition

/-!
# The pending counters and the exit test of `runloom_mn_run`

Every hub counts its own pending fibers and `runloom_mn_run` adds the counters
one load at a time, leaving its poll loop when the sum is 0. A spawn
(`runloom_mn_pending_inc`), a completion (`runloom_mn_pending_complete`) and
the two halves of a steal (`runloom_mn_pending_steal`) are one atomic step
each, and so is each load of the reader.

* `reachable_counted`: the counters always add up to the number of uncompleted
  fibers, a fiber between the halves of a steal counted twice.
* `exit_with_live_fiber`: the loop can still exit with a fiber uncompleted,
  because the sum is not a snapshot.
* `exit_only_when_done`: it does not, as long as no counter is raised after the
  current pass has loaded it.
-/

namespace Stackweave.Pending

open Transition Tally Finset

/-- Where an uncompleted fiber is. `stealing` stands between the increment of
the thief's counter and the decrement of the victim's. -/
inductive Fiber
  | ready (hub : ℕ)
  | stealing (victim thief : ℕ)
  | running (hub : ℕ)
  | parked
  | done
  deriving DecidableEq

/-- The poll loop of `runloom_mn_run`: `hi` is the next hub to load. -/
inductive Reader
  | poll
  | sum (hi : ℕ) (total : ℤ)
  | exited

structure State where
  pending : ℕ → ℤ
  fibers : List Fiber
  reader : Reader

inductive Action
  | resume (f : ℕ)
  | yield (f : ℕ)
  | park (f : ℕ)
  | wake (f hub : ℕ)
  | spawn (f hub : ℕ)
  | stealInc (f thief : ℕ)
  | stealDec (f : ℕ)
  | complete (f : ℕ)
  | startPass
  | load
  | decide

/-- `__atomic_add_fetch(&hubs[h].pending, d)`. -/
def bump (p : ℕ → ℤ) (h : ℕ) (d : ℤ) : ℕ → ℤ := fun i => p i + if i = h then d else 0

/-- One atomic step with `n` hubs. A woken fiber is queued on whatever hub
picks it up and no counter moves with it, so it may complete on a hub that
never counted it and a single counter may be negative. -/
@[grind =]
def step (n : ℕ) (s : State) : Action → Option State
  | .resume f =>
    match s.fibers[f]? with
    | some (.ready h) => some { s with fibers := s.fibers.set f (.running h) }
    | _ => none
  | .yield f =>
    match s.fibers[f]? with
    | some (.running h) => some { s with fibers := s.fibers.set f (.ready h) }
    | _ => none
  | .park f =>
    match s.fibers[f]? with
    | some (.running _) => some { s with fibers := s.fibers.set f .parked }
    | _ => none
  | .wake f hub =>
    match s.fibers[f]? with
    | some .parked =>
      if hub < n then some { s with fibers := s.fibers.set f (.ready hub) } else none
    | _ => none
  | .spawn f hub =>
    match s.fibers[f]? with
    | some (.running _) =>
      if hub < n then
        some { s with pending := bump s.pending hub 1, fibers := s.fibers ++ [.ready hub] }
      else none
    | _ => none
  | .stealInc f thief =>
    match s.fibers[f]? with
    | some (.ready victim) =>
      if thief < n ∧ thief ≠ victim then
        some { s with pending := bump s.pending thief 1
                      fibers := s.fibers.set f (.stealing victim thief) }
      else none
    | _ => none
  | .stealDec f =>
    match s.fibers[f]? with
    | some (.stealing victim thief) =>
      some { s with pending := bump s.pending victim (-1)
                    fibers := s.fibers.set f (.running thief) }
    | _ => none
  | .complete f =>
    match s.fibers[f]? with
    | some (.running h) =>
      some { s with pending := bump s.pending h (-1), fibers := s.fibers.set f .done }
    | _ => none
  | .startPass =>
    match s.reader with
    | .poll => some { s with reader := .sum 0 0 }
    | _ => none
  | .load =>
    match s.reader with
    | .sum hi total =>
      if hi < n then some { s with reader := .sum (hi + 1) (total + s.pending hi) } else none
    | _ => none
  | .decide =>
    match s.reader with
    | .sum hi total =>
      if hi = n then some { s with reader := if total = 0 then .exited else .poll } else none
    | _ => none

/-- `runloom_mn_run` is entered with fibers queued on the hubs, each counted
on its own. -/
def Initial (n : ℕ) (s : State) : Prop :=
  s.reader = .poll ∧ (∀ f ∈ s.fibers, ∃ h < n, f = .ready h) ∧
    ∀ h < n, s.pending h = s.fibers.count (.ready h)

def system (n : ℕ) : System State Action where
  init := Initial n
  step := step n

/-! ## The counters add up -/

/-- The number of counters a fiber is counted in. -/
@[grind =]
def Fiber.weight : Fiber → ℕ
  | .stealing _ _ => 2
  | .done => 0
  | _ => 1

def totalWeight (fs : List Fiber) : ℕ := tally Fiber.weight fs

/-- The sum of the first `k` counters. -/
def sumTo (p : ℕ → ℤ) (k : ℕ) : ℤ := ∑ h ∈ range k, p h

theorem sumTo_bump (p : ℕ → ℤ) (h : ℕ) (d : ℤ) (k : ℕ) :
    sumTo (bump p h d) k = sumTo p k + if h < k then d else 0 := by
  simp [sumTo, bump, sum_add_distrib]

theorem sumTo_succ (p : ℕ → ℤ) (k : ℕ) : sumTo p (k + 1) = sumTo p k + p k :=
  sum_range_succ p k

theorem bump_zero (p : ℕ → ℤ) (h : ℕ) : bump p h 0 = p := by
  funext i
  simp [bump]

theorem weight_eq_zero {a : Fiber} (h : a.weight = 0) : a = .done := by
  cases a with
  | done => rfl
  | _ => simp [Fiber.weight] at h

theorem done_of_totalWeight {fs : List Fiber} (h : totalWeight fs = 0) {a : Fiber}
    (ha : a ∈ fs) : a = .done := by
  apply weight_eq_zero
  exact Nat.le_zero.mp (h ▸ le_tally ha)

/-! ## What a step does to the counters -/

/-- The hubs a fiber names exist. -/
def Fiber.HubsBelow (n : ℕ) : Fiber → Prop
  | .ready h => h < n
  | .stealing v t => v < n ∧ t < n
  | .running h => h < n
  | _ => True

/-- The counter an action raises. -/
def raised : Action → Option ℕ
  | .spawn _ hub => some hub
  | .stealInc _ thief => some thief
  | _ => none

/-- A fiber's step: some uncompleted fiber moves and one counter changes by as
much as the weight of the fibers does. -/
structure FiberStep (n : ℕ) (s : State) (a : Action) (t : State) (h : ℕ) (d : ℤ) : Prop where
  live : ∃ f ∈ s.fibers, f ≠ Fiber.done
  hub : h < n
  pending : t.pending = bump s.pending h d
  weight : (totalWeight t.fibers : ℤ) = totalWeight s.fibers + d
  reader : t.reader = s.reader
  raise : 0 < d → raised a = some h
  below : (∀ f ∈ s.fibers, f.HubsBelow n) → ∀ f ∈ t.fibers, f.HubsBelow n

variable {n : ℕ} {s t : State} {a : Action}

/-- Replacing the uncompleted fiber `x` by `y`. -/
theorem fiberStep_set {f : ℕ} {x y : Fiber} {h : ℕ} {d : ℤ}
    (hf : s.fibers[f]? = some x) (hx : x ≠ .done) (hh : h < n)
    (hw : (y.weight : ℤ) = x.weight + d) (hd : 0 < d → raised a = some h)
    (hy : x.HubsBelow n → y.HubsBelow n) :
    FiberStep n s a { s with pending := bump s.pending h d, fibers := s.fibers.set f y } h d := by
  have hmem : x ∈ s.fibers := List.mem_of_getElem? hf
  constructor
  · exact ⟨x, hmem, hx⟩
  · exact hh
  · rfl
  · have := tally_set (w := Fiber.weight) hf y
    simp only [totalWeight]
    omega
  · rfl
  · exact hd
  · intro hb g hg
    rcases List.mem_or_eq_of_mem_set hg with hg | rfl
    · exact hb g hg
    · exact hy (hb x hmem)

/-- A fiber that moves without touching a counter. -/
theorem fiberStep_move {f : ℕ} {x y : Fiber} {h : ℕ}
    (hf : s.fibers[f]? = some x) (hx : x ≠ .done) (hh : h < n)
    (hw : y.weight = x.weight) (hy : x.HubsBelow n → y.HubsBelow n) :
    FiberStep n s a { s with fibers := s.fibers.set f y } h 0 := by
  have := fiberStep_set (a := a) (d := 0) hf hx hh (by omega) (by omega) hy
  rwa [bump_zero] at this

/-- A step of the reader. -/
def ReaderStep (n : ℕ) (s t : State) : Prop :=
  t.pending = s.pending ∧ t.fibers = s.fibers ∧
    ((s.reader = .poll ∧ t.reader = .sum 0 0) ∨
      (∃ hi total, s.reader = .sum hi total ∧ hi < n ∧
        t.reader = .sum (hi + 1) (total + s.pending hi)) ∨
      (∃ total, s.reader = .sum n total ∧ total ≠ 0 ∧ t.reader = .poll) ∨
      (s.reader = .sum n 0 ∧ t.reader = .exited))

theorem step_cases
    (hb : ∀ f ∈ s.fibers, f.HubsBelow n) (h : step n s a = some t) :
    (∃ hub d, FiberStep n s a t hub d) ∨ ReaderStep n s t := by
  have below {f : ℕ} {x : Fiber} (hf : s.fibers[f]? = some x) : x.HubsBelow n :=
    hb x (List.mem_of_getElem? hf)
  cases a with
  | resume f =>
    simp only [step] at h
    split at h <;> cases h
    next hub hf => exact .inl ⟨hub, 0, fiberStep_move hf (by rintro ⟨⟩) (below hf) rfl id⟩
  | yield f =>
    simp only [step] at h
    split at h <;> cases h
    next hub hf => exact .inl ⟨hub, 0, fiberStep_move hf (by rintro ⟨⟩) (below hf) rfl id⟩
  | park f =>
    simp only [step] at h
    split at h <;> cases h
    next hub hf => exact .inl ⟨hub, 0, fiberStep_move hf (by rintro ⟨⟩) (below hf) rfl fun _ => trivial⟩
  | wake f hub =>
    simp only [step] at h
    split at h <;> try cases h
    next hf =>
      split at h <;> cases h
      next hh => exact .inl ⟨hub, 0, fiberStep_move hf (by rintro ⟨⟩) hh rfl fun _ => hh⟩
  | spawn f hub =>
    simp only [step] at h
    split at h <;> try cases h
    next h₀ hf =>
      split at h <;> cases h
      next hh =>
        refine .inl ⟨hub, 1, ⟨_, List.mem_of_getElem? hf, by rintro ⟨⟩⟩, hh, rfl, ?_, rfl,
          fun _ => rfl, ?_⟩
        · simp [totalWeight, Fiber.weight]
        · intro _ g hg
          rcases List.mem_append.mp hg with hg | hg
          · exact hb g hg
          · exact List.mem_singleton.mp hg ▸ hh
  | stealInc f thief =>
    simp only [step] at h
    split at h <;> try cases h
    next victim hf =>
      split at h <;> cases h
      next hh =>
        exact .inl ⟨thief, 1, fiberStep_set hf (by rintro ⟨⟩) hh.1 rfl (fun _ => rfl) fun hv => ⟨hv, hh.1⟩⟩
  | stealDec f =>
    simp only [step] at h
    split at h <;> cases h
    next victim thief hf =>
      exact .inl ⟨victim, -1, fiberStep_set hf (by rintro ⟨⟩) (below hf).1 rfl (by omega) And.right⟩
  | complete f =>
    simp only [step] at h
    split at h <;> cases h
    next hub hf =>
      exact .inl ⟨hub, -1, fiberStep_set hf (by rintro ⟨⟩) (below hf) rfl (by omega) fun _ => trivial⟩
  | startPass =>
    simp only [step] at h
    split at h <;> cases h
    next hr => exact .inr ⟨rfl, rfl, .inl ⟨hr, rfl⟩⟩
  | load =>
    simp only [step] at h
    split at h <;> try cases h
    next hi total hr =>
      split at h <;> cases h
      next hlt => exact .inr ⟨rfl, rfl, .inr (.inl ⟨hi, total, hr, hlt, rfl⟩)⟩
  | decide =>
    simp only [step] at h
    split at h <;> try cases h
    next hi total hr =>
      split at h <;> cases h
      next heq =>
        subst heq
        by_cases h0 : total = 0
        · subst h0
          exact .inr ⟨rfl, rfl, .inr (.inr (.inr ⟨hr, rfl⟩))⟩
        · exact .inr ⟨rfl, rfl, .inr (.inr (.inl ⟨total, hr, h0, by simp [h0]⟩))⟩

/-! ## Every reachable state -/

/-- The counters of the hubs add up to the weight of the fibers. -/
structure Counted (n : ℕ) (s : State) : Prop where
  below : ∀ f ∈ s.fibers, f.HubsBelow n
  total : sumTo s.pending n = totalWeight s.fibers

theorem sum_count_ready {fs : List Fiber} (h : ∀ f ∈ fs, ∃ hub < n, f = .ready hub) :
    ∑ hub ∈ range n, (fs.count (.ready hub) : ℤ) = totalWeight fs := by
  induction fs with
  | nil => simp [totalWeight]
  | cons f fs ih =>
    obtain ⟨hub, hlt, rfl⟩ := h f List.mem_cons_self
    have hrest := ih fun g hg => h g (List.mem_cons_of_mem _ hg)
    have hone : ∑ i ∈ range n, (if hub = i then (1 : ℤ) else 0) = 1 := by
      simp [hlt]
    simp only [List.count_cons, beq_iff_eq, Fiber.ready.injEq, Nat.cast_add, Nat.cast_ite,
      Nat.cast_one, Nat.cast_zero, sum_add_distrib, hrest, hone]
    simp [totalWeight, Fiber.weight, add_comm]

theorem initial_counted (h : Initial n s) : Counted n s := by
  obtain ⟨-, hf, hp⟩ := h
  constructor
  · intro f hmem
    obtain ⟨hub, hlt, rfl⟩ := hf f hmem
    exact hlt
  · rw [← sum_count_ready hf]
    exact sum_congr rfl fun i hi => hp i (mem_range.mp hi)

theorem step_counted (hc : Counted n s)
    (h : step n s a = some t) : Counted n t := by
  rcases step_cases hc.below h with ⟨hub, d, hs⟩ | ⟨hp, hf, -⟩
  · constructor
    · exact hs.below hc.below
    · rw [hs.pending, sumTo_bump, if_pos hs.hub, hc.total, hs.weight]
  · exact ⟨hf ▸ hc.below, hp ▸ hf ▸ hc.total⟩

/-- **Conservation.** In every reachable state the pending counters add up to
the weight of the fibers. -/
theorem reachable_counted (h : Reachable (system n) s) : Counted n s := by
  induction h with
  | start hs => exact initial_counted hs
  | next _ hs ih => exact step_counted ih hs

/-! ## The exit test -/

def Reader.loaded : Reader → ℕ → Bool
  | .sum hi _, h => h < hi
  | _, _ => false

/-- No counter is raised that the current pass has already loaded. -/
def NoLateRaise (s : State) (a : Action) : Prop :=
  ∀ h ∈ raised a, s.reader.loaded h = false

instance (s : State) (a : Action) : Decidable (NoLateRaise s a) :=
  inferInstanceAs (Decidable (∀ h ∈ raised a, s.reader.loaded h = false))

/-- What the pass has added up bounds the counters it has loaded. -/
def PassBound (s : State) : Prop :=
  match s.reader with
  | .poll => True
  | .sum hi total => sumTo s.pending hi ≤ total
  | .exited => ∀ f ∈ s.fibers, f = .done

theorem fiberStep_passBound {hub : ℕ} {d : ℤ}
    (hb : PassBound s) (hok : NoLateRaise s a) (hs : FiberStep n s a t hub d) :
    PassBound t := by
  unfold PassBound at *
  rw [hs.reader, hs.pending]
  cases hr : s.reader with
  | poll => trivial
  | sum hi total =>
    rw [hr] at hb
    simp only at hb ⊢
    rw [sumTo_bump]
    split
    · next hlt =>
      -- a loaded counter is only ever lowered
      have hd : d ≤ 0 := by
        by_contra hpos
        have := hok hub (hs.raise (not_le.mp hpos))
        simp [Reader.loaded, hr, hlt] at this
      linarith
    · linarith
  | exited =>
    rw [hr] at hb
    obtain ⟨f, hf, hlive⟩ := hs.live
    exact absurd (hb f hf) hlive

theorem readerStep_passBound (hc : Counted n s) (hb : PassBound s)
    (hs : ReaderStep n s t) : PassBound t := by
  obtain ⟨hp, hf, hr⟩ := hs
  unfold PassBound at *
  rcases hr with ⟨-, hr⟩ | ⟨hi, total, hs, -, hr⟩ | ⟨total, -, -, hr⟩ | ⟨hs, hr⟩
  · simp [hr, sumTo]
  · rw [hs] at hb
    simp only [hr, hp, sumTo_succ] at hb ⊢
    linarith
  · simp [hr]
  · rw [hs] at hb
    simp only [hr, hf] at hb ⊢
    intro f hmem
    have hzero : totalWeight s.fibers = 0 := by
      have := hc.total
      omega
    exact done_of_totalWeight hzero hmem

/-- **Exit test.** In every run in which no counter is raised after the current
pass of `runloom_mn_run` has loaded it, the loop exits only when every fiber
has completed. -/
theorem exit_only_when_done {n : ℕ} {s : State}
    (h : Reachable ((system n).restrict NoLateRaise) s) (hexit : s.reader = .exited) :
    ∀ f ∈ s.fibers, f = .done := by
  have hb : PassBound s := by
    refine Reachable.invariant ?_ ?_ h
    · intro s hs
      simp [PassBound, hs.1]
    · intro s a t hr hb hs
      obtain ⟨hok, hs⟩ := System.restrict_step.mp hs
      have hc := reachable_counted hr.of_restrict
      rcases step_cases hc.below hs with ⟨hub, d, hf⟩ | hrd
      · exact fiberStep_passBound hb hok hf
      · exact readerStep_passBound hc hb hrd
  unfold PassBound at hb
  rwa [hexit] at hb

/-- Two hubs, one fiber queued on hub 1. -/
def oneFiber : State :=
  { pending := fun h => if h = 1 then 1 else 0, fibers := [.ready 1], reader := .poll }

theorem oneFiber_initial : Initial 2 oneFiber := by
  refine ⟨rfl, ?_, ?_⟩
  · intro f hf
    exact ⟨1, by decide, List.mem_singleton.mp hf⟩
  · intro h hlt
    obtain rfl | rfl : h = 0 ∨ h = 1 := by omega
    · rfl
    · rfl

/-- The fiber spawns nothing and completes in the middle of the pass. -/
theorem exit_only_when_done_oneFiber :
    ∃ s, Reachable ((system 2).restrict NoLateRaise) s ∧ s.reader = .exited ∧
      ∀ f ∈ s.fibers, f = .done := by
  have hr : Reachable ((system 2).restrict NoLateRaise) _ :=
    reachable_of_run _ [.resume 0, .startPass, .load, .complete 0, .load, .decide]
      oneFiber_initial rfl
  exact ⟨_, hr, rfl, exit_only_when_done hr rfl⟩

/-- **Early exit.** The fiber on hub 1 spawns on hub 0, whose counter the pass
has read as 0, and completes before its own counter is read: the pass adds up
to 0 while the spawned fiber has not run. -/
theorem exit_with_live_fiber :
    ∃ s, Reachable (system 2) s ∧ s.reader = .exited ∧ ∃ f ∈ s.fibers, f ≠ Fiber.done := by
  have hr : Reachable (system 2) _ :=
    reachable_of_run _
      [.resume 0, .startPass, .load, .spawn 0 0, .complete 0, .load, .decide]
      oneFiber_initial rfl
  exact ⟨_, hr, rfl, .ready 0, by decide, by rintro ⟨⟩⟩

end Stackweave.Pending
