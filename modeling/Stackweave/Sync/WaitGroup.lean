import Mathlib.Data.Int.Notation
import Mathlib.Data.List.Basic
import Mathlib.Tactic.Common
import Stackweave.Transition

/-!
# `WaitGroup` (`sync.py`)

Any number of fibers and foreign threads in `add`, `done` and `wait`. What is done under
`_mu` is one step. A park returns when the fiber was woken, and may also return at any time.
`add` writes the counter before it looks at it, so a call that raises leaves its delta
behind; what follows holds in the runs in which none raises for that reason.
-/

namespace Stackweave.Sync.WaitGroup

open Transition Function

inductive Err
  | runtimeError
  | valueError
  deriving DecidableEq

structure Group where
  n : ℤ
  waiters : List ℕ

/-- What a caller does next. -/
inductive Pc
  | idle
  | returned
  | raised (error : Err)
  /-- at the head of the loop of `wait` -/
  | waiting
  /-- a foreign thread in `wait` -/
  | polling
  /-- in `_waiters`, before its park -/
  | registered
  | parked
  | waking (gs : List ℕ)
  deriving DecidableEq

/-- `sum` is history: the deltas of the calls of `add` that do not raise. -/
structure State where
  group : Group
  pc : ℕ → Pc
  woken : ℕ → Bool
  sum : ℤ

def init : State :=
  { group := ⟨0, []⟩, pc := fun _ => .idle, woken := fun _ => false, sum := 0 }

/-! ## The guarded sections -/

def Group.add (m : Group) (delta : ℤ) : Group × Pc :=
  let n := m.n + delta
  if n < 0 then ({ m with n }, .raised .valueError)
  else if n = 0 ∧ m.waiters ≠ [] then ({ n, waiters := [] }, .waking m.waiters)
  else ({ m with n }, .returned)

def Group.wait (m : Group) (f : ℕ) : Group × Pc :=
  if m.n = 0 then (m, .returned)
  else ({ m with waiters := m.waiters ++ [f] }, .registered)

def Group.poll (m : Group) : Pc := if m.n = 0 then .returned else .polling

/-! ## The steps -/

inductive Action
  | add (f : ℕ) (delta : ℤ)
  | wait (f : ℕ)
  | resume (f : ℕ)
  | spurious (f : ℕ)
  | fiber (f : ℕ)

/-- The caller is not in a call. -/
def Pc.rests : Pc → Bool
  | .idle | .returned | .raised _ => true
  | _ => false

def State.goto (s : State) (f : ℕ) (q : Pc) : State :=
  { s with pc := Function.update s.pc f q }

def State.add (s : State) (f : ℕ) (delta : ℤ) : State :=
  let r := s.group.add delta
  { s.goto f r.2 with
    group := r.1
    sum := if r.2 = .raised .valueError then s.sum else s.sum + delta }

def fiberStep (s : State) (f : ℕ) : Option State :=
  match s.pc f with
  | .waiting => some { s.goto f (s.group.wait f).2 with group := (s.group.wait f).1 }
  | .polling => some (s.goto f s.group.poll)
  | .registered => some (s.goto f .parked)
  | .waking [] => some (s.goto f .returned)
  | .waking (g :: gs) =>
    some { s.goto f (.waking gs) with woken := Function.update s.woken g true }
  | _ => none

/-- `foreign` says which callers are foreign threads. -/
@[grind =]
def step (foreign : ℕ → Bool) (s : State) : Action → Option State
  | .add f delta =>
    if (s.pc f).rests then
      if delta < 0 ∧ foreign f = true then some (s.goto f (.raised .runtimeError))
      else some (s.add f delta)
    else none
  | .wait f =>
    if (s.pc f).rests then some (s.goto f (if foreign f then .polling else .waiting)) else none
  | .resume f =>
    if s.pc f = .parked ∧ s.woken f = true then
      some { s.goto f .waiting with woken := Function.update s.woken f false }
    else none
  | .spurious f => if s.pc f = .parked then some (s.goto f .waiting) else none
  | .fiber f => fiberStep s f

def system (foreign : ℕ → Bool) : System State Action where
  init s := s = init
  step := step foreign

/-- An `add` that takes the counter below zero. -/
def goesNegative (foreign : ℕ → Bool) (s : State) : Action → Bool
  | .add f delta => decide (¬ (delta < 0 ∧ foreign f = true) ∧ s.group.n + delta < 0)
  | _ => false

/-! ## The invariant -/

def Pc.wakes : Pc → List ℕ
  | .waking gs => gs
  | _ => []

def Pc.blocked : Pc → Bool
  | .registered | .parked => true
  | _ => false

/-- The wake of the fiber has been made, or a fiber is going to make it. -/
def PendingWake (s : State) (f : ℕ) : Prop :=
  s.woken f = true ∨ ∃ e, f ∈ (s.pc e).wakes

/-- A blocked fiber is queued or is going to be woken. -/
def Attended (s : State) : Prop :=
  ∀ f, (s.pc f).blocked = true → f ∈ s.group.waiters ∨ PendingWake s f

/-- The counter is the sum of the deltas of the calls that do not raise. Where that sum is
zero every blocked `wait` is going to be woken, and one at its guarded section returns. -/
structure Balanced (s : State) : Prop where
  counter : s.group.n = s.sum
  freed : s.sum = 0 → ∀ f, (s.pc f).blocked = true → PendingWake s f
  returns : s.sum = 0 → ∀ f t, s.pc f = .waiting ∨ s.pc f = .polling → fiberStep s f = some t →
    t.pc f = .returned

structure Inv (s : State) : Prop where
  counter : s.group.n = s.sum
  nonneg : 0 ≤ s.group.n
  empty : s.group.n = 0 → s.group.waiters = []
  attended : Attended s

theorem inv_init : Inv init :=
  ⟨rfl, Int.le_refl 0, fun _ => rfl, by rintro _ ⟨⟩⟩

section Steps

variable {s t : State} {f : ℕ} {q : Pc}

theorem rests_wakes (h : q.rests = true) : q.wakes = [] := by
  cases q <;> first | rfl | cases h

theorem PendingWake.goto {e : ℕ} (h : PendingWake s e) (hpc : t.pc = update s.pc f q)
    (hf : (s.pc f).wakes = []) (hw : s.woken e = true → t.woken e = true) : PendingWake t e := by
  rcases h with h | ⟨m, hm⟩
  · exact .inl (hw h)
  · refine .inr ⟨m, ?_⟩
    have hmf : m ≠ f := by
      rintro rfl
      rw [hf] at hm
      cases hm
    rw [hpc, update_of_ne hmf]
    exact hm

/-- A guarded section of a caller with no wakes to make: a waiter stays or is going to be
woken by it. -/
theorem Attended.section (h : Attended s) (hpc : t.pc = update s.pc f q)
    (hw : t.woken = s.woken) (hf : (s.pc f).wakes = [])
    (hstay : ∀ w ∈ s.group.waiters, w ∈ t.group.waiters ∨ w ∈ q.wakes)
    (hq : q.blocked = true → f ∈ t.group.waiters) : Attended t := by
  intro e he
  rw [hpc] at he
  by_cases hef : e = f
  · rw [hef, update_self] at he
    rw [hef]
    exact .inl (hq he)
  · rw [update_of_ne hef] at he
    rcases h e he with hm | hp
    · rcases hstay e hm with hm | hm
      · exact .inl hm
      · exact .inr (.inr ⟨f, by rw [hpc, update_self]; exact hm⟩)
    · exact .inr (hp.goto hpc hf fun hx => by rw [hw]; exact hx)

/-- A caller moves on outside of the guarded sections. -/
theorem Attended.goto (h : Attended s) (hpc : t.pc = update s.pc f q)
    (hg : t.group = s.group) (hq : q.blocked = true → (s.pc f).blocked = true)
    (hwakes : ∀ e, (e = f → q.blocked = true) → PendingWake s e → PendingWake t e) :
    Attended t := by
  intro e he
  rw [hpc] at he
  rw [hg]
  by_cases hef : e = f
  · rw [hef, update_self] at he
    rw [hef]
    exact (h f (hq he)).imp_right (hwakes f fun _ => he)
  · rw [update_of_ne hef] at he
    exact (h e he).imp_right (hwakes e fun hx => absurd hx hef)

theorem Inv.goto (hi : Inv s) (hpc : t.pc = update s.pc f q) (hg : t.group = s.group)
    (hsum : t.sum = s.sum) (hq : q.blocked = true → (s.pc f).blocked = true)
    (hwakes : ∀ e, (e = f → q.blocked = true) → PendingWake s e → PendingWake t e) : Inv t := by
  refine ⟨?_, ?_, ?_, hi.attended.goto hpc hg hq hwakes⟩
  · rw [hg, hsum]
    exact hi.counter
  · rw [hg]
    exact hi.nonneg
  · rw [hg]
    exact hi.empty

theorem Inv.add {delta : ℤ} (hi : Inv s) (hf : (s.pc f).rests = true)
    (hpos : 0 ≤ s.group.n + delta) : Inv (s.add f delta) := by
  have hwakes := rests_wakes hf
  have hcount := hi.counter
  unfold State.add Group.add
  dsimp only
  rw [if_neg (Int.not_lt.mpr hpos)]
  split
  case isTrue h =>
    rw [if_neg (by rintro ⟨⟩)]
    refine ⟨?_, hpos, fun _ => rfl, ?_⟩
    · show s.group.n + delta = s.sum + delta
      rw [hcount]
    · exact hi.attended.section rfl rfl hwakes (fun w hw => .inr hw) (by rintro ⟨⟩)
  case isFalse h =>
    rw [if_neg (by rintro ⟨⟩)]
    refine ⟨?_, hpos, fun hz => ?_, ?_⟩
    · show s.group.n + delta = s.sum + delta
      rw [hcount]
    · by_contra hne
      exact h ⟨hz, hne⟩
    · exact hi.attended.section rfl rfl hwakes (fun w hw => .inl hw) (by rintro ⟨⟩)

theorem Inv.wait (hi : Inv s) (hf : s.pc f = .waiting) :
    Inv { s.goto f (s.group.wait f).2 with group := (s.group.wait f).1 } := by
  have hwakes : (s.pc f).wakes = [] := by rw [hf]; rfl
  unfold Group.wait
  split
  case isTrue hz =>
    exact ⟨hi.counter, hi.nonneg, hi.empty,
      hi.attended.section rfl rfl hwakes (fun w hw => .inl hw) (by rintro ⟨⟩)⟩
  case isFalse hz =>
    refine ⟨hi.counter, hi.nonneg, fun hx => absurd hx hz, ?_⟩
    exact hi.attended.section rfl rfl hwakes (fun w hw => .inl (List.mem_append_left _ hw))
      fun _ => List.mem_append_right _ List.mem_cons_self

theorem Inv.wake {g : ℕ} {gs : List ℕ} (hi : Inv s) (hf : s.pc f = .waking (g :: gs)) :
    Inv { s.goto f (.waking gs) with woken := update s.woken g true } := by
  refine hi.goto rfl rfl rfl (by rintro ⟨⟩) fun e _ hp => ?_
  have hwoken : e = g ∨ s.woken e = true → update s.woken g true e = true := by
    rintro (rfl | hw)
    · exact update_self ..
    · by_cases heg : e = g
      · rw [heg, update_self]
      · rw [update_of_ne heg, hw]
  rcases hp with hw | ⟨m, hm⟩
  · exact .inl (hwoken (.inr hw))
  · by_cases hmf : m = f
    · rw [hmf, hf] at hm
      rcases List.mem_cons.mp hm with heg | hm
      · exact .inl (hwoken (.inl heg))
      · refine .inr ⟨f, ?_⟩
        show e ∈ (update s.pc f (.waking gs) f).wakes
        rw [update_self]
        exact hm
    · refine .inr ⟨m, ?_⟩
      show e ∈ (update s.pc f (.waking gs) m).wakes
      rw [update_of_ne hmf]
      exact hm

theorem Inv.fiberStep (hi : Inv s) (hs : fiberStep s f = some t) : Inv t := by
  unfold WaitGroup.fiberStep at hs
  split at hs <;> cases hs
  case h_1 hf => exact hi.wait hf
  case h_2 hf =>
    refine hi.goto rfl rfl rfl ?_ fun e _ hp => hp.goto rfl (by rw [hf]; rfl) id
    unfold Group.poll
    split <;> rintro ⟨⟩
  case h_3 hf =>
    exact hi.goto rfl rfl rfl (fun _ => by rw [hf]; rfl) fun e _ hp =>
      hp.goto rfl (by rw [hf]; rfl) id
  case h_4 hf =>
    exact hi.goto rfl rfl rfl (by rintro ⟨⟩) fun e _ hp => hp.goto rfl (by rw [hf]; rfl) id
  case h_5 hf => exact hi.wake hf

theorem Inv.step {foreign : ℕ → Bool} {a : Action} (hi : Inv s)
    (hok : goesNegative foreign s a = false) (hs : step foreign s a = some t) : Inv t := by
  cases a with
  | add f delta =>
    simp only [WaitGroup.step] at hs
    split at hs
    case isFalse => cases hs
    case isTrue hf =>
      split at hs <;> cases hs
      case isTrue =>
        exact hi.goto rfl rfl rfl (by rintro ⟨⟩) fun e _ hp => hp.goto rfl (rests_wakes hf) id
      case isFalse hnot =>
        refine hi.add hf ?_
        simp only [goesNegative, decide_eq_false_iff_not] at hok
        exact Int.not_lt.mp fun hlt => hok ⟨hnot, hlt⟩
  | wait f =>
    simp only [WaitGroup.step] at hs
    split at hs <;> cases hs
    next hf =>
    refine hi.goto rfl rfl rfl ?_ fun e _ hp => hp.goto rfl (rests_wakes hf) id
    split <;> rintro ⟨⟩
  | resume f =>
    simp only [WaitGroup.step] at hs
    split at hs <;> cases hs
    next hf =>
    -- the fiber is on its way to its guarded section again
    refine hi.goto rfl rfl rfl (by rintro ⟨⟩) fun e hef hp => hp.goto rfl (by rw [hf.1]; rfl) fun hw => ?_
    have hne : e ≠ f := fun hx => absurd (hef hx) (by rintro ⟨⟩)
    show update s.woken f false e = true
    rw [update_of_ne hne]
    exact hw
  | spurious f =>
    simp only [WaitGroup.step] at hs
    split at hs <;> cases hs
    next hf => exact hi.goto rfl rfl rfl (by rintro ⟨⟩) fun e _ hp => hp.goto rfl (by rw [hf]; rfl) id
  | fiber f => exact hi.fiberStep hs

theorem Inv.balanced (hi : Inv s) : Balanced s := by
  refine ⟨hi.counter, fun hz f hf => ?_, fun hz f t hf hs => ?_⟩
  · have hempty := hi.empty (hi.counter.trans hz)
    rcases hi.attended f hf with hm | hp
    · rw [hempty] at hm
      cases hm
    · exact hp
  · have hn : s.group.n = 0 := hi.counter.trans hz
    unfold WaitGroup.fiberStep at hs
    rcases hf with hf | hf
    · rw [hf] at hs
      cases hs
      simp [State.goto, Group.wait, hn]
    · rw [hf] at hs
      cases hs
      simp [State.goto, Group.poll, hn]

end Steps

/-! ## A call that raises -/

section Runs

variable {foreign : ℕ → Bool} {s t : State} {a : Action}

/-- The runs in which no `add` takes the counter below zero. -/
def soundSystem (foreign : ℕ → Bool) : System State Action :=
  (system foreign).restrict fun s a => goesNegative foreign s a = false

theorem reachable_inv (hr : Reachable (soundSystem foreign) s) : Inv s := by
  refine Reachable.invariant ?_ ?_ hr
  · rintro _ rfl
    exact inv_init
  · intro u a t _ hi hs
    obtain ⟨hok, hs⟩ := System.restrict_step.mp hs
    exact hi.step hok hs

/-- Only `add` changes the counter and the sum. -/
theorem step_counts (hs : step foreign s a = some t) :
    (t.group.n = s.group.n ∧ t.sum = s.sum) ∨
      ∃ f delta, a = .add f delta ∧ ¬ (delta < 0 ∧ foreign f = true) ∧ t = s.add f delta := by
  cases a with
  | add f delta =>
    simp only [step] at hs
    split at hs
    case isFalse => cases hs
    case isTrue =>
      split at hs <;> cases hs
      case isTrue => exact .inl ⟨rfl, rfl⟩
      case isFalse h => exact .inr ⟨f, delta, rfl, h, rfl⟩
  | wait f =>
    simp only [step] at hs
    split at hs <;> cases hs
    exact .inl ⟨rfl, rfl⟩
  | resume f =>
    simp only [step] at hs
    split at hs <;> cases hs
    exact .inl ⟨rfl, rfl⟩
  | spurious f =>
    simp only [step] at hs
    split at hs <;> cases hs
    exact .inl ⟨rfl, rfl⟩
  | fiber f =>
    simp only [step, fiberStep] at hs
    split at hs <;> cases hs
    case h_1 =>
      refine .inl ⟨?_, rfl⟩
      unfold Group.wait
      dsimp only
      split <;> rfl
    all_goals exact .inl ⟨rfl, rfl⟩

theorem add_counts (s : State) (f : ℕ) (delta : ℤ) :
    (s.add f delta).group.n = s.group.n + delta ∧
      (s.add f delta).sum = if s.group.n + delta < 0 then s.sum else s.sum + delta := by
  unfold State.add Group.add
  dsimp only
  by_cases hneg : s.group.n + delta < 0
  · simp [hneg]
  · rw [if_neg hneg, if_neg hneg]
    split <;> simp

/-- The counter is never above the sum. -/
structure Behind (s : State) : Prop where
  sum : 0 ≤ s.sum
  counter : s.group.n ≤ s.sum

theorem Behind.step (h : Behind s) (hs : step foreign s a = some t) : Behind t := by
  rcases step_counts hs with ⟨hn, hsum⟩ | ⟨f, delta, -, -, rfl⟩
  · exact ⟨hsum ▸ h.sum, by rw [hn, hsum]; exact h.counter⟩
  · obtain ⟨hn, hsum⟩ := add_counts s f delta
    have h0 := h.sum
    have hle := h.counter
    constructor
    · rw [hsum]
      split <;> omega
    · rw [hn, hsum]
      split <;> omega

/-- A delta that a raising call has left behind stays. -/
theorem step_behind (h : Behind s) (hs : step foreign s a = some t)
    (hlt : s.group.n < s.sum ∨ goesNegative foreign s a = true) : t.group.n < t.sum := by
  have h0 := h.sum
  rcases step_counts hs with ⟨hn, hsum⟩ | ⟨f, delta, rfl, hfib, rfl⟩
  · rcases hlt with hlt | hneg
    · rw [hn, hsum]
      exact hlt
    · cases a with
      | add f delta =>
        simp only [goesNegative, decide_eq_true_eq] at hneg
        simp only [WaitGroup.step] at hs
        split at hs
        case isFalse => cases hs
        case isTrue =>
          rw [if_neg hneg.1] at hs
          cases hs
          have hn' := (add_counts s f delta).1
          omega
      | wait | resume | spurious | fiber => cases hneg
  · obtain ⟨hn, hsum⟩ := add_counts s f delta
    rw [hn, hsum]
    rcases hlt with hlt | hneg
    · split <;> omega
    · simp only [goesNegative, decide_eq_true_eq] at hneg
      rw [if_pos hneg.2]
      omega

theorem run_behind {as : List Action} (h : Behind s) (hlt : s.group.n < s.sum)
    (hs : (system foreign).run s as = some t) : t.group.n < t.sum := by
  induction as generalizing s with
  | nil =>
    cases hs
    exact hlt
  | cons a as ih =>
    obtain ⟨u, hu, hrest⟩ := Option.bind_eq_some_iff.mp hs
    exact ih (h.step hu) (step_behind h hu (.inl hlt)) hrest

/-- A run meets the condition, or its counter is off in the end. -/
theorem run_sound_or {as : List Action} (h : Behind s)
    (hs : (system foreign).run s as = some t) :
    (soundSystem foreign).run s as = some t ∨ t.group.n < t.sum := by
  induction as generalizing s with
  | nil => exact .inl hs
  | cons a as ih =>
    obtain ⟨u, hu, hrest⟩ := Option.bind_eq_some_iff.mp hs
    cases hok : goesNegative foreign s a with
    | false =>
      refine (ih (h.step hu) hrest).imp_left fun hrun => ?_
      exact Option.bind_eq_some_iff.mpr ⟨u, System.restrict_step.mpr ⟨hok, hu⟩, hrun⟩
    | true => exact .inr (run_behind (h.step hu) (step_behind h hu (.inr hok)) hrest)

/-- **`WaitGroup`** counts and frees its waiters at the end of a run exactly when no `add` of
the run takes the counter below zero. -/
theorem balanced_iff {as : List Action} (hs : (system foreign).run init as = some s) :
    Balanced s ↔ (soundSystem foreign).run init as = some s := by
  constructor
  · intro hb
    have h0 : Behind init := ⟨Int.le_refl 0, Int.le_refl 0⟩
    rcases run_sound_or h0 hs with hrun | hlt
    · exact hrun
    · exact absurd hb.counter (Int.ne_of_lt hlt)
  · exact fun hrun => (reachable_inv (reachable_of_run _ as rfl hrun)).balanced

end Runs

/-- Fiber 1 waits for two; the second `done` finds it parked. -/
def pairRun : List Action :=
  [.add 0 2, .wait 1, .fiber 1, .fiber 1, .add 2 (-1), .add 3 (-1)]

theorem balanced_pair :
    ∃ s, (system fun _ => false).run init pairRun = some s ∧ s.sum = 0 ∧ s.pc 1 = .parked ∧
      s.pc 3 = .waking [1] ∧ Balanced s :=
  ⟨_, rfl, rfl, rfl, rfl, (@balanced_iff (fun _ => false) _ pairRun rfl).mpr rfl⟩

/-- A `done` too many raises and is caught. Nothing was added, and a `wait` blocks. -/
def negativeRun : List Action := [.add 0 (-1), .wait 1, .fiber 1, .fiber 1]

theorem add_leaves_negative :
    ∃ s, (system fun _ => false).run init negativeRun = some s ∧ s.pc 0 = .raised .valueError ∧
      s.group = ⟨-1, [1]⟩ ∧ s.sum = 0 ∧ s.pc 1 = .parked ∧ ¬ Balanced s :=
  ⟨_, rfl, rfl, rfl, rfl, rfl, fun h => absurd h.counter (by decide)⟩

end Stackweave.Sync.WaitGroup
