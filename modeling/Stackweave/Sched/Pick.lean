import Mathlib.Tactic.Common
import Stackweave.Sched.Runq
import Stackweave.Transition

/-!
# The pick order of a hub (`runloom_hub_main`)

One hub and its three counters. Each access to a queue is a step; between any two of them the
other hubs, the wakers and the fiber that runs may change every queue (`Action.env`). A pick is
a turn of the loop that obtains a g; `picks` records where each came from, the newest first.
The counters `forced_turns` and `local_turns` are read for their lowest bit only, so it does
not matter that they wrap.
-/

namespace Stackweave.Pick

open Transition

inductive Source
  | ring
  | yieldq
  | deque
  | runq
  | steal
  deriving DecidableEq

/-- Where the hub stands in the turn: at the loop top, or before an access. `second`: the other
local queue was empty. `runqFirst`: the forced turn has pulled the run-queue before. -/
inductive Pc
  | top
  | forcedRunq (runqFirst : Bool)
  | forcedDeque (runqFirst : Bool)
  | ring (second : Bool)
  | yieldq (second : Bool)
  | deque
  | poll
  | runq
  | steal
  | resume (g : ℕ)
  deriving DecidableEq

structure State where
  ring : List ℕ
  yieldq : List ℕ
  /-- the bottom first -/
  deque : List ℕ
  runq : List ℕ
  pin : ℕ → ℕ
  readyStreak : ℕ
  forcedTurns : ℕ
  localTurns : ℕ
  pc : Pc
  picks : List Source

def start : State :=
  { ring := [], yieldq := [], deque := [], runq := [], pin := fun _ => 0, readyStreak := 0
    forcedTurns := 0, localTurns := 0, pc := .top, picks := [] }

/-- The turn has obtained `g`. -/
def State.pick (s : State) (src : Source) (g : ℕ) : State :=
  { s with pc := .resume g, picks := src :: s.picks }

/-- The ready ring and the yield queue take turns. -/
def State.turnLocal (s : State) : State :=
  { s with
    localTurns := s.localTurns + 1
    pc := if s.localTurns % 2 = 0 then .ring false else .yieldq false }

/-- `runloom_mn_global_runq_pull(h->id)`, with `next` where it returns `NULL`. -/
def State.pull (s : State) (hub : ℕ) (next : State) : State :=
  match s.runq.find? (Runq.mayTake s.pin hub) with
  | some g => { s with runq := s.runq.erase g }.pick .runq g
  | none => next

/-- The next access of the hub. `repick`: the poll of its own ring found something, and the
loop starts again. `stolen`: what the neighbours had. -/
def advance (sbound hub : ℕ) (s : State) (repick : Bool) (stolen : Option ℕ) : State :=
  match s.pc with
  | .top =>
    if sbound ≠ 0 ∧ sbound ≤ s.readyStreak then
      { s with
        readyStreak := 0
        forcedTurns := s.forcedTurns + 1
        pc := if s.forcedTurns % 2 = 0 then .forcedRunq true else .forcedDeque false }
    else s.turnLocal
  | .forcedRunq runqFirst =>
    s.pull hub (if runqFirst then { s with pc := .forcedDeque true } else s.turnLocal)
  | .forcedDeque runqFirst =>
    match s.deque with
    | g :: rest => { s with deque := rest }.pick .deque g
    | [] => if runqFirst then s.turnLocal else { s with pc := .forcedRunq false }
  | .ring second =>
    match s.ring with
    | g :: rest => { s with ring := rest, readyStreak := s.readyStreak + 1 }.pick .ring g
    | [] => { s with pc := if second then .deque else .yieldq true }
  | .yieldq second =>
    match s.yieldq with
    | g :: rest => { s with yieldq := rest, readyStreak := s.readyStreak + 1 }.pick .yieldq g
    | [] => { s with pc := if second then .deque else .ring true }
  | .deque =>
    match s.deque with
    | g :: rest => { s with deque := rest, readyStreak := 0 }.pick .deque g
    | [] => { s with readyStreak := 0, pc := .poll }
  | .poll => { s with pc := if repick then .top else .runq }
  | .runq => s.pull hub { s with pc := .steal }
  | .steal =>
    match stolen with
    | some g => s.pick .steal g
    -- the idle wait
    | none => { s with pc := .top }
  | .resume _ => { s with pc := .top }

inductive Action
  | env (ring yieldq deque runq : List ℕ) (pin : ℕ → ℕ)
  | hub (repick : Bool) (stolen : Option ℕ)

def step (sbound hub : ℕ) (s : State) : Action → Option State
  | .env ring yieldq deque runq pin =>
    some { s with ring := ring, yieldq := yieldq, deque := deque, runq := runq, pin := pin }
  | .hub repick stolen => some (advance sbound hub s repick stolen)

def system (sbound hub : ℕ) : System State Action where
  init s := s = start
  step := step sbound hub

/-! ## What is to hold -/

/-- The run-queue has an entry that the hub may take. -/
def State.Offers (hub : ℕ) (s : State) : Prop :=
  ∃ g ∈ s.runq, Runq.mayTake s.pin hub g = true

instance (hub : ℕ) (s : State) : Decidable (s.Offers hub) :=
  inferInstanceAs (Decidable (∃ g ∈ s.runq, Runq.mayTake s.pin hub g = true))

/-- A turn that finds the ready ring and the yield queue empty, and is not a forced one, gets
to the run-queue: it is not served from the deque and does not start again after the poll. -/
def GetsThrough (s : State) : Action → Prop
  | .hub repick _ => (s.pc = .deque → s.deque = []) ∧ (s.pc = .poll → repick = false)
  | .env .. => True

instance : (s : State) → (a : Action) → Decidable (GetsThrough s a)
  | s, .hub repick _ =>
    inferInstanceAs (Decidable ((s.pc = .deque → s.deque = []) ∧ (s.pc = .poll → repick = false)))
  | _, .env .. => inferInstanceAs (Decidable True)

/-! ## How many picks may pass by a queue -/

section Bypass

variable {sbound hub : ℕ} {s t : State}

theorem pull_some (h : s.Offers hub) (next : State) :
    ∃ g, s.pull hub next = { s with runq := s.runq.erase g }.pick .runq g := by
  obtain ⟨g, hg, hmay⟩ := h
  unfold State.pull
  split
  · next g' _ => exact ⟨g', rfl⟩
  · next hnone =>
    rw [List.find?_eq_none] at hnone
    exact absurd hmay (hnone g hg)

/-- One step of a run picks nothing and the bound does not grow, or it picks from `src`, or it
picks from another queue and the bound gets smaller. -/
def Bounds (φ : State → ℕ) (src : Source) (s t : State) : Prop :=
  t.picks = s.picks ∧ φ t ≤ φ s ∨
    ∃ x, t.picks = x :: s.picks ∧ (x = src ∨ φ t + 1 ≤ φ s)

theorem run_bounds {M : System State Action} {φ : State → ℕ} {src : Source} {Good : State → Prop}
    (hstep : ∀ s a t, Good s → M.step s a = some t → Good t ∧ Bounds φ src s t)
    {as : List Action} (hs : Good s) (hrun : M.run s as = some t) :
    ∃ new, t.picks = new ++ s.picks ∧ (src ∈ new ∨ new.length + φ t ≤ φ s) := by
  induction as generalizing s with
  | nil =>
    cases hrun
    exact ⟨[], rfl, .inr (by simp)⟩
  | cons a as ih =>
    obtain ⟨u, hu, hrest⟩ := Option.bind_eq_some_iff.mp hrun
    obtain ⟨hgood, hbound⟩ := hstep s a u hs hu
    obtain ⟨new, hnew, hcase⟩ := ih hgood hrest
    rcases hbound with ⟨hpicks, hle⟩ | ⟨x, hpicks, hx⟩
    · refine ⟨new, hpicks ▸ hnew, hcase.imp id fun h => ?_⟩
      omega
    · refine ⟨new ++ [x], by rw [hnew, hpicks, List.append_assoc]; rfl, ?_⟩
      rcases hx with rfl | hlt
      · exact .inl (List.mem_append_right _ (List.mem_singleton_self x))
      · refine hcase.imp (List.mem_append_left _) fun h => ?_
        rw [List.length_append, List.length_singleton]
        omega

/-- A bound of `2 * sbound + 1` picks that pass by makes a window of `2 * (sbound + 1)` long
enough. -/
theorem mem_window {φ : State → ℕ} {src : Source} {new : List Source}
    (h : ∃ l, t.picks = l ++ s.picks ∧ (src ∈ l ∨ l.length + φ t ≤ φ s))
    (hφ : φ s ≤ 2 * sbound + 1) (hnew : t.picks = new ++ s.picks)
    (hlen : new.length = 2 * (sbound + 1)) : src ∈ new := by
  obtain ⟨l, hl, hcase⟩ := h
  have hsame : l = new := List.append_cancel_right (hl.symm.trans hnew)
  subst hsame
  rcases hcase with hmem | hle
  · exact hmem
  · omega

/-- The queue that is waited for: the run-queue or the deque. -/
def Source.of (toRunq : Bool) : Source := if toRunq then .runq else .deque

/-- The next forced turn tries it first. -/
def State.mine (toRunq : Bool) (s : State) : Prop :=
  s.forcedTurns % 2 = if toRunq then 0 else 1

instance (toRunq : Bool) (s : State) : Decidable (s.mine toRunq) :=
  inferInstanceAs (Decidable (_ = _))

/-- The picks that may pass by from the loop top on: the rest of the streak, and when the next
forced turn is for the other queue, that turn and a whole streak more. -/
def left (sbound : ℕ) (toRunq : Bool) (s : State) : ℕ :=
  if s.mine toRunq then sbound - s.readyStreak else 2 * sbound + 1 - s.readyStreak

/-- The picks that may pass by. -/
def pass (sbound : ℕ) (toRunq : Bool) (s : State) : ℕ :=
  match s.pc with
  | .forcedRunq _ => if toRunq then 0 else sbound + 1
  | .forcedDeque _ => if toRunq then sbound + 1 else 0
  | .deque | .poll | .runq | .steal => 0
  | .top | .ring _ | .yieldq _ | .resume _ => left sbound toRunq s

/-- The turns that get past the queue while it is not empty, and those that steal. -/
@[grind =]
def Pc.misses (toRunq : Bool) : Pc → Bool
  | .steal => true
  | .forcedDeque runqFirst => toRunq && runqFirst
  | .forcedRunq runqFirst => !toRunq && !runqFirst
  | .poll | .runq => !toRunq
  | _ => false

/-- The forced turn is for the other queue. -/
@[grind =]
def Pc.others (toRunq : Bool) : Pc → Bool
  | .forcedDeque _ => toRunq
  | .forcedRunq _ => !toRunq
  | _ => false

def Pc.outside : Pc → Bool
  | .top | .resume _ => true
  | _ => false

structure Toward (sbound : ℕ) (toRunq : Bool) (s : State) : Prop where
  le : s.readyStreak ≤ sbound
  lt : s.pc.outside = false → s.readyStreak < sbound
  sees : s.pc.misses toRunq = false
  forced : s.pc.others toRunq = true → s.mine toRunq ∧ s.readyStreak = 0

variable {toRunq : Bool}

theorem Toward.goto {pc : Pc} (hlt : s.readyStreak < sbound) (hsees : pc.misses toRunq = false)
    (hothers : pc.others toRunq = false) : Toward sbound toRunq { s with pc := pc } := by
  refine ⟨Nat.le_of_lt hlt, fun _ => hlt, hsees, fun h => ?_⟩
  exact absurd (hothers.symm.trans h) (by rintro ⟨⟩)

theorem Toward.pick {src : Source} {g : ℕ} (h : s.readyStreak ≤ sbound) :
    Toward sbound toRunq (s.pick src g) :=
  ⟨h, by rintro ⟨⟩, rfl, by rintro ⟨⟩⟩

theorem turnLocal_eq : ∃ n pc, s.turnLocal = { s with localTurns := n, pc := pc } ∧
    (pc = .ring false ∨ pc = .yieldq false) := by
  refine ⟨_, _, rfl, ?_⟩
  split
  · exact .inl rfl
  · exact .inr rfl

/-- A turn at the local queues begins. -/
theorem Toward.turnLocal (hlt : s.readyStreak < sbound) : Toward sbound toRunq s.turnLocal ∧
    s.turnLocal.picks = s.picks ∧ pass sbound toRunq s.turnLocal = left sbound toRunq s := by
  obtain ⟨n, pc, heq, hpc⟩ := @turnLocal_eq s
  rw [heq]
  rcases hpc with rfl | rfl
  · exact ⟨Toward.goto (s := { s with localTurns := n }) hlt rfl rfl, rfl, rfl⟩
  · exact ⟨Toward.goto (s := { s with localTurns := n }) hlt rfl rfl, rfl, rfl⟩

/-- A pick from a local queue makes the streak longer. -/
theorem Bounds.fifo {src x : Source} {g : ℕ} {ring yieldq : List ℕ}
    (hpc : pass sbound toRunq s = left sbound toRunq s) (hlt : s.readyStreak < sbound) :
    Bounds (pass sbound toRunq) src s
      ({ s with ring := ring, yieldq := yieldq, readyStreak := s.readyStreak + 1 }.pick x g) := by
  refine .inr ⟨x, rfl, .inr ?_⟩
  rw [hpc]
  show (if s.mine toRunq then sbound - (s.readyStreak + 1)
    else 2 * sbound + 1 - (s.readyStreak + 1)) + 1 ≤ _
  unfold left
  split <;> omega

/-- A local queue was empty: on to the other one, or to the deque. -/
theorem Toward.empty {second : Bool} {other : Pc} (hlt : s.readyStreak < sbound)
    (hpc : pass sbound toRunq s = left sbound toRunq s)
    (ho : other = .ring true ∨ other = .yieldq true) :
    Toward sbound toRunq { s with pc := if second then .deque else other } ∧
      Bounds (pass sbound toRunq) (.of toRunq) s
        { s with pc := if second then .deque else other } := by
  cases second with
  | true => exact ⟨.goto hlt rfl rfl, .inl ⟨rfl, Nat.zero_le _⟩⟩
  | false =>
    rcases ho with rfl | rfl
    · exact ⟨.goto hlt rfl rfl, .inl ⟨rfl, by rw [hpc]; exact Nat.le_refl _⟩⟩
    · exact ⟨.goto hlt rfl rfl, .inl ⟨rfl, by rw [hpc]; exact Nat.le_refl _⟩⟩

/-- The streak is over: a turn for one of the two queues. -/
theorem Toward.force (hB : 1 ≤ sbound) (hle : s.readyStreak ≤ sbound)
    (hpc : pass sbound toRunq s = left sbound toRunq s) {t : State}
    (ht : t = { s with
      readyStreak := 0, forcedTurns := s.forcedTurns + 1
      pc := if s.forcedTurns % 2 = 0 then .forcedRunq true else .forcedDeque false }) :
    Toward sbound toRunq t ∧ Bounds (pass sbound toRunq) (.of toRunq) s t := by
  subst ht
  by_cases hmine : s.mine toRunq
  · -- the turn is for the queue
    cases toRunq with
    | true =>
      have heven : s.forcedTurns % 2 = 0 := hmine
      rw [if_pos heven]
      exact ⟨⟨Nat.zero_le _, fun _ => hB, rfl, by rintro ⟨⟩⟩, .inl ⟨rfl, Nat.zero_le _⟩⟩
    | false =>
      have hodd : s.forcedTurns % 2 = 1 := hmine
      rw [if_neg (by omega)]
      exact ⟨⟨Nat.zero_le _, fun _ => hB, rfl, by rintro ⟨⟩⟩, .inl ⟨rfl, Nat.zero_le _⟩⟩
  · have hpass : sbound + 1 ≤ pass sbound toRunq s := by
      rw [hpc, left, if_neg hmine]
      omega
    cases toRunq with
    | true =>
      have hodd : ¬ s.forcedTurns % 2 = 0 := hmine
      have hnext : (s.forcedTurns + 1) % 2 = 0 := by omega
      rw [if_neg hodd]
      exact ⟨⟨Nat.zero_le _, fun _ => hB, rfl, fun _ => ⟨hnext, rfl⟩⟩, .inl ⟨rfl, hpass⟩⟩
    | false =>
      have heven : ¬ s.forcedTurns % 2 = 1 := hmine
      have hnext : (s.forcedTurns + 1) % 2 = 1 := by omega
      rw [if_pos (by omega)]
      exact ⟨⟨Nat.zero_le _, fun _ => hB, rfl, fun _ => ⟨hnext, rfl⟩⟩, .inl ⟨rfl, hpass⟩⟩

/-- A pick of the forced turn that was for the other queue. -/
theorem Toward.other {src x : Source} {g : ℕ} {deque runq : List ℕ} (h : Toward sbound toRunq s)
    (ho : s.pc.others toRunq = true) :
    Toward sbound toRunq ({ s with deque := deque, runq := runq }.pick x g) ∧
      Bounds (pass sbound toRunq) src s
        ({ s with deque := deque, runq := runq }.pick x g) := by
  obtain ⟨hmine, hzero⟩ := h.forced ho
  have hpass : pass sbound toRunq s = sbound + 1 := by
    unfold pass
    cases hpc : s.pc <;> rw [hpc] at ho <;> simp_all [Pc.others]
  refine ⟨.pick h.le, .inr ⟨x, rfl, .inr ?_⟩⟩
  have hleft : left sbound toRunq s = sbound := by rw [left, if_pos hmine, hzero, Nat.sub_zero]
  rw [hpass]
  exact Nat.succ_le_succ (Nat.le_of_eq hleft)

/-- What is taken while the queue is not empty. -/
def Waits (hub : ℕ) (toRunq : Bool) (s : State) (a : Action) : Prop :=
  if toRunq then s.Offers hub ∧ GetsThrough s a else s.deque ≠ []

theorem advance_toward {repick : Bool} {stolen : Option ℕ} (hB : 1 ≤ sbound)
    (h : Toward sbound toRunq s) (hw : Waits hub toRunq s (.hub repick stolen)) :
    Toward sbound toRunq (advance sbound hub s repick stolen) ∧
      Bounds (pass sbound toRunq) (.of toRunq) s (advance sbound hub s repick stolen) := by
  unfold advance
  split
  case h_1 hpc =>
    have hpass : pass sbound toRunq s = left sbound toRunq s := by rw [pass, hpc]
    split
    · exact Toward.force hB h.le hpass rfl
    · have hlt : s.readyStreak < sbound := by omega
      have hturn : Toward sbound toRunq s.turnLocal ∧ s.turnLocal.picks = s.picks ∧
          pass sbound toRunq s.turnLocal = left sbound toRunq s := Toward.turnLocal hlt
      exact ⟨hturn.1, .inl ⟨hturn.2.1, Nat.le_of_eq (hturn.2.2.trans hpass.symm)⟩⟩
  case h_2 first hpc =>
    cases toRunq with
    | true =>
      obtain ⟨g, hpull⟩ := pull_some hw.1
        (if first then { s with pc := .forcedDeque true } else s.turnLocal)
      rw [hpull]
      exact ⟨.pick h.le, .inr ⟨.runq, rfl, .inl rfl⟩⟩
    | false =>
      have hfirst : first = true := by
        have hsees := h.sees
        rw [hpc] at hsees
        simpa [Pc.misses] using hsees
      subst hfirst
      unfold State.pull
      split
      · exact h.other (by rw [hpc]; rfl)
      · exact ⟨.goto (h.lt (by rw [hpc]; rfl)) rfl rfl, .inl ⟨rfl, Nat.zero_le _⟩⟩
  case h_3 first hpc =>
    cases toRunq with
    | true =>
      have hfirst : first = false := by
        have hsees := h.sees
        rw [hpc] at hsees
        simpa [Pc.misses] using hsees
      subst hfirst
      split
      · exact h.other (by rw [hpc]; rfl)
      · exact ⟨.goto (h.lt (by rw [hpc]; rfl)) rfl rfl, .inl ⟨rfl, Nat.zero_le _⟩⟩
    | false =>
      obtain ⟨g, rest, hd⟩ := List.exists_cons_of_ne_nil hw
      rw [hd]
      exact ⟨.pick h.le, .inr ⟨.deque, rfl, .inl rfl⟩⟩
  case h_4 second hpc =>
    have hpass : pass sbound toRunq s = left sbound toRunq s := by rw [pass, hpc]
    have hlt : s.readyStreak < sbound := h.lt (by rw [hpc]; rfl)
    split
    · exact ⟨.pick hlt, .fifo hpass hlt⟩
    · exact Toward.empty hlt hpass (.inr rfl)
  case h_5 second hpc =>
    have hpass : pass sbound toRunq s = left sbound toRunq s := by rw [pass, hpc]
    have hlt : s.readyStreak < sbound := h.lt (by rw [hpc]; rfl)
    split
    · exact ⟨.pick hlt, .fifo hpass hlt⟩
    · exact Toward.empty hlt hpass (.inl rfl)
  case h_6 hpc =>
    cases toRunq with
    | true =>
      have hd : s.deque = [] := hw.2.1 hpc
      split
      · next heq =>
        rw [hd] at heq
        cases heq
      · exact ⟨Toward.goto (s := { s with readyStreak := 0 }) hB rfl rfl,
          .inl ⟨rfl, Nat.zero_le _⟩⟩
    | false =>
      obtain ⟨g, rest, hd⟩ := List.exists_cons_of_ne_nil hw
      rw [hd]
      exact ⟨.pick (Nat.zero_le _), .inr ⟨.deque, rfl, .inl rfl⟩⟩
  case h_7 hpc =>
    cases toRunq with
    | true =>
      rw [hw.2.2 hpc]
      exact ⟨.goto (h.lt (by rw [hpc]; rfl)) rfl rfl, .inl ⟨rfl, Nat.zero_le _⟩⟩
    | false =>
      have hsees := h.sees
      rw [hpc] at hsees
      cases hsees
  case h_8 hpc =>
    cases toRunq with
    | true =>
      obtain ⟨g, hpull⟩ := pull_some hw.1 { s with pc := .steal }
      rw [hpull]
      exact ⟨.pick h.le, .inr ⟨.runq, rfl, .inl rfl⟩⟩
    | false =>
      have hsees := h.sees
      rw [hpc] at hsees
      cases hsees
  case h_9 hpc =>
    have hsees := h.sees
    rw [hpc] at hsees
    cases hsees
  case h_10 g hpc =>
    refine ⟨⟨h.le, by rintro ⟨⟩, rfl, by rintro ⟨⟩⟩, .inl ⟨rfl, ?_⟩⟩
    have hpass : pass sbound toRunq s = left sbound toRunq s := by rw [pass, hpc]
    rw [hpass]
    exact Nat.le_refl _

theorem step_toward {a : Action} (hB : 1 ≤ sbound) (h : Toward sbound toRunq s)
    (hw : Waits hub toRunq s a) (hs : step sbound hub s a = some t) :
    Toward sbound toRunq t ∧ Bounds (pass sbound toRunq) (.of toRunq) s t := by
  cases a with
  | env ring yieldq deque runq pin =>
    cases hs
    exact ⟨⟨h.le, h.lt, h.sees, h.forced⟩, .inl ⟨rfl, Nat.le_refl _⟩⟩
  | hub repick stolen =>
    cases hs
    exact advance_toward hB h hw

/-- The streak never gets past the bound, and is below it in the middle of a turn. -/
structure Streak (sbound : ℕ) (s : State) : Prop where
  le : s.readyStreak ≤ sbound
  lt : s.pc.outside = false → s.readyStreak < sbound

theorem Streak.of_lt (hlt : s.readyStreak < sbound) : Streak sbound s :=
  ⟨Nat.le_of_lt hlt, fun _ => hlt⟩

theorem Streak.pull {next : State} (h : s.readyStreak ≤ sbound) (hn : Streak sbound next) :
    Streak sbound (s.pull hub next) := by
  unfold State.pull
  split
  · exact ⟨h, by rintro ⟨⟩⟩
  · exact hn

theorem advance_streak {repick : Bool} {stolen : Option ℕ} (hB : 1 ≤ sbound)
    (h : Streak sbound s) : Streak sbound (advance sbound hub s repick stolen) := by
  unfold advance
  split
  case h_1 hpc =>
    split
    · exact .of_lt hB
    · exact .of_lt (by show s.readyStreak < sbound; omega)
  case h_2 first hpc =>
    refine .pull h.le (.of_lt ?_)
    split <;> exact h.lt (by rw [hpc]; rfl)
  case h_3 first hpc =>
    split
    · exact ⟨h.le, by rintro ⟨⟩⟩
    · split <;> exact .of_lt (h.lt (by rw [hpc]; rfl))
  case h_4 second hpc =>
    split
    · exact ⟨h.lt (by rw [hpc]; rfl), by rintro ⟨⟩⟩
    · exact .of_lt (h.lt (by rw [hpc]; rfl))
  case h_5 second hpc =>
    split
    · exact ⟨h.lt (by rw [hpc]; rfl), by rintro ⟨⟩⟩
    · exact .of_lt (h.lt (by rw [hpc]; rfl))
  case h_6 hpc =>
    split
    · exact ⟨Nat.zero_le _, by rintro ⟨⟩⟩
    · exact .of_lt hB
  case h_7 hpc => exact .of_lt (h.lt (by rw [hpc]; rfl))
  case h_8 hpc => exact .pull h.le (.of_lt (h.lt (by rw [hpc]; rfl)))
  case h_9 hpc =>
    split
    · exact ⟨h.le, by rintro ⟨⟩⟩
    · exact ⟨h.le, by rintro ⟨⟩⟩
  case h_10 g hpc => exact ⟨h.le, by rintro ⟨⟩⟩

theorem reachable_streak (hB : 1 ≤ sbound) (h : Reachable (system sbound hub) s) :
    Streak sbound s := by
  refine h.invariant (P := Streak sbound) ?_ fun s a t _ hi hs => ?_
  · rintro s rfl
    exact ⟨Nat.zero_le _, by rintro ⟨⟩⟩
  · cases a with
    | env ring yieldq deque runq pin =>
      cases hs
      exact ⟨hi.le, hi.lt⟩
    | hub repick stolen =>
      cases hs
      exact advance_streak hB hi

theorem toward_of_top (h : Streak sbound s) (htop : s.pc = .top) : Toward sbound toRunq s := by
  refine ⟨h.le, h.lt, ?_, ?_⟩ <;> rw [htop]
  · rfl
  · rintro ⟨⟩

instance (a : Action) : Decidable (Waits hub toRunq s a) :=
  inferInstanceAs (Decidable (if toRunq then s.Offers hub ∧ GetsThrough s a else s.deque ≠ []))

/-- In a window that starts at a loop top and in which the queue is not empty, a pick takes
from it. -/
theorem mem_of_window {as : List Action} {new : List Source} (hB : 1 ≤ sbound)
    (hr : Reachable (system sbound hub) s) (htop : s.pc = .top)
    (hrun : ((system sbound hub).restrict (Waits hub toRunq)).run s as = some t)
    (hnew : t.picks = new ++ s.picks) (hlen : new.length = 2 * (sbound + 1)) :
    Source.of toRunq ∈ new := by
  have htoward : Toward sbound toRunq s := toward_of_top (reachable_streak hB hr) htop
  have hbounds := run_bounds (fun s a t hg hs => by
    obtain ⟨hw, hs⟩ := System.restrict_step.mp hs
    exact step_toward hB hg hw hs) htoward hrun
  refine mem_window hbounds ?_ hnew hlen
  rw [pass, htop]
  unfold left
  dsimp only
  split <;> omega

end Bypass

/-! ## The windows -/

/-- In every run of a hub with the bound `sbound`: while the deque is not empty, a window of
`2 * (sbound + 1)` picks has one from the deque; and while the run-queue has an entry for the
hub, and the turns that find the local queues empty get through to it, such a window has a pick
from the run-queue. -/
theorem window_takes {sbound hub : ℕ} {s : State} (hB : 1 ≤ sbound)
    (hr : Reachable (system sbound hub) s) (htop : s.pc = .top) (as : List Action) (t : State)
    (new : List Source) (hnew : t.picks = new ++ s.picks) (hlen : new.length = 2 * (sbound + 1)) :
    (((system sbound hub).restrict fun s _ => s.deque ≠ []).run s as = some t →
      Source.deque ∈ new) ∧
    (((system sbound hub).restrict fun s a => s.Offers hub ∧ GetsThrough s a).run s as = some t →
      Source.runq ∈ new) := by
  constructor
  · intro hrun
    have hmem : Source.of false ∈ new := mem_of_window hB hr htop hrun hnew hlen
    exact hmem
  · intro hrun
    have hmem : Source.of true ∈ new := mem_of_window hB hr htop hrun hnew hlen
    exact hmem

/-- A window of four picks with `sbound = 1`: the ready ring is served, the run-queue in the
forced turn, the ring again, and then the deque, which was never empty. -/
theorem window_takes_alternating : ∃ s t as, Reachable (system 1 0) s ∧ s.pc = .top ∧
    ((system 1 0).restrict fun s _ => s.deque ≠ []).run s as = some t ∧
    ((system 1 0).restrict fun s a => s.Offers 0 ∧ GetsThrough s a).run s as = some t ∧
    t.picks = [.deque, .ring, .runq, .ring] ∧
    Source.deque ∈ t.picks ∧ Source.runq ∈ t.picks := by
  have hr := reachable_of_run (system 1 0) [.env [1, 2, 3] [] [4, 5] [6, 7] fun _ => 0] rfl rfl
  refine ⟨_, _, .replicate 13 (.hub false none), hr, rfl, rfl, rfl, rfl, ?_, ?_⟩
  · exact (window_takes (Nat.le_refl 1) hr rfl (.replicate 13 (.hub false none)) _ _ rfl rfl).1 rfl
  · exact (window_takes (Nat.le_refl 1) hr rfl (.replicate 13 (.hub false none)) _ _ rfl rfl).2 rfl

/-- The local queues are empty and the deque never is, as when two fibers of the hub wake each
other: every turn is served from the deque, which ends the streak, and there is never a forced
turn for the run-queue. -/
theorem deque_starves_runq : ∃ s t as, Reachable (system 1 0) s ∧ s.pc = .top ∧
    ((system 1 0).restrict fun s _ => s.Offers 0).run s as = some t ∧
    t.picks = List.replicate 4 .deque ++ s.picks ∧ Source.runq ∉ List.replicate 4 Source.deque := by
  have hr := reachable_of_run (system 1 0) [.env [] [] [1] [9] fun _ => 0] rfl rfl
  refine ⟨_, _, (List.replicate 4 [.hub false none, .hub false none, .hub false none,
    .hub false none, .env [] [] [1] [9] fun _ => 0, .hub false none]).flatten, hr, rfl, rfl, rfl,
    by decide⟩

end Stackweave.Pick
