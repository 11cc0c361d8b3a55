import Mathlib.Data.List.Nodup
import Mathlib.Logic.Function.Basic
import Mathlib.Tactic.Common
import Stackweave.Transition

/-!
# `current_task()` of one loop (`aio/tasks.py`, `aio/_base.py`, `aio/loop_schedule.py`)

The slot of the loop, the steps of the task drivers and the loop callbacks. A step
saves the slot when it begins and puts it back when it ends; in between the coroutine
may park in `_wait_fd` or `_blocking`, and other fibers run. One fiber runs at a time
(`turn`).
-/

namespace Stackweave.Aio.CurrentTask

open Transition Function

/-- Where the driver of a task stands; `prev` is what its step saved. -/
inductive Pc
  | idle
  | running (prev : Option ℕ)
  | waitFd (prev saved : Option ℕ)
  | blocking (prev : Option ℕ)
  deriving DecidableEq

inductive Turn
  | nobody
  /-- code of the coroutine of the task -/
  | task (n : ℕ)
  /-- a loop callback, with what `_pg_run_loop_cb` saved -/
  | callback (prev : Option ℕ)
  deriving DecidableEq

/-- `must` are the pending cancels. History: `steps` are the tasks with a step in progress,
`alone` says of a step that it began when there was none, `consumed` are the cancels that
`_blocking` took, with the caller. -/
structure State where
  slot : Option ℕ
  turn : Turn
  pc : ℕ → Pc
  must : ℕ → Bool
  steps : List ℕ
  alone : ℕ → Bool
  consumed : List (ℕ × ℕ)

def init : State :=
  { slot := none, turn := .nobody, pc := fun _ => .idle, must := fun _ => false, steps := []
    alone := fun _ => false, consumed := [] }

inductive Action
  | start (n : ℕ)
  | waitFd
  | waitReturn (n : ℕ)
  | block
  | blockReturn (n : ℕ)
  | finish
  | callback
  | callbackEnd
  | cancel (n : ℕ)

def State.goto (s : State) (n : ℕ) (p : Pc) : State :=
  { s with pc := Function.update s.pc n p }

/-- The end of `_blocking`: it looks at the flag of `current_task()`. -/
def State.look (s : State) (n : ℕ) : State :=
  match s.slot with
  | some m =>
    if s.must m then
      { s with must := Function.update s.must m false, consumed := s.consumed ++ [(n, m)] }
    else s
  | none => s

def step (s : State) : Action → Option State
  | .start n =>
    match s.turn, s.pc n with
    | .nobody, .idle =>
      some { s.goto n (.running s.slot) with
             slot := some n, turn := .task n, must := Function.update s.must n false
             steps := n :: s.steps, alone := Function.update s.alone n s.steps.isEmpty }
    | _, _ => none
  | .waitFd =>
    match s.turn with
    | .task n =>
      match s.pc n with
      | .running prev => some { s.goto n (.waitFd prev s.slot) with turn := .nobody }
      | _ => none
    | _ => none
  | .waitReturn n =>
    match s.turn, s.pc n with
    | .nobody, .waitFd prev saved =>
      -- re-established when there is one
      some { s.goto n (.running prev) with turn := .task n, slot := saved.or s.slot }
    | _, _ => none
  | .block =>
    match s.turn with
    | .task n =>
      match s.pc n with
      | .running prev => some { s.goto n (.blocking prev) with turn := .nobody }
      | _ => none
    | _ => none
  | .blockReturn n =>
    match s.turn, s.pc n with
    | .nobody, .blocking prev => some ({ s.goto n (.running prev) with turn := .task n }.look n)
    | _, _ => none
  | .finish =>
    match s.turn with
    | .task n =>
      match s.pc n with
      | .running prev =>
        some { s.goto n .idle with slot := prev, turn := .nobody, steps := s.steps.erase n }
      | _ => none
    | _ => none
  | .callback =>
    match s.turn with
    | .nobody => some { s with slot := none, turn := .callback s.slot }
    | _ => none
  | .callbackEnd =>
    match s.turn with
    | .callback prev => some { s with slot := prev.or s.slot, turn := .nobody }
    | _ => none
  | .cancel n => some { s with must := Function.update s.must n true }

def system : System State Action where
  init s := s = init
  step := step

/-! ## The slot -/

structure Right (s : State) : Prop where
  task : ∀ n, s.turn = .task n → s.slot = some n
  callback : ∀ p, s.turn = .callback p → s.slot = none
  quiet : (∀ n, s.pc n = .idle) → s.slot = none
  /-- `_blocking` takes only the cancel of its caller -/
  own : ∀ x ∈ s.consumed, x.1 = x.2

/-- The last step in progress ends and was not the first one; or `_blocking` returns when
the slot was changed. -/
def amiss (s : State) : Action → Bool
  | .finish =>
    match s.turn with
    | .task n => (s.steps.erase n).isEmpty && !s.alone n
    | _ => false
  | .blockReturn n => s.slot != some n
  | _ => false

def orderly : System State Action :=
  system.restrict fun s a => amiss s a = false

/-- What the step in progress saved. -/
def Pc.prev : Pc → Option (Option ℕ)
  | .idle => none
  | .running prev | .waitFd prev _ | .blocking prev => some prev

structure Inv (s : State) : Prop where
  turn : ∀ n, s.turn = .task n ↔ ∃ p, s.pc n = .running p
  slot : ∀ n, s.turn = .task n → s.slot = some n
  saved : ∀ n p q, s.pc n = .waitFd p q → q = some n
  steps : ∀ n, n ∈ s.steps ↔ s.pc n ≠ .idle
  nodup : s.steps.Nodup
  alone : ∀ n p, (s.pc n).prev = some p → s.alone n = true → p = none
  callback : ∀ p, s.turn = .callback p → s.slot = none ∧ (s.steps = [] → p = none)
  quiet : s.steps = [] → s.slot = none
  own : ∀ x ∈ s.consumed, x.1 = x.2

theorem inv_init : Inv init where
  turn := fun _ => iff_of_false (by rintro ⟨⟩) (by rintro ⟨_, ⟨⟩⟩)
  slot := by rintro _ ⟨⟩
  saved := by rintro _ _ _ ⟨⟩
  steps := fun _ => iff_of_false (by rintro ⟨⟩) fun h => h rfl
  nodup := List.nodup_nil
  alone := by rintro _ _ ⟨⟩
  callback := by rintro _ ⟨⟩
  quiet := fun _ => rfl
  own := by rintro _ ⟨⟩

section Steps

variable {s t : State} {n : ℕ} {p : Option ℕ} {q : Pc}

theorem prev_ne_idle {x : Pc} (hx : x.prev = some p) : x ≠ .idle := by
  rintro rfl
  cases hx

/-- The step in progress parks, or goes on. -/
theorem Inv.move (hi : Inv s) (hpc : t.pc = update s.pc n q)
    (hprev : (s.pc n).prev = some p) (hq : q.prev = some p) (hsteps : t.steps = s.steps)
    (halone : t.alone = s.alone) (hturn : ∀ m, t.turn = .task m ↔ ∃ x, t.pc m = .running x)
    (hslot : ∀ m, t.turn = .task m → t.slot = some m)
    (hsaved : ∀ x y, q = .waitFd x y → y = some n) (hcallback : ∀ x, t.turn ≠ .callback x)
    (hown : ∀ x ∈ t.consumed, x.1 = x.2) : Inv t := by
  have hat : t.pc n = q := by rw [hpc]; exact update_self ..
  have hof : ∀ m, m ≠ n → t.pc m = s.pc m := fun m hmn => by
    rw [hpc]
    exact update_of_ne hmn _ _
  have hmem : n ∈ s.steps := (hi.steps n).mpr (prev_ne_idle hprev)
  constructor
  case turn => exact hturn
  case slot => exact hslot
  case saved =>
    intro m x y hm
    by_cases hmn : m = n
    · rw [hmn] at hm ⊢
      exact hsaved x y (hat ▸ hm)
    · exact hi.saved m x y (hof m hmn ▸ hm)
  case steps =>
    intro m
    rw [hsteps]
    by_cases hmn : m = n
    · rw [hmn, hat]
      exact iff_of_true hmem (prev_ne_idle hq)
    · rw [hof m hmn]
      exact hi.steps m
  case nodup => rw [hsteps]; exact hi.nodup
  case alone =>
    intro m x hm
    rw [halone]
    by_cases hmn : m = n
    · rw [hmn, hat, hq] at hm
      cases hm
      rw [hmn]
      exact hi.alone n p hprev
    · exact hi.alone m x (hof m hmn ▸ hm)
  case callback => exact fun x hx => absurd hx (hcallback x)
  case quiet =>
    intro hnil
    rw [hsteps] at hnil
    rw [hnil] at hmem
    cases hmem
  case own => exact hown

/-- Nobody else runs. -/
theorem Inv.others (hi : Inv s) (hnobody : s.turn = .nobody) (m : ℕ) (x : Option ℕ) :
    s.pc m ≠ .running x := by
  intro hm
  have ht := (hi.turn m).mpr ⟨x, hm⟩
  rw [hnobody] at ht
  cases ht

theorem Inv.alone_turn (hi : Inv s) (hn : s.turn = .task n) {m : ℕ} {x : Option ℕ}
    (hm : s.pc m = .running x) : m = n := by
  have ht := (hi.turn m).mpr ⟨x, hm⟩
  rw [hn] at ht
  cases ht
  rfl

/-- The task on turn parks. -/
theorem Inv.park (hi : Inv s) (hn : s.turn = .task n) (hprev : s.pc n = .running p)
    (hq : q.prev = some p) (hnot : ∀ x, q ≠ .running x)
    (hsaved : ∀ x y, q = .waitFd x y → y = some n) : Inv { s.goto n q with turn := .nobody } := by
  refine hi.move (t := { s.goto n q with turn := .nobody }) rfl (by rw [hprev]; rfl) hq rfl rfl ?_
    nofun hsaved nofun hi.own
  intro m
  refine iff_of_false nofun ?_
  rintro ⟨x, hx⟩
  by_cases hmn : m = n
  · simp only [State.goto, hmn, update_self] at hx
    exact hnot x hx
  · simp only [State.goto, update_of_ne hmn] at hx
    exact hmn (hi.alone_turn hn hx)

/-- A parked step goes on. -/
theorem Inv.goOn (hi : Inv s) (hnobody : s.turn = .nobody) (hprev : (s.pc n).prev = some p)
    (hpc : t.pc = update s.pc n (.running p)) (hturn : t.turn = .task n)
    (hslot : t.slot = some n) (hsteps : t.steps = s.steps) (halone : t.alone = s.alone)
    (hown : ∀ x ∈ t.consumed, x.1 = x.2) : Inv t := by
  refine hi.move hpc hprev rfl hsteps halone ?_ ?_ (by rintro _ _ ⟨⟩) (by rw [hturn]; rintro _ ⟨⟩) hown
  · intro m
    rw [hturn, hpc]
    by_cases hmn : m = n
    · rw [hmn]
      exact iff_of_true rfl ⟨p, update_self ..⟩
    · rw [update_of_ne hmn]
      refine iff_of_false (fun he => hmn ?_) ?_
      · cases he
        rfl
      · rintro ⟨x, hx⟩
        exact hi.others hnobody m x hx
  · intro m hm
    rw [hturn] at hm
    cases hm
    exact hslot

theorem start_inv (hi : Inv s) (hnobody : s.turn = .nobody) (hidle : s.pc n = .idle) :
    Inv { s.goto n (.running s.slot) with
          slot := some n, turn := .task n, must := update s.must n false
          steps := n :: s.steps, alone := update s.alone n s.steps.isEmpty } := by
  have hnew : n ∉ s.steps := fun hm => (hi.steps n).mp hm hidle
  constructor
  case turn =>
    intro m
    by_cases hmn : m = n
    · rw [hmn]
      exact iff_of_true rfl ⟨s.slot, update_self ..⟩
    · refine iff_of_false (fun he => hmn ?_) ?_
      · cases he
        rfl
      · rintro ⟨x, hx⟩
        simp only [State.goto, update_of_ne hmn] at hx
        exact hi.others hnobody m x hx
  case slot =>
    rintro m ⟨⟩
    rfl
  case saved =>
    intro m x y hm
    by_cases hmn : m = n
    · simp only [State.goto, hmn, update_self] at hm
      cases hm
    · simp only [State.goto, update_of_ne hmn] at hm
      exact hi.saved m x y hm
  case steps =>
    intro m
    by_cases hmn : m = n
    · rw [hmn]
      refine iff_of_true List.mem_cons_self ?_
      simp [State.goto]
    · rw [List.mem_cons]
      simp only [State.goto, update_of_ne hmn, hmn, false_or]
      exact hi.steps m
  case nodup => exact List.nodup_cons.mpr ⟨hnew, hi.nodup⟩
  case alone =>
    intro m x hm ha
    by_cases hmn : m = n
    · subst hmn
      simp only [State.goto, update_self, Pc.prev, Option.some.injEq,
        List.isEmpty_iff] at hm ha
      rw [← hm]
      exact hi.quiet ha
    · simp only [State.goto, update_of_ne hmn] at hm ha
      exact hi.alone m x hm ha
  case callback => rintro _ ⟨⟩
  case quiet => rintro ⟨⟩
  case own => exact hi.own

theorem finish_inv (hi : Inv s) (hok : amiss s .finish = false) (hn : s.turn = .task n)
    (hprev : s.pc n = .running p) :
    Inv { s.goto n .idle with slot := p, turn := .nobody, steps := s.steps.erase n } := by
  have hlast : s.steps.erase n = [] → p = none := by
    intro hnil
    have halone : s.alone n = true := by simpa [amiss, hn, hnil] using hok
    exact hi.alone n p (by rw [hprev]; rfl) halone
  constructor
  case turn =>
    intro m
    refine iff_of_false (by rintro ⟨⟩) ?_
    rintro ⟨x, hx⟩
    by_cases hmn : m = n
    · simp only [State.goto, hmn, update_self] at hx
      cases hx
    · simp only [State.goto, update_of_ne hmn] at hx
      exact hmn (hi.alone_turn hn hx)
  case slot => rintro _ ⟨⟩
  case saved =>
    intro m x y hm
    by_cases hmn : m = n
    · simp only [State.goto, hmn, update_self] at hm
      cases hm
    · simp only [State.goto, update_of_ne hmn] at hm
      exact hi.saved m x y hm
  case steps =>
    intro m
    by_cases hmn : m = n
    · refine iff_of_false ?_ ?_
      · rw [hmn]
        exact hi.nodup.not_mem_erase
      · simp [State.goto, hmn]
    · simp only [State.goto, update_of_ne hmn]
      exact (List.mem_erase_of_ne hmn).trans (hi.steps m)
  case nodup => exact hi.nodup.erase n
  case alone =>
    intro m x hm
    by_cases hmn : m = n
    · simp only [State.goto, hmn, update_self] at hm
      cases hm
    · simp only [State.goto, update_of_ne hmn] at hm
      exact hi.alone m x hm
  case callback => rintro _ ⟨⟩
  case quiet => exact hlast
  case own => exact hi.own

/-- A loop callback begins or ends: no step is touched. -/
theorem Inv.atLoop (hi : Inv s) {turn : Turn} {slot : Option ℕ} (hnot : ∀ n, s.turn ≠ .task n)
    (hturn : ∀ n, turn ≠ .task n)
    (hcallback : ∀ x, turn = .callback x → slot = none ∧ (s.steps = [] → x = none))
    (hquiet : s.steps = [] → slot = none) : Inv { s with turn := turn, slot := slot } where
  turn := fun n => iff_of_false (hturn n) fun hx => hnot n ((hi.turn n).mpr hx)
  slot := fun n hn => absurd hn (hturn n)
  saved := hi.saved
  steps := hi.steps
  nodup := hi.nodup
  alone := hi.alone
  callback := hcallback
  quiet := hquiet
  own := hi.own

theorem blockReturn_inv (hi : Inv s) (hok : amiss s (.blockReturn n) = false)
    (hnobody : s.turn = .nobody) (hprev : s.pc n = .blocking p) :
    Inv (State.look { s.goto n (.running p) with turn := .task n } n) := by
  have hslot : s.slot = some n := by simpa [amiss] using hok
  unfold State.look
  simp only [State.goto, hslot]
  split
  case isTrue =>
    refine hi.goOn hnobody (by rw [hprev]; rfl) rfl rfl rfl rfl rfl ?_
    intro x hx
    rcases List.mem_append.mp hx with hx | hx
    · exact hi.own x hx
    · rw [List.mem_singleton.mp hx]
  case isFalse => exact hi.goOn hnobody (by rw [hprev]; rfl) rfl rfl rfl rfl rfl hi.own

theorem step_inv {a : Action} (hi : Inv s) (hok : amiss s a = false) (hs : step s a = some t) :
    Inv t := by
  cases a with
  | start n =>
    simp only [step] at hs
    split at hs
    case h_1 hnobody hidle =>
      cases hs
      exact start_inv hi hnobody hidle
    case h_2 => cases hs
  | waitFd =>
    simp only [step] at hs
    split at hs
    case h_1 n hn =>
      split at hs
      case h_1 p hp =>
        cases hs
        refine hi.park hn hp rfl (by rintro _ ⟨⟩) ?_
        rintro x y ⟨⟩
        exact hi.slot n hn
      case h_2 => cases hs
    case h_2 => cases hs
  | waitReturn n =>
    simp only [step] at hs
    split at hs
    case h_1 p saved hnobody hp =>
      cases hs
      have hsaved := hi.saved n p saved hp
      subst hsaved
      exact hi.goOn hnobody (by rw [hp]; rfl) rfl rfl rfl rfl rfl hi.own
    case h_2 => cases hs
  | block =>
    simp only [step] at hs
    split at hs
    case h_1 n hn =>
      split at hs
      case h_1 p hp =>
        cases hs
        exact hi.park hn hp rfl (by rintro _ ⟨⟩) (by rintro _ _ ⟨⟩)
      case h_2 => cases hs
    case h_2 => cases hs
  | blockReturn n =>
    simp only [step] at hs
    split at hs
    case h_1 p hnobody hp =>
      cases hs
      exact blockReturn_inv hi hok hnobody hp
    case h_2 => cases hs
  | finish =>
    simp only [step] at hs
    split at hs
    case h_1 n hn =>
      split at hs
      case h_1 p hp =>
        cases hs
        exact finish_inv hi hok hn hp
      case h_2 => cases hs
    case h_2 => cases hs
  | callback =>
    simp only [step] at hs
    split at hs
    case h_1 hnobody =>
      cases hs
      refine hi.atLoop (by rw [hnobody]; rintro _ ⟨⟩) (by rintro _ ⟨⟩) ?_ fun _ => rfl
      rintro x ⟨⟩
      exact ⟨rfl, hi.quiet⟩
    case h_2 => cases hs
  | callbackEnd =>
    simp only [step] at hs
    split at hs
    case h_1 prev hprev =>
      cases hs
      obtain ⟨hslot, hnil⟩ := hi.callback prev hprev
      refine hi.atLoop (by rw [hprev]; rintro _ ⟨⟩) (by rintro _ ⟨⟩) (by rintro _ ⟨⟩) ?_
      intro hsteps
      rw [hnil hsteps, hslot]
      rfl
    case h_2 => cases hs
  | cancel n =>
    cases hs
    exact ⟨hi.turn, hi.slot, hi.saved, hi.steps, hi.nodup, hi.alone, hi.callback, hi.quiet, hi.own⟩

end Steps

theorem reachable_inv {s : State} (hr : Reachable orderly s) : Inv s := by
  refine Reachable.invariant ?_ ?_ hr
  · rintro s rfl
    exact inv_init
  · intro s a t _ hi hs
    obtain ⟨hok, hs⟩ := System.restrict_step.mp hs
    exact step_inv hi hok hs

theorem Inv.right {s : State} (hi : Inv s) : Right s := by
  refine ⟨hi.slot, fun p hp => (hi.callback p hp).1, ?_, hi.own⟩
  intro hidle
  refine hi.quiet (List.eq_nil_iff_forall_not_mem.mpr fun n hn => ?_)
  exact (hi.steps n).mp hn (hidle n)

/-- `_blocking` of task 0 returns while task 1 waits for a descriptor: it takes the cancel
of task 1. -/
theorem blocking_takes_other :
    ∃ s, Reachable system s ∧ s.turn = .task 0 ∧ s.slot = some 1 ∧ s.consumed = [(0, 1)] ∧
      ¬ Right s := by
  have hr : Reachable system _ := reachable_of_run system
    [.start 0, .block, .start 1, .waitFd, .cancel 1, .blockReturn 0] rfl rfl
  refine ⟨_, hr, rfl, rfl, rfl, fun h => ?_⟩
  exact absurd (h.own (0, 1) (List.mem_singleton.mpr rfl)) (by decide)

end Stackweave.Aio.CurrentTask
