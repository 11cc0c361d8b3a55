import Mathlib.Data.List.Basic
import Stackweave.Transition
import Stackweave.Wakeup

/-!
# `Once` and `once_value` (`sync.py`)

Any number of calls of `do`, by fibers and by foreign threads, each with a `fn` of its
own; a call is named by a number, which also stands for its fiber in `_waiters`. What is
done under `_mu` is one step. A foreign thread takes no lock: each of its reads of `_done`
and `_running` is one step, and it gives up when it has seen no executor for a second. A
park returns when the fiber was woken, and may also return at any time; a waiter that finds
`fn` still running goes to the end of `_waiters` again.
-/

namespace Stackweave.Sync.Once

open Transition Wakeup Function

variable {E : Type}

/-- The fields of a `Once`. -/
structure Guarded where
  done : Bool
  running : Bool
  waiters : List ℕ

/-- What a call does next. What `fn` raised, if it did, goes with its executor. -/
inductive Pc (E : Type)
  | idle
  | entering
  | executing
  | finishing (exc : Option E)
  | waking (gs : List ℕ) (exc : Option E)
  /-- in `_waiters`, before its park -/
  | registered
  | parked
  | rechecking
  /-- a foreign thread at `while not self._done` -/
  | pollDone (deadline : Option ℕ)
  | pollRunning (deadline : Option ℕ)
  | returned
  | raised (exc : E)
  /-- the `RuntimeError` of a foreign thread -/
  | rejected

/-- `now` is the monotonic clock in milliseconds. `started` and `ended` are history: the
calls that started their `fn`, and those whose `fn` has come to an end, with what it raised. -/
structure State (E : Type) where
  once : Guarded
  pc : ℕ → Pc E
  woken : ℕ → Bool
  now : ℕ
  started : List ℕ
  ended : List (ℕ × Option E)

def init (E : Type) : State E :=
  { once := ⟨false, false, []⟩, pc := fun _ => .idle, woken := fun _ => false, now := 0
    started := [], ended := [] }

/-! ## The guarded sections -/

def Guarded.enter (o : Guarded) (g : ℕ) : Guarded × Pc E :=
  if o.done then (o, .returned)
  else if o.running then ({ o with waiters := o.waiters ++ [g] }, .registered)
  else ({ o with running := true }, .executing)

def Guarded.recheck (o : Guarded) (g : ℕ) : Guarded × Pc E :=
  if o.done then (o, .returned) else ({ o with waiters := o.waiters ++ [g] }, .registered)

/-- The `finally` block of the executor. -/
def Guarded.finish (o : Guarded) (exc : Option E) : Guarded × Pc E :=
  ({ done := true, running := false, waiters := [] }, .waking o.waiters exc)

/-! ## The steps -/

inductive Action (E : Type)
  | call (n : ℕ)
  | caller (n : ℕ)
  /-- the `fn` of the executor returns, or raises -/
  | finish (n : ℕ) (exc : Option E)
  | resume (n : ℕ)
  | spurious (n : ℕ)
  | tick (d : ℕ)

def State.goto (s : State E) (n : ℕ) (q : Pc E) : State E :=
  { s with pc := Function.update s.pc n q }

/-- The loop of a foreign thread, after it has read `_done` as false. -/
def poll (running : Bool) (now : ℕ) (deadline : Option ℕ) : Pc E :=
  if running then .pollDone none
  else
    match deadline with
    | none => .pollDone (some (now + 1000))
    | some t => if t ≤ now then .rejected else .pollDone (some t)

/-- How the executor's `do` ends. -/
def leave : Option E → Pc E
  | none => .returned
  | some e => .raised e

def callerStep (s : State E) (n : ℕ) : Option (State E) :=
  match s.pc n with
  | .entering =>
    let r := s.once.enter n
    some { s.goto n r.2 with
      once := r.1
      started := if s.once.done ∨ s.once.running then s.started else s.started ++ [n] }
  | .finishing exc =>
    let r := s.once.finish exc
    some { s.goto n r.2 with once := r.1 }
  | .waking [] exc => some (s.goto n (leave exc))
  | .waking (g :: gs) exc =>
    some { s.goto n (.waking gs exc) with woken := Function.update s.woken g true }
  | .registered => some (s.goto n .parked)
  | .rechecking =>
    let r := s.once.recheck n
    some { s.goto n r.2 with once := r.1 }
  | .pollDone d => some (s.goto n (if s.once.done then .returned else .pollRunning d))
  | .pollRunning d => some (s.goto n (poll s.once.running s.now d))
  | _ => none

/-- `foreign` says which calls are made by foreign threads. -/
@[grind =]
def step (foreign : ℕ → Bool) (s : State E) : Action E → Option (State E)
  | .call n =>
    match s.pc n with
    | .idle => some (s.goto n (if foreign n then .pollDone none else .entering))
    | _ => none
  | .caller n => callerStep s n
  | .finish n exc =>
    match s.pc n with
    | .executing => some { s.goto n (.finishing exc) with ended := s.ended ++ [(n, exc)] }
    | _ => none
  | .resume n =>
    match s.pc n with
    | .parked =>
      if s.woken n then
        some { s.goto n .rechecking with woken := Function.update s.woken n false }
      else none
    | _ => none
  | .spurious n =>
    match s.pc n with
    | .parked => some (s.goto n .rechecking)
    | _ => none
  | .tick d => some { s with now := s.now + d }

def system (E : Type) (foreign : ℕ → Bool) : System (State E) (Action E) where
  init s := s = init E
  step := step foreign

/-! ## The invariant -/

def Pc.wakes : Pc E → List ℕ
  | .waking gs _ => gs
  | _ => []

/-- Queued, or on its way to be woken. -/
def Pc.blocked : Pc E → Bool
  | .registered | .parked => true
  | _ => false

/-- The executor, once its `fn` has come to `exc`. -/
def Pc.carries (exc : Option E) : Pc E → Prop
  | .waking _ x => x = exc
  | .returned => exc = none
  | .raised e => exc = some e
  | _ => False

/-- Where a call other than the executor may be. -/
def Pc.Aside (s : State E) : Pc E → Prop
  | .idle | .entering | .pollDone _ | .pollRunning _ | .rejected => True
  | .registered | .parked | .rechecking => s.started ≠ []
  | .returned => s.once.done = true
  | _ => False

inductive Phase (s : State E) : Prop
  | fresh (hd : s.once.done = false) (hr : s.once.running = false) (hs : s.started = [])
      (he : s.ended = [])
  | busy {x : ℕ} (hd : s.once.done = false) (hr : s.once.running = true) (hs : s.started = [x])
      (he : s.ended = []) (hx : s.pc x = .executing)
  | closing {x : ℕ} {exc : Option E} (hd : s.once.done = false) (hr : s.once.running = true)
      (hs : s.started = [x]) (he : s.ended = [(x, exc)]) (hx : s.pc x = .finishing exc)
  | past {x : ℕ} {exc : Option E} (hd : s.once.done = true) (hw : s.once.waiters = [])
      (hs : s.started = [x]) (he : s.ended = [(x, exc)]) (hx : (s.pc x).carries exc)

/-- The wake-up of the call has been made, or the executor is going to make it. -/
def PendingWake (s : State E) : ℕ → Prop := Pending Pc.wakes s.pc s.woken

structure Inv (s : State E) : Prop where
  phase : Phase s
  aside : ∀ n, n ∉ s.started → (s.pc n).Aside s
  attended : ∀ n, (s.pc n).blocked = true → n ∈ s.once.waiters ∨ PendingWake s n

section Steps

variable {s t : State E} {n : ℕ} {q : Pc E}

/-- A call at a place that is not the executor's is not the executor. -/
theorem Inv.not_started (hi : Inv s) (hx : s.pc n ≠ .executing) (hf : ∀ exc, s.pc n ≠ .finishing exc)
    (hc : ∀ exc, ¬ (s.pc n).carries exc) : n ∉ s.started := by
  intro hn
  cases hi.phase with
  | fresh _ _ hs _ =>
    rw [hs] at hn
    cases hn
  | busy _ _ hs _ hpc =>
    rw [hs] at hn
    cases List.mem_singleton.mp hn
    exact hx hpc
  | closing _ _ hs _ hpc =>
    rw [hs] at hn
    cases List.mem_singleton.mp hn
    exact hf _ hpc
  | past _ _ hs _ hpc =>
    rw [hs] at hn
    cases List.mem_singleton.mp hn
    exact hc _ hpc

/-- The places of the executor. -/
theorem Inv.started_of (hi : Inv s) (hn : ¬ (s.pc n).Aside s) : n ∈ s.started := by
  by_contra hnot
  exact hn (hi.aside n hnot)

theorem Pc.Aside.mono {p : Pc E} (h : p.Aside s) (hs : s.started ≠ [] → t.started ≠ [])
    (hd : s.once.done = true → t.once.done = true) : p.Aside t := by
  cases p with
  | idle | entering | pollDone | pollRunning | rejected => trivial
  | registered | parked | rechecking => exact hs h
  | returned => exact hd h
  | executing | finishing | waking | raised => exact h.elim

/-- The call that moves is not the executor, and nothing changes for the others. -/
theorem Phase.aside (h : Phase s) (hn : n ∉ s.started) (hpc : t.pc = update s.pc n q)
    (hdone : t.once.done = s.once.done) (hrunning : t.once.running = s.once.running)
    (hwaiters : s.once.done = true → t.once.waiters = s.once.waiters)
    (hstarted : t.started = s.started) (hended : t.ended = s.ended) : Phase t := by
  have hkeep : ∀ x, s.started = [x] → t.pc x = s.pc x := fun x hs => by
    have hxn : x ≠ n := by
      rintro rfl
      exact hn (by rw [hs]; exact List.mem_cons_self)
    rw [hpc, update_of_ne hxn]
  cases h with
  | fresh hd hr hs he =>
    exact .fresh (hdone.trans hd) (hrunning.trans hr) (hstarted.trans hs) (hended.trans he)
  | busy hd hr hs he hx =>
    exact .busy (hdone.trans hd) (hrunning.trans hr) (hstarted.trans hs) (hended.trans he)
      ((hkeep _ hs).trans hx)
  | closing hd hr hs he hx =>
    exact .closing (hdone.trans hd) (hrunning.trans hr) (hstarted.trans hs) (hended.trans he)
      ((hkeep _ hs).trans hx)
  | past hd hw hs he hx =>
    refine .past (hdone.trans hd) ((hwaiters hd).trans hw) (hstarted.trans hs) (hended.trans he) ?_
    rw [hkeep _ hs]
    exact hx

/-- A call with no wake-ups to make goes to a place where it is not blocked, or registers. -/
theorem attended_goto (hi : Inv s) (hpc : t.pc = update s.pc n q)
    (hwoken : t.woken = s.woken) (hold : (s.pc n).wakes = [])
    (hstay : ∀ w ∈ s.once.waiters, w ∈ t.once.waiters ∨ w ∈ q.wakes)
    (hq : q.blocked = true → n ∈ t.once.waiters ∨ (s.pc n).blocked = true) :
    ∀ m, (t.pc m).blocked = true → m ∈ t.once.waiters ∨ PendingWake t m := by
  have hkeep : ∀ m, (s.pc m).blocked = true → m ∈ t.once.waiters ∨ PendingWake t m := by
    intro m hm
    rcases hi.attended m hm with hmem | hp
    · rcases hstay m hmem with hmem | hmem
      · exact .inl hmem
      · exact .inr (.of_mem hpc hmem)
    · refine .inr (hp.goto hpc (fun g hg => ?_) fun hw => by rw [hwoken]; exact hw)
      rw [hold] at hg
      cases hg
  intro m hm
  by_cases hmn : m = n
  · rw [hmn] at hm ⊢
    rw [hpc, update_self] at hm
    exact (hq hm).elim .inl (hkeep n)
  · rw [hpc, update_of_ne hmn] at hm
    exact hkeep m hm

/-- A step of a call that is not the executor. -/
theorem Inv.bystander (hi : Inv s) (hn : n ∉ s.started) (hpc : t.pc = update s.pc n q)
    (hwoken : t.woken = s.woken) (hdone : t.once.done = s.once.done)
    (hrunning : t.once.running = s.once.running) (hstarted : t.started = s.started)
    (hended : t.ended = s.ended) (hq : q.Aside t)
    (hstay : ∀ w ∈ s.once.waiters, w ∈ t.once.waiters)
    (hwaiters : s.once.done = true → t.once.waiters = s.once.waiters)
    (hblocked : q.blocked = true → n ∈ t.once.waiters ∨ (s.pc n).blocked = true) : Inv t := by
  have hold : (s.pc n).wakes = [] := by
    have ha := hi.aside n hn
    cases hp : s.pc n with
    | waking gs exc =>
      rw [hp] at ha
      exact ha.elim
    | _ => rfl
  refine ⟨hi.phase.aside hn hpc hdone hrunning hwaiters hstarted hended, fun m hm => ?_, ?_⟩
  · by_cases hmn : m = n
    · rw [hmn, hpc, update_self]
      exact hq
    · rw [hpc, update_of_ne hmn]
      rw [hstarted] at hm
      exact (hi.aside m hm).mono (fun h => by rw [hstarted]; exact h) fun h => by rw [hdone]; exact h
  · exact attended_goto hi hpc hwoken hold (fun w hw => .inl (hstay w hw)) hblocked

/-- The places of waiters, pollers and callers on their way in are not the executor's. -/
def Pc.bystander : Pc E → Bool
  | .idle | .entering | .registered | .parked | .rechecking | .pollDone _ | .pollRunning _ => true
  | _ => false

theorem Inv.not_started_of (hi : Inv s) (hn : (s.pc n).bystander = true) : n ∉ s.started := by
  refine hi.not_started (fun h => ?_) (fun exc h => ?_) fun exc h => ?_
  · rw [h] at hn
    cases hn
  · rw [h] at hn
    cases hn
  · cases hp : s.pc n with
    | waking | returned | raised =>
      rw [hp] at hn
      cases hn
    | _ =>
      rw [hp] at h
      exact h

theorem Inv.goto (hi : Inv s) (hn : (s.pc n).bystander = true) (hq : q.Aside s)
    (hblocked : q.blocked = true → (s.pc n).blocked = true) : Inv (s.goto n q) :=
  hi.bystander (hi.not_started_of hn) rfl rfl rfl rfl rfl rfl (hq.mono id id) (fun _ => id)
    (fun _ => rfl) fun h => .inr (hblocked h)

/-- A waiter adds itself to the list of a `Once` that is being executed. -/
theorem Inv.register (hi : Inv s) (hn : (s.pc n).bystander = true) (hd : s.once.done = false)
    (hs : s.started ≠ []) :
    Inv { s.goto n .registered with once := { s.once with waiters := s.once.waiters ++ [n] } } := by
  refine hi.bystander (hi.not_started_of hn) rfl rfl rfl rfl rfl rfl hs
    (fun w hw => List.mem_append_left _ hw) (fun h => ?_)
    fun _ => .inl (List.mem_append_right _ (List.mem_singleton_self n))
  rw [hd] at h
  cases h

theorem Phase.started_of_running (h : Phase s) (hr : s.once.running = true) : s.started ≠ [] := by
  cases h with
  | fresh _ hr' => rw [hr'] at hr; cases hr
  | busy _ _ hs | closing _ _ hs | past _ _ hs =>
    rw [hs]
    exact List.cons_ne_nil _ _

/-- The first caller: nobody has started `fn` yet. -/
theorem Inv.elect (hi : Inv s) (hn : s.pc n = .entering) (hd : s.once.done = false)
    (hr : s.once.running = false) :
    Inv { s.goto n .executing with
      once := { s.once with running := true }, started := s.started ++ [n] } := by
  obtain ⟨hs, he⟩ : s.started = [] ∧ s.ended = [] := by
    cases hi.phase with
    | fresh _ _ hs he => exact ⟨hs, he⟩
    | busy _ hr' | closing _ hr' => rw [hr'] at hr; cases hr
    | past hd' => rw [hd'] at hd; cases hd
  have hstarted : s.started ++ [n] = [n] := by rw [hs]; rfl
  refine ⟨.busy hd rfl hstarted he (update_self ..), fun m hm => ?_, ?_⟩
  · dsimp only at hm ⊢
    rw [hstarted, List.mem_singleton] at hm
    dsimp only [State.goto]
    rw [update_of_ne hm]
    refine (hi.aside m (by rw [hs]; exact List.not_mem_nil)).mono (fun _ => ?_) id
    dsimp only
    rw [hstarted]
    exact List.cons_ne_nil _ _
  · exact attended_goto hi (n := n) (q := .executing) rfl rfl (by rw [hn]; rfl) (fun w hw => .inl hw)
      (by intros; contradiction)

theorem Inv.enter (hi : Inv s) (hn : s.pc n = .entering) {r : Guarded × Pc E}
    (hr : s.once.enter n = r) :
    Inv { s.goto n r.2 with
      once := r.1
      started := if s.once.done ∨ s.once.running then s.started else s.started ++ [n] } := by
  have hby : (s.pc n).bystander = true := by rw [hn]; rfl
  subst hr
  unfold Guarded.enter
  by_cases hd : s.once.done = true
  · rw [if_pos hd, if_pos (.inl hd)]
    exact hi.goto hby hd (by rintro ⟨⟩)
  · rw [if_neg hd]
    have hdone := Bool.not_eq_true _ ▸ hd
    by_cases hr : s.once.running = true
    · rw [if_pos hr, if_pos (.inr hr)]
      exact hi.register hby hdone (hi.phase.started_of_running hr)
    · rw [if_neg hr, if_neg fun hor => hor.elim hd hr]
      exact hi.elect hn hdone (Bool.not_eq_true _ ▸ hr)

theorem Inv.recheck (hi : Inv s) (hn : s.pc n = .rechecking) {r : Guarded × Pc E}
    (hr : s.once.recheck n = r) : Inv { s.goto n r.2 with once := r.1 } := by
  subst hr
  have hby : (s.pc n).bystander = true := by rw [hn]; rfl
  have hs : s.started ≠ [] := by
    have ha := hi.aside n (hi.not_started_of hby)
    rw [hn] at ha
    exact ha
  unfold Guarded.recheck
  by_cases hd : s.once.done = true
  · rw [if_pos hd]
    exact hi.goto hby hd (by rintro ⟨⟩)
  · rw [if_neg hd]
    exact hi.register hby (Bool.not_eq_true _ ▸ hd) hs

/-- `fn` comes to an end. -/
theorem Inv.end_fn (hi : Inv s) (hn : s.pc n = .executing) (exc : Option E) :
    Inv { s.goto n (.finishing exc) with ended := s.ended ++ [(n, exc)] } := by
  have hmem : n ∈ s.started := hi.started_of (by rw [hn]; exact id)
  have hatt := attended_goto hi (n := n) (q := .finishing exc)
    (t := { s.goto n (.finishing exc) with ended := s.ended ++ [(n, exc)] }) rfl rfl
    (by rw [hn]; rfl) (fun w hw => .inl hw) (by rintro ⟨⟩)
  cases hi.phase with
  | fresh _ _ hs => rw [hs] at hmem; cases hmem
  | @busy x hd hr hs he hx =>
    rw [hs] at hmem
    cases List.mem_singleton.mp hmem
    refine ⟨.closing hd hr hs (by dsimp only; rw [he]; rfl) (update_self ..), fun m hm => ?_, hatt⟩
    have hmn : m ≠ n := by
      rintro rfl
      exact hm (hs ▸ List.mem_cons_self)
    dsimp only [State.goto]
    rw [update_of_ne hmn]
    exact (hi.aside m hm).mono id id
  | closing hd hr hs he hx =>
    rw [hs] at hmem
    cases List.mem_singleton.mp hmem
    rw [hx] at hn
    cases hn
  | past hd hw hs he hx =>
    rw [hs] at hmem
    cases List.mem_singleton.mp hmem
    rw [hn] at hx
    exact hx.elim

/-- The `finally` block: the waiters are taken off the list, to be woken. -/
theorem Inv.finish (hi : Inv s) {exc : Option E} (hn : s.pc n = .finishing exc) :
    Inv { s.goto n (.waking s.once.waiters exc) with
      once := { done := true, running := false, waiters := [] } } := by
  have hmem : n ∈ s.started := hi.started_of (by rw [hn]; exact id)
  have hatt := attended_goto hi (n := n) (q := .waking s.once.waiters exc)
    (t := { s.goto n (.waking s.once.waiters exc) with
      once := { done := true, running := false, waiters := [] } }) rfl rfl
    (by rw [hn]; rfl) (fun w hw => .inr hw) (by rintro ⟨⟩)
  cases hi.phase with
  | fresh _ _ hs => rw [hs] at hmem; cases hmem
  | busy hd hr hs he hx =>
    rw [hs] at hmem
    cases List.mem_singleton.mp hmem
    rw [hx] at hn
    cases hn
  | @closing x exc' hd hr hs he hx =>
    rw [hs] at hmem
    cases List.mem_singleton.mp hmem
    rw [hx] at hn
    cases hn
    refine ⟨.past rfl rfl hs he ?_, fun m hm => ?_, hatt⟩
    · dsimp only [State.goto]
      rw [update_self]
      rfl
    · have hmn : m ≠ n := by
        rintro rfl
        exact hm (hs ▸ List.mem_cons_self)
      dsimp only [State.goto]
      rw [update_of_ne hmn]
      exact (hi.aside m hm).mono id fun _ => rfl
  | past hd hw hs he hx =>
    rw [hs] at hmem
    cases List.mem_singleton.mp hmem
    rw [hn] at hx
    exact hx.elim

/-- The executor goes through its wake-ups. -/
theorem Inv.waking (hi : Inv s) {gs : List ℕ} {exc : Option E} (hn : s.pc n = .waking gs exc)
    (hpc : t.pc = update s.pc n q) (honce : t.once = s.once) (hstarted : t.started = s.started)
    (hended : t.ended = s.ended) (hq : q.carries exc) (hblocked : q.blocked = false)
    (hp : ∀ m, PendingWake s m → PendingWake t m) : Inv t := by
  have hmem : n ∈ s.started := hi.started_of (by rw [hn]; exact id)
  have hone : ∀ m, m ∉ t.started → m ≠ n := by
    rintro m hm rfl
    exact hm (by rw [hstarted]; exact hmem)
  refine ⟨?_, fun m hm => ?_, fun m hm => ?_⟩
  · cases hi.phase with
    | fresh _ _ hs => rw [hs] at hmem; cases hmem
    | busy _ _ hs _ hx | closing _ _ hs _ hx =>
      rw [hs] at hmem
      cases List.mem_singleton.mp hmem
      rw [hx] at hn
      cases hn
    | past hd hw hs he hx =>
      rw [hs] at hmem
      cases List.mem_singleton.mp hmem
      rw [hn] at hx
      cases hx
      refine .past (by rw [honce]; exact hd) (by rw [honce]; exact hw) (hstarted.trans hs)
        (hended.trans he) ?_
      rw [hpc, update_self]
      exact hq
  · rw [hpc, update_of_ne (hone m hm)]
    rw [hstarted] at hm
    exact (hi.aside m hm).mono (by rw [hstarted]; exact id) (by rw [honce]; exact id)
  · by_cases hmn : m = n
    · rw [hmn, hpc, update_self, hblocked] at hm
      cases hm
    · rw [hpc, update_of_ne hmn] at hm
      rw [honce]
      exact (hi.attended m hm).imp_right (hp m)

/-- A waiter's park returns. -/
theorem Inv.resume (hi : Inv s) (hn : s.pc n = .parked) :
    Inv { s.goto n .rechecking with woken := update s.woken n false } := by
  have hby : (s.pc n).bystander = true := by rw [hn]; rfl
  have hs : s.started ≠ [] := by
    have ha := hi.aside n (hi.not_started_of hby)
    rw [hn] at ha
    exact ha
  have hgoto : Inv (s.goto n .rechecking) := hi.goto hby hs (by rintro ⟨⟩)
  refine ⟨?_, fun m hm => (hgoto.aside m hm).mono id id, fun m hm => ?_⟩
  · exact hi.phase.aside (hi.not_started_of hby) rfl rfl rfl (fun _ => rfl) rfl rfl
  · have hmn : m ≠ n := by
      rintro rfl
      dsimp only [State.goto] at hm
      rw [update_self] at hm
      cases hm
    dsimp only [State.goto] at hm
    rw [update_of_ne hmn] at hm
    exact (hi.attended m hm).imp_right fun hp => hp.resume rfl (by rw [hn]; rfl) rfl hmn

theorem leave_carries (exc : Option E) : (leave exc).carries exc := by
  cases exc with
  | none => rfl
  | some e => rfl

theorem leave_blocked (exc : Option E) : (leave exc).blocked = false := by
  cases exc with
  | none => rfl
  | some e => rfl

theorem poll_aside (running : Bool) (now : ℕ) (deadline : Option ℕ) :
    (poll running now deadline : Pc E).Aside s ∧
      (poll running now deadline : Pc E).blocked = false := by
  unfold poll
  split
  case isTrue => exact ⟨trivial, rfl⟩
  case isFalse =>
    split
    case h_1 => exact ⟨trivial, rfl⟩
    case h_2 =>
      split
      case isTrue => exact ⟨trivial, rfl⟩
      case isFalse => exact ⟨trivial, rfl⟩

theorem Inv.callerStep (hi : Inv s) (hs : callerStep s n = some t) : Inv t := by
  unfold Once.callerStep at hs
  split at hs
  case h_1 hn =>
    cases hs
    exact hi.enter hn rfl
  case h_2 exc hn =>
    cases hs
    exact hi.finish hn
  case h_3 exc hn =>
    cases hs
    refine hi.waking hn rfl rfl rfl rfl (leave_carries exc) (leave_blocked exc) fun m hp => ?_
    exact hp.goto rfl (by rw [hn]; exact fun _ h => nomatch h) id
  case h_4 g gs exc hn =>
    cases hs
    refine hi.waking (q := .waking gs exc) hn rfl rfl rfl rfl rfl rfl fun m hp => ?_
    refine hp.wake (q := .waking gs exc) rfl (fun x hx => ?_) rfl
    rw [hn] at hx
    exact List.mem_cons.mp hx
  case h_5 hn =>
    cases hs
    have hby : (s.pc n).bystander = true := by rw [hn]; rfl
    have ha := hi.aside n (hi.not_started_of hby)
    rw [hn] at ha
    exact hi.goto hby ha fun _ => by rw [hn]; rfl
  case h_6 hn =>
    cases hs
    exact hi.recheck hn rfl
  case h_7 d hn =>
    cases hs
    refine hi.goto (by rw [hn]; rfl) ?_ ?_
    · split
      case isTrue hd => exact hd
      case isFalse => trivial
    · split
      all_goals rintro ⟨⟩
  case h_8 d hn =>
    cases hs
    obtain ⟨ha, hb⟩ := poll_aside (E := E) (s := s) s.once.running s.now d
    refine hi.goto (by rw [hn]; rfl) ha fun h => ?_
    rw [hb] at h
    cases h
  case h_9 => cases hs

theorem Inv.step {foreign : ℕ → Bool} {a : Action E} (hi : Inv s) (hs : step foreign s a = some t) :
    Inv t := by
  cases a with
  | call n =>
    dsimp only [Once.step] at hs
    split at hs
    case h_1 hn =>
      cases hs
      refine hi.goto (by rw [hn]; rfl) ?_ ?_
      · split
        all_goals trivial
      · split
        all_goals rintro ⟨⟩
    case h_2 => cases hs
  | caller n => exact hi.callerStep hs
  | finish n exc =>
    dsimp only [Once.step] at hs
    split at hs
    case h_1 hn =>
      cases hs
      exact hi.end_fn hn exc
    case h_2 => cases hs
  | resume n =>
    dsimp only [Once.step] at hs
    split at hs
    case h_1 hn =>
      obtain ⟨-, hs⟩ := Option.ite_none_right_eq_some.mp hs
      cases hs
      exact hi.resume hn
    case h_2 => cases hs
  | spurious n =>
    dsimp only [Once.step] at hs
    split at hs
    case h_1 hn =>
      cases hs
      have hby : (s.pc n).bystander = true := by rw [hn]; rfl
      have ha := hi.aside n (hi.not_started_of hby)
      rw [hn] at ha
      exact hi.goto hby ha (by rintro ⟨⟩)
    case h_2 => cases hs
  | tick d =>
    cases hs
    refine ⟨?_, fun m hm => (hi.aside m hm).mono id id, hi.attended⟩
    cases hi.phase with
    | fresh hd hr hs he => exact .fresh hd hr hs he
    | busy hd hr hs he hx => exact .busy hd hr hs he hx
    | closing hd hr hs he hx => exact .closing hd hr hs he hx
    | past hd hw hs he hx => exact .past hd hw hs he hx

end Steps

theorem inv_init : Inv (init E) :=
  ⟨.fresh rfl rfl rfl rfl, fun _ _ => trivial, by rintro _ ⟨⟩⟩

variable {s : State E}

theorem reachable_inv {foreign : ℕ → Bool} (h : Reachable (system E foreign) s) :
    Inv s := by
  refine h.invariant ?_ fun s a t _ hi hs => hi.step hs
  rintro s rfl
  exact inv_init

/-! ## What the invariant says -/

section Facts

variable {s : State E}

theorem Phase.started_length (h : Phase s) : s.started.length ≤ 1 := by
  cases h with
  | fresh _ _ hs => rw [hs]; exact Nat.zero_le 1
  | busy _ _ hs | closing _ _ hs | past _ _ hs => rw [hs]; exact Nat.le_refl 1

/-- A `do` that is over: `fn` has been executed, by the one call that started it. -/
theorem Inv.over (hi : Inv s) {n : ℕ} (hn : s.pc n = .returned ∨ ∃ e, s.pc n = .raised e) :
    ∃ x exc, s.started = [x] ∧ s.ended = [(x, exc)] := by
  have hdone : s.once.done = true → ∃ x exc, s.started = [x] ∧ s.ended = [(x, exc)] := by
    intro hd
    cases hi.phase with
    | fresh hd' | busy hd' | closing hd' => rw [hd'] at hd; cases hd
    | past _ _ hs he => exact ⟨_, _, hs, he⟩
  by_cases hmem : n ∈ s.started
  · cases hi.phase with
    | fresh _ _ hs => rw [hs] at hmem; cases hmem
    | busy _ _ hs _ hx | closing _ _ hs _ hx =>
      rw [hs] at hmem
      cases List.mem_singleton.mp hmem
      rcases hn with hn | ⟨e, hn⟩
      · rw [hx] at hn
        cases hn
      · rw [hx] at hn
        cases hn
    | past _ _ hs he => exact ⟨_, _, hs, he⟩
  · have ha := hi.aside n hmem
    rcases hn with hn | ⟨e, hn⟩
    · rw [hn] at ha
      exact hdone ha
    · rw [hn] at ha
      exact ha.elim

/-- What `fn` raised is raised by its executor. -/
theorem Inv.raised (hi : Inv s) {n : ℕ} {e : E} (hn : s.pc n = .raised e) :
    s.ended = [(n, some e)] := by
  have hmem : n ∈ s.started := hi.started_of (by rw [hn]; exact id)
  cases hi.phase with
  | fresh _ _ hs => rw [hs] at hmem; cases hmem
  | busy _ _ hs _ hx | closing _ _ hs _ hx =>
    rw [hs] at hmem
    cases List.mem_singleton.mp hmem
    rw [hx] at hn
    cases hn
  | past _ _ hs he hx =>
    rw [hs] at hmem
    cases List.mem_singleton.mp hmem
    rw [hn] at hx
    rw [he, show _ = some e from hx]

/-- The executor of an `fn` that has ended is in its `finally` block, or has left `do` as
`fn` did. -/
theorem Inv.executor (hi : Inv s) {n : ℕ} {exc : Option E} (hn : (n, exc) ∈ s.ended) :
    s.pc n = .finishing exc ∨ (∃ gs, s.pc n = .waking gs exc) ∨
      (s.pc n = leave exc ∧ s.once.done = true) := by
  cases hi.phase with
  | fresh _ _ _ he | busy _ _ _ he => rw [he] at hn; cases hn
  | closing _ _ _ he hx =>
    rw [he] at hn
    cases List.mem_singleton.mp hn
    exact .inl hx
  | past hd _ _ he hx =>
    rw [he] at hn
    cases List.mem_singleton.mp hn
    cases hp : s.pc n with
    | waking gs x =>
      rw [hp] at hx
      cases hx
      exact .inr (.inl ⟨gs, rfl⟩)
    | returned =>
      rw [hp] at hx
      cases hx
      exact .inr (.inr ⟨rfl, hd⟩)
    | raised e =>
      rw [hp] at hx
      cases hx
      exact .inr (.inr ⟨rfl, hd⟩)
    | _ =>
      rw [hp] at hx
      exact hx.elim

/-- The executor has left `do`: no call is queued, and those that are blocked were woken. -/
theorem Inv.all_woken (hi : Inv s) {x : ℕ} {exc : Option E} (hx : (x, exc) ∈ s.ended)
    (hleft : s.pc x = leave exc) :
    s.once.waiters = [] ∧ ∀ n, (s.pc n).blocked = true → s.woken n = true := by
  have hpc : (∀ y, s.pc x ≠ .finishing y) ∧ (s.pc x).wakes = [] := by
    rw [hleft]
    cases exc with
    | none => exact ⟨by rintro _ ⟨⟩, rfl⟩
    | some e => exact ⟨by rintro _ ⟨⟩, rfl⟩
  cases hi.phase with
  | fresh _ _ _ he | busy _ _ _ he => rw [he] at hx; cases hx
  | closing _ _ _ he hpx =>
    rw [he] at hx
    cases List.mem_singleton.mp hx
    exact absurd hpx (hpc.1 _)
  | past hd hw hs he hpx =>
    rw [he] at hx
    cases List.mem_singleton.mp hx
    refine ⟨hw, fun n hn => ?_⟩
    rcases hi.attended n hn with hmem | hwoken | ⟨m, hm⟩
    · rw [hw] at hmem
      cases hmem
    · exact hwoken
    · -- only the executor wakes anybody
      by_cases hmx : m = x
      · rw [hmx, hpc.2] at hm
        cases hm
      · have ha := hi.aside m (by rw [hs]; exact fun h => hmx (List.mem_singleton.mp h))
        cases hp : s.pc m with
        | waking gs y =>
          rw [hp] at ha
          exact ha.elim
        | _ =>
          rw [hp] at hm
          cases hm

end Facts

/-! ## Fibers and foreign threads -/

/-- The places of a foreign thread in `do`. -/
def Pc.polls : Pc E → Bool
  | .pollDone _ | .pollRunning _ | .rejected => true
  | _ => false

theorem leave_polls (exc : Option E) : (leave exc).polls = false := by
  cases exc with
  | none => rfl
  | some e => rfl

theorem enter_polls (o : Guarded) (g : ℕ) : (o.enter g : Guarded × Pc E).2.polls = false := by
  unfold Guarded.enter
  repeat' split
  all_goals rfl

theorem recheck_polls (o : Guarded) (g : ℕ) : (o.recheck g : Guarded × Pc E).2.polls = false := by
  unfold Guarded.recheck
  split
  all_goals rfl

/-- Only the loop of a foreign thread leads to its places. -/
theorem callerStep_polls {t : State E} {n : ℕ} (hs : callerStep s n = some t) :
    ∃ q, t.pc = update s.pc n q ∧ (q.polls = true → (s.pc n).polls = true) := by
  have hno : ∀ q : Pc E, q.polls = false → q.polls = true → (s.pc n).polls = true := by
    intro q h h'
    rw [h] at h'
    cases h'
  unfold callerStep at hs
  split at hs
  case h_1 =>
    cases hs
    exact ⟨_, rfl, hno _ (enter_polls s.once n)⟩
  case h_3 exc _ =>
    cases hs
    exact ⟨_, rfl, hno _ (leave_polls exc)⟩
  case h_6 =>
    cases hs
    exact ⟨_, rfl, hno _ (recheck_polls s.once n)⟩
  case h_2 | h_4 | h_5 =>
    cases hs
    exact ⟨_, rfl, hno _ rfl⟩
  case h_7 hn | h_8 hn =>
    cases hs
    exact ⟨_, rfl, fun _ => by rw [hn]; rfl⟩
  case h_9 => cases hs

theorem step_polls {foreign : ℕ → Bool} {t : State E} {a : Action E}
    (hs : step foreign s a = some t) (h : ∀ n, (s.pc n).polls = true → foreign n = true) :
    ∀ n, (t.pc n).polls = true → foreign n = true := by
  have hgoto : ∀ {n : ℕ} {q : Pc E}, t.pc = update s.pc n q →
      (q.polls = true → foreign n = true) → ∀ m, (t.pc m).polls = true → foreign m = true := by
    intro n q hpc hq m hm
    rw [hpc] at hm
    by_cases hmn : m = n
    · rw [hmn, update_self] at hm
      rw [hmn]
      exact hq hm
    · rw [update_of_ne hmn] at hm
      exact h m hm
  cases a with
  | call n =>
    dsimp only [step] at hs
    split at hs
    case h_1 =>
      cases hs
      refine hgoto rfl fun hq => ?_
      split at hq
      case isTrue hf => exact hf
      case isFalse => cases hq
    case h_2 => cases hs
  | caller n =>
    obtain ⟨q, hpc, hq⟩ := callerStep_polls hs
    exact hgoto hpc fun hp => h n (hq hp)
  | finish n exc =>
    dsimp only [step] at hs
    split at hs
    case h_1 =>
      cases hs
      exact hgoto rfl (by rintro ⟨⟩)
    case h_2 => cases hs
  | resume n =>
    dsimp only [step] at hs
    split at hs
    case h_1 =>
      obtain ⟨-, hs⟩ := Option.ite_none_right_eq_some.mp hs
      cases hs
      exact hgoto rfl (by rintro ⟨⟩)
    case h_2 => cases hs
  | spurious n =>
    dsimp only [step] at hs
    split at hs
    case h_1 =>
      cases hs
      exact hgoto rfl (by rintro ⟨⟩)
    case h_2 => cases hs
  | tick d =>
    cases hs
    exact h

theorem reachable_polls {foreign : ℕ → Bool} (h : Reachable (system E foreign) s) :
    ∀ n, (s.pc n).polls = true → foreign n = true := by
  refine h.invariant (P := fun s => ∀ n, (s.pc n).polls = true → foreign n = true) ?_
    fun s a t _ hp hs => step_polls hs hp
  rintro s rfl
  rintro _ ⟨⟩

/-! ## `once_value` -/

section Value

variable {V : Type}

/-- The keys of `box`. -/
structure Box (V E : Type) where
  v : Option V
  e : Option E

/-- How a call of the caller that `once_value` returns comes out; `value none` is what
`box.get("v")` gives without the key. -/
inductive Got (V E : Type)
  | value (v : Option V)
  | raised (e : E)
  | rejected

def Box.store (b : Box V E) : Except E V → Box V E
  | .ok v => { b with v := some v }
  | .error e => { b with e := some e }

def Box.read (b : Box V E) : Got V E :=
  match b.e with
  | some e => .raised e
  | none => .value b.v

/-- `outcomes` is history: what the runs of `fn` came to. -/
structure ValueState (V E : Type) where
  s : State E
  box : Box V E
  got : ℕ → Option (Got V E)
  outcomes : List (Except E V)

inductive ValueAction (V E : Type)
  | once (a : Action E)
  /-- `fn` returns or raises inside of `run`, which stores that and returns -/
  | finish (n : ℕ) (outcome : Except E V)
  /-- what `caller` does after `once.do(run)` -/
  | read (n : ℕ)

@[grind =]
def valueStep (foreign : ℕ → Bool) (v : ValueState V E) : ValueAction V E → Option (ValueState V E)
  | .once (.finish _ _) => none
  | .once a => (step foreign v.s a).map fun t => { v with s := t }
  | .finish n o =>
    (step foreign v.s (.finish n none)).map fun t =>
      { v with s := t, box := v.box.store o, outcomes := v.outcomes ++ [o] }
  | .read n =>
    match v.got n, v.s.pc n with
    | none, .returned => some { v with got := Function.update v.got n (some v.box.read) }
    | none, .raised e => some { v with got := Function.update v.got n (some (.raised e)) }
    | none, .rejected => some { v with got := Function.update v.got n (some .rejected) }
    | _, _ => none

def valueSystem (V E : Type) (foreign : ℕ → Bool) : System (ValueState V E) (ValueAction V E) where
  init v := v = ⟨init E, ⟨none, none⟩, fun _ => none, []⟩
  step := valueStep foreign

/-- How the outcome of `fn` comes out of every call. -/
def Got.of : Except E V → Got V E
  | .ok v => .value (some v)
  | .error e => .raised e

/-- `run` raises nothing; `box` is empty until `fn` has ended and then holds what it came
to, and so does every call that came out. -/
structure ValueInv (foreign : ℕ → Bool) (v : ValueState V E) : Prop where
  once : Reachable (system E foreign) v.s
  silent : ∀ n exc, (n, exc) ∈ v.s.ended → exc = none
  length : v.outcomes.length = v.s.ended.length
  empty : v.outcomes = [] → v.box = ⟨none, none⟩
  box : ∀ o, v.outcomes = [o] → v.box.read = .of o
  got : ∀ n r, v.got n = some r →
    (r = .rejected ∧ foreign n = true) ∨ ∃ o, v.outcomes = [o] ∧ r = .of o

theorem read_store (o : Except E V) : ((⟨none, none⟩ : Box V E).store o).read = .of o := by
  cases o with
  | ok v => rfl
  | error e => rfl

variable {foreign : ℕ → Bool} {v : ValueState V E}

/-- No other step of the `Once` ends an `fn`. -/
theorem step_ended {s t : State E} {a : Action E}
    (hs : step foreign s a = some t) (ha : ∀ n exc, a ≠ .finish n exc) : t.ended = s.ended := by
  cases a with
  | finish n exc => exact absurd rfl (ha n exc)
  | caller n =>
    dsimp only [step] at hs
    unfold callerStep at hs
    split at hs
    all_goals cases hs
    all_goals rfl
  | call | resume | spurious | tick =>
    dsimp only [step] at hs
    repeat' split at hs
    all_goals cases hs
    all_goals rfl

theorem ValueInv.finish (hi : ValueInv foreign v) {n : ℕ}
    {o : Except E V} {t : State E} (hs : step foreign v.s (.finish n none) = some t) :
    ValueInv foreign { v with s := t, box := v.box.store o, outcomes := v.outcomes ++ [o] } := by
  have hinv := reachable_inv hi.once
  have hended : v.s.ended = [] ∧ t.ended = v.s.ended ++ [(n, none)] := by
    dsimp only [step] at hs
    split at hs
    case h_1 hn =>
      cases hs
      refine ⟨?_, rfl⟩
      by_contra hne
      obtain ⟨⟨x, exc⟩, hx⟩ := List.exists_mem_of_ne_nil _ hne
      have hmem : n ∈ v.s.started := hinv.started_of (by rw [hn]; exact id)
      cases hinv.phase with
      | fresh _ _ _ he | busy _ _ _ he => exact hne he
      | closing _ _ hst _ hpx =>
        rw [hst] at hmem
        cases List.mem_singleton.mp hmem
        rw [hpx] at hn
        cases hn
      | past _ _ hst _ hpx =>
        rw [hst] at hmem
        cases List.mem_singleton.mp hmem
        rw [hn] at hpx
        exact hpx.elim
    case h_2 => cases hs
  obtain ⟨hnone, hended⟩ := hended
  have hout : v.outcomes = [] := by
    rw [← List.length_eq_zero_iff, hi.length, hnone]
    rfl
  have hnext : Reachable (system E foreign) t := hi.once.next (a := .finish n none) hs
  refine ⟨hnext, fun m exc hm => ?_, ?_, fun h => ?_, fun o' ho => ?_, fun m r hr => ?_⟩
  all_goals dsimp only at *
  · rw [hended, hnone] at hm
    cases List.mem_singleton.mp hm
    rfl
  · rw [hended, hnone, hout]
    rfl
  · rw [hout] at h
    cases h
  · rw [hout] at ho
    cases ho
    rw [hi.empty hout]
    exact read_store o
  · rcases hi.got m r hr with hrej | ⟨o', ho', -⟩
    · exact .inl hrej
    · rw [hout] at ho'
      cases ho'

theorem ValueInv.read (hi : ValueInv foreign v) {n : ℕ}
    {r : Got V E} (hr : (r = .rejected ∧ foreign n = true) ∨ ∃ o, v.outcomes = [o] ∧ r = .of o) :
    ValueInv foreign { v with got := update v.got n (some r) } := by
  refine ⟨hi.once, hi.silent, hi.length, hi.empty, hi.box, fun m r' hm => ?_⟩
  dsimp only at hm ⊢
  by_cases hmn : m = n
  · rw [hmn, update_self] at hm
    cases hm
    rw [hmn]
    exact hr
  · rw [update_of_ne hmn] at hm
    exact hi.got m r' hm

theorem ValueInv.step {w : ValueState V E} {a : ValueAction V E}
    (hi : ValueInv foreign v) (hs : valueStep foreign v a = some w) : ValueInv foreign w := by
  have hinv := reachable_inv hi.once
  cases a with
  | once a =>
    unfold valueStep at hs
    split at hs
    case h_1 => cases hs
    case h_2 b hb he =>
      cases he
      obtain ⟨t, ht, rfl⟩ := Option.map_eq_some_iff.mp hs
      have hended := step_ended ht fun n exc h => hb n exc h
      refine ⟨hi.once.next ht, ?_, ?_, hi.empty, hi.box, hi.got⟩
      · dsimp only
        rw [hended]
        exact hi.silent
      · dsimp only
        rw [hended]
        exact hi.length
    case h_3 he => cases he
    case h_4 he => cases he
  | finish n o =>
    obtain ⟨t, ht, rfl⟩ := Option.map_eq_some_iff.mp hs
    exact hi.finish ht
  | read n =>
    dsimp only [valueStep] at hs
    split at hs
    case h_1 hpc =>
      cases hs
      refine hi.read (.inr ?_)
      obtain ⟨x, exc, -, he⟩ := hinv.over (.inl hpc)
      obtain ⟨o, ho⟩ := List.length_eq_one_iff.mp (hi.length.trans (by rw [he]; rfl))
      exact ⟨o, ho, hi.box o ho⟩
    case h_2 e hnone hpc =>
      have he := hinv.raised hpc
      exact nomatch hi.silent n (some e) (by rw [he]; exact List.mem_cons_self)
    case h_3 hpc =>
      cases hs
      exact hi.read (.inl ⟨rfl, reachable_polls hi.once n (by rw [hpc]; rfl)⟩)
    case h_4 => cases hs

theorem reachable_valueInv
    (h : Reachable (valueSystem V E foreign) v) : ValueInv foreign v := by
  refine h.invariant ?_ fun v a w _ hi hs => hi.step hs
  rintro v rfl
  refine ⟨.start rfl, ?_, rfl, fun _ => rfl, ?_, ?_⟩
  · exact fun _ _ h => nomatch h
  · exact fun _ h => nomatch h
  · exact fun _ _ h => nomatch h

/-- In every state of any number of calls of `do`: `fn` was started at most once; a call
that is over came after the end of that execution; what `fn` raised is raised by the call
that executed it, which leaves as `fn` did, and by no other; and when that call is over, its
wake-ups made, no call is queued and every blocked one was woken. The calls of what
`once_value` returns all come out as the one run of `fn` did, but for foreign threads that
gave up waiting for a fiber to start it. -/
theorem once_executes_once (foreign : ℕ → Bool) :
    (∀ s : State E, Reachable (system E foreign) s →
      s.started.length ≤ 1 ∧
      (∀ n, s.pc n = .returned ∨ (∃ e, s.pc n = .raised e) →
        ∃ x exc, s.started = [x] ∧ s.ended = [(x, exc)]) ∧
      (∀ n e, s.pc n = .raised e → s.ended = [(n, some e)]) ∧
      (∀ n exc, (n, exc) ∈ s.ended → s.pc n = .finishing exc ∨ (∃ gs, s.pc n = .waking gs exc) ∨
        (s.pc n = leave exc ∧ s.once.done = true)) ∧
      (∀ n, s.pc n = .rejected → foreign n = true) ∧
      (∀ x exc, (x, exc) ∈ s.ended → s.pc x = leave exc →
        s.once.waiters = [] ∧ ∀ n, (s.pc n).blocked = true → s.woken n = true)) ∧
    (∀ v : ValueState V E, Reachable (valueSystem V E foreign) v → ∀ n r, v.got n = some r →
      (r = .rejected ∧ foreign n = true) ∨ ∃ o, v.outcomes = [o] ∧ r = .of o) := by
  refine ⟨fun s h => ?_, fun v h => (reachable_valueInv h).got⟩
  have hi := reachable_inv h
  refine ⟨hi.phase.started_length, fun n => hi.over, fun n e => hi.raised, fun n exc => hi.executor,
    fun n hn => ?_, fun x exc => hi.all_woken⟩
  exact reachable_polls h n (by rw [hn]; rfl)

/-- Call 1 waits, its park returns early and it queues itself a second time; `fn` raises. -/
theorem once_executes_once_raising :
    ∃ s : State ℕ, Reachable (system ℕ fun _ => false) s ∧ s.pc 0 = .raised 5 ∧
      s.pc 1 = .registered ∧ s.started.length ≤ 1 ∧ s.once.waiters = [] ∧ s.woken 1 = true := by
  obtain ⟨s, hs, h0, h1, hended⟩ : ∃ s, (system ℕ fun _ => false).run (init ℕ)
      [.call 0, .caller 0, .call 1, .caller 1, .caller 1, .spurious 1, .caller 1, .finish 0 (some 5),
       .caller 0, .caller 0, .caller 0, .caller 0] = some s ∧ s.pc 0 = .raised 5 ∧
      s.pc 1 = .registered ∧ s.ended = [(0, some 5)] := ⟨_, rfl, rfl, rfl, rfl⟩
  have hr := reachable_of_run _ _ rfl hs
  obtain ⟨hone, -, -, -, -, hwoken⟩ := (once_executes_once (V := ℕ) fun _ => false).1 s hr
  obtain ⟨hw, hall⟩ := hwoken 0 (some 5) (by rw [hended]; exact List.mem_cons_self) h0
  exact ⟨s, hr, h0, h1, hone, hw, hall 1 (by rw [h1]; rfl)⟩

/-- A foreign thread calls first and gives up after a second; the fiber that calls then gets
the value. -/
theorem once_value_gives_up :
    ∃ v : ValueState ℕ ℕ, Reachable (valueSystem ℕ ℕ fun n => n == 0) v ∧
      v.got 0 = some .rejected ∧ v.got 1 = some (.value (some 7)) ∧ v.got 0 ≠ v.got 1 := by
  have hr : Reachable (valueSystem ℕ ℕ fun n => n == 0) _ := reachable_of_run _
    [.once (.call 0), .once (.caller 0), .once (.caller 0), .once (.tick 1000),
     .once (.caller 0), .once (.caller 0), .read 0,
     .once (.call 1), .once (.caller 1), .finish 1 (.ok 7), .once (.caller 1),
     .once (.caller 1), .read 1] rfl rfl
  exact ⟨_, hr, rfl, rfl, by rintro ⟨⟩⟩

end Value

end Stackweave.Sync.Once
