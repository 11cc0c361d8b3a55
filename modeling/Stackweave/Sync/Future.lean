import Mathlib.Data.Int.Notation
import Mathlib.Data.List.Nodup
import Stackweave.Transition
import Stackweave.Wakeup

/-!
# `Future` (`sync.py`)

Any number of calls of `set_result`, `set_exception` and `result`, by fibers and by foreign
threads; a call is named by a number, which also stands for its fiber in `_waiters`. What is
done under `_mu` is one step. A park returns when the fiber was woken, and may also return at
any time, as it does when its timeout is over. `none` for a value or an exception is Python's
`None`.
-/

namespace Stackweave.Sync.Future

open Transition Wakeup Function

variable {V E : Type}

/-- The fields of a `Future`. -/
structure Guarded (V E : Type) where
  done : Bool
  result : Option V
  exc : Option E
  waiters : List ℕ

/-- How `result` comes out. -/
inductive Outcome (V E : Type)
  | returned (value : Option V)
  | raised (exc : E)

/-- `if exc is not None: raise exc`, `return res` -/
def deliver (result : Option V) : Option E → Outcome V E
  | some e => .raised e
  | none => .returned result

def Guarded.outcome (f : Guarded V E) : Outcome V E := deliver f.result f.exc

inductive Err
  | foreignThread
  | alreadyResolved

/-- What a call does next. `final` is whether the future was resolved at the last check. -/
inductive Pc (V E : Type)
  | idle
  | resolving (result : Option V) (exc : Option E)
  | waking (gs : List ℕ)
  | resolved
  | rejected (error : Err)
  | entering (deadline : Option ℤ)
  /-- at the head of the loop, its fiber put on `_waiters` -/
  | looping (deadline : Option ℤ)
  | parked (deadline : Option ℤ)
  | rechecking (deadline : Option ℤ)
  /-- `remaining <= 0` -/
  | expiring
  /-- a foreign thread before its check, and after one that found nothing -/
  | polling (deadline : Option ℤ)
  | pollTime (deadline : Option ℤ) (final : Bool)
  | delivered (outcome : Outcome V E)
  | timedOut (final : Bool)

/-- `now` is the monotonic clock. `succeeded` is history: the calls that resolved. -/
structure State (V E : Type) where
  fut : Guarded V E
  pc : ℕ → Pc V E
  woken : ℕ → Bool
  now : ℤ
  succeeded : List (ℕ × Option V × Option E)

def init (V E : Type) : State V E :=
  { fut := ⟨false, none, none, []⟩, pc := fun _ => .idle, woken := fun _ => false, now := 0
    succeeded := [] }

/-! ## The steps -/

inductive Action (V E : Type)
  | setResult (n : ℕ) (value : Option V)
  | setException (n : ℕ) (exc : Option E)
  | result (n : ℕ) (timeout : Option ℤ)
  | caller (n : ℕ)
  | resume (n : ℕ)
  | spurious (n : ℕ)
  | tick (d : ℕ)

def State.goto (s : State V E) (n : ℕ) (q : Pc V E) : State V E :=
  { s with pc := Function.update s.pc n q }

/-- `remaining <= 0` -/
def expired (now : ℤ) : Option ℤ → Bool
  | none => false
  | some t => t - now ≤ 0

/-- The guarded section of `_resolve`. -/
def resolve (s : State V E) (n : ℕ) (result : Option V) (exc : Option E) : State V E :=
  if s.fut.done then s.goto n (.rejected .alreadyResolved)
  else
    { s.goto n (.waking s.fut.waiters) with
      fut := { done := true, result, exc, waiters := [] }
      succeeded := s.succeeded ++ [(n, result, exc)] }

/-- The first guarded section of `result`. -/
def enter (foreign : Bool) (s : State V E) (n : ℕ) (d : Option ℤ) : State V E :=
  if s.fut.done then s.goto n (.delivered s.fut.outcome)
  else if foreign then s.goto n (.polling d)
  else { s.goto n (.looping d) with fut := { s.fut with waiters := s.fut.waiters ++ [n] } }

/-- The check after a park. -/
def recheck (s : State V E) (n : ℕ) (d : Option ℤ) : State V E :=
  if s.fut.done then s.goto n (.delivered s.fut.outcome) else s.goto n (.looping d)

/-- The check when the time is up. -/
def expire (s : State V E) (n : ℕ) : State V E :=
  { s.goto n (if s.fut.done then .delivered s.fut.outcome else .timedOut s.fut.done) with
    fut := { s.fut with waiters := s.fut.waiters.erase n } }

/-- The check of a foreign thread. -/
def poll (s : State V E) (n : ℕ) (d : Option ℤ) : State V E :=
  if s.fut.done then s.goto n (.delivered s.fut.outcome) else s.goto n (.pollTime d s.fut.done)

def callerStep (foreign : ℕ → Bool) (s : State V E) (n : ℕ) : Option (State V E) :=
  match s.pc n with
  | .resolving result exc => some (resolve s n result exc)
  | .waking [] => some (s.goto n .resolved)
  | .waking (g :: gs) =>
    some { s.goto n (.waking gs) with woken := Function.update s.woken g true }
  | .entering d => some (enter (foreign n) s n d)
  | .looping d => some (s.goto n (if expired s.now d then .expiring else .parked d))
  | .rechecking d => some (recheck s n d)
  | .expiring => some (expire s n)
  | .polling d => some (poll s n d)
  | .pollTime d final => some (s.goto n (if expired s.now d then .timedOut final else .polling d))
  | _ => none

/-- `_resolve` turns a foreign thread away before it takes the guard. -/
def begin (foreign : Bool) (result : Option V) (exc : Option E) : Pc V E :=
  if foreign then .rejected .foreignThread else .resolving result exc

/-- `foreign` says which calls are made by foreign threads. -/
@[grind =]
def step (foreign : ℕ → Bool) (s : State V E) : Action V E → Option (State V E)
  | .setResult n v =>
    match s.pc n with
    | .idle => some (s.goto n (begin (foreign n) v none))
    | _ => none
  | .setException n e =>
    match s.pc n with
    | .idle => some (s.goto n (begin (foreign n) none e))
    | _ => none
  | .result n timeout =>
    match s.pc n with
    | .idle => some (s.goto n (.entering (timeout.map (s.now + ·))))
    | _ => none
  | .caller n => callerStep foreign s n
  | .resume n =>
    match s.pc n with
    | .parked d =>
      if s.woken n then
        some { s.goto n (.rechecking d) with woken := Function.update s.woken n false }
      else none
    | _ => none
  | .spurious n =>
    match s.pc n with
    | .parked d => some (s.goto n (.rechecking d))
    | _ => none
  | .tick d => some { s with now := s.now + d }

def system (V E : Type) (foreign : ℕ → Bool) : System (State V E) (Action V E) where
  init s := s = init V E
  step := step foreign

/-! ## What a step can do -/

/-- The call has put its fiber on the list and not taken it off. -/
def Pc.queued : Pc V E → Bool
  | .looping _ | .parked _ | .rechecking _ | .expiring => true
  | _ => false

def Pc.blocked : Pc V E → Bool
  | .looping _ | .parked _ => true
  | _ => false

def Pc.wakes : Pc V E → List ℕ
  | .waking gs => gs
  | _ => []

/-- A call that has not begun, or a foreign thread between its checks. -/
def Pc.apart : Pc V E → Bool
  | .idle | .resolving _ _ | .rejected .foreignThread | .entering _ | .polling _ => true
  | _ => false

/-- The steps of the calls, with what the code has checked in each. -/
inductive Move (s : State V E) : State V E → Prop
  | apart {n : ℕ} {q : Pc V E} (hn : (s.pc n).apart = true ∨ ∃ d final, s.pc n = .pollTime d final)
      (hq : q.apart = true) : Move s (s.goto n q)
  | reject {n : ℕ} {r : Option V} {x : Option E} (hn : s.pc n = .resolving r x)
      (hd : s.fut.done = true) : Move s (s.goto n (.rejected .alreadyResolved))
  | resolve {n : ℕ} {r : Option V} {x : Option E} (hn : s.pc n = .resolving r x)
      (hd : s.fut.done = false) :
    Move s { s.goto n (.waking s.fut.waiters) with
      fut := { done := true, result := r, exc := x, waiters := [] }
      succeeded := s.succeeded ++ [(n, r, x)] }
  | wake {n g : ℕ} {gs : List ℕ} (hn : s.pc n = .waking (g :: gs)) :
    Move s { s.goto n (.waking gs) with woken := Function.update s.woken g true }
  | resolved {n : ℕ} (hn : s.pc n = .waking []) : Move s (s.goto n .resolved)
  | deliver {n : ℕ} (hn : (s.pc n).apart = true ∨ ∃ d, s.pc n = .rechecking d)
      (hd : s.fut.done = true) : Move s (s.goto n (.delivered s.fut.outcome))
  | register {n : ℕ} {d : Option ℤ} (hn : s.pc n = .entering d) (hd : s.fut.done = false) :
    Move s { s.goto n (.looping d) with fut := { s.fut with waiters := s.fut.waiters ++ [n] } }
  | park {n : ℕ} {d : Option ℤ} (hn : s.pc n = .looping d) : Move s (s.goto n (.parked d))
  | late {n : ℕ} {d : Option ℤ} (hn : s.pc n = .looping d) : Move s (s.goto n .expiring)
  | resume {n : ℕ} {d : Option ℤ} {b : Bool} (hn : s.pc n = .parked d) :
    Move s { s.goto n (.rechecking d) with woken := Function.update s.woken n b }
  | again {n : ℕ} {d : Option ℤ} (hn : s.pc n = .rechecking d) (hd : s.fut.done = false) :
    Move s (s.goto n (.looping d))
  | expire {n : ℕ} {q : Pc V E} (hn : s.pc n = .expiring)
      (hq : (s.fut.done = true ∧ q = .delivered s.fut.outcome) ∨
        (s.fut.done = false ∧ q = .timedOut false)) :
    Move s { s.goto n q with fut := { s.fut with waiters := s.fut.waiters.erase n } }
  | miss {n : ℕ} {d : Option ℤ} (hn : s.pc n = .polling d) (hd : s.fut.done = false) :
    Move s (s.goto n (.pollTime d false))
  | pollOut {n : ℕ} {d : Option ℤ} {final : Bool} (hn : s.pc n = .pollTime d final) :
    Move s (s.goto n (.timedOut final))
  | tick {d : ℤ} : Move s { s with now := d }

section Move

variable {s t : State V E} {n : ℕ} {foreign : ℕ → Bool}

theorem callerStep_move (hs : callerStep foreign s n = some t) : Move s t := by
  unfold callerStep at hs
  split at hs
  case h_1 hn =>
    cases hs
    unfold resolve
    split
    case isTrue hd => exact .reject hn hd
    case isFalse hd => exact .resolve hn (Bool.not_eq_true _ ▸ hd)
  case h_2 hn =>
    cases hs
    exact .resolved hn
  case h_3 hn =>
    cases hs
    exact .wake hn
  case h_4 hn =>
    cases hs
    unfold enter
    split
    case isTrue hd => exact .deliver (.inl (by rw [hn]; rfl)) hd
    case isFalse hd =>
      split
      case isTrue => exact .apart (.inl (by rw [hn]; rfl)) rfl
      case isFalse => exact .register hn (Bool.not_eq_true _ ▸ hd)
  case h_5 hn =>
    cases hs
    split
    case isTrue => exact .late hn
    case isFalse => exact .park hn
  case h_6 hn =>
    cases hs
    unfold recheck
    split
    case isTrue hd => exact .deliver (.inr ⟨_, hn⟩) hd
    case isFalse hd => exact .again hn (Bool.not_eq_true _ ▸ hd)
  case h_7 hn =>
    cases hs
    unfold expire
    refine .expire hn ?_
    cases hd : s.fut.done with
    | true => exact .inl ⟨rfl, rfl⟩
    | false => exact .inr ⟨rfl, rfl⟩
  case h_8 hn =>
    cases hs
    unfold poll
    split
    case isTrue hd => exact .deliver (.inl (by rw [hn]; rfl)) hd
    case isFalse hd =>
      have hd := Bool.not_eq_true _ ▸ hd
      rw [hd]
      exact .miss hn hd
  case h_9 hn =>
    cases hs
    split
    case isTrue => exact .pollOut hn
    case isFalse => exact .apart (.inr ⟨_, _, hn⟩) rfl
  case h_10 => cases hs

theorem begin_apart (b : Bool) (r : Option V) (x : Option E) : (begin b r x).apart = true := by
  cases b with
  | true => rfl
  | false => rfl

theorem step_move {a : Action V E} (hs : step foreign s a = some t) : Move s t := by
  cases a with
  | setResult n v =>
    dsimp only [step] at hs
    split at hs
    case h_1 hn =>
      cases hs
      exact .apart (.inl (by rw [hn]; rfl)) (begin_apart ..)
    case h_2 => cases hs
  | setException n e =>
    dsimp only [step] at hs
    split at hs
    case h_1 hn =>
      cases hs
      exact .apart (.inl (by rw [hn]; rfl)) (begin_apart ..)
    case h_2 => cases hs
  | result n timeout =>
    dsimp only [step] at hs
    split at hs
    case h_1 hn =>
      cases hs
      exact .apart (.inl (by rw [hn]; rfl)) rfl
    case h_2 => cases hs
  | caller n => exact callerStep_move hs
  | resume n =>
    dsimp only [step] at hs
    split at hs
    case h_1 hn =>
      obtain ⟨-, hs⟩ := Option.ite_none_right_eq_some.mp hs
      cases hs
      exact .resume hn
    case h_2 => cases hs
  | spurious n =>
    dsimp only [step] at hs
    split at hs
    case h_1 d hn =>
      cases hs
      have hm : Move s { s.goto n (.rechecking d) with
          woken := update s.woken n (s.woken n) } := .resume hn
      rw [update_eq_self] at hm
      exact hm
    case h_2 => cases hs
  | tick d =>
    cases hs
    exact .tick

end Move

/-! ## The invariant -/

/-- The wake-up of the call has been made, or the resolver is going to make it. -/
def PendingWake (s : State V E) : ℕ → Prop := Pending Pc.wakes s.pc s.woken

/-- What the place of a call says. -/
@[grind =]
def Pc.Fits (s : State V E) (n : ℕ) : Pc V E → Prop
  | .waking _ | .resolved => ∃ r x, s.succeeded = [(n, r, x)]
  | .rejected .alreadyResolved => s.fut.done = true
  | .delivered o => ∃ m r x, s.succeeded = [(m, r, x)] ∧ o = Future.deliver r x
  | .timedOut final | .pollTime _ final => final = false
  | .looping _ | .parked _ | .rechecking _ | .expiring =>
    s.fut.done = false → n ∈ s.fut.waiters
  | _ => True

structure Inv (s : State V E) : Prop where
  before : s.fut.done = false → s.succeeded = []
  after : s.fut.done = true →
    s.fut.waiters = [] ∧ ∃ n, s.succeeded = [(n, s.fut.result, s.fut.exc)]
  resolver : ∀ n r x, (n, r, x) ∈ s.succeeded → (∃ gs, s.pc n = .waking gs) ∨ s.pc n = .resolved
  fits : ∀ n, (s.pc n).Fits s n
  nodup : s.fut.waiters.Nodup
  queued : ∀ n ∈ s.fut.waiters, (s.pc n).queued = true
  blocked : ∀ n, (s.pc n).blocked = true → s.fut.done = true → PendingWake s n

section Steps

variable {s t : State V E} {n : ℕ} {q : Pc V E}

theorem Pc.Fits.mono {p : Pc V E} (h : p.Fits s n) (hdone : t.fut.done = s.fut.done)
    (hsucceeded : t.succeeded = s.succeeded) (hwaiters : n ∈ s.fut.waiters → n ∈ t.fut.waiters) :
    p.Fits t n := by
  cases p with
  | waking | resolved | delivered =>
    dsimp only [Pc.Fits] at h ⊢
    rw [hsucceeded]
    exact h
  | rejected err =>
    cases err with
    | foreignThread => trivial
    | alreadyResolved => exact hdone.trans h
  | timedOut | pollTime => exact h
  | looping | parked | rechecking | expiring => exact fun hd => hwaiters (h (hdone ▸ hd))
  | idle | resolving | entering | polling => trivial

/-- A call that does not resolve moves; of the list goes at most the call itself. -/
theorem Inv.move (hi : Inv s) (hpc : t.pc = update s.pc n q)
    (hdone : t.fut.done = s.fut.done) (hresult : t.fut.result = s.fut.result)
    (hexc : t.fut.exc = s.fut.exc) (hsucceeded : t.succeeded = s.succeeded)
    (hnodup : t.fut.waiters.Nodup) (hsub : ∀ m ∈ t.fut.waiters, m ≠ n → m ∈ s.fut.waiters)
    (hstay : ∀ m ∈ s.fut.waiters, m ≠ n → m ∈ t.fut.waiters)
    (hempty : s.fut.done = true → n ∉ t.fut.waiters)
    (hresolver : (∃ gs, s.pc n = .waking gs) ∨ s.pc n = .resolved →
      (∃ gs, q = .waking gs) ∨ q = .resolved)
    (hfits : q.Fits t n) (hqueued : n ∈ t.fut.waiters → q.queued = true)
    (hblocked : q.blocked = true → (s.pc n).blocked = true ∨ s.fut.done = false)
    (hpending : ∀ m, (m = n → q.blocked = true) → PendingWake s m → PendingWake t m) : Inv t := by
  have hself : t.pc n = q := by rw [hpc, update_self]
  have hother : ∀ m, m ≠ n → t.pc m = s.pc m := fun m hm => by rw [hpc, update_of_ne hm]
  refine ⟨fun hd => ?_, fun hd => ?_, fun m r x hm => ?_, fun m => ?_, hnodup, fun m hm => ?_,
    fun m hm hd => ?_⟩
  · rw [hsucceeded]
    exact hi.before (hdone ▸ hd)
  · obtain ⟨hw, hone⟩ := hi.after (hdone ▸ hd)
    rw [hsucceeded, hresult, hexc]
    refine ⟨List.eq_nil_iff_forall_not_mem.mpr fun m hm => ?_, hone⟩
    by_cases hmn : m = n
    · exact hempty (hdone ▸ hd) (hmn ▸ hm)
    · have := hsub m hm hmn
      rw [hw] at this
      cases this
  · rw [hsucceeded] at hm
    have hold := hi.resolver m r x hm
    by_cases hmn : m = n
    · rw [hmn] at hold ⊢
      rw [hself]
      exact hresolver hold
    · rw [hother m hmn]
      exact hold
  · by_cases hmn : m = n
    · rw [hmn, hself]
      exact hfits
    · rw [hother m hmn]
      exact (hi.fits m).mono hdone hsucceeded fun hm => hstay m hm hmn
  · by_cases hmn : m = n
    · rw [hmn, hself]
      exact hqueued (hmn ▸ hm)
    · rw [hother m hmn]
      exact hi.queued m (hsub m hm hmn)
  · rw [hdone] at hd
    by_cases hmn : m = n
    · rw [hmn, hself] at hm
      rw [hmn]
      rcases hblocked hm with hb | hnone
      · exact hpending n (fun _ => hm) (hi.blocked n hb hd)
      · rw [hd] at hnone
        cases hnone
    · rw [hother m hmn] at hm
      exact hpending m (fun he => absurd he hmn) (hi.blocked m hm hd)

/-- The same for a call that leaves the list alone and has nobody to wake. -/
theorem Inv.goto (hi : Inv s) (hold : (s.pc n).wakes = [])
    (hresolver : (∃ gs, s.pc n = .waking gs) ∨ s.pc n = .resolved →
      (∃ gs, q = .waking gs) ∨ q = .resolved)
    (hfits : q.Fits s n) (hqueued : n ∈ s.fut.waiters → q.queued = true)
    (hblocked : q.blocked = true → (s.pc n).blocked = true ∨ s.fut.done = false) :
    Inv (s.goto n q) := by
  refine hi.move rfl rfl rfl rfl rfl hi.nodup (fun _ hm _ => hm) (fun _ hm _ => hm) (fun hd hm => ?_)
    hresolver (hfits.mono rfl rfl id) hqueued hblocked fun m _ hp => ?_
  · dsimp only [State.goto] at hm
    rw [(hi.after hd).1] at hm
    cases hm
  · refine hp.goto rfl (fun g hg => ?_) id
    rw [hold] at hg
    cases hg

theorem Inv.not_queued (hi : Inv s) (hn : (s.pc n).queued = false) : n ∉ s.fut.waiters := by
  intro hmem
  rw [hi.queued n hmem] at hn
  cases hn

theorem Pc.not_resolver {p : Pc V E} (hw : ∀ gs, p ≠ .waking gs) (hr : p ≠ .resolved) :
    (∃ gs, p = .waking gs) ∨ p = .resolved → (∃ gs, q = .waking gs) ∨ q = .resolved := by
  rintro (⟨gs, h⟩ | h)
  · exact absurd h (hw gs)
  · exact absurd h hr

theorem Inv.resolve (hi : Inv s) {r : Option V} {x : Option E} (hn : s.pc n = .resolving r x)
    (hd : s.fut.done = false) :
    Inv { s.goto n (.waking s.fut.waiters) with
      fut := { done := true, result := r, exc := x, waiters := [] }
      succeeded := s.succeeded ++ [(n, r, x)] } := by
  have hself : update s.pc n (.waking s.fut.waiters) n = .waking s.fut.waiters :=
    update_self ..
  have hother : ∀ m, m ≠ n → update s.pc n (.waking s.fut.waiters) m = s.pc m :=
    fun m hm => update_of_ne hm ..
  have hone : s.succeeded ++ [(n, r, x)] = [(n, r, x)] := by
    rw [hi.before hd]
    rfl
  refine ⟨by rintro ⟨⟩, fun _ => ⟨rfl, n, hone⟩, fun m r' x' hm => ?_, fun m => ?_, List.nodup_nil,
    fun m hm => ?_, fun m hm _ => ?_⟩
  all_goals dsimp only [State.goto] at *
  · rw [hone] at hm
    cases List.mem_singleton.mp hm
    exact .inl ⟨_, hself⟩
  · by_cases hmn : m = n
    · rw [hmn, hself]
      exact ⟨r, x, hone⟩
    · rw [hother m hmn]
      have hf := hi.fits m
      cases hp : s.pc m with
      | waking | resolved =>
        rw [hp] at hf
        obtain ⟨r', x', hs⟩ := hf
        rw [hi.before hd] at hs
        cases hs
      | delivered o =>
        rw [hp] at hf
        obtain ⟨k, r', x', hs, -⟩ := hf
        rw [hi.before hd] at hs
        cases hs
      | rejected err =>
        cases err with
        | foreignThread => trivial
        | alreadyResolved => rfl
      | timedOut | pollTime =>
        rw [hp] at hf
        exact hf
      | looping | parked | rechecking | expiring => rintro ⟨⟩
      | idle | resolving | entering | polling => trivial
  · cases hm
  · have hmn : m ≠ n := by
      rintro rfl
      rw [hself] at hm
      cases hm
    rw [hother m hmn] at hm
    have hmem : m ∈ s.fut.waiters := by
      have hf := hi.fits m
      cases hp : s.pc m with
      | looping | parked =>
        rw [hp] at hf
        exact hf hd
      | _ =>
        rw [hp] at hm
        cases hm
    exact .of_mem rfl hmem

theorem Inv.delivered (hi : Inv s) (hd : s.fut.done = true) :
    (Pc.delivered s.fut.outcome).Fits s n := by
  obtain ⟨m, hm⟩ := (hi.after hd).2
  exact ⟨m, _, _, hm, rfl⟩

theorem Pc.apart_facts {p : Pc V E} (h : p.apart = true ∨ ∃ d final, p = .pollTime d final) :
    p.wakes = [] ∧ p.queued = false ∧ (∀ gs, p ≠ .waking gs) ∧ p ≠ .resolved := by
  rcases h with h | ⟨d, final, rfl⟩
  · cases p with
    | idle | resolving | entering | polling | rejected => exact ⟨rfl, rfl, by rintro _ ⟨⟩, by rintro ⟨⟩⟩
    | _ => cases h
  · exact ⟨rfl, rfl, by rintro _ ⟨⟩, by rintro ⟨⟩⟩

theorem Pc.fits_of_apart (h : q.apart = true) : q.Fits s n ∧ q.blocked = false := by
  cases q with
  | idle | resolving | entering | polling => exact ⟨trivial, rfl⟩
  | rejected err =>
    cases err with
    | foreignThread => exact ⟨trivial, rfl⟩
    | alreadyResolved => cases h
  | _ => cases h

theorem Inv.step (hi : Inv s) (hm : Move s t) : Inv t := by
  cases hm with
  | @apart n q hn hq =>
    obtain ⟨hw, hqd, hnw, hnr⟩ := Pc.apart_facts hn
    obtain ⟨hf, hb⟩ := Pc.fits_of_apart (s := s) (n := n) hq
    refine hi.goto hw (Pc.not_resolver hnw hnr) hf (fun hm => absurd hm (hi.not_queued hqd)) fun h => ?_
    rw [hb] at h
    cases h
  | @reject n r x hn hd =>
    have hout := hi.not_queued (n := n) (by rw [hn]; rfl)
    exact hi.goto (by rw [hn]; rfl) (by rw [hn]; exact Pc.not_resolver (by rintro _ ⟨⟩) (by rintro ⟨⟩)) hd
      (fun hm => absurd hm hout) (by rintro ⟨⟩)
  | resolve hn hd => exact hi.resolve hn hd
  | @wake n g gs hn =>
    have hout := hi.not_queued (n := n) (by rw [hn]; rfl)
    have hf := hi.fits n
    rw [hn] at hf
    refine hi.move (q := .waking gs) rfl rfl rfl rfl rfl hi.nodup (fun _ hm _ => hm)
      (fun _ hm _ => hm) (fun _ => hout) (fun _ => .inl ⟨gs, rfl⟩) hf (fun hm => absurd hm hout)
      (by intros; contradiction) fun m _ hp => ?_
    refine hp.wake (q := .waking gs) rfl (fun x hx => ?_) rfl
    rw [hn] at hx
    exact List.mem_cons.mp hx
  | @resolved n hn =>
    have hout := hi.not_queued (n := n) (by rw [hn]; rfl)
    have hf := hi.fits n
    rw [hn] at hf
    exact hi.goto (by rw [hn]; rfl) (fun _ => .inr rfl) hf (fun hm => absurd hm hout) (by intros; contradiction)
  | @deliver n hn hd =>
    have hempty := (hi.after hd).1
    have hfacts : (s.pc n).wakes = [] ∧ (∀ gs, s.pc n ≠ .waking gs) ∧ s.pc n ≠ .resolved := by
      rcases hn with hn | ⟨d, hn⟩
      · obtain ⟨hw, -, hnw, hnr⟩ := Pc.apart_facts (.inl hn)
        exact ⟨hw, hnw, hnr⟩
      · rw [hn]
        exact ⟨rfl, nofun, nofun⟩
    refine hi.goto hfacts.1 (Pc.not_resolver hfacts.2.1 hfacts.2.2) (hi.delivered hd) (fun hm => ?_) nofun
    rw [hempty] at hm
    cases hm
  | @register n d hn hd =>
    have hout := hi.not_queued (n := n) (by rw [hn]; rfl)
    refine hi.move (q := .looping d) rfl rfl rfl rfl rfl ?_ (fun m hm hmn => ?_)
      (fun m hm _ => List.mem_append_left _ hm) (fun h => ?_)
      (by rw [hn]; exact Pc.not_resolver nofun nofun)
      (fun _ => List.mem_append_right _ (List.mem_singleton_self n)) (fun _ => rfl) (fun _ => .inr hd)
      fun m _ hp => ?_
    · exact List.nodup_append_comm.mp (List.nodup_cons.mpr ⟨hout, hi.nodup⟩)
    · exact (List.mem_append.mp hm).resolve_right fun he => hmn (List.mem_singleton.mp he)
    · rw [hd] at h
      cases h
    · exact hp.goto rfl (by rw [hn]; exact fun _ hg => nomatch hg) id
  | @park n d hn =>
    have hf := hi.fits n
    rw [hn] at hf
    exact hi.goto (by rw [hn]; rfl) (by rw [hn]; exact Pc.not_resolver nofun nofun) hf
      (fun _ => rfl) fun _ => .inl (by rw [hn]; rfl)
  | @late n d hn =>
    have hf := hi.fits n
    rw [hn] at hf
    exact hi.goto (by rw [hn]; rfl) (by rw [hn]; exact Pc.not_resolver nofun nofun) hf
      (fun _ => rfl) nofun
  | @resume n d b hn =>
    have hf := hi.fits n
    rw [hn] at hf
    refine hi.move (q := .rechecking d) rfl rfl rfl rfl rfl hi.nodup (fun _ hm _ => hm)
      (fun _ hm _ => hm) (fun h hm => ?_) (by rw [hn]; exact Pc.not_resolver nofun nofun) hf
      (fun _ => rfl) nofun fun m hmn hp => ?_
    · dsimp only [State.goto] at hm
      rw [(hi.after h).1] at hm
      cases hm
    · have hne : m ≠ n := fun he => absurd (hmn he) nofun
      refine hp.goto rfl (by rw [hn]; exact fun _ hg => nomatch hg) fun hw => ?_
      exact (update_of_ne hne ..).trans hw
  | @again n d hn hd =>
    have hf := hi.fits n
    rw [hn] at hf
    exact hi.goto (by rw [hn]; rfl) (by rw [hn]; exact Pc.not_resolver nofun nofun) hf
      (fun _ => rfl) fun _ => .inr hd
  | @expire n q hn hq =>
    have hgone : n ∉ s.fut.waiters.erase n := List.Nodup.not_mem_erase hi.nodup
    have hfacts : q.Fits s n ∧ q.blocked = false ∧
        (q.Fits s n → q.Fits { s.goto n q with
          fut := { s.fut with waiters := s.fut.waiters.erase n } } n) := by
      rcases hq with ⟨hd, rfl⟩ | ⟨hd, rfl⟩
      · exact ⟨hi.delivered hd, rfl, id⟩
      · exact ⟨rfl, rfl, id⟩
    refine hi.move rfl rfl rfl rfl rfl (hi.nodup.erase n) (fun m hm _ => List.mem_of_mem_erase hm)
      (fun m hm hmn => (List.mem_erase_of_ne hmn).mpr hm) (fun _ => hgone)
      (by rw [hn]; exact Pc.not_resolver nofun nofun) (hfacts.2.2 hfacts.1)
      (fun hm => absurd hm hgone) (fun hb => ?_) fun m _ hp => ?_
    · rw [hfacts.2.1] at hb
      cases hb
    · exact hp.goto rfl (by rw [hn]; exact fun _ hg => nomatch hg) id
  | @miss n d hn hd =>
    have hout := hi.not_queued (n := n) (by rw [hn]; rfl)
    exact hi.goto (by rw [hn]; rfl) (by rw [hn]; exact Pc.not_resolver nofun nofun) rfl
      (fun hm => absurd hm hout) nofun
  | @pollOut n d final hn =>
    have hout := hi.not_queued (n := n) (by rw [hn]; rfl)
    have hf := hi.fits n
    rw [hn] at hf
    exact hi.goto (by rw [hn]; rfl) (by rw [hn]; exact Pc.not_resolver nofun nofun) hf
      (fun hm => absurd hm hout) nofun
  | tick =>
    refine ⟨hi.before, hi.after, hi.resolver, fun m => (hi.fits m).mono rfl rfl id, hi.nodup,
      hi.queued, hi.blocked⟩

end Steps

theorem inv_init : Inv (init V E) := by
  refine ⟨fun _ => rfl, by rintro ⟨⟩, ?_, fun _ => trivial, List.nodup_nil, ?_, ?_⟩
  · exact fun _ _ _ h => nomatch h
  · exact fun _ h => nomatch h
  · exact fun _ h => nomatch h

theorem reachable_inv {foreign : ℕ → Bool} {s : State V E}
    (h : Reachable (system V E foreign) s) : Inv s := by
  refine h.invariant ?_ fun s a t _ hi hs => hi.step (step_move hs)
  rintro s rfl
  exact inv_init

theorem Inv.done_of_mem {s : State V E} (hi : Inv s) {n : ℕ} {r : Option V} {x : Option E}
    (hn : (n, r, x) ∈ s.succeeded) :
    s.fut.done = true ∧ s.succeeded = [(n, r, x)] ∧ s.fut.result = r ∧ s.fut.exc = x := by
  have hd : s.fut.done = true := by
    by_contra hd
    rw [hi.before (Bool.not_eq_true _ ▸ hd)] at hn
    cases hn
  obtain ⟨-, m, hm⟩ := hi.after hd
  rw [hm] at hn ⊢
  cases List.mem_singleton.mp hn
  exact ⟨hd, rfl, rfl, rfl⟩

/-- In every state of any number of calls: at most one of them has resolved, and the future
holds what it gave; the others that came to the guarded section raised, after it; what
`result` gave is the outcome of the one that resolved; a call timed out only where its last
check found the future unresolved; and when the one that resolved is over, its wake-ups made,
every blocked call was woken. -/
theorem resolves_once {foreign : ℕ → Bool} {s : State V E} (h : Reachable (system V E foreign) s) :
    s.succeeded.length ≤ 1 ∧
    (∀ n r x, (n, r, x) ∈ s.succeeded → s.fut.result = r ∧ s.fut.exc = x ∧
      ((∃ gs, s.pc n = .waking gs) ∨ s.pc n = .resolved)) ∧
    (∀ n, (∃ gs, s.pc n = .waking gs) ∨ s.pc n = .resolved → ∃ r x, s.succeeded = [(n, r, x)]) ∧
    (∀ n, s.pc n = .rejected .alreadyResolved → ∃ m r x, m ≠ n ∧ s.succeeded = [(m, r, x)]) ∧
    (∀ n o, s.pc n = .delivered o → ∃ m r x, s.succeeded = [(m, r, x)] ∧ o = deliver r x) ∧
    (∀ n final, s.pc n = .timedOut final → final = false) ∧
    (∀ m r x, (m, r, x) ∈ s.succeeded → s.pc m = .resolved →
      ∀ n, (s.pc n).blocked = true → s.woken n = true) := by
  have hi := reachable_inv h
  refine ⟨?_, fun n r x hn => ?_, fun n hn => ?_, fun n hn => ?_, fun n o hn => ?_, fun n final hn => ?_,
    fun m r x hm hpc n hn => ?_⟩
  · cases hd : s.fut.done with
    | false =>
      rw [hi.before hd]
      exact Nat.zero_le 1
    | true =>
      obtain ⟨-, m, hm⟩ := hi.after hd
      rw [hm]
      exact Nat.le_refl 1
  · obtain ⟨-, -, hr, hx⟩ := hi.done_of_mem hn
    exact ⟨hr, hx, hi.resolver n r x hn⟩
  · have hf := hi.fits n
    rcases hn with ⟨gs, hn⟩ | hn
    · rw [hn] at hf
      exact hf
    · rw [hn] at hf
      exact hf
  · have hf := hi.fits n
    rw [hn] at hf
    obtain ⟨-, m, hm⟩ := hi.after hf
    refine ⟨m, _, _, ?_, hm⟩
    rintro rfl
    rcases hi.resolver m _ _ (by rw [hm]; exact List.mem_cons_self) with ⟨gs, hp⟩ | hp
    · rw [hn] at hp
      cases hp
    · rw [hn] at hp
      cases hp
  · have hf := hi.fits n
    rw [hn] at hf
    exact hf
  · have hf := hi.fits n
    rw [hn] at hf
    exact hf
  · obtain ⟨hd, hone, -, -⟩ := hi.done_of_mem hm
    rcases hi.blocked n hn hd with hw | ⟨k, hk⟩
    · exact hw
    · -- only the call that resolved has anybody to wake
      have hf := hi.fits k
      cases hp : s.pc k with
      | waking gs =>
        rw [hp] at hf
        obtain ⟨r', x', hk'⟩ := hf
        rw [hone] at hk'
        cases hk'
        rw [hpc] at hp
        cases hp
      | _ =>
        rw [hp] at hk
        cases hk

/-- Call 0 awaits, its park returns early, and it is parked again when call 1 resolves with an
exception; call 2 comes too late to resolve, and call 3 has timed out before. -/
theorem resolves_once_raced :
    ∃ s : State ℕ ℕ, Reachable (system ℕ ℕ fun _ => false) s ∧ (s.pc 0).blocked = true ∧
      s.woken 0 = true ∧ s.pc 2 = .rejected .alreadyResolved ∧ s.pc 3 = .timedOut false ∧
      s.succeeded.length ≤ 1 := by
  obtain ⟨s, hs, h0, h1, h2, h3, hm⟩ : ∃ s, (system ℕ ℕ fun _ => false).run (init ℕ ℕ)
      [.result 0 none, .caller 0, .caller 0, .spurious 0, .caller 0, .result 3 (some 5), .caller 3,
       .caller 3, .tick 5, .spurious 3, .caller 3, .caller 3, .caller 3, .setException 1 (some 9),
       .setResult 2 (some 4), .caller 1, .caller 2, .caller 1, .caller 1] = some s ∧
      (s.pc 0).blocked = true ∧ s.pc 1 = .resolved ∧ s.pc 2 = .rejected .alreadyResolved ∧
      s.pc 3 = .timedOut false ∧ (1, none, some 9) ∈ s.succeeded :=
    ⟨_, rfl, rfl, rfl, rfl, rfl, List.mem_cons_self⟩
  have hr := reachable_of_run _ _ rfl hs
  obtain ⟨hone, -, -, -, -, -, hwoken⟩ := resolves_once hr
  exact ⟨s, hr, h0, hwoken 1 none (some 9) hm h1 0 h0, h2, h3, hone⟩

end Stackweave.Sync.Future
