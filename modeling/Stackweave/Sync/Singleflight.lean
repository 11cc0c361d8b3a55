import Mathlib.Data.List.Basic
import Stackweave.Transition
import Stackweave.Wakeup

/-!
# `singleflight.Group` (`sync.py`)

Any number of calls of `do` and `forget` on any keys, by fibers and by foreign threads. A
call of `do` is named by a number; the `Future` that it makes, if it executes its `fn`, has
the same name. What is done under the `_mu` of the group or of a future is one step. A
park returns when the fiber was woken, and may also return at any time.
-/

namespace Stackweave.Sync.Singleflight

open Transition Wakeup Function

variable {K V E : Type}

/-- `outcome` is `_result` or `_exc`, once `_done` is set. -/
structure Future (V E : Type) where
  outcome : Option (Except E V)
  waiters : List ℕ

inductive Err
  | firstCall
  | alreadyResolved

/-- What a call of `do` does next. -/
inductive Pc (K V E : Type)
  | idle
  | entering (key : K)
  | executing (key : K)
  /-- `fn` has returned or raised; the entry is not yet looked at -/
  | ended (key : K) (outcome : Except E V)
  /-- before `set_result` or `set_exception` -/
  | resolving (outcome : Except E V)
  | waking (gs : List ℕ) (outcome : Except E V)
  /-- at the call of `fut.result()` -/
  | awaiting (fut : ℕ)
  /-- in the `_waiters` of the future, before its park -/
  | registered (fut : ℕ)
  | parked (fut : ℕ)
  | rechecking (fut : ℕ)
  /-- a foreign thread in `fut.result()` -/
  | polling (fut : ℕ)
  | returned (value : V) (shared : Bool)
  | raised (exc : E)
  | failed (error : Err)

/-- `start` and `leave`: a call starts its `fn`, and looks for its entry after that. -/
inductive Event (K : Type)
  | start (key : K) (n : ℕ)
  | leave (n : ℕ)
  | forget (key : K)

/-- History: `log`, in the order of the sections; `joined`, the future whose entry a call
found; and `came`, what the `fn` of a call came to. -/
structure State (K V E : Type) where
  calls : K → Option ℕ
  futs : ℕ → Future V E
  pc : ℕ → Pc K V E
  woken : ℕ → Bool
  log : List (Event K)
  joined : ℕ → Option ℕ
  came : ℕ → Option (Except E V)

def init (K V E : Type) : State K V E :=
  { calls := fun _ => none, futs := fun _ => ⟨none, []⟩, pc := fun _ => .idle
    woken := fun _ => false, log := [], joined := fun _ => none, came := fun _ => none }

inductive Action (K V E : Type)
  | call (n : ℕ) (key : K)
  | caller (n : ℕ)
  | finish (n : ℕ) (outcome : Except E V)
  | resume (n : ℕ)
  | spurious (n : ℕ)
  | forget (key : K)

def State.goto (s : State K V E) (n : ℕ) (q : Pc K V E) : State K V E :=
  { s with pc := Function.update s.pc n q }

/-- How the call that executed `fn` ends. -/
def leave : Except E V → Pc K V E
  | .ok v => .returned v false
  | .error e => .raised e

/-- How a call that joined ends. -/
def share : Except E V → Pc K V E
  | .ok v => .returned v true
  | .error e => .raised e

/-- The first guarded section of `do`. -/
def enter [DecidableEq K] (foreign : Bool) (s : State K V E) (n : ℕ) (key : K) : State K V E :=
  match s.calls key with
  | some f => { s.goto n (.awaiting f) with joined := Function.update s.joined n (some f) }
  | none =>
    if foreign then s.goto n (.failed .firstCall)
    else
      { s.goto n (.executing key) with
        calls := Function.update s.calls key (some n)
        futs := Function.update s.futs n ⟨none, []⟩
        log := s.log ++ [.start key n] }

/-- `if self._calls.get(key) is fut: del self._calls[key]` -/
def drop [DecidableEq K] (s : State K V E) (n : ℕ) (key : K) (o : Except E V) : State K V E :=
  { s.goto n (.resolving o) with
    calls := if s.calls key = some n then Function.update s.calls key none else s.calls
    log := s.log ++ [.leave n] }

/-- `Future._resolve` -/
def resolve (s : State K V E) (n : ℕ) (o : Except E V) : State K V E :=
  match (s.futs n).outcome with
  | some _ => s.goto n (.failed .alreadyResolved)
  | none =>
    { s.goto n (.waking (s.futs n).waiters o) with
      futs := Function.update s.futs n ⟨some o, []⟩ }

/-- `Future.result`, up to the park. -/
def result (foreign : Bool) (s : State K V E) (n f : ℕ) : State K V E :=
  match (s.futs f).outcome with
  | some o => s.goto n (share o)
  | none =>
    if foreign then s.goto n (.polling f)
    else
      { s.goto n (.registered f) with
        futs := Function.update s.futs f { s.futs f with waiters := (s.futs f).waiters ++ [n] } }

/-- The check after a park, and of a foreign thread; `q` is where the loop goes on. -/
def recheck (s : State K V E) (n f : ℕ) (q : Pc K V E) : State K V E :=
  match (s.futs f).outcome with
  | some o => s.goto n (share o)
  | none => s.goto n q

def callerStep [DecidableEq K] (foreign : ℕ → Bool) (s : State K V E) (n : ℕ) :
    Option (State K V E) :=
  match s.pc n with
  | .entering key => some (enter (foreign n) s n key)
  | .ended key o => some (drop s n key o)
  | .resolving o => some (resolve s n o)
  | .waking [] o => some (s.goto n (leave o))
  | .waking (g :: gs) o =>
    some { s.goto n (.waking gs o) with woken := Function.update s.woken g true }
  | .awaiting f => some (result (foreign n) s n f)
  | .registered f => some (s.goto n (.parked f))
  | .rechecking f => some (recheck s n f (.registered f))
  | .polling f => some (recheck s n f (.polling f))
  | _ => none

/-- `foreign` says which calls are made by foreign threads. -/
@[grind =]
def step [DecidableEq K] (foreign : ℕ → Bool) (s : State K V E) :
    Action K V E → Option (State K V E)
  | .call n key =>
    match s.pc n with
    | .idle => some (s.goto n (.entering key))
    | _ => none
  | .caller n => callerStep foreign s n
  | .finish n o =>
    match s.pc n with
    | .executing key =>
      some { s.goto n (.ended key o) with came := Function.update s.came n (some o) }
    | _ => none
  | .resume n =>
    match s.pc n with
    | .parked f =>
      if s.woken n then
        some { s.goto n (.rechecking f) with woken := Function.update s.woken n false }
      else none
    | _ => none
  | .spurious n =>
    match s.pc n with
    | .parked f => some (s.goto n (.rechecking f))
    | _ => none
  | .forget key =>
    some { s with calls := Function.update s.calls key none, log := s.log ++ [.forget key] }

def system (K V E : Type) [DecidableEq K] (foreign : ℕ → Bool) :
    System (State K V E) (Action K V E) where
  init s := s = init K V E
  step := step foreign

/-! ## What a step can do -/

/-- The future that a call has found and not yet got the outcome of. -/
def Pc.joins : Pc K V E → Option ℕ
  | .awaiting f | .registered f | .parked f | .rechecking f | .polling f => some f
  | _ => none

/-- The future in whose `_waiters` the call has put itself. -/
def Pc.queued : Pc K V E → Option ℕ
  | .registered f | .parked f | .rechecking f => some f
  | _ => none

/-- The future whose resolution has to wake the call. -/
def Pc.waits : Pc K V E → Option ℕ
  | .registered f | .parked f => some f
  | _ => none

def Pc.wakes : Pc K V E → List ℕ
  | .waking gs _ => gs
  | _ => []

/-- The call executes `fn` for the key, or has still to look for its entry. -/
def Pc.holds (key : K) : Pc K V E → Prop
  | .executing k | .ended k _ => k = key
  | _ => False

/-- The steps of the group, with what the code has checked in each. -/
inductive Move [DecidableEq K] (s : State K V E) : State K V E → Prop
  | call {n : ℕ} {key : K} (hn : s.pc n = .idle) : Move s (s.goto n (.entering key))
  | join {n f : ℕ} {key : K} (hn : s.pc n = .entering key) (hk : s.calls key = some f) :
    Move s { s.goto n (.awaiting f) with joined := Function.update s.joined n (some f) }
  | reject {n : ℕ} {key : K} (hn : s.pc n = .entering key) : Move s (s.goto n (.failed .firstCall))
  | start {n : ℕ} {key : K} (hn : s.pc n = .entering key) (hk : s.calls key = none) :
    Move s { s.goto n (.executing key) with
      calls := Function.update s.calls key (some n)
      futs := Function.update s.futs n ⟨none, []⟩
      log := s.log ++ [.start key n] }
  | finish {n : ℕ} {key : K} {o : Except E V} (hn : s.pc n = .executing key) :
    Move s { s.goto n (.ended key o) with came := Function.update s.came n (some o) }
  | drop {n : ℕ} {key : K} {o : Except E V} (hn : s.pc n = .ended key o) : Move s (drop s n key o)
  | resolve {n : ℕ} {o : Except E V} (hn : s.pc n = .resolving o) (hf : (s.futs n).outcome = none) :
    Move s { s.goto n (.waking (s.futs n).waiters o) with
      futs := Function.update s.futs n ⟨some o, []⟩ }
  | resolved {n : ℕ} {o o' : Except E V} (hn : s.pc n = .resolving o)
      (hf : (s.futs n).outcome = some o') : Move s (s.goto n (.failed .alreadyResolved))
  | leave {n : ℕ} {o : Except E V} (hn : s.pc n = .waking [] o) : Move s (s.goto n (leave o))
  | wake {n g : ℕ} {gs : List ℕ} {o : Except E V} (hn : s.pc n = .waking (g :: gs) o) :
    Move s { s.goto n (.waking gs o) with woken := Function.update s.woken g true }
  | share {n f : ℕ} {o : Except E V} (hn : (s.pc n).joins = some f)
      (hf : (s.futs f).outcome = some o) : Move s (s.goto n (share o))
  | register {n f : ℕ} (hn : s.pc n = .awaiting f) (hf : (s.futs f).outcome = none) :
    Move s { s.goto n (.registered f) with
      futs := Function.update s.futs f { s.futs f with waiters := (s.futs f).waiters ++ [n] } }
  | poll {n f : ℕ} (hn : (s.pc n).joins = some f) : Move s (s.goto n (.polling f))
  | park {n f : ℕ} (hn : s.pc n = .registered f) : Move s (s.goto n (.parked f))
  | resume {n f : ℕ} {b : Bool} (hn : s.pc n = .parked f) :
    Move s { s.goto n (.rechecking f) with woken := Function.update s.woken n b }
  | again {n f : ℕ} (hn : s.pc n = .rechecking f) (hf : (s.futs f).outcome = none) :
    Move s (s.goto n (.registered f))
  | forget {key : K} :
    Move s { s with calls := Function.update s.calls key none, log := s.log ++ [.forget key] }

section Move

variable [DecidableEq K] {s t : State K V E} {n : ℕ}

theorem callerStep_move {foreign : ℕ → Bool} (hs : callerStep foreign s n = some t) : Move s t := by
  unfold callerStep at hs
  split at hs
  case h_1 key hn =>
    cases hs
    unfold enter
    split
    case h_1 hk => exact .join hn hk
    case h_2 hk =>
      split
      case isTrue => exact .reject hn
      case isFalse => exact .start hn hk
  case h_2 hn =>
    cases hs
    exact .drop hn
  case h_3 hn =>
    cases hs
    unfold resolve
    split
    case h_1 hf => exact .resolved hn hf
    case h_2 hf => exact .resolve hn hf
  case h_4 hn =>
    cases hs
    exact .leave hn
  case h_5 hn =>
    cases hs
    exact .wake hn
  case h_6 hn =>
    cases hs
    unfold result
    split
    case h_1 hf => exact .share (by rw [hn]; rfl) hf
    case h_2 hf =>
      split
      case isTrue => exact .poll (by rw [hn]; rfl)
      case isFalse => exact .register hn hf
  case h_7 hn =>
    cases hs
    exact .park hn
  case h_8 hn =>
    cases hs
    unfold recheck
    split
    case h_1 hf => exact .share (by rw [hn]; rfl) hf
    case h_2 hf => exact .again hn hf
  case h_9 hn =>
    cases hs
    unfold recheck
    split
    case h_1 hf => exact .share (by rw [hn]; rfl) hf
    case h_2 => exact .poll (by rw [hn]; rfl)
  case h_10 => cases hs

theorem step_move {foreign : ℕ → Bool} {a : Action K V E} (hs : step foreign s a = some t) :
    Move s t := by
  cases a with
  | call n key =>
    dsimp only [step] at hs
    split at hs
    case h_1 hn =>
      cases hs
      exact .call hn
    case h_2 => cases hs
  | caller n => exact callerStep_move hs
  | finish n o =>
    dsimp only [step] at hs
    split at hs
    case h_1 hn =>
      cases hs
      exact .finish hn
    case h_2 => cases hs
  | resume n =>
    dsimp only [step] at hs
    split at hs
    case h_1 hn =>
      obtain ⟨-, hs⟩ := Option.ite_none_right_eq_some.mp hs
      cases hs
      exact .resume hn
    case h_2 => cases hs
  | spurious n =>
    dsimp only [step] at hs
    split at hs
    case h_1 f hn =>
      cases hs
      have hm : Move s { s.goto n (.rechecking f) with woken := update s.woken n (s.woken n) } :=
        .resume hn
      rw [update_eq_self] at hm
      exact hm
    case h_2 => cases hs
  | forget key =>
    cases hs
    exact .forget

end Move

/-! ## The role of a call -/

/-- What the place of a call says about the future it found, its own future, and its `fn`. -/
@[grind =]
def Pc.Role (s : State K V E) (n : ℕ) : Pc K V E → Prop
  | .idle | .entering _ | .executing _ | .failed .firstCall =>
    s.joined n = none ∧ (s.futs n).outcome = none ∧ s.came n = none
  | .ended _ o | .resolving o =>
    s.joined n = none ∧ (s.futs n).outcome = none ∧ s.came n = some o
  | .waking _ o => s.joined n = none ∧ (s.futs n).outcome = some o ∧ s.came n = some o
  | .awaiting f | .registered f | .parked f | .rechecking f | .polling f =>
    s.joined n = some f ∧ (s.futs n).outcome = none ∧ s.came n = none
  | .returned v false =>
    s.joined n = none ∧ (s.futs n).outcome = some (.ok v) ∧ s.came n = some (.ok v)
  | .returned v true =>
    (∃ f, s.joined n = some f ∧ (s.futs f).outcome = some (.ok v)) ∧
      (s.futs n).outcome = none ∧ s.came n = none
  | .raised e =>
    (s.joined n = none ∧ (s.futs n).outcome = some (.error e) ∧ s.came n = some (.error e)) ∨
      ((∃ f, s.joined n = some f ∧ (s.futs f).outcome = some (.error e)) ∧
        (s.futs n).outcome = none ∧ s.came n = none)
  | .failed .alreadyResolved => False

def Roles (s : State K V E) : Prop := ∀ n, (s.pc n).Role s n

section Roles

variable {s t : State K V E} {n : ℕ} {q : Pc K V E}

theorem Pc.Role.mono (h : q.Role s n) (hjoined : t.joined n = s.joined n)
    (houtcome : (t.futs n).outcome = (s.futs n).outcome) (hcame : t.came n = s.came n)
    (hmono : ∀ f o, (s.futs f).outcome = some o → (t.futs f).outcome = some o) : q.Role t n := by
  have hshared : ∀ o, (∃ f, s.joined n = some f ∧ (s.futs f).outcome = some o) →
      ∃ f, t.joined n = some f ∧ (t.futs f).outcome = some o := by
    rintro o ⟨f, hf, ho⟩
    exact ⟨f, hjoined.trans hf, hmono f o ho⟩
  cases q with
  | idle | entering | executing | ended | resolving | waking | awaiting | registered | parked
  | rechecking | polling =>
    dsimp only [Pc.Role] at h ⊢
    rw [hjoined, houtcome, hcame]
    exact h
  | returned v shared =>
    cases shared with
    | false =>
      dsimp only [Pc.Role] at h ⊢
      rw [hjoined, houtcome, hcame]
      exact h
    | true =>
      obtain ⟨h1, h2, h3⟩ := h
      exact ⟨hshared _ h1, houtcome.trans h2, hcame.trans h3⟩
  | raised e =>
    rcases h with ⟨h1, h2, h3⟩ | ⟨h1, h2, h3⟩
    · exact .inl ⟨hjoined.trans h1, houtcome.trans h2, hcame.trans h3⟩
    · exact .inr ⟨hshared _ h1, houtcome.trans h2, hcame.trans h3⟩
  | failed err =>
    cases err with
    | firstCall =>
      dsimp only [Pc.Role] at h ⊢
      rw [hjoined, houtcome, hcame]
      exact h
    | alreadyResolved => exact h.elim

theorem Roles.move (h : Roles s) (hpc : t.pc = update s.pc n q)
    (hjoined : ∀ m, m ≠ n → t.joined m = s.joined m)
    (houtcome : ∀ m, m ≠ n → (t.futs m).outcome = (s.futs m).outcome)
    (hcame : ∀ m, m ≠ n → t.came m = s.came m)
    (hmono : ∀ f o, (s.futs f).outcome = some o → (t.futs f).outcome = some o)
    (hq : q.Role t n) : Roles t := by
  intro m
  rw [hpc]
  by_cases hmn : m = n
  · rw [hmn, update_self]
    exact hq
  · rw [update_of_ne hmn]
    exact (h m).mono (hjoined m hmn) (houtcome m hmn) (hcame m hmn) hmono

theorem Roles.goto (h : Roles s) (hq : q.Role s n) : Roles (s.goto n q) :=
  h.move rfl (fun _ _ => rfl) (fun _ _ => rfl) (fun _ _ => rfl) (fun _ _ => id)
    (hq.mono rfl rfl rfl fun _ _ => id)

theorem Roles.joins (h : Roles s) {f : ℕ} (hn : (s.pc n).joins = some f) :
    s.joined n = some f ∧ (s.futs n).outcome = none ∧ s.came n = none := by
  have hr := h n
  cases hp : s.pc n with
  | awaiting g | registered g | parked g | rechecking g | polling g =>
    rw [hp] at hn hr
    cases hn
    exact hr
  | _ =>
    rw [hp] at hn
    cases hn

theorem role_share {f : ℕ} {o : Except E V} (hj : s.joined n = some f)
    (ho : (s.futs n).outcome = none) (hc : s.came n = none) (hf : (s.futs f).outcome = some o) :
    (share o : Pc K V E).Role s n := by
  cases o with
  | ok v => exact ⟨⟨f, hj, hf⟩, ho, hc⟩
  | error e => exact .inr ⟨⟨f, hj, hf⟩, ho, hc⟩

theorem role_leave {o : Except E V} (hj : s.joined n = none) (ho : (s.futs n).outcome = some o)
    (hc : s.came n = some o) : (leave o : Pc K V E).Role s n := by
  cases o with
  | ok v => exact ⟨hj, ho, hc⟩
  | error e => exact .inl ⟨hj, ho, hc⟩

end Roles

theorem Roles.step [DecidableEq K] {s t : State K V E} (h : Roles s) (hm : Move s t) : Roles t := by
  cases hm with
  | @call n key hn =>
    have hr := h n
    rw [hn] at hr
    exact h.goto hr
  | @reject n key hn =>
    have hr := h n
    rw [hn] at hr
    exact h.goto hr
  | @join n f key hn hk =>
    have hr := h n
    rw [hn] at hr
    refine h.move rfl (fun m hm => update_of_ne hm ..) (fun _ _ => rfl) (fun _ _ => rfl)
      (fun _ _ => id) ?_
    exact ⟨update_self .., hr.2.1, hr.2.2⟩
  | @start n key hn hk =>
    have hr := h n
    rw [hn] at hr
    have hself : update s.futs n ⟨none, []⟩ n = ⟨none, []⟩ := update_self ..
    have hother : ∀ m, m ≠ n → update s.futs n ⟨none, []⟩ m = s.futs m :=
      fun m hm => update_of_ne hm ..
    refine h.move rfl (fun _ _ => rfl) (fun m hm => congrArg Future.outcome (hother m hm))
      (fun _ _ => rfl) (fun f o ho => ?_) ?_
    · have hfn : f ≠ n := by
        rintro rfl
        rw [hr.2.1] at ho
        cases ho
      exact (congrArg Future.outcome (hother f hfn)).trans ho
    · exact ⟨hr.1, congrArg Future.outcome hself, hr.2.2⟩
  | @finish n key o hn =>
    have hr := h n
    rw [hn] at hr
    refine h.move rfl (fun _ _ => rfl) (fun _ _ => rfl) (fun m hm => update_of_ne hm ..)
      (fun _ _ => id) ?_
    exact ⟨hr.1, hr.2.1, update_self ..⟩
  | @drop n key o hn =>
    have hr := h n
    rw [hn] at hr
    exact h.move rfl (fun _ _ => rfl) (fun _ _ => rfl) (fun _ _ => rfl) (fun _ _ => id) hr
  | @resolve n o hn hf =>
    have hr := h n
    rw [hn] at hr
    have hself : update s.futs n ⟨some o, []⟩ n = ⟨some o, []⟩ := update_self ..
    have hother : ∀ m, m ≠ n → update s.futs n ⟨some o, []⟩ m = s.futs m :=
      fun m hm => update_of_ne hm ..
    refine h.move rfl (fun _ _ => rfl) (fun m hm => congrArg Future.outcome (hother m hm))
      (fun _ _ => rfl) (fun f o' ho => ?_) ?_
    · have hfn : f ≠ n := by
        rintro rfl
        rw [hf] at ho
        cases ho
      exact (congrArg Future.outcome (hother f hfn)).trans ho
    · exact ⟨hr.1, congrArg Future.outcome hself, hr.2.2⟩
  | @resolved n o o' hn hf =>
    have hr := h n
    rw [hn] at hr
    rw [hr.2.1] at hf
    cases hf
  | @leave n o hn =>
    have hr := h n
    rw [hn] at hr
    exact h.goto (role_leave hr.1 hr.2.1 hr.2.2)
  | @wake n g gs o hn =>
    have hr := h n
    rw [hn] at hr
    exact h.move rfl (fun _ _ => rfl) (fun _ _ => rfl) (fun _ _ => rfl) (fun _ _ => id) hr
  | share hn hf =>
    obtain ⟨hj, ho, hc⟩ := h.joins hn
    exact h.goto (role_share hj ho hc hf)
  | @register n f hn hf =>
    have hr := h n
    rw [hn] at hr
    have hsame : ∀ m, (update s.futs f
        { s.futs f with waiters := (s.futs f).waiters ++ [n] } m).outcome = (s.futs m).outcome := by
      intro m
      by_cases hm : m = f
      · rw [hm, update_self]
      · rw [update_of_ne hm]
    refine h.move rfl (fun _ _ => rfl) (fun m _ => hsame m) (fun _ _ => rfl)
      (fun g o ho => (hsame g).trans ho) ?_
    exact ⟨hr.1, (hsame n).trans hr.2.1, hr.2.2⟩
  | poll hn => exact h.goto (h.joins hn)
  | @park n f hn =>
    have hr := h n
    rw [hn] at hr
    exact h.goto hr
  | @resume n f b hn =>
    have hr := h n
    rw [hn] at hr
    exact h.move rfl (fun _ _ => rfl) (fun _ _ => rfl) (fun _ _ => rfl) (fun _ _ => id) hr
  | @again n f hn hf =>
    have hr := h n
    rw [hn] at hr
    exact h.goto hr
  | forget => exact fun n => (h n).mono rfl rfl rfl fun _ _ => id

/-! ## The entries -/

/-- The call has found no entry. -/
def Pc.launched : Pc K V E → Bool
  | .executing _ | .ended _ _ | .resolving _ | .waking _ _ | .returned _ _ | .raised _
  | .failed .alreadyResolved => true
  | _ => false

structure Entries (s : State K V E) : Prop where
  held : ∀ key f, s.calls key = some f → (s.pc f).holds key
  launched : ∀ n f, s.joined n = some f → (s.pc f).launched = true

section Entries

variable {s t : State K V E} {n : ℕ} {q : Pc K V E}

theorem Pc.launched_of_holds {key : K} (h : q.holds key) : q.launched = true := by
  cases q with
  | executing | ended => rfl
  | _ => exact h.elim

theorem share_launched (o : Except E V) : (share o : Pc K V E).launched = true := by
  cases o with
  | ok v => rfl
  | error e => rfl

theorem leave_launched (o : Except E V) : (leave o : Pc K V E).launched = true := by
  cases o with
  | ok v => rfl
  | error e => rfl

/-- A call moves; no entry is new but its own. -/
theorem Entries.move (h : Entries s) (hpc : t.pc = update s.pc n q)
    (hcalls : ∀ key f, t.calls key = some f → f ≠ n → s.calls key = some f)
    (hown : ∀ key, t.calls key = some n → q.holds key)
    (hjoined : ∀ m f, t.joined m = some f → s.joined m = some f ∨ ∃ key, s.calls key = some f)
    (hq : (s.pc n).launched = true → q.launched = true) : Entries t := by
  refine ⟨fun key f hf => ?_, fun m f hf => ?_⟩
  · rw [hpc]
    by_cases hfn : f = n
    · rw [hfn, update_self]
      exact hown key (hfn ▸ hf)
    · rw [update_of_ne hfn]
      exact h.held key f (hcalls key f hf hfn)
  · have hold : (s.pc f).launched = true := by
      rcases hjoined m f hf with hj | ⟨key, hk⟩
      · exact h.launched m f hj
      · exact Pc.launched_of_holds (h.held key f hk)
    rw [hpc]
    by_cases hfn : f = n
    · rw [hfn, update_self]
      exact hq (hfn ▸ hold)
    · rw [update_of_ne hfn]
      exact hold

theorem Entries.goto (h : Entries s) (hown : ∀ key, ¬ (s.pc n).holds key)
    (hq : (s.pc n).launched = true → q.launched = true) : Entries (s.goto n q) :=
  h.move rfl (fun _ _ hf _ => hf) (fun key hf => absurd (h.held key n hf) (hown key))
    (fun _ _ hf => .inl hf) hq

theorem Pc.not_holds_of_joins {f : ℕ} (h : q.joins = some f) (key : K) : ¬ q.holds key := by
  cases q with
  | awaiting | registered | parked | rechecking | polling => exact id
  | _ => cases h

theorem Pc.not_launched_of_joins {f : ℕ} (h : q.joins = some f) : q.launched = false := by
  cases q with
  | awaiting | registered | parked | rechecking | polling => rfl
  | _ => cases h

theorem Entries.step [DecidableEq K] (h : Entries s) (hm : Move s t) : Entries t := by
  cases hm with
  | call hn | reject hn =>
    refine h.goto (fun key => by rw [hn]; exact id) fun hl => ?_
    rw [hn] at hl
    cases hl
  | @join n f key hn hk =>
    refine h.move rfl (fun _ _ hf _ => hf) (fun key' hf => ?_) (fun m g hg => ?_) fun hl => ?_
    · have hheld := h.held key' n hf
      rw [hn] at hheld
      exact hheld.elim
    · dsimp only at hg
      by_cases hm : m = n
      · rw [hm, update_self] at hg
        cases hg
        exact .inr ⟨key, hk⟩
      · rw [update_of_ne hm] at hg
        exact .inl hg
    · rw [hn] at hl
      cases hl
  | @start n key hn hk =>
    refine h.move rfl (fun key' f hf hfn => ?_) (fun key' hf => ?_) (fun _ _ hf => .inl hf) fun _ => rfl
    · dsimp only at hf
      by_cases hkey : key' = key
      · rw [hkey, update_self] at hf
        cases hf
        exact absurd rfl hfn
      · rw [update_of_ne hkey] at hf
        exact hf
    · dsimp only at hf
      by_cases hkey : key' = key
      · exact hkey.symm
      · rw [update_of_ne hkey] at hf
        have hheld := h.held key' n hf
        rw [hn] at hheld
        exact hheld.elim
  | @finish n key o hn =>
    refine h.move rfl (fun _ _ hf _ => hf) (fun key' hf => ?_) (fun _ _ hf => .inl hf) fun _ => rfl
    have hheld := h.held key' n hf
    rw [hn] at hheld
    exact hheld
  | @drop n key o hn =>
    refine h.move rfl (fun key' f hf hfn => ?_) (fun key' hf => ?_) (fun _ _ hf => .inl hf) fun _ => rfl
    · dsimp only [drop] at hf
      split at hf
      case isTrue =>
        by_cases hkey : key' = key
        · rw [hkey, update_self] at hf
          cases hf
        · rw [update_of_ne hkey] at hf
          exact hf
      case isFalse => exact hf
    · -- its entry can only be the one of this key, which is gone
      dsimp only [drop] at hf
      have hold : s.calls key' = some n → key = key' := fun hc => by
        have hheld := h.held key' n hc
        rw [hn] at hheld
        exact hheld
      split at hf
      case isTrue =>
        by_cases hkey : key' = key
        · rw [hkey, update_self] at hf
          cases hf
        · rw [update_of_ne hkey] at hf
          exact absurd (hold hf).symm hkey
      case isFalse hne => exact absurd (hold hf ▸ hf) hne
  | resolve hn | wake hn =>
    refine h.move rfl (fun _ _ hf _ => hf) (fun key' hf => ?_) (fun _ _ hf => .inl hf) fun _ => rfl
    have hheld := h.held key' _ hf
    rw [hn] at hheld
    exact hheld.elim
  | resolved hn hf =>
    exact h.goto (fun key => by rw [hn]; exact id) fun _ => rfl
  | leave hn => exact h.goto (fun key => by rw [hn]; exact id) fun _ => leave_launched _
  | share hn hf => exact h.goto (Pc.not_holds_of_joins hn) fun _ => share_launched _
  | register hn | resume hn =>
    refine h.move rfl (fun _ _ hf _ => hf) (fun key' hf => ?_) (fun _ _ hf => .inl hf) fun hl => ?_
    · have hheld := h.held key' _ hf
      rw [hn] at hheld
      exact hheld.elim
    · rw [hn] at hl
      cases hl
  | poll hn =>
    refine h.goto (Pc.not_holds_of_joins hn) fun hl => ?_
    rw [Pc.not_launched_of_joins hn] at hl
    cases hl
  | park hn | again hn =>
    refine h.goto (fun key => by rw [hn]; exact id) fun hl => ?_
    rw [hn] at hl
    cases hl
  | @forget key =>
    refine ⟨fun key' f hf => ?_, h.launched⟩
    dsimp only at hf
    by_cases hkey : key' = key
    · rw [hkey, update_self] at hf
      cases hf
    · rw [update_of_ne hkey] at hf
      exact h.held key' f hf

end Entries

/-! ## The waiters of the futures -/

/-- The wake-up of the call has been made, or the executor of its flight is going to make it. -/
def PendingWake (s : State K V E) : ℕ → Prop := Pending Pc.wakes s.pc s.woken

structure Queues (s : State K V E) : Prop where
  waiters : ∀ f n, n ∈ (s.futs f).waiters → s.joined n = some f
  wakes : ∀ f n, n ∈ (s.pc f).wakes → s.joined n = some f
  queued : ∀ n f, (s.pc n).queued = some f → (s.futs f).outcome = none → n ∈ (s.futs f).waiters
  pending : ∀ n f, (s.pc n).waits = some f → (s.futs f).outcome ≠ none → PendingWake s n

section Queues

variable {s t : State K V E} {n : ℕ} {q : Pc K V E}

/-- A call moves and leaves the futures as they are. -/
theorem Queues.move (h : Queues s) (hpc : t.pc = update s.pc n q) (hfuts : t.futs = s.futs)
    (hjoined : ∀ m f, s.joined m = some f → t.joined m = some f)
    (hwakes : ∀ m ∈ q.wakes, m ∈ (s.pc n).wakes)
    (hqueued : ∀ f, q.queued = some f → (s.pc n).queued = some f)
    (hwaits : ∀ f, q.waits = some f → (s.pc n).waits = some f ∨ (s.futs f).outcome = none)
    (hpending : ∀ m, (m = n → q.waits ≠ none) → PendingWake s m → PendingWake t m) : Queues t := by
  refine ⟨fun f m hm => ?_, fun f m hm => ?_, fun m f hm => ?_, fun m f hm ho => ?_⟩
  · rw [hfuts] at hm
    exact hjoined m f (h.waiters f m hm)
  · refine hjoined m f (h.wakes f m ?_)
    rw [hpc] at hm
    by_cases hfn : f = n
    · rw [hfn, update_self] at hm
      rw [hfn]
      exact hwakes m hm
    · rw [update_of_ne hfn] at hm
      exact hm
  · rw [hfuts]
    rw [hpc] at hm
    by_cases hmn : m = n
    · rw [hmn, update_self] at hm
      rw [hmn]
      exact h.queued n f (hqueued f hm)
    · rw [update_of_ne hmn] at hm
      exact h.queued m f hm
  · rw [hfuts] at ho
    rw [hpc] at hm
    by_cases hmn : m = n
    · rw [hmn, update_self] at hm
      rw [hmn]
      rcases hwaits f hm with hw | hnone
      · exact hpending n (fun _ => by rw [hm]; rintro ⟨⟩) (h.pending n f hw ho)
      · exact absurd hnone ho
    · rw [update_of_ne hmn] at hm
      exact hpending m (fun he => absurd he hmn) (h.pending m f hm ho)

/-- The same for a call that has nobody to wake. -/
theorem Queues.goto (h : Queues s) (hpc : t.pc = update s.pc n q) (hfuts : t.futs = s.futs)
    (hjoined : ∀ m f, s.joined m = some f → t.joined m = some f) (hwoken : t.woken = s.woken)
    (hold : (s.pc n).wakes = []) (hwakes : q.wakes = [])
    (hqueued : ∀ f, q.queued = some f → (s.pc n).queued = some f)
    (hwaits : ∀ f, q.waits = some f → (s.pc n).waits = some f ∨ (s.futs f).outcome = none) :
    Queues t := by
  refine h.move hpc hfuts hjoined (fun m hm => ?_) hqueued hwaits fun m _ hp => ?_
  · rw [hwakes] at hm
    cases hm
  · refine hp.goto hpc (fun g hg => ?_) fun hw => by rw [hwoken]; exact hw
    rw [hold] at hg
    cases hg

theorem leave_wakes (o : Except E V) :
    (leave o : Pc K V E).wakes = [] ∧ (leave o : Pc K V E).queued = none ∧
      (leave o : Pc K V E).waits = none := by
  cases o with
  | ok v => exact ⟨rfl, rfl, rfl⟩
  | error e => exact ⟨rfl, rfl, rfl⟩

theorem share_wakes (o : Except E V) :
    (share o : Pc K V E).wakes = [] ∧ (share o : Pc K V E).queued = none ∧
      (share o : Pc K V E).waits = none := by
  cases o with
  | ok v => exact ⟨rfl, rfl, rfl⟩
  | error e => exact ⟨rfl, rfl, rfl⟩

theorem Pc.joins_of_queued {f : ℕ} (h : q.queued = some f) : q.joins = some f := by
  cases q with
  | registered | parked | rechecking => exact h
  | _ => cases h

theorem Pc.queued_of_waits {f : ℕ} (h : q.waits = some f) : q.queued = some f := by
  cases q with
  | registered | parked => exact h
  | _ => cases h

theorem Pc.wakes_of_joins {f : ℕ} (h : q.joins = some f) : q.wakes = [] := by
  cases q with
  | waking gs o => cases h
  | _ => rfl

/-- A call makes a future of its own. -/
theorem Queues.start [DecidableEq K] (h : Queues s) (hr : Roles s) (he : Entries s) {key : K}
    (hn : s.pc n = .entering key) :
    Queues { s.goto n (.executing key) with
      calls := update s.calls key (some n)
      futs := update s.futs n ⟨none, []⟩
      log := s.log ++ [.start key n] } := by
  have hself : update s.futs n ⟨none, []⟩ n = ⟨none, []⟩ := update_self ..
  have hother : ∀ m, m ≠ n → update s.futs n ⟨none, []⟩ m = s.futs m :=
    fun m hm => update_of_ne hm ..
  have hpending : ∀ m, PendingWake s m → PendingWake { s.goto n (.executing key) with
      calls := update s.calls key (some n)
      futs := update s.futs n ⟨none, []⟩
      log := s.log ++ [.start key n] } m := fun m hp =>
    hp.goto rfl (by rw [hn]; exact fun _ hg => nomatch hg) id
  refine ⟨fun f m hm => ?_, fun f m hm => ?_, fun m f hm ho => ?_, fun m f hm ho => ?_⟩
  all_goals dsimp only [State.goto] at *
  · by_cases hfn : f = n
    · rw [hfn, hself] at hm
      cases hm
    · rw [hother f hfn] at hm
      exact h.waiters f m hm
  · by_cases hfn : f = n
    · rw [hfn, update_self] at hm
      cases hm
    · rw [update_of_ne hfn] at hm
      exact h.wakes f m hm
  · have hmn : m ≠ n := by
      rintro rfl
      rw [update_self] at hm
      cases hm
    rw [update_of_ne hmn] at hm
    by_cases hfn : f = n
    · -- nobody can have found the future of this call
      have hl := he.launched m f (hr.joins (Pc.joins_of_queued hm)).1
      rw [hfn, hn] at hl
      cases hl
    · rw [hother f hfn] at ho ⊢
      exact h.queued m f hm ho
  · have hmn : m ≠ n := by
      rintro rfl
      rw [update_self] at hm
      cases hm
    rw [update_of_ne hmn] at hm
    have hfn : f ≠ n := by
      rintro rfl
      rw [hself] at ho
      exact ho rfl
    rw [hother f hfn] at ho
    exact hpending m (h.pending m f hm ho)

/-- The future is resolved and its waiters are taken off the list, to be woken. -/
theorem Queues.resolve (h : Queues s) {o : Except E V} (hn : s.pc n = .resolving o)
    (hf : (s.futs n).outcome = none) :
    Queues { s.goto n (.waking (s.futs n).waiters o) with
      futs := update s.futs n ⟨some o, []⟩ } := by
  have hself : update s.futs n ⟨some o, []⟩ n = ⟨some o, []⟩ := update_self ..
  have hother : ∀ m, m ≠ n → update s.futs n ⟨some o, []⟩ m = s.futs m :=
    fun m hm => update_of_ne hm ..
  refine ⟨fun f m hm => ?_, fun f m hm => ?_, fun m f hm ho => ?_, fun m f hm ho => ?_⟩
  all_goals dsimp only [State.goto] at *
  · by_cases hfn : f = n
    · rw [hfn, hself] at hm
      cases hm
    · rw [hother f hfn] at hm
      exact h.waiters f m hm
  · by_cases hfn : f = n
    · rw [hfn, update_self] at hm
      rw [hfn]
      exact h.waiters n m hm
    · rw [update_of_ne hfn] at hm
      exact h.wakes f m hm
  · have hmn : m ≠ n := by
      rintro rfl
      rw [update_self] at hm
      cases hm
    rw [update_of_ne hmn] at hm
    have hfn : f ≠ n := by
      rintro rfl
      rw [hself] at ho
      cases ho
    rw [hother f hfn] at ho ⊢
    exact h.queued m f hm ho
  · have hmn : m ≠ n := by
      rintro rfl
      rw [update_self] at hm
      cases hm
    rw [update_of_ne hmn] at hm
    by_cases hfn : f = n
    · rw [hfn] at hm
      exact .of_mem rfl (h.queued m n (Pc.queued_of_waits hm) hf)
    · rw [hother f hfn] at ho
      exact (h.pending m f hm ho).goto rfl (by rw [hn]; exact fun _ hg => nomatch hg) id

/-- A call puts itself on the list of an unresolved future. -/
theorem Queues.register (h : Queues s) (hr : Roles s) {f : ℕ} (hn : s.pc n = .awaiting f)
    (hf : (s.futs f).outcome = none) :
    Queues { s.goto n (.registered f) with
      futs := update s.futs f { s.futs f with waiters := (s.futs f).waiters ++ [n] } } := by
  have hself : update s.futs f { s.futs f with waiters := (s.futs f).waiters ++ [n] } f =
      { s.futs f with waiters := (s.futs f).waiters ++ [n] } := update_self ..
  have hother : ∀ g, g ≠ f → update s.futs f
      { s.futs f with waiters := (s.futs f).waiters ++ [n] } g = s.futs g :=
    fun g hg => update_of_ne hg ..
  have hsame : ∀ g, (update s.futs f
      { s.futs f with waiters := (s.futs f).waiters ++ [n] } g).outcome = (s.futs g).outcome := by
    intro g
    by_cases hg : g = f
    · rw [hg, hself]
    · rw [hother g hg]
  have hstay : ∀ g m, m ∈ (s.futs g).waiters → m ∈ (update s.futs f
      { s.futs f with waiters := (s.futs f).waiters ++ [n] } g).waiters := by
    intro g m hm
    by_cases hg : g = f
    · rw [hg] at hm
      rw [hg, hself]
      exact List.mem_append_left _ hm
    · rw [hother g hg]
      exact hm
  refine ⟨fun g m hm => ?_, fun g m hm => ?_, fun m g hm ho => ?_, fun m g hm ho => ?_⟩
  all_goals dsimp only [State.goto] at *
  · by_cases hg : g = f
    · rw [hg, hself] at hm
      rw [hg]
      rcases List.mem_append.mp hm with hm | hm
      · exact h.waiters f m hm
      · rw [List.mem_singleton.mp hm]
        exact (hr.joins (by rw [hn]; rfl)).1
    · rw [hother g hg] at hm
      exact h.waiters g m hm
  · by_cases hgn : g = n
    · rw [hgn, update_self] at hm
      cases hm
    · rw [update_of_ne hgn] at hm
      exact h.wakes g m hm
  · rw [hsame] at ho
    by_cases hmn : m = n
    · rw [hmn, update_self] at hm
      cases hm
      rw [hmn, hself]
      exact List.mem_append_right _ (List.mem_singleton_self n)
    · rw [update_of_ne hmn] at hm
      exact hstay g m (h.queued m g hm ho)
  · rw [hsame] at ho
    by_cases hmn : m = n
    · rw [hmn, update_self] at hm
      cases hm
      exact absurd hf ho
    · rw [update_of_ne hmn] at hm
      exact (h.pending m g hm ho).goto rfl (by rw [hn]; exact fun _ hx => nomatch hx) id

theorem Queues.step [DecidableEq K] (h : Queues s) (hr : Roles s) (he : Entries s) (hm : Move s t) :
    Queues t := by
  cases hm with
  | call hn | reject hn | finish hn | drop hn | resolved hn =>
    exact h.goto rfl rfl (fun _ _ => id) rfl (by rw [hn]; rfl) rfl (by rintro _ ⟨⟩) (by rintro _ ⟨⟩)
  | @join n f key hn hk =>
    refine h.goto rfl rfl (fun m g hg => ?_) rfl (by rw [hn]; rfl) rfl (by rintro _ ⟨⟩) (by rintro _ ⟨⟩)
    have hnone := hr n
    rw [hn] at hnone
    have hmn : m ≠ n := by
      rintro rfl
      rw [hnone.1] at hg
      cases hg
    exact (update_of_ne hmn ..).trans hg
  | start hn hk => exact h.start hr he hn
  | resolve hn hf => exact h.resolve hn hf
  | @leave n o hn =>
    obtain ⟨hw, hq, hws⟩ := leave_wakes (K := K) o
    refine h.goto rfl rfl (fun _ _ => id) rfl (by rw [hn]; rfl) hw (fun f hf => ?_) fun f hf => ?_
    · rw [hq] at hf
      cases hf
    · rw [hws] at hf
      cases hf
  | @wake n g gs o hn =>
    refine h.move (q := .waking gs o) rfl rfl (fun _ _ => id) (fun m hm => ?_) (by rintro _ ⟨⟩) (by rintro _ ⟨⟩)
      fun m _ hp => ?_
    · rw [hn]
      exact List.mem_cons_of_mem g hm
    · refine hp.wake (q := .waking gs o) rfl (fun x hx => ?_) rfl
      rw [hn] at hx
      exact List.mem_cons.mp hx
  | @share n f o hn hf =>
    obtain ⟨hw, hq, hws⟩ := share_wakes (K := K) o
    refine h.goto rfl rfl (fun _ _ => id) rfl (Pc.wakes_of_joins hn) hw (fun g hg => ?_) fun g hg => ?_
    · rw [hq] at hg
      cases hg
    · rw [hws] at hg
      cases hg
  | register hn hf => exact h.register hr hn hf
  | poll hn => exact h.goto rfl rfl (fun _ _ => id) rfl (Pc.wakes_of_joins hn) rfl (by rintro _ ⟨⟩) (by rintro _ ⟨⟩)
  | park hn =>
    exact h.goto rfl rfl (fun _ _ => id) rfl (by rw [hn]; rfl) rfl
      (fun g hg => by rw [hn]; exact hg) fun g hg => .inl (by rw [hn]; exact hg)
  | @resume n f b hn =>
    refine h.move (q := .rechecking f) rfl rfl (fun _ _ => id) (by rintro _ ⟨⟩) (fun g hg => by rw [hn]; exact hg)
      (by intros; contradiction) fun m hmn hp => ?_
    have hne : m ≠ n := fun he => hmn he rfl
    refine hp.goto rfl (by rw [hn]; exact fun _ hg => nomatch hg) fun hw => ?_
    exact (update_of_ne hne ..).trans hw
  | again hn hf =>
    refine h.goto rfl rfl (fun _ _ => id) rfl (by rw [hn]; rfl) rfl
      (fun g hg => by rw [hn]; exact hg) fun g hg => .inr ?_
    cases hg
    exact hf
  | forget => exact ⟨h.waiters, h.wakes, h.queued, h.pending⟩

end Queues

/-! ## The log -/

/-- An entry stays until its call has left or its key was forgotten, so that one of these
stands between two starts for one key. -/
structure Logged (s : State K V E) : Prop where
  live : ∀ (i : ℕ) (key : K) (a : ℕ), s.log[i]? = some (Event.start key a) →
    (∀ m : ℕ, i < m → s.log[m]? ≠ some (Event.leave a) ∧ s.log[m]? ≠ some (Event.forget key)) →
    s.calls key = some a
  apart : ∀ (i j : ℕ) (key : K) (a b : ℕ), i < j → s.log[i]? = some (Event.start key a) →
    s.log[j]? = some (Event.start key b) →
    ∃ m : ℕ, i < m ∧ m < j ∧ (s.log[m]? = some (Event.leave a) ∨ s.log[m]? = some (Event.forget key))

section Logged

variable {s t : State K V E} {e : Event K}

theorem getElem?_concat_eq_some {α : Type} {l : List α} {x y : α} {i : ℕ} :
    (l ++ [x])[i]? = some y ↔ l[i]? = some y ∨ (i = l.length ∧ x = y) := by
  rcases Nat.lt_trichotomy i l.length with h | h | h
  · rw [List.getElem?_append_left h]
    exact (or_iff_left fun he => Nat.ne_of_lt h he.1).symm
  · rw [h, List.getElem?_concat_length, List.getElem?_eq_none (Nat.le_refl _)]
    simp
  · rw [List.getElem?_eq_none (by simpa using Nat.succ_le_of_lt h), List.getElem?_eq_none (Nat.le_of_lt h)]
    simp [Nat.ne_of_gt h]

theorem Logged.keep (h : Logged s) (hlog : t.log = s.log) (hcalls : t.calls = s.calls) :
    Logged t := by
  refine ⟨?_, ?_⟩
  · rw [hlog, hcalls]
    exact h.live
  · rw [hlog]
    exact h.apart

/-- A section that writes to the log. -/
theorem Logged.append (h : Logged s) (hlog : t.log = s.log ++ [e])
    (hold : ∀ key a, s.calls key = some a → e ≠ .leave a → e ≠ .forget key → t.calls key = some a)
    (hnew : ∀ key a, e = .start key a → s.calls key = none ∧ t.calls key = some a) : Logged t := by
  have hleft : ∀ {m : ℕ} {x : Event K}, s.log[m]? = some x → t.log[m]? = some x := fun hx => by
    rw [hlog]
    exact getElem?_concat_eq_some.mpr (.inl hx)
  have hlast : t.log[s.log.length]? = some e := by
    rw [hlog]
    exact getElem?_concat_eq_some.mpr (.inr ⟨rfl, rfl⟩)
  have hlt : ∀ {m : ℕ} {x : Event K}, s.log[m]? = some x → m < s.log.length := fun hx =>
    (List.getElem?_eq_some_iff.mp hx).1
  refine ⟨fun i key a hi hno => ?_, fun i j key a b hij hi hj => ?_⟩
  · rw [hlog] at hi
    rcases getElem?_concat_eq_some.mp hi with hi | ⟨-, he⟩
    · have hcalls := h.live i key a hi fun m hm =>
        ⟨fun hx => (hno m hm).1 (hleft hx), fun hx => (hno m hm).2 (hleft hx)⟩
      obtain ⟨h1, h2⟩ := hno _ (hlt hi)
      exact hold key a hcalls (fun he => h1 (he ▸ hlast)) fun he => h2 (he ▸ hlast)
    · exact (hnew key a he).2
  · rw [hlog] at hi hj
    have hi : s.log[i]? = some (Event.start key a) := by
      rcases getElem?_concat_eq_some.mp hi with hi | ⟨rfl, -⟩
      · exact hi
      · rcases getElem?_concat_eq_some.mp hj with hj | ⟨rfl, -⟩
        · exact absurd (hlt hj) (Nat.not_lt.mpr (Nat.le_of_lt hij))
        · exact absurd hij (Nat.lt_irrefl _)
    rcases getElem?_concat_eq_some.mp hj with hj | ⟨rfl, he⟩
    · obtain ⟨m, him, hmj, hx⟩ := h.apart i j key a b hij hi hj
      exact ⟨m, him, hmj, hx.imp hleft hleft⟩
    · -- the second start found no entry
      by_contra hnone
      have hcalls := h.live i key a hi fun m hm => by
        refine ⟨fun hx => hnone ⟨m, hm, hlt hx, .inl (hleft hx)⟩, fun hx => ?_⟩
        exact hnone ⟨m, hm, hlt hx, .inr (hleft hx)⟩
      rw [(hnew key b he).1] at hcalls
      cases hcalls

theorem Logged.step [DecidableEq K] (h : Logged s) (hm : Move s t) : Logged t := by
  cases hm with
  | call | join | reject | finish | resolve | resolved | leave | wake | share | register | poll
  | park | resume | again => exact h.keep rfl rfl
  | @start n key hn hk =>
    refine h.append rfl (fun key' a hc _ _ => ?_) fun key' a he => ?_
    · have hkey : key' ≠ key := by
        rintro rfl
        rw [hk] at hc
        cases hc
      exact (update_of_ne hkey ..).trans hc
    · cases he
      exact ⟨hk, update_self ..⟩
  | @drop n key o hn =>
    refine h.append rfl (fun key' a hc ha _ => ?_) (by rintro _ _ ⟨⟩)
    dsimp only [drop]
    split
    case isTrue hown =>
      have hkey : key' ≠ key := by
        rintro rfl
        rw [hown] at hc
        cases hc
        exact ha rfl
      rw [update_of_ne hkey]
      exact hc
    case isFalse => exact hc
  | @forget key =>
    refine h.append rfl (fun key' a hc _ hf => ?_) (by rintro _ _ ⟨⟩)
    have hkey : key' ≠ key := by
      rintro rfl
      exact hf rfl
    exact (update_of_ne hkey ..).trans hc

end Logged

/-! ## Whole runs -/

structure Inv (s : State K V E) : Prop where
  roles : Roles s
  entries : Entries s
  queues : Queues s
  logged : Logged s

theorem inv_init : Inv (init K V E) := by
  refine ⟨fun n => ⟨rfl, rfl, rfl⟩, ⟨?_, ?_⟩, ⟨?_, ?_, ?_, ?_⟩, ⟨?_, ?_⟩⟩
  · exact fun key f hf => nomatch hf
  · exact fun n f hf => nomatch hf
  · exact fun f n hn => nomatch hn
  · exact fun f n hn => nomatch hn
  · exact fun n f hn => nomatch hn
  · exact fun n f hn => nomatch hn
  · exact fun i key a hi => nomatch hi
  · exact fun i j key a b _ hi => nomatch hi

theorem reachable_inv [DecidableEq K] {foreign : ℕ → Bool} {s : State K V E}
    (h : Reachable (system K V E foreign) s) : Inv s := by
  refine h.invariant ?_ fun s a t _ hi hs => ?_
  · rintro s rfl
    exact inv_init
  · have hm := step_move hs
    exact ⟨hi.roles.step hm, hi.entries.step hm, hi.queues.step hi.roles hi.entries hm,
      hi.logged.step hm⟩

section Facts

variable {s : State K V E} {n f : ℕ} {o : Except E V}

theorem Roles.landed (h : Roles s) (ho : (s.futs f).outcome = some o) :
    s.joined f = none ∧ s.came f = some o ∧ ((∃ gs, s.pc f = .waking gs o) ∨ s.pc f = leave o) := by
  have hr := h f
  cases hp : s.pc f with
  | waking gs o' =>
    rw [hp] at hr
    obtain ⟨h1, h2, h3⟩ := hr
    rw [ho] at h2
    cases h2
    exact ⟨h1, h3, .inl ⟨gs, rfl⟩⟩
  | returned v shared =>
    rw [hp] at hr
    cases shared with
    | false =>
      obtain ⟨h1, h2, h3⟩ := hr
      rw [ho] at h2
      cases h2
      exact ⟨h1, h3, .inr rfl⟩
    | true =>
      obtain ⟨-, h2, -⟩ := hr
      rw [ho] at h2
      cases h2
  | raised e =>
    rw [hp] at hr
    rcases hr with ⟨h1, h2, h3⟩ | ⟨-, h2, -⟩
    · rw [ho] at h2
      cases h2
      exact ⟨h1, h3, .inr rfl⟩
    · rw [ho] at h2
      cases h2
  | failed err =>
    rw [hp] at hr
    cases err with
    | firstCall =>
      obtain ⟨-, h2, -⟩ := hr
      rw [ho] at h2
      cases h2
    | alreadyResolved => exact hr.elim
  | _ =>
    rw [hp] at hr
    obtain ⟨-, h2, -⟩ := hr
    rw [ho] at h2
    cases h2

theorem Roles.outcome_of_leave (h : Roles s) (hc : s.came f = some o) (hf : s.pc f = leave o) :
    (s.futs f).outcome = some o := by
  have hr := h f
  rw [hf] at hr
  cases o with
  | ok v => exact hr.2.1
  | error e =>
    rcases hr with ⟨-, ho, -⟩ | ⟨-, -, hnone⟩
    · exact ho
    · rw [hc] at hnone
      cases hnone

/-- A call that found an entry waits for the outcome of that flight, or has ended with it. -/
theorem Roles.joined_outcome (h : Roles s) (hn : s.joined n = some f) :
    (s.pc n).joins = some f ∨ ∃ o, s.came f = some o ∧ s.pc n = share o := by
  have hr := h n
  have hshare : ∀ o, (∃ g, s.joined n = some g ∧ (s.futs g).outcome = some o) → s.came f = some o := by
    rintro o ⟨g, hg, ho⟩
    rw [hn] at hg
    cases hg
    exact (h.landed ho).2.1
  cases hp : s.pc n with
  | awaiting g | registered g | parked g | rechecking g | polling g =>
    rw [hp] at hr
    obtain ⟨hj, -, -⟩ := hr
    rw [hn] at hj
    cases hj
    exact .inl rfl
  | returned v shared =>
    rw [hp] at hr
    cases shared with
    | false =>
      rw [hr.1] at hn
      cases hn
    | true => exact .inr ⟨.ok v, hshare _ hr.1, rfl⟩
  | raised e =>
    rw [hp] at hr
    rcases hr with ⟨h1, -, -⟩ | ⟨h1, -, -⟩
    · rw [h1] at hn
      cases hn
    · exact .inr ⟨.error e, hshare _ h1, rfl⟩
  | failed err =>
    rw [hp] at hr
    cases err with
    | firstCall =>
      rw [hr.1] at hn
      cases hn
    | alreadyResolved => exact hr.elim
  | _ =>
    rw [hp] at hr
    rw [hr.1] at hn
    cases hn

/-- The call that executed has returned: nobody finds its future any more, and the calls
that are still blocked on it were woken. -/
theorem Inv.finished (h : Inv s) (ho : (s.futs f).outcome = some o) (hf : s.pc f = leave o) :
    (∀ key, s.calls key ≠ some f) ∧ ∀ n, (s.pc n).waits = some f → s.woken n = true := by
  refine ⟨fun key hk => ?_, fun n hn => ?_⟩
  · have hheld := h.entries.held key f hk
    rw [hf] at hheld
    cases o with
    | ok v => exact hheld
    | error e => exact hheld
  · rcases h.queues.pending n f hn (by rw [ho]; rintro ⟨⟩) with hw | ⟨e, he⟩
    · exact hw
    · -- only the executor of its own flight wakes it
      have hjoined := h.queues.wakes e n he
      rw [(h.roles.joins (Pc.joins_of_queued (Pc.queued_of_waits hn))).1] at hjoined
      cases hjoined
      rw [hf, (leave_wakes o).1] at he
      cases he

end Facts

section Group

variable [DecidableEq K] {foreign : ℕ → Bool}

/-- The call whose step this is. -/
@[grind =]
def Action.caller? : Action K V E → Option ℕ
  | .call n _ | .caller n | .finish n _ | .resume n | .spurious n => some n
  | .forget _ => none

/-- A call that joined a resolved flight and was woken, if it waits, ends by its own steps. -/
theorem exists_run_share {s : State K V E} {n f : ℕ} {o : Except E V}
    (ho : (s.futs f).outcome = some o) (hn : (s.pc n).joins = some f)
    (hw : (s.pc n).waits = some f → s.woken n = true) :
    ∃ as t, (∀ a ∈ as, a.caller? = some n) ∧ (system K V E foreign).run s as = some t ∧
      t.pc n = share o := by
  have hself : ∀ q : Pc K V E, (s.goto n q).pc n = q := fun q => update_self ..
  have hrecheck : ∀ (u : State K V E) q, (u.futs f).outcome = some o → (recheck u n f q).pc n = share o := by
    intro u q hu
    unfold recheck
    rw [hu]
    exact update_self ..
  have hparked : ∀ u : State K V E, (u.futs f).outcome = some o → u.pc n = .parked f →
      u.woken n = true → ∃ t, (system K V E foreign).run u [.resume n, .caller n] = some t ∧
        t.pc n = share o := by
    intro u hu hp hwoken
    refine ⟨recheck { u.goto n (.rechecking f) with woken := update u.woken n false } n f
      (.registered f), ?_, hrecheck _ _ hu⟩
    simp [System.run, system, step, callerStep, hp, hwoken, State.goto]
  cases hp : s.pc n with
  | awaiting g =>
    rw [hp] at hn
    obtain rfl := Option.some.inj hn
    refine ⟨[.caller n], result (foreign n) s n g, by simp [Action.caller?], ?_, ?_⟩
    · simp [System.run, system, step, callerStep, hp]
    · unfold result
      rw [ho]
      exact hself _
  | rechecking g =>
    rw [hp] at hn
    obtain rfl := Option.some.inj hn
    refine ⟨[.caller n], recheck s n g (.registered g), by simp [Action.caller?], ?_, hrecheck _ _ ho⟩
    simp [System.run, system, step, callerStep, hp]
  | polling g =>
    rw [hp] at hn
    obtain rfl := Option.some.inj hn
    refine ⟨[.caller n], recheck s n g (.polling g), by simp [Action.caller?], ?_, hrecheck _ _ ho⟩
    simp [System.run, system, step, callerStep, hp]
  | parked g =>
    rw [hp] at hn hw
    obtain rfl := Option.some.inj hn
    obtain ⟨t, ht, hend⟩ := hparked s ho hp (hw rfl)
    exact ⟨[.resume n, .caller n], t, by simp [Action.caller?], ht, hend⟩
  | registered g =>
    rw [hp] at hn hw
    obtain rfl := Option.some.inj hn
    obtain ⟨t, ht, hend⟩ := hparked (s.goto n (.parked g)) ho (hself _) (hw rfl)
    refine ⟨.caller n :: [.resume n, .caller n], t, by simp [Action.caller?], ?_, hend⟩
    have hstep : (system K V E foreign).step s (.caller n) = some (s.goto n (.parked g)) := by
      simp [system, step, callerStep, hp]
    simp only [System.run, hstep, Option.bind_some]
    exact ht
  | _ =>
    rw [hp] at hn
    cases hn

/-- An entry goes only with `forget` or with its own call. -/
theorem step_removes {s t : State K V E} {a : Action K V E} (hs : step foreign s a = some t)
    {key : K} {f : ℕ} (hk : s.calls key = some f) (ht : t.calls key ≠ some f) :
    a = .forget key ∨ (a = .caller f ∧ ∃ o, s.pc f = .ended key o) := by
  have hsame : ∀ {u : State K V E}, some u = some t → u.calls = s.calls → False := by
    intro u he hu
    cases he
    exact ht (hu ▸ hk)
  cases a with
  | call n key' =>
    dsimp only [step] at hs
    split at hs
    case h_1 => exact (hsame hs rfl).elim
    case h_2 => cases hs
  | finish n o =>
    dsimp only [step] at hs
    split at hs
    case h_1 => exact (hsame hs rfl).elim
    case h_2 => cases hs
  | resume n =>
    dsimp only [step] at hs
    split at hs
    case h_1 => exact (hsame (Option.ite_none_right_eq_some.mp hs).2 rfl).elim
    case h_2 => cases hs
  | spurious n =>
    dsimp only [step] at hs
    split at hs
    case h_1 => exact (hsame hs rfl).elim
    case h_2 => cases hs
  | forget key' =>
    cases hs
    by_cases hkey : key = key'
    · exact .inl (by rw [hkey])
    · exact absurd ((update_of_ne hkey ..).trans hk) ht
  | caller n =>
    dsimp only [step] at hs
    unfold callerStep at hs
    split at hs
    case h_1 key' hn =>
      unfold enter at hs
      split at hs
      case h_1 => exact (hsame hs rfl).elim
      case h_2 hnone =>
        split at hs
        case isTrue => exact (hsame hs rfl).elim
        case isFalse =>
          cases hs
          have hkey : key ≠ key' := by
            rintro rfl
            rw [hnone] at hk
            cases hk
          exact absurd ((update_of_ne hkey ..).trans hk) ht
    case h_2 key' o hn =>
      cases hs
      dsimp only [drop] at ht
      split at ht
      case isTrue hown =>
        by_cases hkey : key = key'
        · rw [hkey, hown] at hk
          cases hk
          exact .inr ⟨rfl, o, by rw [hn, hkey]⟩
        · exact absurd ((update_of_ne hkey ..).trans hk) ht
      case isFalse => exact absurd hk ht
    case h_3 =>
      unfold resolve at hs
      split at hs
      all_goals exact (hsame hs rfl).elim
    case h_6 =>
      unfold result at hs
      repeat' split at hs
      all_goals exact (hsame hs rfl).elim
    case h_8 | h_9 =>
      unfold recheck at hs
      split at hs
      all_goals exact (hsame hs rfl).elim
    case h_4 | h_5 | h_7 => exact (hsame hs rfl).elim
    case h_10 => cases hs

/-- In every state of any number of calls: between two starts of `fn` for one key, the
first of these calls has looked for its entry, its `fn` being over, or `forget` was called;
a call that found an entry waits for that flight, or has ended as its `fn` did; a step
removes an entry only as `forget` of its key or as the call that made it, past its `fn`; and
when a call that executed `fn` is over, no key leads to its future, the calls blocked on it
were woken, and every call that joined it comes to its end by its own steps. -/
theorem flights_exact {s : State K V E} (h : Reachable (system K V E foreign) s) :
    (∀ (i j : ℕ) (key : K) (a b : ℕ), i < j → s.log[i]? = some (Event.start key a) →
      s.log[j]? = some (Event.start key b) → ∃ m : ℕ, i < m ∧ m < j ∧
        (s.log[m]? = some (Event.leave a) ∨ s.log[m]? = some (Event.forget key))) ∧
    (∀ n f, s.joined n = some f →
      (s.pc n).joins = some f ∨ ∃ o, s.came f = some o ∧ s.pc n = share o) ∧
    (∀ a t key f, step foreign s a = some t → s.calls key = some f → t.calls key ≠ some f →
      a = .forget key ∨ (a = .caller f ∧ ∃ o, s.pc f = .ended key o)) ∧
    (∀ f o, s.came f = some o → s.pc f = leave o →
      (∀ key, s.calls key ≠ some f) ∧
      ∀ n, s.joined n = some f → ((s.pc n).waits = some f → s.woken n = true) ∧
        ∃ as t, (∀ a ∈ as, a.caller? = some n) ∧ (system K V E foreign).run s as = some t ∧
          t.pc n = share o) := by
  have hi := reachable_inv h
  refine ⟨hi.logged.apart, fun n f => hi.roles.joined_outcome,
    fun a t key f hs hk ht => step_removes hs hk ht, fun f o hc hf => ?_⟩
  have ho := hi.roles.outcome_of_leave hc hf
  obtain ⟨hnone, hwoken⟩ := hi.finished ho hf
  refine ⟨hnone, fun n hn => ⟨hwoken n, ?_⟩⟩
  rcases hi.roles.joined_outcome hn with hj | ⟨o', ho', hend⟩
  · exact exists_run_share ho hj (hwoken n)
  · rw [hc] at ho'
    cases ho'
    exact ⟨[], s, by rintro _ ⟨⟩, rfl, hend⟩

end Group

/-- While call 0 executes, `forget` lets call 1 start a second flight, which call 2 joins;
call 0 ends and leaves the entry of call 1 alone, and call 1 ends with the value 8. -/
theorem flights_exact_forget :
    ∃ s : State ℕ ℕ ℕ, Reachable (system ℕ ℕ ℕ fun _ => false) s ∧
      s.log = [.start 3 0, .forget 3, .start 3 1, .leave 0, .leave 1] ∧ s.joined 2 = some 1 ∧
      s.pc 1 = .returned 8 false ∧ s.woken 2 = true ∧ ∀ key, s.calls key ≠ some 1 := by
  obtain ⟨s, hs, hlog, hj, hpc, hcame, hwaits⟩ : ∃ s, (system ℕ ℕ ℕ fun _ => false).run (init ℕ ℕ ℕ)
      [.call 0 3, .caller 0, .forget 3, .call 1 3, .caller 1, .call 2 3, .caller 2, .caller 2,
       .finish 0 (.ok 7), .caller 0, .caller 0, .caller 0, .finish 1 (.ok 8), .caller 1, .caller 1,
       .caller 1, .caller 1] = some s ∧
      s.log = [.start 3 0, .forget 3, .start 3 1, .leave 0, .leave 1] ∧ s.joined 2 = some 1 ∧
      s.pc 1 = .returned 8 false ∧ s.came 1 = some (.ok 8) ∧ (s.pc 2).waits = some 1 :=
    ⟨_, rfl, rfl, rfl, rfl, rfl, rfl⟩
  have hr := reachable_of_run _ _ rfl hs
  obtain ⟨-, -, -, hover⟩ := flights_exact hr
  obtain ⟨hnone, hjoined⟩ := hover 1 (.ok 8) hcame hpc
  exact ⟨s, hr, hlog, hj, hpc, (hjoined 2 hj).1 hwaits, hnone⟩

end Stackweave.Sync.Singleflight
