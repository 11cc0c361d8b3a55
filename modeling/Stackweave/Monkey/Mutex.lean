import Mathlib.Data.List.Pairwise
import Mathlib.Logic.Function.Basic
import Stackweave.Monkey.Parker
import Stackweave.Transition

/-!
# The hand-off mutex `CoFMutex` (`monkey/_base.py`)

Any number of `acquire` and `release` calls, from fibers and foreign threads.
Nothing in the code depends on who calls, so every call is an actor of its own:
the calls of one fiber are the interleavings in which they do not overlap. A
section between `_glock` and `_gunlock` is one step, as are the return of a
park and the wake that `release` makes outside the guard. A park may return at
any time, which covers timeouts, leftover wakes and spurious returns; the
monotonic clock is the choice between `park` and `expire`.
-/

namespace Stackweave.Monkey.Mutex

open Transition

/-- `rec = [parker, active, granted]`. `wake` is the parker's latched wake and
`arrival` the place of the append among all appends; no step reads `arrival`. -/
structure Waiter where
  arrival : ℕ
  active : Bool
  granted : Bool
  wake : Bool

/-- Where a call stands; each constructor of an unfinished call names what it
does next. -/
inductive Pc
  | fresh
  /-- found the mutex taken and builds its parker -/
  | contended (timed : Bool)
  /-- looks at the mutex a second time -/
  | built (timed : Bool)
  /-- reads `_granted(rec)` -/
  | loop (timed : Bool)
  /-- read `False`: parks, or for a timed call may find its deadline passed -/
  | refused (timed : Bool)
  | parked (timed : Bool)
  | expired
  /-- `p.release()` -/
  | releasing (result : Bool)
  | returned (result : Bool)
  /-- a `release` past its guarded section, about to wake the call it granted -/
  | waking (call : ℕ)
  | released
  /-- `RuntimeError("release unlocked lock")`, or the silent return in a forked child -/
  | raised

/-- `owners` holds the calls that obtained the mutex and were not released
since; `got` counts how often a call obtained it. Both are history. -/
structure State where
  locked : Bool
  waiters : List ℕ
  recs : ℕ → Waiter
  arrivals : ℕ
  pc : ℕ → Pc
  owners : List ℕ
  got : ℕ → ℕ

def init : State :=
  { locked := false, waiters := [], recs := fun _ => ⟨0, false, false, false⟩, arrivals := 0
    pc := fun _ => .fresh, owners := [], got := fun _ => 0 }

inductive Action
  | acquire (n : ℕ) (blocking timed : Bool)
  | build (n : ℕ)
  | register (n : ℕ)
  | granted (n : ℕ)
  | park (n : ℕ)
  | expire (n : ℕ)
  | unpark (n : ℕ)
  | spurious (n : ℕ)
  | giveUp (n : ℕ)
  | drop (n : ℕ)
  | release (n : ℕ)
  | wake (n : ℕ)

def State.goto (s : State) (n : ℕ) (p : Pc) : State :=
  { s with pc := fun m => if m = n then p else s.pc m }

def State.setRec (s : State) (n : ℕ) (w : Waiter) : State :=
  { s with recs := fun m => if m = n then w else s.recs m }

/-- The call becomes an owner. -/
def State.obtain (s : State) (n : ℕ) : State :=
  { s with owners := s.owners ++ [n], got := fun m => if m = n then s.got m + 1 else s.got m }

/-- `self._locked = True`, after which the call goes on at `p`. -/
def State.take (s : State) (n : ℕ) (p : Pc) : State :=
  ({ s with locked := true }.obtain n).goto n p

/-- The loop of `release`: pop until a record is active. -/
def popActive (recs : ℕ → Waiter) : List ℕ → Option (ℕ × List ℕ)
  | [] => none
  | n :: ns => if (recs n).active then some (n, ns) else popActive recs ns

/-- The guarded section of `release` by the call `n` on a taken mutex. It ends
the oldest ownership. -/
def State.release (s : State) (n : ℕ) : State :=
  let s' := { s with owners := s.owners.tail }
  match popActive s.recs s.waiters with
  | none => { s' with locked := false, waiters := [] }.goto n .released
  | some (m, ms) =>
    (({ s' with waiters := ms }.setRec m { s.recs m with granted := true }).obtain m).goto n
      (.waking m)

/-- The guarded section that appends the record. -/
def State.enlist (s : State) (n : ℕ) (timed : Bool) : State :=
  ({ s with waiters := s.waiters ++ [n], arrivals := s.arrivals + 1 }.setRec n
    ⟨s.arrivals, true, false, false⟩).goto n (.loop timed)

@[grind =]
def step (s : State) : Action → Option State
  | .acquire n blocking timed =>
    match s.pc n with
    | .fresh =>
      if !s.locked then some (s.take n (.returned true))
      else if !blocking then some (s.goto n (.returned false))
      else some (s.goto n (.contended timed))
    | _ => none
  | .build n =>
    match s.pc n with
    | .contended timed => some (s.goto n (.built timed))
    | _ => none
  | .register n =>
    match s.pc n with
    | .built timed =>
      if !s.locked then some (s.take n (.releasing true)) else some (s.enlist n timed)
    | _ => none
  | .granted n =>
    match s.pc n with
    | .loop timed =>
      if (s.recs n).granted then some (s.goto n (.releasing true))
      else some (s.goto n (.refused timed))
    | _ => none
  | .park n =>
    match s.pc n with
    | .refused timed => some (s.goto n (.parked timed))
    | _ => none
  | .expire n =>
    match s.pc n with
    | .refused true => some (s.goto n .expired)
    | _ => none
  | .unpark n =>
    match s.pc n with
    | .parked timed =>
      if (s.recs n).wake then
        some ((s.setRec n { s.recs n with wake := false }).goto n (.loop timed))
      else none
    | _ => none
  | .spurious n =>
    match s.pc n with
    | .parked timed => some (s.goto n (.loop timed))
    | _ => none
  | .giveUp n =>
    match s.pc n with
    | .expired =>
      if (s.recs n).granted then some (s.goto n (.releasing true))
      else some ((s.setRec n { s.recs n with active := false }).goto n (.releasing false))
    | _ => none
  | .drop n =>
    match s.pc n with
    | .releasing result => some (s.goto n (.returned result))
    | _ => none
  | .release n =>
    match s.pc n with
    | .fresh => if !s.locked then some (s.goto n .raised) else some (s.release n)
    | _ => none
  | .wake n =>
    match s.pc n with
    | .waking m => some ((s.setRec m { s.recs m with wake := true }).goto n .released)
    | _ => none

def system : System State Action where
  init s := s = init
  step := step

/-! ## What the mutex knows of one call -/

/-- The record, the place in the queue and the ownership count that a call at
`p` can have. -/
@[grind =]
def Book (p : Pc) (w : Waiter) (queued : Prop) (got : ℕ) : Prop :=
  match p with
  | .loop _ | .refused _ | .parked _ | .expired =>
    w.active = true ∧ (queued ↔ w.granted = false) ∧ got = w.granted.toNat
  | .releasing true | .returned true =>
    ¬queued ∧ (w.active = true → w.granted = true) ∧ got = 1
  | .releasing false | .returned false => w.active = false ∧ w.granted = false ∧ got = 0
  | _ => ¬queued ∧ w.active = false ∧ w.granted = false ∧ got = 0

/-- A queued record that a release would grant. -/
def Waiting (s : State) (n : ℕ) : Prop :=
  (s.recs n).active = true ∧ (s.recs n).granted = false

variable {p : Pc} {w : Waiter} {q : Prop} {k n : ℕ} {s t : State}

theorem Book.queued_of_waiting (h : Book p w q k)
    (ha : w.active = true) (hg : w.granted = false) : q := by
  unfold Book at h
  split at h
  case h_1 | h_2 | h_3 | h_4 => exact h.2.1.mpr hg
  case h_5 | h_6 => exact absurd (h.2.1 ha) (by simp [hg])
  case h_7 | h_8 => exact absurd ha (by simp [h.1])
  case h_9 => exact absurd ha (by simp [h.2.1])

/-- A queued call waits, or has given up. -/
theorem Book.of_queued (h : Book p w q k) (hq : q) :
    w.granted = false ∧ k = 0 := by
  unfold Book at h
  split at h
  case h_1 | h_2 | h_3 | h_4 => exact ⟨h.2.1.mp hq, by simp [h.2.2, h.2.1.mp hq]⟩
  case h_5 | h_6 => exact absurd hq h.1
  case h_7 | h_8 => exact h.2
  case h_9 => exact h.2.2

/-- A record that gave up may be dropped from the queue. -/
theorem Book.drop {r : Prop} (h : Book p w q k) (hq : q)
    (ha : w.active = false) : Book p w r k := by
  unfold Book at h ⊢
  split at h
  case h_1 | h_2 | h_3 | h_4 => exact absurd h.1 (by simp [ha])
  case h_5 | h_6 => exact absurd hq h.1
  case h_7 | h_8 => exact h
  case h_9 => exact absurd hq h.1

/-- The grant of a queued active record. -/
theorem Book.grant {r : Prop} (h : Book p w q k) (hq : q)
    (ha : w.active = true) (hr : ¬r) : Book p { w with granted := true } r (k + 1) := by
  have hk : k = 0 := (h.of_queued hq).2
  unfold Book at h ⊢
  split at h
  case h_1 | h_2 | h_3 | h_4 => simp [ha, hr, hk]
  case h_5 | h_6 => exact absurd hq h.1
  case h_7 | h_8 => exact absurd ha (by simp [h.1])
  case h_9 => exact absurd hq h.1

/-- Past a read of `granted` that gave `False`, and not yet woken. -/
@[grind =]
def Pc.asleep : Pc → Bool
  | .refused _ | .parked _ => true
  | _ => false

/-- The wake of the call's parker is latched, or a releaser is about to latch it. -/
def WakeDue (s : State) (n : ℕ) : Prop :=
  (s.recs n).wake = true ∨ ∃ m, s.pc m = .waking n

/-- The invariant behind the theorem about `CoFMutex`. -/
structure Inv (s : State) : Prop where
  book : ∀ n, Book (s.pc n) (s.recs n) (n ∈ s.waiters) (s.got n)
  free : s.locked = false → s.waiters = []
  order : s.waiters.Pairwise fun m n => (s.recs m).arrival < (s.recs n).arrival
  early : ∀ n ∈ s.waiters, (s.recs n).arrival < s.arrivals
  owner : s.owners.length = s.locked.toNat
  owned : ∀ n ∈ s.owners, s.got n ≠ 0
  woken : ∀ n, (s.pc n).asleep = true → (s.recs n).granted = true → WakeDue s n
  target : ∀ n m, s.pc n = .waking m → (s.recs m).granted = true

/-! ## The steps -/

theorem popActive_spec {recs : ℕ → Waiter} {l : List ℕ} {m : ℕ} {ms : List ℕ}
    (h : popActive recs l = some (m, ms)) :
    ∃ dropped, l = dropped ++ m :: ms ∧ (∀ n ∈ dropped, (recs n).active = false) ∧
      (recs m).active = true := by
  induction l with
  | nil => cases h
  | cons n l ih =>
    rw [popActive] at h
    split at h
    case isTrue ha =>
      cases h
      exact ⟨[], rfl, by simp, ha⟩
    case isFalse ha =>
      obtain ⟨dropped, hl, hd, hm⟩ := ih h
      refine ⟨n :: dropped, by rw [hl]; rfl, ?_, hm⟩
      intro k hk
      rcases List.mem_cons.mp hk with rfl | hk
      · exact Bool.eq_false_iff.mpr ha
      · exact hd k hk

theorem popActive_none {recs : ℕ → Waiter} {l : List ℕ} (h : popActive recs l = none) :
    ∀ n ∈ l, (recs n).active = false := by
  induction l with
  | nil => simp
  | cons n l ih =>
    rw [popActive] at h
    split at h
    case isTrue => cases h
    case isFalse ha =>
      intro k hk
      rcases List.mem_cons.mp hk with rfl | hk
      · exact Bool.eq_false_iff.mpr ha
      · exact ih h k hk

/-- A call moves on to `p` and leaves its record as `w`. -/
theorem Inv.own (h : Inv s)
    (harr : w.arrival = (s.recs n).arrival) (hb : Book p w (n ∈ s.waiters) (s.got n))
    (hg : (s.recs n).granted = true → w.granted = true)
    (hw : ∀ m, s.pc n = .waking m → (s.recs m).wake = true)
    (hnw : ∀ m, p ≠ .waking m)
    (hp : p.asleep = true → w.granted = true → w.wake = true ∨ ∃ m, s.pc m = .waking n) :
    Inv ((s.setRec n w).goto n p) := by
  have hself : s.pc n ≠ .waking n := by
    intro he
    have := h.book n
    rw [he] at this
    exact absurd (h.target n n he) (by simp [this.2.2.1])
  have hall : ∀ k, (((s.setRec n w).goto n p).recs k).arrival = (s.recs k).arrival := by
    intro k
    by_cases hk : k = n
    · simp [State.goto, State.setRec, hk, harr]
    · simp [State.goto, State.setRec, hk]
  have hdue : ∀ k, k ≠ n → WakeDue s k → WakeDue ((s.setRec n w).goto n p) k := by
    intro k hkn hk
    have hsame : (((s.setRec n w).goto n p).recs k).wake = (s.recs k).wake := by
      simp [State.goto, State.setRec, hkn]
    rcases hk with hk | ⟨m, hm⟩
    · exact .inl (hsame.trans hk)
    · by_cases hmn : m = n
      · exact .inl (hsame.trans (hw k (hmn ▸ hm)))
      · exact .inr ⟨m, by simp [State.goto, State.setRec, hmn, hm]⟩
  constructor
  case book =>
    intro k
    by_cases hk : k = n
    · subst hk
      simpa [State.goto, State.setRec] using hb
    · simpa [State.goto, State.setRec, hk] using h.book k
  case free => exact h.free
  case order =>
    refine h.order.imp fun {a b} hab => ?_
    rw [hall a, hall b]
    exact hab
  case early =>
    intro k hk
    rw [hall k]
    exact h.early k hk
  case owner => exact h.owner
  case owned => exact h.owned
  case woken =>
    intro k hk hg'
    by_cases hkn : k = n
    · subst hkn
      have hp' := hp (by simpa [State.goto] using hk)
        (by simpa [State.goto, State.setRec] using hg')
      rcases hp' with hwake | ⟨m, hm⟩
      · exact .inl (by simpa [State.goto, State.setRec] using hwake)
      · have hmk : m ≠ k := fun he => hself (he ▸ hm)
        exact .inr ⟨m, by simp [State.goto, State.setRec, hmk, hm]⟩
    · exact hdue k hkn (h.woken k (by simpa [State.goto, State.setRec, hkn] using hk)
        (by simpa [State.goto, State.setRec, hkn] using hg'))
  case target =>
    intro k m hk
    have hkn : k ≠ n := fun he => hnw m (by simpa [State.goto, he] using hk)
    have hm := h.target k m (by simpa [State.goto, State.setRec, hkn] using hk)
    by_cases hmn : m = n
    · subst hmn
      simpa [State.goto, State.setRec] using hg hm
    · simpa [State.goto, State.setRec, hmn] using hm

theorem setRec_self (s : State) (n : ℕ) : s.setRec n (s.recs n) = s := by
  have : (fun m => if m = n then s.recs n else s.recs m) = s.recs := by
    funext m
    by_cases hm : m = n <;> simp [hm]
  rw [State.setRec, this]

theorem goto_self (s : State) (n : ℕ) : s.goto n (s.pc n) = s := by
  have : (fun m => if m = n then s.pc n else s.pc m) = s.pc := by
    funext m
    by_cases hm : m = n <;> simp [hm]
  rw [State.goto, this]

/-- A call moves on without touching what the mutex holds. -/
theorem Inv.goto (h : Inv s)
    (hb : Book p (s.recs n) (n ∈ s.waiters) (s.got n))
    (hw : ∀ m, s.pc n = .waking m → (s.recs m).wake = true) (hnw : ∀ m, p ≠ .waking m)
    (hp : p.asleep = true → (s.recs n).granted = true → WakeDue s n) : Inv (s.goto n p) := by
  have := h.own rfl hb id hw hnw hp
  rwa [setRec_self] at this

theorem take_inv (h : Inv s) (hl : s.locked = false)
    (hb : Book .fresh (s.recs n) (n ∈ s.waiters) (s.got n)) (hw : ∀ m, s.pc n ≠ .waking m)
    (hp : p = .returned true ∨ p = .releasing true) : Inv (s.take n p) := by
  obtain ⟨hq, ha, hg, hk⟩ := hb
  have hasleep : p.asleep = false := by rcases hp with rfl | rfl <;> rfl
  have hnw : ∀ m, p ≠ .waking m := by rcases hp with rfl | rfl <;> simp
  have hbase : Inv ({ s with locked := true }.obtain n |>.goto n p) := by
    constructor
    case book =>
      intro k
      by_cases hkn : k = n
      · subst hkn
        rcases hp with rfl | rfl
        · simp [State.goto, State.obtain, Book, hq, ha, hk]
        · simp [State.goto, State.obtain, Book, hq, ha, hk]
      · simpa [State.goto, State.obtain, hkn] using h.book k
    case free => intro hf; cases hf
    case order => exact h.order
    case early => exact h.early
    case owner => simp [State.goto, State.obtain, h.owner, hl]
    case owned =>
      intro k hk'
      by_cases hkn : k = n
      · simp [State.goto, State.obtain, hkn]
      · have : k ∈ s.owners := by simpa [State.goto, State.obtain, hkn] using hk'
        simpa [State.goto, State.obtain, hkn] using h.owned k this
    case woken =>
      intro k hk' hg'
      by_cases hkn : k = n
      · subst hkn
        simp [State.goto, hasleep] at hk'
      · have hdue := h.woken k (by simpa [State.goto, State.obtain, hkn] using hk') hg'
        refine hdue.imp_right fun ⟨m, hm⟩ => ⟨m, ?_⟩
        have : m ≠ n := fun he => hw k (he ▸ hm)
        simp only [State.goto, State.obtain, if_neg this, hm]
    case target =>
      intro k m hk
      have hkn : k ≠ n := fun he => hnw m (by simpa [State.goto, he] using hk)
      exact h.target k m (by simpa [State.goto, State.obtain, hkn] using hk)
  exact hbase

theorem enlist_inv (h : Inv s) {timed : Bool} (hl : s.locked = true)
    (hpc : s.pc n = .built timed) : Inv (s.enlist n timed) := by
  have hb := h.book n
  rw [hpc] at hb
  obtain ⟨hq, ha, hg, hk⟩ := hb
  have hrec : ∀ k ∈ s.waiters, (s.enlist n timed).recs k = s.recs k := by
    intro k hk'
    have : k ≠ n := fun he => hq (he ▸ hk')
    simp only [State.enlist, State.goto, State.setRec, if_neg this]
  constructor
  case book =>
    intro k
    by_cases hkn : k = n
    · subst hkn
      simp [State.enlist, State.goto, State.setRec, Book, hk]
    · simpa [State.enlist, State.goto, State.setRec, hkn] using h.book k
  case free =>
    intro hf
    rw [show (s.enlist n timed).locked = true from hl] at hf
    cases hf
  case order =>
    -- the new record arrives after every queued one
    have hold : s.waiters.Pairwise fun m k =>
        ((s.enlist n timed).recs m).arrival < ((s.enlist n timed).recs k).arrival := by
      refine h.order.imp_of_mem fun {m k} hm hk' hlt => ?_
      rw [hrec m hm, hrec k hk']
      exact hlt
    refine List.pairwise_append.mpr ⟨hold, List.pairwise_singleton _ _, ?_⟩
    intro m hm k hk'
    rw [List.mem_singleton.mp hk', hrec m hm]
    simpa [State.enlist, State.goto, State.setRec] using h.early m hm
  case early =>
    intro k hk'
    rcases List.mem_append.mp hk' with hk' | hk'
    · rw [hrec k hk']
      exact Nat.lt_succ_of_lt (h.early k hk')
    · rw [List.mem_singleton.mp hk']
      simp [State.enlist, State.goto, State.setRec]
  case owner => exact h.owner
  case owned => exact h.owned
  case woken =>
    intro k hk' hg'
    by_cases hkn : k = n
    · subst hkn
      simp [State.enlist, State.goto, Pc.asleep] at hk'
    · have hold : ∀ m, m ≠ n → (s.enlist n timed).pc m = s.pc m := by
        intro m hm
        simp [State.enlist, State.goto, hm, State.setRec]
      rw [hold k hkn] at hk'
      have hdue := h.woken k hk' (by simpa [State.enlist, State.goto, State.setRec, hkn] using hg')
      refine hdue.imp (fun hw => ?_) fun ⟨m, hm⟩ => ⟨m, ?_⟩
      · simpa [State.enlist, State.goto, State.setRec, hkn] using hw
      · have : m ≠ n := fun he => by rw [he, hpc] at hm; cases hm
        rw [hold m this, hm]
  case target =>
    intro k m hk
    have hkn : k ≠ n := fun he => by simp [State.enlist, State.goto, he] at hk
    have hm := h.target k m (by simpa [State.enlist, State.goto, State.setRec, hkn] using hk)
    have hmn : m ≠ n := fun he => by simp [he, hg] at hm
    simpa [State.enlist, State.goto, State.setRec, hmn] using hm

theorem release_inv (h : Inv s) (hl : s.locked = true)
    (hpc : s.pc n = .fresh) : Inv (s.release n) := by
  have hb := h.book n
  rw [hpc] at hb
  obtain ⟨hq, ha, hg, hgot⟩ := hb
  have hlen : s.owners.length = 1 := by simpa [hl] using h.owner
  have htail : s.owners.tail = [] := List.length_eq_zero_iff.mp (by simp [hlen])
  have hkeep : ∀ k m p, s.pc m = .waking k → (if m = n then p else s.pc m) = .waking k := by
    intro k m p hm
    have : m ≠ n := fun he => by rw [he, hpc] at hm; cases hm
    rw [if_neg this, hm]
  unfold State.release
  cases hpop : popActive s.recs s.waiters with
  | none =>
    -- every queued record has given up
    have hoff := popActive_none hpop
    constructor
    case book =>
      intro k
      by_cases hkn : k = n
      · subst hkn
        simp [State.goto, Book, ha, hg, hgot]
      · have hk := h.book k
        by_cases hmem : k ∈ s.waiters
        · simpa [State.goto, hkn] using hk.drop hmem (hoff k hmem)
        · simpa [State.goto, hkn, hmem] using hk
    case free => intro _; rfl
    case order => exact List.Pairwise.nil
    case early => intro k hk; cases hk
    case owner => simp [State.goto, htail]
    case owned => intro k hk; simp [State.goto, htail] at hk
    case woken =>
      intro k hk hg'
      by_cases hkn : k = n
      · subst hkn
        simp [State.goto, Pc.asleep] at hk
      · have hdue := h.woken k (by simpa [State.goto, hkn] using hk) hg'
        exact hdue.imp_right fun ⟨m, hm⟩ => ⟨m, hkeep k m _ hm⟩
    case target =>
      intro k m hk
      have hkn : k ≠ n := fun he => by simp [State.goto, he] at hk
      exact h.target k m (by simpa [State.goto, hkn] using hk)
  | some c =>
    obtain ⟨m, ms⟩ := c
    obtain ⟨dropped, hsplit, hoff, hact⟩ := popActive_spec hpop
    have hmem : m ∈ s.waiters := by simp [hsplit]
    have hsub : ∀ k ∈ ms, k ∈ s.waiters := by
      intro k hk
      simp [hsplit, hk]
    have horder : (m :: ms).Pairwise fun a b => (s.recs a).arrival < (s.recs b).arrival := by
      have := h.order
      rw [hsplit] at this
      exact (List.pairwise_append.mp this).2.1
    have hnot : m ∉ ms := by
      intro hm
      exact absurd ((List.pairwise_cons.mp horder).1 m hm) (Nat.lt_irrefl _)
    have hmn : m ≠ n := fun he => hq (he ▸ hmem)
    have harr : ∀ k, (if k = m then { s.recs m with granted := true } else s.recs k).arrival =
        (s.recs k).arrival := by
      intro k
      by_cases hk : k = m
      · simp [hk]
      · simp [hk]
    constructor
    case book =>
      intro k
      by_cases hkn : k = n
      · subst hkn
        have : k ∉ ms := fun hk => hq (hsub k hk)
        simp [State.goto, State.obtain, State.setRec, Book, Ne.symm hmn, this, ha, hg, hgot]
      · by_cases hkm : k = m
        · subst hkm
          simpa [State.goto, State.obtain, State.setRec, hkn]
            using (h.book k).grant hmem hact hnot
        · have hk : Book (s.pc k) (s.recs k) (k ∈ ms) (s.got k) := by
            by_cases hd : k ∈ dropped
            · exact (h.book k).drop (by simp [hsplit, hd]) (hoff k hd)
            · have : (k ∈ ms) = (k ∈ s.waiters) := by simp [hsplit, hd, hkm]
              rw [this]
              exact h.book k
          simpa [State.goto, State.obtain, State.setRec, hkn, hkm] using hk
    case free =>
      intro hf
      rw [show _ = true from hl] at hf
      cases hf
    case order =>
      refine (List.pairwise_cons.mp horder).2.imp fun {a b} hab => ?_
      simpa [State.goto, State.obtain, State.setRec, harr] using hab
    case early =>
      intro k hk
      simpa [State.goto, State.obtain, State.setRec, harr] using h.early k (hsub k hk)
    case owner => simp [State.goto, State.obtain, State.setRec, htail, hl]
    case owned =>
      intro k hk
      have : k = m := by simpa [State.goto, State.obtain, State.setRec, htail] using hk
      simp [State.goto, State.obtain, this]
    case woken =>
      intro k hk hg'
      by_cases hkm : k = m
      · -- the call just granted: this release is its waker
        subst hkm
        exact .inr ⟨n, by simp [State.goto]⟩
      · have hkn : k ≠ n := fun he => by simp [State.goto, he, Pc.asleep] at hk
        have hdue := h.woken k
          (by simpa [State.goto, State.obtain, State.setRec, hkn] using hk)
          (by simpa [State.goto, State.obtain, State.setRec, hkm] using hg')
        refine hdue.imp (fun hw => ?_) fun ⟨j, hj⟩ => ⟨j, hkeep k j _ hj⟩
        simpa [State.goto, State.obtain, State.setRec, hkm] using hw
    case target =>
      intro k j hk
      by_cases hjm : j = m
      · simp [State.goto, State.obtain, State.setRec, hjm]
      · have hkn : k ≠ n := by
          intro he
          simp only [State.goto, he, if_true, Pc.waking.injEq] at hk
          exact hjm hk.symm
        simpa [State.goto, State.obtain, State.setRec, hjm]
          using h.target k j (by simpa [State.goto, State.obtain, State.setRec, hkn] using hk)

/-- `woke.unpark()` or `h.wake()`, after which the release returns. -/
theorem wake_inv (h : Inv s) {m : ℕ} (hpc : s.pc n = .waking m) :
    Inv ((s.setRec m { s.recs m with wake := true }).goto n .released) := by
  have hgr := h.target n m hpc
  have hm : ∀ k, s.pc m ≠ .waking k := by
    intro k hk
    have := h.book m
    rw [hk] at this
    exact absurd hgr (by simp [this.2.2.1])
  have hset : Inv (s.setRec m { s.recs m with wake := true }) := by
    have := h.own (p := s.pc m) (w := { s.recs m with wake := true }) rfl (h.book m) id
      (fun k hk => absurd hk (hm k)) hm fun _ _ => .inl rfl
    rwa [show (s.setRec m { s.recs m with wake := true }).goto m (s.pc m) =
      s.setRec m { s.recs m with wake := true } from goto_self _ m] at this
  have hmn : n ≠ m := fun he => hm m (he ▸ hpc)
  have hb : Book .released (s.recs n) (n ∈ s.waiters) (s.got n) := by
    have := h.book n
    rw [hpc] at this
    exact this
  refine hset.goto (by simpa [State.setRec, hmn] using hb) ?_ (by simp) (by simp [Pc.asleep])
  intro k hk
  have hk : s.pc n = .waking k := hk
  rw [hpc] at hk
  cases hk
  simp [State.setRec]

theorem step_inv {a : Action} (h : Inv s) (hs : step s a = some t) : Inv t := by
  cases a with
  | acquire n blocking timed =>
    simp only [step] at hs
    split at hs
    case h_2 => cases hs
    case h_1 hpc =>
      have hb := h.book n
      rw [hpc] at hb
      have hw : ∀ m, s.pc n = .waking m → (s.recs m).wake = true := by simp [hpc]
      split at hs
      case isTrue hl =>
        cases hs
        exact take_inv h (by simpa using hl) hb (by simp [hpc]) (.inl rfl)
      case isFalse =>
        split at hs
        · cases hs
          exact h.goto hb.2 hw (by simp) (by simp [Pc.asleep])
        · cases hs
          exact h.goto hb hw (by simp) (by simp [Pc.asleep])
  | build n =>
    simp only [step] at hs
    split at hs
    case h_2 => cases hs
    case h_1 hpc =>
      cases hs
      have hb := h.book n
      rw [hpc] at hb
      exact h.goto hb (by simp [hpc]) (by simp) (by simp [Pc.asleep])
  | register n =>
    simp only [step] at hs
    split at hs
    case h_2 => cases hs
    case h_1 timed hpc =>
      have hb := h.book n
      rw [hpc] at hb
      split at hs
      case isTrue hl =>
        cases hs
        exact take_inv h (by simpa using hl) hb (by simp [hpc]) (.inr rfl)
      case isFalse hl =>
        cases hs
        exact enlist_inv h (by simpa using hl) hpc
  | granted n =>
    simp only [step] at hs
    split at hs
    case h_2 => cases hs
    case h_1 timed hpc =>
      have hb := h.book n
      rw [hpc] at hb
      split at hs
      case isTrue hg =>
        cases hs
        refine h.goto ?_ (by simp [hpc]) (by simp) (by simp [Pc.asleep])
        exact ⟨by simp [hb.2.1, hg], fun _ => hg, by simp [hb.2.2, hg]⟩
      case isFalse hg =>
        cases hs
        exact h.goto hb (by simp [hpc]) (by simp) fun _ hg' => absurd hg' hg
  | park n =>
    simp only [step] at hs
    split at hs
    case h_2 => cases hs
    case h_1 timed hpc =>
      cases hs
      have hb := h.book n
      rw [hpc] at hb
      exact h.goto hb (by simp [hpc]) (by simp) fun _ => h.woken n (by simp [hpc, Pc.asleep])
  | expire n =>
    simp only [step] at hs
    split at hs
    case h_2 => cases hs
    case h_1 hpc =>
      cases hs
      have hb := h.book n
      rw [hpc] at hb
      exact h.goto hb (by simp [hpc]) (by simp) (by simp [Pc.asleep])
  | unpark n =>
    simp only [step] at hs
    split at hs
    case h_2 => cases hs
    case h_1 timed hpc =>
      split at hs
      case isFalse => cases hs
      case isTrue hwake =>
        cases hs
        have hb := h.book n
        rw [hpc] at hb
        exact h.own rfl hb id (by simp [hpc]) (by simp) (by simp [Pc.asleep])
  | spurious n =>
    simp only [step] at hs
    split at hs
    case h_2 => cases hs
    case h_1 timed hpc =>
      cases hs
      have hb := h.book n
      rw [hpc] at hb
      exact h.goto hb (by simp [hpc]) (by simp) (by simp [Pc.asleep])
  | giveUp n =>
    simp only [step] at hs
    split at hs
    case h_2 => cases hs
    case h_1 hpc =>
      have hb := h.book n
      rw [hpc] at hb
      split at hs
      case isTrue hg =>
        cases hs
        refine h.goto ?_ (by simp [hpc]) (by simp) (by simp [Pc.asleep])
        exact ⟨by simp [hb.2.1, hg], fun _ => hg, by simp [hb.2.2, hg]⟩
      case isFalse hg =>
        cases hs
        have hg : (s.recs n).granted = false := by simpa using hg
        refine h.own rfl ?_ id (by simp [hpc]) (by simp) (by simp [Pc.asleep])
        exact ⟨rfl, hg, by simp [hb.2.2, hg]⟩
  | drop n =>
    simp only [step] at hs
    split at hs
    case h_2 => cases hs
    case h_1 result hpc =>
      cases hs
      have hb := h.book n
      rw [hpc] at hb
      have hb' : Book (.returned result) (s.recs n) (n ∈ s.waiters) (s.got n) := by
        cases result with
        | false => exact hb
        | true => exact hb
      exact h.goto hb' (by simp [hpc]) (by simp) (by simp [Pc.asleep])
  | release n =>
    simp only [step] at hs
    split at hs
    case h_2 => cases hs
    case h_1 hpc =>
      have hb := h.book n
      rw [hpc] at hb
      split at hs
      case isTrue hl =>
        cases hs
        exact h.goto hb (by simp [hpc]) (by simp) (by simp [Pc.asleep])
      case isFalse hl =>
        cases hs
        exact release_inv h (by simpa using hl) hpc
  | wake n =>
    simp only [step] at hs
    split at hs
    case h_2 => cases hs
    case h_1 m hpc =>
      cases hs
      exact wake_inv h hpc

theorem init_inv : Inv init := by
  constructor
  case book => intro n; simp [init, Book]
  case free => intro _; rfl
  case order => exact List.Pairwise.nil
  case early => intro n hn; cases hn
  case owner => rfl
  case owned => intro n hn; cases hn
  case woken => intro n hn; cases hn
  case target => intro n m hn; cases hn

theorem reachable_inv (h : Reachable system s) : Inv s := by
  induction h with
  | start hs => exact hs ▸ init_inv
  | next _ hs ih => exact step_inv ih hs

/-! ## What callers rely on -/

/-- What the call reports, once that is decided. -/
@[grind =]
def Pc.outcome : Pc → Option Bool
  | .releasing b | .returned b => some b
  | _ => none

/-- A decided outcome stays. -/
theorem step_outcome {a : Action} {b : Bool}
    (hpc : (s.pc n).outcome = some b) (hs : step s a = some t) :
    (t.pc n).outcome = some b := by
  have hgoto : ∀ (u : State) (m : ℕ) (p : Pc), (u.pc n).outcome = some b → m ≠ n →
      ((u.goto m p).pc n).outcome = some b := by
    intro u m p hu hm
    simpa only [State.goto, if_neg (Ne.symm hm)] using hu
  have hne : ∀ m p, s.pc m = p → p.outcome = none → m ≠ n := by
    intro m p hm hp he
    rw [← he, hm, hp] at hpc
    cases hpc
  cases a with
  | release m =>
    simp only [step] at hs
    split at hs
    case h_2 => cases hs
    case h_1 hm =>
      have hmn := hne m _ hm rfl
      split at hs
      · cases hs
        exact hgoto _ _ _ hpc hmn
      · cases hs
        unfold State.release
        split
        · exact hgoto _ _ _ hpc hmn
        · exact hgoto _ _ _ hpc hmn
  | unpark m =>
    simp only [step] at hs
    split at hs
    case h_2 => cases hs
    case h_1 hm =>
      have hmn := hne m _ hm rfl
      split at hs
      case isTrue =>
        cases hs
        exact hgoto _ _ _ hpc hmn
      case isFalse => cases hs
  | drop m =>
    simp only [step] at hs
    split at hs
    case h_2 => cases hs
    case h_1 hm =>
      cases hs
      by_cases hmn : m = n
      · subst hmn
        rw [hm] at hpc
        simpa [State.goto, Pc.outcome] using hpc
      · exact hgoto _ _ _ hpc hmn
  | acquire m | build m | register m | granted m | park m | expire m | spurious m | giveUp m
  | wake m =>
    simp only [step] at hs
    split at hs
    case h_2 => cases hs
    case h_1 hm =>
      have hmn := hne m _ hm rfl
      repeat' split at hs
      all_goals
        cases hs
        exact hgoto _ _ _ hpc hmn

theorem run_outcome {as : List Action} {b : Bool}
    (hpc : (s.pc n).outcome = some b) (hr : system.run s as = some t) :
    (t.pc n).outcome = some b := by
  induction as generalizing s with
  | nil =>
    cases hr
    exact hpc
  | cons a as ih =>
    obtain ⟨u, hu, hrest⟩ := Option.bind_eq_some_iff.mp hr
    exact ih (step_outcome hpc hu) hrest

/-- Between the append of its record and its return. -/
def Pc.enlisted : Pc → Bool
  | .loop _ | .refused _ | .parked _ | .expired => true
  | _ => false

/-- A release of the taken mutex gives it to the waiting call that arrived
first, or frees it when none waits. -/
def HandsOver (s t : State) : Prop :=
  (∃ m, Waiting s m ∧ (∀ k, Waiting s k → (s.recs m).arrival ≤ (s.recs k).arrival) ∧
    (t.recs m).granted = true ∧ t.owners = [m] ∧ t.locked = true) ∨
  ((∀ k, ¬Waiting s k) ∧ t.owners = [] ∧ t.locked = false)

structure Sound (s : State) : Prop where
  exclusive : s.owners.length ≤ 1
  handsOver : ∀ n t, s.locked = true → step s (.release n) = some t → HandsOver s t
  /-- Every state is between two guarded sections. -/
  free : s.locked = false → ∀ n, ¬Waiting s n
  /-- A call that reported failure owned nothing and never will. -/
  failed : ∀ n as t, (s.pc n).outcome = some false → system.run s as = some t →
    n ∉ t.owners ∧ t.got n = 0
  succeeded : ∀ n, (s.pc n).outcome = some true → s.got n = 1
  once : ∀ n, s.got n ≤ 1
  /-- A grant is in the hands of a call that reports success, or that is still
  in its loop with its wake due unless it is awake. -/
  kept : ∀ n, s.got n = 1 → (s.pc n).outcome = some true ∨
    (s.pc n).enlisted = true ∧ (s.recs n).granted = true ∧
      ((s.pc n).asleep = true → WakeDue s n)
  /-- Whichever section a granted call runs next, it reports success. -/
  reports : ∀ n t, (s.recs n).granted = true →
    step s (.granted n) = some t ∨ step s (.giveUp n) = some t → (t.pc n).outcome = some true

theorem release_handsOver (h : Inv s) (hl : s.locked = true)
    (hs : step s (.release n) = some t) : HandsOver s t := by
  have hlen : s.owners.length = 1 := by simpa [hl] using h.owner
  have htail : s.owners.tail = [] := List.length_eq_zero_iff.mp (by simp [hlen])
  have hqueued : ∀ k, Waiting s k → k ∈ s.waiters :=
    fun k hk => (h.book k).queued_of_waiting hk.1 hk.2
  simp only [step] at hs
  split at hs
  case h_2 => cases hs
  rw [if_neg (by simp [hl])] at hs
  cases hs
  unfold State.release
  cases hpop : popActive s.recs s.waiters with
  | none =>
    refine .inr ⟨fun k hk => ?_, htail, rfl⟩
    exact absurd hk.1 (by simp [popActive_none hpop k (hqueued k hk)])
  | some c =>
    obtain ⟨m, ms⟩ := c
    obtain ⟨dropped, hsplit, hoff, hact⟩ := popActive_spec hpop
    have hmem : m ∈ s.waiters := by simp [hsplit]
    refine .inl ⟨m, ⟨hact, ((h.book m).of_queued hmem).1⟩, fun k hk => ?_, ?_, ?_, hl⟩
    · -- a waiting call is not among the dropped ones, so it is queued behind `m`
      have hk' := hqueued k hk
      rw [hsplit] at hk'
      rcases List.mem_append.mp hk' with hd | hk'
      · exact absurd hk.1 (by simp [hoff k hd])
      rcases List.mem_cons.mp hk' with rfl | hk'
      · exact Nat.le_refl _
      · have horder := h.order
        rw [hsplit] at horder
        have := (List.pairwise_append.mp horder).2.1
        exact Nat.le_of_lt ((List.pairwise_cons.mp this).1 k hk')
    · simp [State.goto, State.obtain, State.setRec]
    · simp [State.goto, State.obtain, State.setRec, htail]

theorem Inv.kept (h : Inv s) (hg : s.got n = 1) :
    (s.pc n).outcome = some true ∨ (s.pc n).enlisted = true ∧ (s.recs n).granted = true := by
  have hb := h.book n
  rw [hg] at hb
  unfold Book at hb
  split at hb
  case h_1 hpc | h_2 hpc | h_3 hpc | h_4 hpc =>
    refine .inr ⟨by rw [hpc]; rfl, ?_⟩
    cases hgr : (s.recs n).granted with
    | true => rfl
    | false => simp [hgr] at hb
  case h_5 hpc | h_6 hpc => exact .inl (by rw [hpc]; rfl)
  case h_7 | h_8 => exact absurd hb.2.2 (by decide)
  case h_9 => exact absurd hb.2.2.2 (by decide)

theorem Inv.once (h : Inv s) (n : ℕ) : s.got n ≤ 1 := by
  have hb := h.book n
  unfold Book at hb
  split at hb
  case h_1 | h_2 | h_3 | h_4 =>
    rw [hb.2.2]
    exact Bool.toNat_le _
  case h_5 | h_6 => exact Nat.le_of_eq hb.2.2
  case h_7 | h_8 => omega
  case h_9 => omega

/-- The outcome of a call tells whether it obtained the mutex. -/
theorem Inv.outcome (h : Inv s) {b : Bool}
    (hpc : (s.pc n).outcome = some b) : s.got n = b.toNat := by
  have hb := h.book n
  cases hp : s.pc n with
  | releasing c | returned c =>
    rw [hp] at hpc hb
    cases hpc
    cases b with
    | false => exact hb.2.2
    | true => exact hb.2.2
  | _ =>
    rw [hp] at hpc
    cases hpc

/-- **Hand-off mutex.** Over every interleaving of guarded sections one call at
most owns the mutex, releases grant in arrival order, and no grant is lost or
given twice. -/
theorem reachable_sound {s : State} (h : Reachable system s) : Sound s := by
  have hi := reachable_inv h
  constructor
  case exclusive =>
    rw [hi.owner]
    exact Bool.toNat_le _
  case handsOver => intro n t hl hs; exact release_handsOver hi hl hs
  case free =>
    intro hl n hn
    have := (hi.book n).queued_of_waiting hn.1 hn.2
    rw [hi.free hl] at this
    cases this
  case failed =>
    intro n as t hpc hr
    have ht := reachable_inv (h.run hr)
    have hgot : t.got n = 0 := ht.outcome (run_outcome hpc hr)
    exact ⟨fun hn => ht.owned n hn hgot, hgot⟩
  case succeeded =>
    intro n hpc
    exact hi.outcome hpc
  case once => exact hi.once
  case kept =>
    intro n hg
    exact (hi.kept hg).imp_right fun ⟨hp, hgr⟩ => ⟨hp, hgr, fun hs => hi.woken n hs hgr⟩
  case reports =>
    rintro n t hg (hs | hs)
    all_goals
      simp only [step, hg, if_true] at hs
      split at hs
      case h_2 => cases hs
      cases hs
      simp [State.goto, Pc.outcome]

/-- Call 2 is granted by the release after its deadline passed and before it
looks: it reports success. Call 1 gave up first and is skipped. -/
theorem reachable_sound_late_grant :
    ∃ s, Reachable system s ∧ s.pc 1 = .returned false ∧ s.pc 2 = .returned true ∧
      s.owners = [2] ∧ Sound s := by
  have hr : Reachable system _ :=
    reachable_of_run system
      [.acquire 0 true false, .acquire 1 true true, .acquire 2 true true, .build 1, .build 2,
        .register 1, .register 2, .granted 1, .expire 1, .giveUp 1, .granted 2, .expire 2,
        .release 3, .giveUp 2, .drop 1, .drop 2] rfl rfl
  exact ⟨_, hr, rfl, rfl, rfl, reachable_sound hr⟩

/-! ## The mutex as a site of parkers -/

section Site

open Parker

@[grind =]
def Pc.stage : Pc → Stage
  | .built _ | .loop _ | .refused _ | .parked _ | .expired | .releasing _ => .during
  | .returned _ => .after
  | _ => .before

/-- A release is bound to the call it grants. The parker of a fiber is in memory
and has no pipe to write to. -/
@[grind =]
def effect (s : State) : Action → Effect ℕ
  | .build n => .build n false
  | .drop n => .release n
  | .release _ =>
    if s.locked then
      match popActive s.recs s.waiters with
      | some (m, _) => .choose [m]
      | none => .quiet
    else .quiet
  | .wake n =>
    match s.pc n with
    | .waking m => .write m
    | _ => .quiet
  | _ => .quiet

variable {s t : State}

/-- A call moves on, with an effect on no parker but its own. -/
theorem goto_moves {n : ℕ} {p : Pc} {f : Effect ℕ}
    (hpc : t.pc = fun m => if m = n then p else s.pc m)
    (hf : f = .quiet ∨ (∃ fdOnly, f = .build n fdOnly) ∨ f = .release n)
    (hp : Moves f n (s.pc n).stage p.stage) (m : ℕ) : Moves f m (s.pc m).stage (t.pc m).stage :=
  Moves.one (n := n) (x := fun m => (s.pc m).stage) (y := fun m => (t.pc m).stage)
    (by simpa [hpc] using hp) (fun k hk => by simp [hpc, hk]) hf m

/-- A quiet move within a stage, or past it. -/
theorem quiet_moves {n : ℕ} {p : Pc}
    (hpc : t.pc = fun m => if m = n then p else s.pc m)
    (hp : (s.pc n).stage = p.stage ∨ (s.pc n).stage = .before ∧ p.stage = .after) (m : ℕ) :
    Moves .quiet m (s.pc m).stage (t.pc m).stage :=
  goto_moves hpc (.inl rfl) (.inr (.inr ⟨by simp, by simp, hp⟩)) m

theorem release_pc (s : State) (n : ℕ) :
    ∃ p, p.stage = .before ∧ (s.release n).pc = fun m => if m = n then p else s.pc m := by
  unfold State.release
  split
  · exact ⟨.released, rfl, rfl⟩
  · exact ⟨.waking _, rfl, rfl⟩

theorem step_moves {a : Action} (hs : step s a = some t) (m : ℕ) :
    Moves (effect s a) m (s.pc m).stage (t.pc m).stage := by
  cases a with
  | build n =>
    simp only [step] at hs
    split at hs
    case h_2 => cases hs
    case h_1 hpc =>
      cases hs
      refine goto_moves rfl (.inr (.inl ⟨false, rfl⟩)) (.inl ⟨⟨false, rfl⟩, ?_, rfl⟩) m
      rw [hpc]
      rfl
  | drop n =>
    simp only [step] at hs
    split at hs
    case h_2 => cases hs
    case h_1 hpc =>
      cases hs
      refine goto_moves rfl (.inr (.inr rfl)) (.inr (.inl ⟨rfl, ?_, rfl⟩)) m
      rw [hpc]
      rfl
  | release n =>
    have hstage : ∃ p : Pc, p.stage = .before ∧ s.pc n = .fresh ∧
        t.pc = fun m => if m = n then p else s.pc m := by
      simp only [step] at hs
      split at hs
      case h_2 => cases hs
      case h_1 hpc =>
        split at hs
        · cases hs
          exact ⟨.raised, rfl, hpc, rfl⟩
        · cases hs
          obtain ⟨p, hp, hrel⟩ := release_pc s n
          exact ⟨p, hp, hpc, hrel⟩
    obtain ⟨p, hp, hfresh, hpc⟩ := hstage
    have hsame : (t.pc m).stage = (s.pc m).stage := by
      by_cases hm : m = n
      · subst hm
        have hnow : t.pc m = p := by simp [hpc]
        rw [hnow, hp, hfresh]
        rfl
      · simp [hpc, hm]
    rw [hsame]
    simp only [effect]
    split
    case isTrue => split <;> exact .same (by simp) (by simp) _
    case isFalse => exact .same (by simp) (by simp) _
  | wake n =>
    simp only [step] at hs
    split at hs
    case h_2 => cases hs
    case h_1 k hpc =>
      cases hs
      have hsame : (if m = n then Pc.released else s.pc m).stage = (s.pc m).stage := by
        by_cases hm : m = n
        · simp [hm, hpc, Pc.stage]
        · simp [hm]
      simp only [effect, hpc, State.goto, State.setRec, hsame]
      exact .same (by simp) (by simp) _
  | acquire n blocking timed =>
    simp only [step] at hs
    split at hs
    case h_2 => cases hs
    case h_1 hpc =>
      repeat' split at hs
      all_goals
        cases hs
        exact quiet_moves rfl (by simp [hpc, Pc.stage]) m
  | register n | granted n | park n | expire n | spurious n | giveUp n =>
    simp only [step] at hs
    split at hs
    case h_2 => cases hs
    case h_1 hpc =>
      repeat' split at hs
      all_goals
        cases hs
        exact quiet_moves rfl (by simp [hpc, Pc.stage]) m
  | unpark n =>
    simp only [step] at hs
    split at hs
    case h_2 => cases hs
    case h_1 hpc =>
      split at hs
      case isTrue =>
        cases hs
        exact quiet_moves rfl (by simp [hpc, Pc.stage]) m
      case isFalse => cases hs

theorem step_writing {a : Action} {n : ℕ} (hs : step s a = some t)
    (hw : ∃ b, t.pc b = .waking n) :
    (∃ b, s.pc b = .waking n) ∨ ∃ ps, effect s a = .choose ps ∧ n ∈ ps := by
  obtain ⟨b, hb⟩ := hw
  have hmove : ∀ (k : ℕ) (p : Pc), t.pc = (fun m => if m = k then p else s.pc m) →
      p ≠ .waking n → ∃ b, s.pc b = .waking n := by
    intro k p hpc hp
    rw [hpc] at hb
    by_cases hbk : b = k
    · exact absurd (by simpa [hbk] using hb) hp
    · exact ⟨b, by simpa [hbk] using hb⟩
  cases a with
  | release k =>
    simp only [step] at hs
    split at hs
    case h_2 => cases hs
    case h_1 hpc =>
      split at hs
      case isTrue =>
        cases hs
        exact .inl (hmove k _ rfl (by simp))
      case isFalse hl =>
        cases hs
        unfold State.release at hmove
        cases hpop : popActive s.recs s.waiters with
        | none =>
          rw [hpop] at hmove
          exact .inl (hmove k _ rfl (by simp))
        | some c =>
          obtain ⟨m, ms⟩ := c
          rw [hpop] at hmove
          by_cases hmn : m = n
          · refine .inr ?_
            have hl : s.locked = true := by simpa using hl
            exact ⟨[n], by simp [effect, hl, hpop, hmn], by simp⟩
          · exact .inl (hmove k _ rfl (by simp [hmn]))
  | unpark k =>
    simp only [step] at hs
    split at hs
    case h_2 => cases hs
    case h_1 =>
      split at hs
      case isTrue =>
        cases hs
        exact .inl (hmove k _ rfl (by simp))
      case isFalse => cases hs
  | acquire k | build k | register k | granted k | park k | expire k | spurious k | giveUp k
  | drop k | wake k =>
    simp only [step] at hs
    split at hs
    case h_2 => cases hs
    case h_1 =>
      repeat' split at hs
      all_goals
        cases hs
        exact .inl (hmove k _ rfl (by simp))

/-- The mutex with the parkers of its waiting calls. -/
def site : Site where
  State := State
  Action := Action
  init := init
  step := step
  effect := effect
  stage s n := (s.pc n).stage
  Inv _ := True
  Writing s n := ∃ a, s.pc a = .waking n
  inv_init := trivial
  inv_step _ _ := trivial
  stage_init _ := rfl
  stage_step _ hs m := step_moves hs m
  writing_step hs hw := step_writing hs hw
  writing_write := by
    intro s a t n _ hw
    cases a with
    | wake k =>
      refine ⟨k, ?_⟩
      simp only [effect] at hw
      split at hw
      case h_1 hpc => cases hw; exact hpc
      case h_2 => cases hw
    | release k =>
      simp only [effect] at hw
      repeat' split at hw
      all_goals cases hw
    | _ => cases hw

end Site

end Stackweave.Monkey.Mutex
