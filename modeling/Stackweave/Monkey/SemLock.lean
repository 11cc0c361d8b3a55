import Mathlib.Data.Finset.Card
import Mathlib.Data.Int.Notation
import Mathlib.Logic.Function.Basic
import Stackweave.Transition

/-!
# The recursive `SemLock` over fibers (`monkey/executors.py`)

`_co_recursive_semlock_methods` keeps the owner and the recursion count of a multiprocessing
`RLock` by fiber, in `state`, and calls the C lock for the outermost `acquire` and the last
`release` only. The C lock knows OS threads. Many fibers share a hub thread, and a fiber that
parks may go on on another one, so the two ways of keeping ownership can come apart.

Any number of fibers call both methods. Every read and every write of `state` is a step, and so
is a call of the C lock. The clock is a choice: a timed call may find its deadline passed at any
turn of the loop.

* `semlock_agrees`: what holds as long as the C lock is not re-entered under somebody who has it
  and is released only on the hub thread that it was acquired on, by the fiber that has it.
* `semlock_disagrees`: what each of the three leads to.
-/

namespace Stackweave.Monkey.SemLock

open Transition Function

/-! ## The C lock -/

/-- `SemLock` of `_multiprocessing`, of the kind `RECURSIVE_MUTEX`; `sem` is the kernel's
semaphore. -/
structure CLock where
  count : ℕ
  lastTid : ℕ
  sem : ℕ

namespace CLock

/-- `ISMINE` -/
def isMine (l : CLock) (tid : ℕ) : Bool := decide (0 < l.count) && l.lastTid == tid

/-- `acquire(False)` -/
def acquire (l : CLock) (tid : ℕ) : Bool × CLock :=
  if l.isMine tid then (true, { l with count := l.count + 1 })
  else if 0 < l.sem then (true, { count := l.count + 1, lastTid := tid, sem := l.sem - 1 })
  else (false, l)

/-- `release()`, `none` for the `AssertionError`. -/
def release (l : CLock) (tid : ℕ) : Option CLock :=
  if l.isMine tid then
    if 1 < l.count then some { l with count := l.count - 1 }
    else some { l with count := l.count - 1, sem := l.sem + 1 }
  else none

/-- The semaphore is up while the lock is not counted. -/
def Sound (l : CLock) : Prop := l.sem = if l.count = 0 then 1 else 0

variable {l l' : CLock} {tid : ℕ}

theorem acquire_true (h : l.Sound) (ha : l.acquire tid = (true, l')) :
    l'.count = l.count + 1 ∧ l'.Sound ∧ (l.isMine tid = true ∨ l.count = 0) := by
  unfold acquire at ha
  split at ha
  · rename_i hmine
    cases ha
    have hpos : 0 < l.count := by simp_all [isMine]
    have hsem : l.sem = 0 := by simpa [Sound, Nat.ne_of_gt hpos] using h
    exact ⟨rfl, by simpa [Sound] using hsem, .inl hmine⟩
  · split at ha
    · rename_i hsem
      cases ha
      have hzero : l.count = 0 := by
        by_contra hne
        simp only [Sound, if_neg hne] at h
        omega
      have hup : l.sem = 1 := by simpa [Sound, hzero] using h
      exact ⟨rfl, by simp [Sound, hup], .inr hzero⟩
    · cases ha

theorem acquire_false (ha : l.acquire tid = (false, l')) : l' = l := by
  unfold acquire at ha
  split at ha
  · cases ha
  · split at ha <;> cases ha
    rfl

theorem release_mine (h : l.Sound) (hm : l.isMine tid = true) :
    ∃ l', l.release tid = some l' ∧ l'.count + 1 = l.count ∧ l'.Sound := by
  have hpos : 0 < l.count := by simp_all [isMine]
  have hsem : l.sem = 0 := by simpa [Sound, Nat.ne_of_gt hpos] using h
  unfold release
  rw [if_pos hm]
  by_cases hone : 1 < l.count
  · rw [if_pos hone]
    refine ⟨_, rfl, Nat.sub_add_cancel hpos, ?_⟩
    have hne : l.count - 1 ≠ 0 := by omega
    simp [Sound, hne, hsem]
  · rw [if_neg hone]
    refine ⟨_, rfl, Nat.sub_add_cancel hpos, ?_⟩
    have hzero : l.count - 1 = 0 := by omega
    simp [Sound, hzero, hsem]

end CLock

/-! ## The calls -/

/-- How `acquire` is called: `block=False`, with a timeout, or without. -/
inductive Mode
  | tryOnce
  | timed
  | block
  deriving DecidableEq

/-- Where a fiber stands; each constructor names what the fiber does next. `held` is history: the
caller of the `release` has the lock. -/
inductive Pc
  | idle
  /-- `state[0] is not None` -/
  | look (m : Mode)
  /-- `state[0] == cur` -/
  | compare (m : Mode)
  /-- `state[1] += 1` -/
  | bumpRead
  | bumpWrite (n : ℤ)
  /-- `state[0] is None`, before the C call -/
  | test (m : Mode)
  | cAcquire (m : Mode)
  /-- the deadline, then `_co_sleep` -/
  | backoff (m : Mode)
  | asleep (m : Mode)
  /-- `state[0] = cur` -/
  | setOwner
  /-- `state[1] = 1` -/
  | setCount
  /-- `state[0] is None` in `release` -/
  | relLook (held : Bool)
  /-- `state[0] != cur` -/
  | relCompare (held : Bool)
  /-- the C release of a caller that is not the owner -/
  | raw (held : Bool)
  /-- `state[1] -= 1` -/
  | relRead
  | relWrite (n : ℤ)
  /-- `state[1] == 0` -/
  | relZero
  /-- `state[0] = None` -/
  | clear
  /-- the C release of the owner -/
  | post
  deriving DecidableEq

/-- A fiber: where it stands, its hub thread, and how many `acquire` calls that returned `True`
it has not yet called `release` for. -/
structure Fiber where
  pc : Pc
  hub : ℕ
  depth : ℕ

/-- `state = [owner, count]`, the C lock and the fibers. `refused` is history: the fibers whose
`release` of a lock that they had raised. -/
structure State where
  owner : Option ℕ
  count : ℤ
  lock : CLock
  fiber : ℕ → Fiber
  refused : List ℕ

def start (hubs : ℕ → ℕ) : State where
  owner := none
  count := 0
  lock := ⟨0, 0, 1⟩
  fiber f := ⟨.idle, hubs f, 0⟩
  refused := []

inductive Action
  | acquire (f : ℕ) (m : Mode)
  | release (f : ℕ)
  | run (f : ℕ)
  | expire (f : ℕ)
  | move (f hub : ℕ)

namespace State

variable (s : State) (f : ℕ)

def set (x : Fiber) : State := { s with fiber := Function.update s.fiber f x }

def goto (p : Pc) : State := s.set f { s.fiber f with pc := p }

/-- `return True` of `acquire` -/
def obtain : State := s.set f { s.fiber f with pc := .idle, depth := (s.fiber f).depth + 1 }

/-- A turn of the loop that did not get the lock; a non-blocking call returns `False`. -/
def missed : Mode → State
  | .tryOnce => s.goto f .idle
  | m => s.goto f (.backoff m)

/-- The next read, write or C call of a fiber inside one of the methods. -/
def exec : Option State :=
  match (s.fiber f).pc with
  | .idle => none
  | .look m => some (if s.owner = none then s.goto f (.test m) else s.goto f (.compare m))
  | .compare m => some (if s.owner = some f then s.goto f .bumpRead else s.goto f (.test m))
  | .bumpRead => some (s.goto f (.bumpWrite s.count))
  | .bumpWrite n => some ({ s with count := n + 1 }.obtain f)
  | .test m => some (if s.owner = none then s.goto f (.cAcquire m) else s.missed f m)
  | .cAcquire m =>
    match s.lock.acquire (s.fiber f).hub with
    | (true, l) => some ({ s with lock := l }.goto f .setOwner)
    | (false, l) => some ({ s with lock := l }.missed f m)
  | .backoff m => some (s.goto f (.asleep m))
  | .asleep m => some (s.goto f (.test m))
  | .setOwner => some ({ s with owner := some f }.goto f .setCount)
  | .setCount => some ({ s with count := 1 }.obtain f)
  | .relLook held =>
    some (if s.owner = none then s.goto f (.raw held) else s.goto f (.relCompare held))
  | .relCompare held =>
    some (if s.owner = some f then s.goto f .relRead else s.goto f (.raw held))
  | .raw held =>
    match s.lock.release (s.fiber f).hub with
    | some l => some ({ s with lock := l }.goto f .idle)
    | none =>
      some ({ s with refused := if held then f :: s.refused else s.refused }.goto f .idle)
  | .relRead => some (s.goto f (.relWrite s.count))
  | .relWrite n => some ({ s with count := n - 1 }.goto f .relZero)
  | .relZero => some (if s.count = 0 then s.goto f .clear else s.goto f .idle)
  | .clear => some ({ s with owner := none }.goto f .post)
  | .post =>
    match s.lock.release (s.fiber f).hub with
    | some l => some ({ s with lock := l }.goto f .idle)
    | none => some ({ s with refused := f :: s.refused }.goto f .idle)

end State

/-- A fiber parks in `_co_sleep` and, between its calls, wherever its code does. -/
@[grind =]
def Pc.parks : Pc → Bool
  | .idle | .asleep _ => true
  | _ => false

def step (s : State) : Action → Option State
  | .acquire f m => if (s.fiber f).pc = .idle then some (s.goto f (.look m)) else none
  | .release f =>
    if (s.fiber f).pc = .idle then
      some (s.set f { s.fiber f with
        pc := .relLook (decide (0 < (s.fiber f).depth)), depth := (s.fiber f).depth - 1 })
    else none
  | .run f => s.exec f
  | .expire f => if (s.fiber f).pc = .backoff .timed then some (s.goto f .idle) else none
  | .move f hub =>
    if (s.fiber f).pc.parks then some (s.set f { s.fiber f with hub := hub }) else none

def system : System State Action where
  init s := ∃ hubs, s = start hubs
  step := step

/-! ## The claims on it -/

/-- The fiber has won the C lock and has not given its place in `state[0]` up again. -/
def Fiber.inside (x : Fiber) : Bool :=
  match x.pc with
  | .idle | .look _ | .compare _ => decide (0 < x.depth)
  | .bumpRead | .bumpWrite _ | .setOwner | .setCount => true
  | .relRead | .relWrite _ | .relZero | .clear => true
  | .relLook held | .relCompare held => held
  | .test _ | .cAcquire _ | .backoff _ | .asleep _ | .raw _ | .post => false

/-- The step calls the C lock from the thread that it takes for the caller's: not an acquire while
another fiber is inside, a release only by the fiber that has cleared `state[0]`. -/
def ThreadAgrees (s : State) : Action → Prop
  | .run f =>
    match (s.fiber f).pc with
    | .cAcquire _ => s.lock.isMine (s.fiber f).hub = true → ∀ g, (s.fiber g).inside = false
    | .raw _ => s.lock.isMine (s.fiber f).hub = false
    | .post => s.lock.isMine (s.fiber f).hub = true
    | _ => True
  | _ => True

/-- The fiber is in a `release`, or it has won the C lock and its `acquire` has not returned. -/
@[grind =]
def Pc.busy : Pc → Bool
  | .setOwner | .setCount => true
  | .relLook _ | .relCompare _ | .raw _ | .relRead | .relWrite _ | .relZero | .clear | .post => true
  | _ => false

/-- What the lock promises. -/
structure Kept (s : State) : Prop where
  /-- at most one fiber holds the lock -/
  alone : ∀ f g, 0 < (s.fiber f).depth → 0 < (s.fiber g).depth → f = g
  /-- no release by the holder has raised -/
  released : s.refused = []
  /-- with an acquire that has no release yet the lock is not free -/
  taken : ∀ f, 0 < (s.fiber f).depth → s.owner = some f ∧ s.lock.sem = 0
  /-- between its calls the holder finds its depth in `state` -/
  counted : ∀ f, (s.fiber f).pc = .idle → 0 < (s.fiber f).depth → s.count = (s.fiber f).depth
  /-- with as many releases as acquires the lock is free, and so is the semaphore -/
  free : (∀ f, (s.fiber f).depth = 0 ∧ (s.fiber f).pc.busy = false) →
    s.owner = none ∧ s.lock.count = 0 ∧ s.lock.sem = 1

/-! ## The invariant -/

/-- The fiber has a C acquire to its name. -/
def Fiber.has (x : Fiber) : Bool := x.inside || x.pc == .post

/-- What a fiber has read agrees with `state[1]`, and that with its depth. -/
def Fiber.Fits (x : Fiber) (count : ℤ) : Prop :=
  match x.pc with
  | .idle | .look _ | .compare _ => 0 < x.depth → count = x.depth
  | .bumpRead => 0 < x.depth ∧ count = x.depth
  | .bumpWrite n => 0 < x.depth ∧ count = x.depth ∧ n = count
  | .relLook held | .relCompare held =>
    if held then count = x.depth + 1 else x.depth = 0
  | .relRead => count = x.depth + 1
  | .relWrite n => count = x.depth + 1 ∧ n = count
  | .relZero => count = x.depth
  | .clear => x.depth = 0
  | .raw held => x.depth = 0 ∧ held = false
  | .test _ | .cAcquire _ | .backoff _ | .asleep _ | .setOwner | .setCount | .post => x.depth = 0

variable {x : Fiber} {c c' : ℤ}

/-- Only a fiber that is inside depends on the count. -/
theorem Fiber.Fits.of_outside (h : x.Fits c) (hx : x.inside = false) : x.Fits c' := by
  unfold Fiber.Fits at *
  unfold Fiber.inside at hx
  split at hx <;> rename_i hpc <;> simp_all

theorem Fiber.Fits.depth_of_outside (h : x.Fits c) (hx : x.inside = false) : x.depth = 0 := by
  unfold Fiber.Fits at h
  unfold Fiber.inside at hx
  split at hx <;> rename_i hpc <;> simp_all

structure Inv (s : State) : Prop where
  fits : ∀ f, (s.fiber f).Fits s.count
  alone : ∀ f g, (s.fiber f).inside = true → (s.fiber g).inside = true → f = g
  owner : ∀ f, (s.fiber f).inside = true →
    s.owner = if (s.fiber f).pc = .setOwner then none else some f
  noOwner : (∀ f, (s.fiber f).inside = false) → s.owner = none
  tally : ∃ L : Finset ℕ, (∀ f, f ∈ L ↔ (s.fiber f).has = true) ∧ s.lock.count = L.card
  sem : s.lock.Sound
  released : s.refused = []

variable {s t : State} {f : ℕ}

/-- One fiber changes, with what is shared. -/
def State.change (s : State) (f : ℕ) (x : Fiber) (o : Option ℕ) (c : ℤ) (l : CLock) : State :=
  { s with owner := o, count := c, lock := l, fiber := Function.update s.fiber f x }

/-- The C acquires are counted with the fibers that have one. -/
theorem tally_update {fiber : ℕ → Fiber} {L : Finset ℕ} {n m : ℕ}
    (hL : ∀ g, g ∈ L ↔ (fiber g).has = true) (hn : n = L.card)
    (hm : m + (if (fiber f).has then 1 else 0) = n + if x.has then 1 else 0) :
    ∃ L' : Finset ℕ, (∀ g, g ∈ L' ↔ (update fiber f x g).has = true) ∧ m = L'.card := by
  have hcard : L.card = (L.erase f).card + if (fiber f).has then 1 else 0 := by
    by_cases hf : (fiber f).has = true
    · rw [if_pos hf, Finset.card_erase_add_one ((hL f).mpr hf)]
    · rw [if_neg hf, Finset.erase_eq_of_notMem fun hmem => hf ((hL f).mp hmem), Nat.add_zero]
  have hother (g : ℕ) (hg : g ≠ f) : g ∈ L.erase f ↔ (update fiber f x g).has = true := by
    simp [hg, hL g]
  by_cases hx : x.has = true
  · refine ⟨insert f (L.erase f), fun g => ?_, ?_⟩
    · by_cases hg : g = f
      · simp [hg, hx]
      · simpa [hg] using hother g hg
    · rw [Finset.card_insert_of_notMem (Finset.notMem_erase f L)]
      simp only [hx, if_true] at hm
      omega
  · refine ⟨L.erase f, fun g => ?_, ?_⟩
    · by_cases hg : g = f
      · simp [hg, hx]
      · exact hother g hg
    · simp only [if_neg hx] at hm
      omega

theorem Inv.change (h : Inv s) {o : Option ℕ} {l : CLock} (hfits : x.Fits c)
    (hothers : ∀ g, g ≠ f → (s.fiber g).inside = true →
      o = s.owner ∧ c = s.count ∧ x.inside = false)
    (hown : x.inside = true → o = if x.pc = .setOwner then none else some f)
    (hfree : x.inside = false → (∀ g, g ≠ f → (s.fiber g).inside = false) → o = none)
    (htally : l.count + (if (s.fiber f).has then 1 else 0)
      = s.lock.count + if x.has then 1 else 0)
    (hsem : l.Sound) : Inv (s.change f x o c l) := by
  have same : (s.change f x o c l).fiber f = x := update_self ..
  have other (g : ℕ) (hg : g ≠ f) : (s.change f x o c l).fiber g = s.fiber g :=
    update_of_ne hg ..
  obtain ⟨L, hL, hcard⟩ := h.tally
  refine
    { fits := fun g => ?_, alone := fun g k hg hk => ?_, owner := fun g hg => ?_
      noOwner := fun hout => ?_, tally := tally_update hL hcard htally, sem := hsem
      released := h.released }
  · by_cases hgf : g = f
    · rw [hgf, same]
      exact hfits
    · rw [other g hgf]
      cases hin : (s.fiber g).inside with
      | false => exact (h.fits g).of_outside hin
      | true =>
        rw [show (s.change f x o c l).count = s.count from (hothers g hgf hin).2.1]
        exact h.fits g
  · by_cases hgf : g = f <;> by_cases hkf : k = f
    · rw [hgf, hkf]
    · rw [hgf, same] at hg
      rw [other k hkf] at hk
      simp [(hothers k hkf hk).2.2] at hg
    · rw [hkf, same] at hk
      rw [other g hgf] at hg
      simp [(hothers g hgf hg).2.2] at hk
    · rw [other g hgf] at hg
      rw [other k hkf] at hk
      exact h.alone g k hg hk
  · by_cases hgf : g = f
    · subst hgf
      rw [same] at hg ⊢
      exact hown hg
    · rw [other g hgf] at hg ⊢
      exact (hothers g hgf hg).1.trans (h.owner g hg)
  · refine hfree (same ▸ hout f) fun g hg => ?_
    rw [← other g hg]
    exact hout g

/-- Between a C call and the write of `state[0]` that goes with it the two disagree. -/
@[grind =]
def Pc.plain : Pc → Bool
  | .setOwner | .post => false
  | _ => true

/-- A step of one fiber that leaves `state` and the C lock alone. -/
theorem Inv.stay (h : Inv s) (hfits : x.Fits s.count) (hin : x.inside = (s.fiber f).inside)
    (hold : (s.fiber f).pc.plain = true) (hnew : x.pc.plain = true) : Inv (s.set f x) := by
  have notPost : ∀ {y : Fiber}, y.pc.plain = true → y.has = y.inside := by
    intro y hy
    cases hpc : y.pc <;> simp_all [Fiber.has, Pc.plain]
  have notSet : ∀ {y : Fiber}, y.pc.plain = true → y.pc ≠ .setOwner := by
    rintro y hy hpc
    simp [hpc, Pc.plain] at hy
  refine h.change (o := s.owner) (l := s.lock) hfits ?_ ?_ ?_ ?_ h.sem
  · intro g hg hing
    refine ⟨rfl, rfl, ?_⟩
    cases hx : x.inside with
    | false => rfl
    | true => exact absurd (h.alone g f hing (hin ▸ hx)) hg
  · intro hx
    rw [h.owner f (hin ▸ hx), if_neg (notSet hold), if_neg (notSet hnew)]
  · intro hx hout
    refine h.noOwner fun g => ?_
    by_cases hg : g = f
    · rw [hg, ← hin]
      exact hx
    · exact hout g hg
  · rw [notPost hold, notPost hnew, hin]

theorem Inv.goto (h : Inv s) {p : Pc} (hfits : Fiber.Fits { s.fiber f with pc := p } s.count)
    (hin : Fiber.inside { s.fiber f with pc := p } = (s.fiber f).inside)
    (hold : (s.fiber f).pc.plain = true) (hnew : p.plain = true) : Inv (s.goto f p) :=
  h.stay hfits hin hold hnew

theorem Inv.inside_of_owner (h : Inv s) (hf : s.owner = some f) :
    (s.fiber f).inside = true := by
  by_contra hout
  have hall : ∀ g, (s.fiber g).inside = false := by
    intro g
    cases hg : (s.fiber g).inside with
    | false => rfl
    | true =>
      have ho := h.owner g hg
      rw [hf] at ho
      split at ho
      · cases ho
      · cases ho
        exact absurd hg hout
  rw [h.noOwner hall] at hf
  cases hf

/-- A fiber that has been told `True` and looks for itself in `state[0]` finds itself. -/
theorem Inv.owner_of_inside (h : Inv s) (hf : (s.fiber f).inside = true)
    (hpc : (s.fiber f).pc.plain = true) : s.owner = some f := by
  rw [h.owner f hf, if_neg]
  intro hset
  simp [hset, Pc.plain] at hpc

/-- The fiber goes back to the loop, or returns `False`. -/
theorem Inv.missed (h : Inv s) {m m' : Mode}
    (hpc : (s.fiber f).pc = .test m' ∨ (s.fiber f).pc = .cAcquire m') : Inv (s.missed f m) := by
  have hfits := h.fits f
  have hd : (s.fiber f).depth = 0 := by
    rcases hpc with hpc | hpc <;> simpa [Fiber.Fits, hpc] using hfits
  have hin : (s.fiber f).inside = false := by
    rcases hpc with hpc | hpc <;> simp [Fiber.inside, hpc]
  have hplain : (s.fiber f).pc.plain = true := by
    rcases hpc with hpc | hpc <;> simp [Pc.plain, hpc]
  cases m <;>
    exact h.goto (by simp [Fiber.Fits, hd]) (by rw [hin]; simp [Fiber.inside, hd]) hplain rfl

/-! ## Steps that write -/

/-- A write of `state[1]` by the fiber that is inside. -/
theorem Inv.write (h : Inv s) {c : ℤ} (hfits : x.Fits c) (hin : x.inside = true)
    (hold : (s.fiber f).inside = true) (hpc : (s.fiber f).pc.plain = true)
    (hnew : x.pc.plain = true) : Inv (s.change f x s.owner c s.lock) := by
  refine h.change hfits ?_ ?_ ?_ ?_ h.sem
  · intro g hg hing
    exact absurd (h.alone g f hing hold) hg
  · intro _
    rw [h.owner_of_inside hold hpc, if_neg]
    intro hset
    simp [hset, Pc.plain] at hnew
  · intro hx
    rw [hin] at hx
    cases hx
  · simp [Fiber.has, hin, hold]

/-- The C acquire succeeds while nobody is inside. -/
theorem Inv.won (h : Inv s) {l : CLock} {m : Mode} (hpc : (s.fiber f).pc = .cAcquire m)
    (hl : l.count = s.lock.count + 1) (hsound : l.Sound)
    (hout : ∀ g, (s.fiber g).inside = false) : Inv ({ s with lock := l }.goto f .setOwner) := by
  have hd : (s.fiber f).depth = 0 := (h.fits f).depth_of_outside (hout f)
  refine h.change (x := { s.fiber f with pc := .setOwner }) (o := s.owner) (c := s.count) (l := l)
    hd ?_ ?_ ?_ ?_ hsound
  · intro g hg hing
    rw [hout g] at hing
    cases hing
  · intro _
    exact h.noOwner hout
  · intro hx
    cases hx
  · simp [Fiber.has, Fiber.inside, hpc, hl]

/-- `state[0] = cur` -/
theorem Inv.setOwner (h : Inv s) (hpc : (s.fiber f).pc = .setOwner) :
    Inv ({ s with owner := some f }.goto f .setCount) := by
  have hin : (s.fiber f).inside = true := by simp [Fiber.inside, hpc]
  have hd : (s.fiber f).depth = 0 := by simpa [Fiber.Fits, hpc] using h.fits f
  refine h.change (x := { s.fiber f with pc := .setCount }) (o := some f) (c := s.count)
    (l := s.lock) hd ?_ ?_ ?_ ?_ h.sem
  · intro g hg hing
    exact absurd (h.alone g f hing hin) hg
  · intro _
    rfl
  · intro hx
    cases hx
  · simp [Fiber.has, Fiber.inside, hpc]

/-- `state[0] = None` -/
theorem Inv.clear (h : Inv s) (hpc : (s.fiber f).pc = .clear) :
    Inv ({ s with owner := none }.goto f .post) := by
  have hin : (s.fiber f).inside = true := by simp [Fiber.inside, hpc]
  have hd : (s.fiber f).depth = 0 := by simpa [Fiber.Fits, hpc] using h.fits f
  refine h.change (x := { s.fiber f with pc := .post }) (o := none) (c := s.count)
    (l := s.lock) hd ?_ ?_ ?_ ?_ h.sem
  · intro g hg hing
    exact absurd (h.alone g f hing hin) hg
  · intro hx
    cases hx
  · intro _ _
    rfl
  · simp [Fiber.has, Fiber.inside, hpc]

/-- The C release of a fiber that has cleared `state[0]`. -/
theorem Inv.post (h : Inv s) {l : CLock} (hpc : (s.fiber f).pc = .post)
    (hl : l.count + 1 = s.lock.count) (hsound : l.Sound) :
    Inv ({ s with lock := l }.goto f .idle) := by
  have hin : (s.fiber f).inside = false := by simp [Fiber.inside, hpc]
  have hd : (s.fiber f).depth = 0 := by simpa [Fiber.Fits, hpc] using h.fits f
  have hout : Fiber.inside { s.fiber f with pc := .idle } = false := by simp [Fiber.inside, hd]
  refine h.change (x := { s.fiber f with pc := .idle }) (o := s.owner) (c := s.count) (l := l)
    ?_ ?_ ?_ ?_ ?_ hsound
  · simp [Fiber.Fits, hd]
  · intro g hg hing
    exact ⟨rfl, rfl, hout⟩
  · intro hx
    rw [hout] at hx
    cases hx
  · intro _ hothers
    refine h.noOwner fun g => ?_
    by_cases hg : g = f
    · rw [hg, hin]
    · exact hothers g hg
  · simp [Fiber.has, hout, hpc, hl]

/-! ## Steps that read -/

theorem Inv.outside_of_owner (h : Inv s) (hne : s.owner ≠ some f)
    (hpc : (s.fiber f).pc.plain = true) : (s.fiber f).inside = false := by
  cases hin : (s.fiber f).inside with
  | false => rfl
  | true => exact absurd (h.owner_of_inside hin hpc) hne

/-- A fiber outside stays there. -/
theorem Inv.goto_outside (h : Inv s) {p : Pc} (hout : (s.fiber f).inside = false)
    (hpc : (s.fiber f).pc.plain = true)
    (hfits : (s.fiber f).depth = 0 → Fiber.Fits { s.fiber f with pc := p } s.count)
    (hin : (s.fiber f).depth = 0 → Fiber.inside { s.fiber f with pc := p } = false)
    (hnew : p.plain = true) : Inv (s.goto f p) := by
  have hd := (h.fits f).depth_of_outside hout
  exact h.goto (hfits hd) ((hin hd).trans hout.symm) hpc hnew

/-- A fiber inside stays there. -/
theorem Inv.goto_inside (h : Inv s) {p : Pc} (hold : (s.fiber f).inside = true)
    (hpc : (s.fiber f).pc.plain = true)
    (hfits : Fiber.Fits { s.fiber f with pc := p } s.count)
    (hin : Fiber.inside { s.fiber f with pc := p } = true) (hnew : p.plain = true) :
    Inv (s.goto f p) :=
  h.goto hfits (hin.trans hold.symm) hpc hnew

theorem Inv.look (h : Inv s) {m : Mode} (hpc : (s.fiber f).pc = .look m) :
    Inv (if s.owner = none then s.goto f (.test m) else s.goto f (.compare m)) := by
  have hplain : (s.fiber f).pc.plain = true := by simp [hpc, Pc.plain]
  have hfits := h.fits f
  simp only [Fiber.Fits, hpc] at hfits
  split
  · rename_i hnone
    have hout := h.outside_of_owner (f := f) (by simp [hnone]) hplain
    exact h.goto_outside hout hplain (fun hd => hd) (fun _ => rfl) rfl
  · exact h.goto hfits (by simp [Fiber.inside, hpc]) hplain rfl

theorem Inv.compare (h : Inv s) {m : Mode} (hpc : (s.fiber f).pc = .compare m) :
    Inv (if s.owner = some f then s.goto f .bumpRead else s.goto f (.test m)) := by
  have hplain : (s.fiber f).pc.plain = true := by simp [hpc, Pc.plain]
  have hfits := h.fits f
  simp only [Fiber.Fits, hpc] at hfits
  split
  · rename_i howner
    have hin := h.inside_of_owner howner
    have hd : 0 < (s.fiber f).depth := by simpa [Fiber.inside, hpc] using hin
    exact h.goto_inside hin hplain ⟨hd, hfits hd⟩ rfl rfl
  · rename_i hne
    exact h.goto_outside (h.outside_of_owner hne hplain) hplain (fun hd => hd) (fun _ => rfl) rfl

theorem Inv.relLook (h : Inv s) {held : Bool} (hpc : (s.fiber f).pc = .relLook held) :
    Inv (if s.owner = none then s.goto f (.raw held) else s.goto f (.relCompare held)) := by
  have hplain : (s.fiber f).pc.plain = true := by simp [hpc, Pc.plain]
  have hfits := h.fits f
  simp only [Fiber.Fits, hpc] at hfits
  split
  · rename_i hnone
    have hout := h.outside_of_owner (f := f) (by simp [hnone]) hplain
    have hheld : held = false := by simpa [Fiber.inside, hpc] using hout
    exact h.goto_outside hout hplain (fun hd => ⟨hd, hheld⟩) (fun _ => rfl) rfl
  · exact h.goto hfits (by simp [Fiber.inside, hpc]) hplain rfl

theorem Inv.relCompare (h : Inv s) {held : Bool} (hpc : (s.fiber f).pc = .relCompare held) :
    Inv (if s.owner = some f then s.goto f .relRead else s.goto f (.raw held)) := by
  have hplain : (s.fiber f).pc.plain = true := by simp [hpc, Pc.plain]
  have hfits := h.fits f
  simp only [Fiber.Fits, hpc] at hfits
  split
  · rename_i howner
    have hin := h.inside_of_owner howner
    have hheld : held = true := by simpa [Fiber.inside, hpc] using hin
    rw [if_pos hheld] at hfits
    exact h.goto_inside hin hplain hfits rfl rfl
  · rename_i hne
    have hout := h.outside_of_owner hne hplain
    have hheld : held = false := by simpa [Fiber.inside, hpc] using hout
    exact h.goto_outside hout hplain (fun hd => ⟨hd, hheld⟩) (fun _ => rfl) rfl

theorem Inv.relZero (h : Inv s) (hpc : (s.fiber f).pc = .relZero) :
    Inv (if s.count = 0 then s.goto f .clear else s.goto f .idle) := by
  have hplain : (s.fiber f).pc.plain = true := by simp [hpc, Pc.plain]
  have hin : (s.fiber f).inside = true := by simp [Fiber.inside, hpc]
  have hfits := h.fits f
  simp only [Fiber.Fits, hpc] at hfits
  split
  · rename_i hzero
    have hd : (s.fiber f).depth = 0 := by omega
    exact h.goto_inside hin hplain hd rfl rfl
  · rename_i hne
    have hd : 0 < (s.fiber f).depth := by omega
    exact h.goto_inside hin hplain (fun _ => hfits) (by simp [Fiber.inside, hd]) rfl

/-! ## Every step -/

/-- The C calls. -/
theorem Inv.cAcquire (h : Inv s) {m : Mode} (hpc : (s.fiber f).pc = .cAcquire m)
    (hok : s.lock.isMine (s.fiber f).hub = true → ∀ g, (s.fiber g).inside = false)
    (ht : s.exec f = some t) : Inv t := by
  simp only [State.exec, hpc] at ht
  split at ht
  · rename_i l hl
    cases ht
    obtain ⟨hcount, hsound, hwhy⟩ := CLock.acquire_true h.sem hl
    refine h.won hpc hcount hsound ?_
    rcases hwhy with hmine | hzero
    · exact hok hmine
    · -- with a count of 0 no fiber has a C acquire to its name
      intro g
      obtain ⟨L, hL, hcard⟩ := h.tally
      have hempty : L = ∅ := Finset.card_eq_zero.mp (hcard.symm.trans hzero)
      cases hin : (s.fiber g).inside with
      | false => rfl
      | true =>
        have : g ∈ L := (hL g).mpr (by simp [Fiber.has, hin])
        simp [hempty] at this
  · rename_i l hl
    cases ht
    obtain rfl := CLock.acquire_false hl
    exact h.missed (.inr hpc)

theorem Inv.exec (h : Inv s) (hok : ThreadAgrees s (.run f)) (ht : s.exec f = some t) :
    Inv t := by
  have hfits := h.fits f
  cases hpc : (s.fiber f).pc with
  | cAcquire m => exact h.cAcquire hpc (by simpa [ThreadAgrees, hpc] using hok) ht
  | raw held =>
    have hmine : s.lock.isMine (s.fiber f).hub = false := by simpa [ThreadAgrees, hpc] using hok
    have hrel : s.lock.release (s.fiber f).hub = none := by simp [CLock.release, hmine]
    simp only [Fiber.Fits, hpc] at hfits
    simp only [State.exec, hpc, hrel, hfits.2, Bool.false_eq_true, if_false] at ht
    cases ht
    exact h.goto (by simp [Fiber.Fits, hfits.1]) (by simp [Fiber.inside, hpc, hfits.1])
      (by simp [hpc, Pc.plain]) rfl
  | post =>
    have hmine : s.lock.isMine (s.fiber f).hub = true := by simpa [ThreadAgrees, hpc] using hok
    obtain ⟨l, hrel, hcount, hsound⟩ := CLock.release_mine h.sem hmine
    simp only [State.exec, hpc, hrel] at ht
    cases ht
    exact h.post hpc hcount hsound
  | idle => simp [State.exec, hpc] at ht
  | look m =>
    simp only [State.exec, hpc, Option.some.injEq] at ht
    exact ht ▸ h.look hpc
  | compare m =>
    simp only [State.exec, hpc, Option.some.injEq] at ht
    exact ht ▸ h.compare hpc
  | test m =>
    simp only [State.exec, hpc, Option.some.injEq] at ht
    simp only [Fiber.Fits, hpc] at hfits
    subst ht
    split
    · exact h.goto hfits (by simp [Fiber.inside, hpc]) (by simp [hpc, Pc.plain]) rfl
    · exact h.missed (.inl hpc)
  | relLook held =>
    simp only [State.exec, hpc, Option.some.injEq] at ht
    exact ht ▸ h.relLook hpc
  | relCompare held =>
    simp only [State.exec, hpc, Option.some.injEq] at ht
    exact ht ▸ h.relCompare hpc
  | relZero =>
    simp only [State.exec, hpc, Option.some.injEq] at ht
    exact ht ▸ h.relZero hpc
  | setOwner =>
    simp only [State.exec, hpc, Option.some.injEq] at ht
    exact ht ▸ h.setOwner hpc
  | clear =>
    simp only [State.exec, hpc, Option.some.injEq] at ht
    exact ht ▸ h.clear hpc
  | backoff m | asleep m =>
    simp only [State.exec, hpc, Option.some.injEq] at ht
    simp only [Fiber.Fits, hpc] at hfits
    subst ht
    exact h.goto hfits (by simp [Fiber.inside, hpc]) (by simp [hpc, Pc.plain]) rfl
  | bumpRead =>
    simp only [State.exec, hpc, Option.some.injEq] at ht
    simp only [Fiber.Fits, hpc] at hfits
    subst ht
    exact h.goto ⟨hfits.1, hfits.2, rfl⟩ (by simp [Fiber.inside, hpc])
      (by simp [hpc, Pc.plain]) rfl
  | relRead =>
    simp only [State.exec, hpc, Option.some.injEq] at ht
    simp only [Fiber.Fits, hpc] at hfits
    subst ht
    exact h.goto ⟨hfits, rfl⟩ (by simp [Fiber.inside, hpc]) (by simp [hpc, Pc.plain]) rfl
  | bumpWrite n =>
    simp only [State.exec, hpc, Option.some.injEq] at ht
    simp only [Fiber.Fits, hpc] at hfits
    subst ht
    refine h.write (x := { s.fiber f with pc := .idle, depth := (s.fiber f).depth + 1 }) ?_
      (by simp [Fiber.inside]) (by simp [Fiber.inside, hpc]) (by simp [hpc, Pc.plain]) rfl
    intro _
    simp only [Int.natCast_add]
    omega
  | setCount =>
    simp only [State.exec, hpc, Option.some.injEq] at ht
    simp only [Fiber.Fits, hpc] at hfits
    subst ht
    refine h.write (x := { s.fiber f with pc := .idle, depth := (s.fiber f).depth + 1 }) ?_
      (by simp [Fiber.inside]) (by simp [Fiber.inside, hpc]) (by simp [hpc, Pc.plain]) rfl
    intro _
    simp [hfits]
  | relWrite n =>
    simp only [State.exec, hpc, Option.some.injEq] at ht
    simp only [Fiber.Fits, hpc] at hfits
    subst ht
    refine h.write (x := { s.fiber f with pc := .relZero }) ?_
      (by simp [Fiber.inside]) (by simp [Fiber.inside, hpc]) (by simp [hpc, Pc.plain]) rfl
    simp only [Fiber.Fits]
    omega

theorem Inv.step {a : Action} (h : Inv s) (hok : ThreadAgrees s a) (ht : step s a = some t) :
    Inv t := by
  cases a with
  | run f => exact h.exec hok ht
  | acquire f m =>
    obtain ⟨hpc, ht⟩ := Option.ite_none_right_eq_some.mp ht
    cases ht
    have hfits := h.fits f
    simp only [Fiber.Fits, hpc] at hfits
    exact h.goto hfits (by simp [Fiber.inside, hpc]) (by simp [hpc, Pc.plain]) rfl
  | release f =>
    obtain ⟨hpc, ht⟩ := Option.ite_none_right_eq_some.mp ht
    cases ht
    have hfits := h.fits f
    simp only [Fiber.Fits, hpc] at hfits
    refine h.stay ?_ (by simp [Fiber.inside, hpc]) (by simp [hpc, Pc.plain]) rfl
    simp only [Fiber.Fits, decide_eq_true_eq]
    split
    · rename_i hd
      have := hfits hd
      omega
    · omega
  | expire f =>
    obtain ⟨hpc, ht⟩ := Option.ite_none_right_eq_some.mp ht
    cases ht
    have hd : (s.fiber f).depth = 0 := by simpa [Fiber.Fits, hpc] using h.fits f
    exact h.goto (by simp [Fiber.Fits, hd]) (by simp [Fiber.inside, hpc, hd])
      (by simp [hpc, Pc.plain]) rfl
  | move f hub =>
    obtain ⟨hpc, ht⟩ := Option.ite_none_right_eq_some.mp ht
    cases ht
    have hplain : (s.fiber f).pc.plain = true := by
      cases hp : (s.fiber f).pc <;> simp_all [Pc.parks, Pc.plain]
    exact h.stay (h.fits f) rfl hplain hplain

theorem start_inv (hubs : ℕ → ℕ) : Inv (start hubs) where
  fits _ := by simp [start, Fiber.Fits]
  alone f g hf _ := by simp [start, Fiber.inside] at hf
  owner f hf := by simp [start, Fiber.inside] at hf
  noOwner _ := rfl
  tally := ⟨∅, by simp [start, Fiber.has, Fiber.inside], rfl⟩
  sem := rfl
  released := rfl

/-! ## What the lock promises -/

theorem Fiber.Fits.inside_of_depth (h : x.Fits c) (hd : 0 < x.depth) : x.inside = true := by
  by_contra hin
  have := h.depth_of_outside (Bool.not_eq_true _ ▸ hin)
  omega

theorem Inv.kept (h : Inv s) : Kept s := by
  have hin (f : ℕ) (hd : 0 < (s.fiber f).depth) : (s.fiber f).inside = true :=
    (h.fits f).inside_of_depth hd
  refine
    { alone := fun f g hf hg => h.alone f g (hin f hf) (hin g hg)
      released := h.released, taken := fun f hd => ⟨?_, ?_⟩
      counted := fun f hpc hd => ?_, free := fun hall => ?_ }
  · refine (h.owner f (hin f hd)).trans (if_neg fun hset => ?_)
    have := h.fits f
    simp only [Fiber.Fits, hset] at this
    omega
  · obtain ⟨L, hL, hcard⟩ := h.tally
    have hmem : f ∈ L := (hL f).mpr (by simp [Fiber.has, hin f hd])
    have hpos : s.lock.count ≠ 0 := hcard ▸ Finset.card_ne_zero_of_mem hmem
    simpa [CLock.Sound, hpos] using h.sem
  · have hfits := h.fits f
    simp only [Fiber.Fits, hpc] at hfits
    exact hfits hd
  · have hnone (f : ℕ) : (s.fiber f).has = false := by
      obtain ⟨hd, hbusy⟩ := hall f
      have hfits := h.fits f
      unfold Fiber.Fits at hfits
      cases hpc : (s.fiber f).pc <;> simp_all [Fiber.has, Fiber.inside, Pc.busy]
    have hout (f : ℕ) : (s.fiber f).inside = false := by
      have := hnone f
      simp only [Fiber.has, Bool.or_eq_false_iff] at this
      exact this.1
    obtain ⟨L, hL, hcard⟩ := h.tally
    have hempty : L = ∅ := by
      refine Finset.eq_empty_of_forall_notMem fun f hf => ?_
      have := (hL f).mp hf
      rw [hnone f] at this
      cases this
    have hzero : s.lock.count = 0 := by rw [hcard, hempty, Finset.card_empty]
    exact ⟨h.noOwner hout, hzero, by simpa [CLock.Sound, hzero] using h.sem⟩

open Classical in
/-- **The lock keeps its promises in every run in which fiber and thread agree** at each C call. -/
theorem semlock_agrees (h : Reachable (system.restrict ThreadAgrees) s) : Kept s := by
  refine Inv.kept (h.invariant ?_ fun s a t _ hs hstep => ?_)
  · rintro s ⟨hubs, rfl⟩
    exact start_inv hubs
  · obtain ⟨hok, hstep⟩ := System.restrict_step.mp hstep
    exact hs.step hok hstep

open Classical in
/-- A fiber takes the lock, goes to another hub and back, and releases it. -/
theorem semlock_agrees_once : ∃ s, Reachable (system.restrict ThreadAgrees) s ∧
    (s.fiber 0).depth = 0 ∧ s.lock.sem = 1 ∧ Kept s := by
  have begun : Reachable (system.restrict ThreadAgrees) (start fun _ => 0) := .start ⟨_, rfl⟩
  -- `acquire`: the two reads, the C call, the two writes
  have h₁ := begun.restrict_next (.acquire 0 .block) trivial rfl
  have h₂ := h₁.restrict_next (.run 0) trivial rfl
  have h₃ := h₂.restrict_next (.run 0) trivial rfl
  have h₄ := h₃.restrict_next (.run 0) (fun h => by cases h) rfl
  have h₅ := h₄.restrict_next (.run 0) trivial rfl
  have h₆ := h₅.restrict_next (.run 0) trivial rfl
  have h₇ := h₆.restrict_next (.move 0 1) trivial rfl
  have h₈ := h₇.restrict_next (.move 0 0) trivial rfl
  -- `release`: the reads and writes of `state`, then the C call
  have k₁ := h₈.restrict_next (.release 0) trivial rfl
  have k₂ := k₁.restrict_next (.run 0) trivial rfl
  have k₃ := k₂.restrict_next (.run 0) trivial rfl
  have k₄ := k₃.restrict_next (.run 0) trivial rfl
  have k₅ := k₄.restrict_next (.run 0) trivial rfl
  have k₆ := k₅.restrict_next (.run 0) trivial rfl
  have k₇ := k₆.restrict_next (.run 0) trivial rfl
  have free := k₇.restrict_next (.run 0) rfl rfl
  exact ⟨_, free, rfl, rfl, semlock_agrees free⟩

/-- The `acquire` of a fiber, with the C call and without the writes. -/
def enter (f : ℕ) : List Action := [.acquire f .block, .run f, .run f, .run f]

/-- The last `release` of a fiber. -/
def leave (f : ℕ) : List Action := .release f :: List.replicate 7 (.run f)

/-- A holder that has moved to another hub cannot release: `state` says free, the semaphore stays
down. A sibling on the hub re-enters the C lock before the winner is written down, and both hold
it. A sibling that does not hold the lock releases it, and the holder cannot. -/
theorem semlock_disagrees :
    (∃ s, system.run (start fun _ => 0)
        (enter 0 ++ [.run 0, .run 0, .move 0 1] ++ leave 0) = some s ∧
      s.refused = [0] ∧ s.owner = none ∧ (s.fiber 0).depth = 0 ∧ (s.fiber 0).pc = .idle ∧
      s.lock.sem = 0) ∧
    (∃ s, system.run (start fun _ => 0)
        (enter 0 ++ enter 1 ++ [.run 0, .run 0, .run 1, .run 1]) = some s ∧
      (s.fiber 0).depth = 1 ∧ (s.fiber 1).depth = 1) ∧
    ∃ s, system.run (start fun _ => 0)
        (enter 0 ++ [.run 0, .run 0, .release 1, .run 1, .run 1, .run 1] ++ leave 0) = some s ∧
      s.refused = [0] :=
  ⟨⟨_, rfl, rfl, rfl, rfl, rfl, rfl⟩, ⟨_, rfl, rfl, rfl⟩, ⟨_, rfl, rfl⟩⟩

end Stackweave.Monkey.SemLock
