import Mathlib.Data.List.Basic
import Mathlib.Data.Nat.Notation
import Stackweave.Transition

/-!
# Arming one fd in epoll (`runloom_netpoll_register`, `runloom_epoll_handle_event`)

Any number of `wait_fd` calls and pumps work on one fd. A direction is armed in
one epoll instance at a time: the one of the hub pool that registered the fd
first, or the shared one once a second pool wanted it. The arm cache lets a
later call skip `epoll_ctl`; a pump that finds nobody to wake sets a pending
bit, disarms the direction and dispatches again. Each step below is one of the
sections the code runs under a lock, or one atomic access.

The second dispatch wakes a single waiter, so two waiters that skipped the
registration before the disarm are not both served (`waiter_stranded`).
`not_stranded` is the protocol without such a dispatch.
-/

namespace Stackweave.Netpoll.Arm

open Transition

inductive Dir
  | read
  | write
  deriving DecidableEq

/-- A set of directions (`RUNLOOM_NETPOLL_READ | RUNLOOM_NETPOLL_WRITE`). -/
abbrev Mask := Dir → Bool

namespace Mask

def none : Mask := fun _ => false

def only (d : Dir) : Mask := fun x => x == d

def both : Mask := fun _ => true

def union (a b : Mask) : Mask := fun d => a d || b d

def without (a : Mask) (d : Dir) : Mask := fun x => a x && x != d

def isEmpty (a : Mask) : Bool := !a .read && !a .write

def meets (a b : Mask) : Bool := a .read && b .read || a .write && b .write

def le (a b : Mask) : Bool := (!a .read || b .read) && (!a .write || b .write)

end Mask

/-- Where a `wait_fd` call stands; each constructor names what it does next. -/
inductive WaiterPc
  | pending
  | register
  | wakeAll
  | pendingAgain
  | commit
  | parked
  | leave
  | returned
  deriving DecidableEq

structure Waiter where
  events : Mask
  pool : ℕ
  claimed : Bool
  pc : WaiterPc

/-- A pump in `runloom_epoll_handle_event`, with the mask of the event. -/
inductive Pump
  | dispatch (mask : Mask)
  | setPending (mask : Mask)
  | disarmOut (mask : Mask)
  | redispatchOut (mask : Mask)
  | disarmIn
  | redispatchIn
  | done

/-- An epoll instance: that of a pool, or the shared one (`none`). -/
abbrev Instance := Option ℕ

/-- `armed` is `runloom_fd_armed`, `owner` is `runloom_fd_epoll_pool` (`none`
for -1), `kernel` the event set of the fd in each instance, and `ready` what
the kernel would report. `bucket` is `by_fd[fd]` of each pool, newest first. -/
structure State where
  armed : Mask
  owner : Instance
  kernel : Instance → Mask
  ready : Mask
  pending : Mask
  bucket : ℕ → List ℕ
  waiters : List Waiter
  pumps : List Pump

/-- The fd before its first use. -/
def init : State :=
  { armed := .none, owner := none, kernel := fun _ => .none, ready := .none, pending := .none,
    bucket := fun _ => [], waiters := [], pumps := [] }

inductive Action
  | setReady (mask : Mask)
  | link (events : Mask) (pool : ℕ)
  | waiter (i : ℕ) (ok : Bool)
  | cancel (i : ℕ)
  | event (e : Instance) (mask : Mask)
  | pump (p : ℕ)

variable (pools : ℕ) (backend : ℕ → Bool)

def State.setPc (s : State) (i : ℕ) (pc : WaiterPc) : State :=
  { s with waiters := s.waiters.modify i fun w => { w with pc := pc } }

def State.setPump (s : State) (p : ℕ) (c : Pump) : State :=
  { s with pumps := s.pumps.set p c }

/-- `epoll_ctl` on one instance. -/
def State.ctl (s : State) (e : Instance) (m : Mask) : State :=
  { s with kernel := fun x => if x = e then m else s.kernel x }

/-- `runloom_parker_unlink`. -/
def State.unlink (s : State) (i pool : ℕ) : State :=
  { s with bucket := fun x => if x = pool then (s.bucket x).erase i else s.bucket x }

/-- The waiters in the order in which `runloom_pump_dispatch_event` meets them. -/
def State.linked (s : State) : List ℕ := (List.range pools).flatMap s.bucket

def State.matching (s : State) (mask : Mask) (i : ℕ) : Bool :=
  match s.waiters[i]? with
  | some w => w.events.meets mask && !w.claimed
  | none => false

/-- The first waiter a dispatch of `mask` claims. -/
def State.firstMatch (s : State) (mask : Mask) : Option ℕ :=
  (s.linked pools).find? (s.matching mask)

/-- A claimer takes the waiter out of its bucket; a parked one is re-queued and
returns on its own. -/
def State.claim (s : State) (i : ℕ) : State :=
  match s.waiters[i]? with
  | some w =>
    { s with waiters := s.waiters.modify i fun w => { w with claimed := true } }.unlink i w.pool
  | none => s

/-- `runloom_pump_dispatch_event(fd, mask, wake_all = 0)`. -/
def dispatch (s : State) (mask : Mask) : State × Bool :=
  match s.firstMatch pools mask with
  | some i => (s.claim i, true)
  | none => (s, false)

/-- `runloom_pump_dispatch_event(fd, READ | WRITE, wake_all = 1)`. -/
def dispatchAll (s : State) : State :=
  ((s.linked pools).filter (s.matching .both)).foldl State.claim s

/-- `runloom_fd_pending_wake_consume`: takes the bits of `events` and, when one
was set, asks the kernel whether the fd is ready. -/
def State.consume (s : State) (events : Mask) : State × Bool :=
  ({ s with pending := fun d => s.pending d && !events d },
    s.pending.meets events && s.ready.meets events)

/-- The instance a hub registers in: that of its pool if it came up, else the
shared one. -/
def mine (w : Waiter) : Instance := if backend w.pool then some w.pool else none

/-- `runloom_netpoll_register` on behalf of waiter `i`; `ok` is whether the
`epoll_ctl` it makes succeeds. -/
def register (s : State) (i : ℕ) (w : Waiter) (ok : Bool) : State :=
  let target := s.armed.union w.events
  if s.armed.isEmpty then
    if ok then
      ({ s with armed := target, owner := mine backend w }.ctl (mine backend w) target).setPc i
        .pendingAgain
    else { s with owner := none }.setPc i .leave
  else if s.owner ≠ none ∧ s.owner ≠ mine backend w then
    -- a second pool wants the fd: move it to the shared instance
    let t := s.ctl s.owner .none
    if ok then
      ({ t with armed := target, owner := none }.ctl none target).setPc i .pendingAgain
    else { t with armed := .none, owner := none }.setPc i .wakeAll
  else if w.events.le s.armed then s.setPc i .pendingAgain
  else if ok then ({ s with armed := target }.ctl s.owner target).setPc i .pendingAgain
  else s.setPc i .leave

/-- The next step of `wait_fd` call `i`. -/
def waiterStep (s : State) (i : ℕ) (ok : Bool) : Option State :=
  match s.waiters[i]? with
  | none => none
  | some w =>
    match w.pc with
    | .pending =>
      let (t, found) := s.consume w.events
      some (t.setPc i (if found then .leave else .register))
    | .register => some (register backend s i w ok)
    | .wakeAll => some ((dispatchAll pools s).setPc i .leave)
    | .pendingAgain =>
      let (t, found) := s.consume w.events
      some (t.setPc i (if found then .leave else .commit))
    | .commit => some (s.setPc i (if w.claimed then .leave else .parked))
    | .parked => if w.claimed then some (s.setPc i .returned) else none
    | .leave => some ((s.setPc i .returned).unlink i w.pool)
    | .returned => none

/-- `runloom_netpoll_disarm_out` and `runloom_netpoll_disarm_in`. -/
def disarm (s : State) (d : Dir) : State :=
  if s.armed d then
    let rest := s.armed.without d
    if rest.isEmpty then { s with armed := rest, owner := none }.ctl s.owner .none
    else { s with armed := rest }.ctl s.owner rest
  else s

def afterOut (mask : Mask) : Pump := if mask .read then .disarmIn else .done

/-- The next step of pump `p`. -/
def pumpStep (s : State) (p : ℕ) : Option State :=
  match s.pumps[p]? with
  | none => none
  | some c =>
    match c with
    | .dispatch mask =>
      let (t, woke) := dispatch pools s mask
      some (t.setPump p (if woke then .done else .setPending mask))
    | .setPending mask =>
      some ({ s with pending := s.pending.union mask }.setPump p
        (if mask .write then .disarmOut mask else afterOut mask))
    | .disarmOut mask => some ((disarm s .write).setPump p (.redispatchOut mask))
    | .redispatchOut mask => some ((dispatch pools s (.only .write)).1.setPump p (afterOut mask))
    | .disarmIn => some ((disarm s .read).setPump p .redispatchIn)
    | .redispatchIn => some ((dispatch pools s (.only .read)).1.setPump p .done)
    | .done => none

@[grind =]
def step (s : State) : Action → Option State
  | .setReady mask => some { s with ready := mask }
  | .link events pool =>
    if pool < pools then
      some { s with
        waiters := s.waiters ++ [⟨events, pool, false, .pending⟩]
        bucket := fun x => if x = pool then s.waiters.length :: s.bucket x else s.bucket x }
    else none
  | .waiter i ok => waiterStep pools backend s i ok
  -- expiry, cancellation, a drain or a signal claims a linked waiter
  | .cancel i => if i ∈ s.linked pools then some (s.claim i) else none
  | .event e mask =>
    if !mask.isEmpty && mask.le s.ready && !(s.kernel e).isEmpty then
      some { s with pumps := s.pumps ++ [.dispatch mask] }
    else none
  | .pump p => pumpStep pools s p

def system : System State Action where
  init s := s = init
  step := step pools backend

/-! ## The arm cache and the kernel -/

theorem isEmpty_iff {m : Mask} : m.isEmpty = true ↔ ∀ d, m d = false := by
  constructor
  · intro h d
    simp only [Mask.isEmpty, Bool.and_eq_true, Bool.not_eq_true'] at h
    cases d
    · exact h.1
    · exact h.2
  · intro h
    simp [Mask.isEmpty, h]

variable {d : Dir} {w : Waiter} {i p : ℕ} {pc : WaiterPc} {c c' : Pump}

theorem meets_of {a b : Mask} (ha : a d = true) (hb : b d = true) :
    a.meets b = true := by
  cases d <;> simp [Mask.meets, ha, hb]

theorem le_of {a b : Mask} (h : a.le b = true) (ha : a d = true) : b d = true := by
  simp only [Mask.le, Bool.and_eq_true, Bool.or_eq_true, Bool.not_eq_true'] at h
  cases d
  · exact h.1.resolve_left (by simp [ha])
  · exact h.2.resolve_left (by simp [ha])

/-- The kernel has the cached mask in the owner's instance and nothing anywhere
else. -/
def CacheExact (s : State) : Prop := ∀ e d, s.kernel e d = (decide (e = s.owner) && s.armed d)

variable {pools : ℕ} {backend : ℕ → Bool} {s t : State}

theorem register_cacheExact (hc : CacheExact s) (i : ℕ) (w : Waiter) (ok : Bool) :
    CacheExact (register backend s i w ok) := by
  intro e d
  have he := hc e d
  unfold register
  simp only
  split
  · next hempty =>
    have harm := isEmpty_iff.mp hempty
    split
    · by_cases heq : e = mine backend w
      · simp [State.setPc, State.ctl, heq]
      · simp [State.setPc, State.ctl, heq, he, harm]
    · simp [State.setPc, he, harm]
  · split
    · split
      · by_cases heq : e = none
        · simp [State.setPc, State.ctl, heq]
        · by_cases ho : e = s.owner
          · subst ho
            simp [State.setPc, State.ctl, heq, Mask.none]
          · simp [State.setPc, State.ctl, heq, ho, he]
      · by_cases ho : e = s.owner
        · simp [State.setPc, State.ctl, ho, Mask.none]
        · simp [State.setPc, State.ctl, ho, he, Mask.none]
    · split
      · exact he
      · split
        · by_cases ho : e = s.owner
          · simp [State.setPc, State.ctl, ho]
          · simp [State.setPc, State.ctl, ho, he]
        · exact he

theorem disarm_cacheExact (hc : CacheExact s) (d : Dir) : CacheExact (disarm s d) := by
  intro e x
  have he := hc e x
  unfold disarm
  split
  · simp only
    split
    · next hempty =>
      have hrest := isEmpty_iff.mp hempty
      by_cases ho : e = s.owner
      · simp [State.ctl, ho, hrest, Mask.none]
      · simp [State.ctl, ho, hrest, he]
    · by_cases ho : e = s.owner
      · simp [State.ctl, ho]
      · simp [State.ctl, ho, he]
  · exact he

/-! ## Claims -/

/-- `t` is `s` with some waiters claimed and taken out of their buckets. -/
structure Claims (s t : State) : Prop where
  armed : t.armed = s.armed
  owner : t.owner = s.owner
  kernel : t.kernel = s.kernel
  pumps : t.pumps = s.pumps
  before : ∀ (j : ℕ) (w' : Waiter), t.waiters[j]? = some w' →
    ∃ w : Waiter, s.waiters[j]? = some w ∧ w'.pc = w.pc ∧ w'.events = w.events ∧ w'.pool = w.pool ∧
      (w.claimed = true → w'.claimed = true)
  after : ∀ (j : ℕ) (w : Waiter), s.waiters[j]? = some w →
    ∃ w' : Waiter, t.waiters[j]? = some w' ∧ w'.pc = w.pc
  bucket : ∀ (j : ℕ) (w' : Waiter), t.waiters[j]? = some w' → w'.claimed = false →
    j ∈ s.bucket w'.pool → j ∈ t.bucket w'.pool

theorem Claims.refl (s : State) : Claims s s :=
  ⟨rfl, rfl, rfl, rfl, fun _ w h => ⟨w, h, rfl, rfl, rfl, id⟩, fun _ w h => ⟨w, h, rfl⟩,
    fun _ _ _ _ h => h⟩

theorem Claims.trans {s t u : State} (h : Claims s t) (k : Claims t u) : Claims s u := by
  refine ⟨k.armed.trans h.armed, k.owner.trans h.owner, k.kernel.trans h.kernel,
    k.pumps.trans h.pumps, ?_, ?_, ?_⟩
  · intro j w'' hw''
    obtain ⟨w', hw', hpc', hev', hpool', hcl'⟩ := k.before j w'' hw''
    obtain ⟨w, hw, hpc, hev, hpool, hcl⟩ := h.before j w' hw'
    exact ⟨w, hw, hpc'.trans hpc, hev'.trans hev, hpool'.trans hpool, fun hc => hcl' (hcl hc)⟩
  · intro j w hw
    obtain ⟨w', hw', hpc⟩ := h.after j w hw
    obtain ⟨w'', hw'', hpc'⟩ := k.after j w' hw'
    exact ⟨w'', hw'', hpc'.trans hpc⟩
  · intro j w'' hw'' hc hmem
    obtain ⟨w', hw', -, -, hpool, hcl⟩ := k.before j w'' hw''
    apply k.bucket j w'' hw'' hc
    rw [hpool] at hmem ⊢
    apply h.bucket j w' hw' ?_ hmem
    cases hw : w'.claimed with
    | false => rfl
    | true => exact absurd (hcl hw) (by simp [hc])

theorem claim_waiters (s : State) (i j : ℕ) :
    (s.claim i).waiters[j]? =
      if i = j then (s.waiters[j]?).map fun w => { w with claimed := true }
      else s.waiters[j]? := by
  unfold State.claim
  split
  · next w hw =>
    simp only [State.unlink, List.getElem?_modify]
    split <;> simp
  · next hw =>
    split
    · next hij => simp [← hij, hw]
    · rfl

theorem claim_claims (s : State) (i : ℕ) : Claims s (s.claim i) := by
  have hframe : (s.claim i).armed = s.armed ∧ (s.claim i).owner = s.owner ∧
      (s.claim i).kernel = s.kernel ∧ (s.claim i).pumps = s.pumps := by
    unfold State.claim
    split <;> exact ⟨rfl, rfl, rfl, rfl⟩
  refine ⟨hframe.1, hframe.2.1, hframe.2.2.1, hframe.2.2.2, ?_, ?_, ?_⟩
  · intro j w' hw'
    rw [claim_waiters] at hw'
    split at hw'
    · obtain ⟨w, hw, rfl⟩ := Option.map_eq_some_iff.mp hw'
      exact ⟨w, hw, rfl, rfl, rfl, fun _ => rfl⟩
    · exact ⟨w', hw', rfl, rfl, rfl, id⟩
  · intro j w hw
    rw [claim_waiters]
    split
    · exact ⟨{ w with claimed := true }, by rw [hw]; rfl, rfl⟩
    · exact ⟨w, hw, rfl⟩
  · intro j w' hw' hc hmem
    have hij : i ≠ j := by
      rintro rfl
      rw [claim_waiters, if_pos rfl] at hw'
      obtain ⟨w, -, rfl⟩ := Option.map_eq_some_iff.mp hw'
      simp at hc
    unfold State.claim
    split
    · simp only [State.unlink]
      split
      · exact (List.mem_erase_of_ne (Ne.symm hij)).mpr hmem
      · exact hmem
    · exact hmem

theorem foldl_claims (l : List ℕ) (s : State) : Claims s (l.foldl State.claim s) := by
  induction l generalizing s with
  | nil => exact Claims.refl s
  | cons i l ih => exact (claim_claims s i).trans (ih (s.claim i))

theorem foldl_claimed {l : List ℕ} {s : State} {j : ℕ} (hj : j ∈ l)
    (h : (l.foldl State.claim s).waiters[j]? = some w) : w.claimed = true := by
  induction l generalizing s with
  | nil => cases hj
  | cons i l ih =>
    by_cases hjl : j ∈ l
    · exact ih hjl h
    · have hij : i = j := ((List.mem_cons.mp hj).resolve_right hjl).symm
      obtain ⟨w', hw', -, -, -, hcl⟩ := (foldl_claims l (s.claim i)).before j w h
      rw [claim_waiters, if_pos hij] at hw'
      obtain ⟨w₀, -, rfl⟩ := Option.map_eq_some_iff.mp hw'
      exact hcl rfl

theorem dispatch_claims (s : State) (mask : Mask) : Claims s (dispatch pools s mask).1 := by
  unfold dispatch
  split
  · exact claim_claims s _
  · exact Claims.refl s

theorem Claims.cacheExact (h : Claims s t) (hc : CacheExact s) : CacheExact t := by
  intro e d
  rw [h.kernel, h.owner, h.armed]
  exact hc e d

/-! ## Unclaimed waiters are linked -/

/-- An unclaimed `wait_fd` call that has not returned is in the bucket of its
pool. -/
def Linked (pools : ℕ) (s : State) : Prop :=
  ∀ (i : ℕ) (w : Waiter), s.waiters[i]? = some w → w.claimed = false → w.pc ≠ .returned →
    w.pool < pools ∧ i ∈ s.bucket w.pool

theorem Claims.linked (h : Claims s t) (hl : Linked pools s) : Linked pools t := by
  intro i w' hw' hc hpc
  obtain ⟨w, hw, hpc', -, hpool, hcl⟩ := h.before i w' hw'
  have hcw : w.claimed = false := by
    cases hwc : w.claimed with
    | false => rfl
    | true => exact absurd (hcl hwc) (by simp [hc])
  obtain ⟨hlt, hmem⟩ := hl i w hw hcw (hpc' ▸ hpc)
  rw [← hpool] at hlt hmem
  exact ⟨hlt, h.bucket i w' hw' hc hmem⟩

theorem setPc_waiters (s : State) (i j : ℕ) (pc : WaiterPc) :
    (s.setPc i pc).waiters[j]? =
      if i = j then (s.waiters[j]?).map fun w => { w with pc := pc } else s.waiters[j]? := by
  simp only [State.setPc, List.getElem?_modify]
  split <;> simp

theorem Linked.setPc (hl : Linked pools s)
    (hw : s.waiters[i]? = some w) (hpc : w.pc ≠ .returned) : Linked pools (s.setPc i pc) := by
  intro j w' hw' hc hpc'
  rw [setPc_waiters] at hw'
  split at hw'
  · next hij =>
    subst hij
    rw [hw] at hw'
    cases hw'
    exact hl i w hw hc hpc
  · exact hl j w' hw' hc hpc'

/-- `Linked` reads the waiters and the buckets only. -/
theorem Linked.congr (hl : Linked pools s) (hw : t.waiters = s.waiters)
    (hb : t.bucket = s.bucket) : Linked pools t := by
  intro i w
  rw [hw, hb]
  exact hl i w

/-! ## Covered waiters -/

/-- Past the registration, on the way to the park or parked. -/
@[grind =]
def WaiterPc.registered : WaiterPc → Bool
  | .pendingAgain | .commit | .parked => true
  | _ => false

/-- The direction the pump is about to dispatch for the second time. -/
def Pump.redispatch : Pump → Option Dir
  | .redispatchOut _ => some .write
  | .redispatchIn => some .read
  | _ => none

/-- The waiter waits for `d`, is past its registration and not claimed. -/
def Waiter.needs (d : Dir) (w : Waiter) : Bool := !w.claimed && w.events d && w.pc.registered

/-- `d` is armed, or somebody has still to wake the waiters of `d`. -/
def Cover (s : State) (d : Dir) : Prop :=
  s.armed d = true ∨ (∃ c ∈ s.pumps, c.redispatch = some d) ∨ ∃ w ∈ s.waiters, w.pc = .wakeAll

/-- Every registered waiter has its direction covered. -/
def Covered (s : State) : Prop :=
  ∀ (d : Dir) (i : ℕ) (w : Waiter), s.waiters[i]? = some w → w.needs d = true → Cover s d

theorem Covered.mono (hc : Covered s)
    (hn : ∀ (d : Dir) (i : ℕ) (w : Waiter), t.waiters[i]? = some w → w.needs d = true →
      ∃ w' : Waiter, s.waiters[i]? = some w' ∧ w'.needs d = true)
    (hcov : ∀ d, Cover s d → Cover t d) : Covered t := by
  intro d i w hw hneeds
  obtain ⟨w', hw', hneeds'⟩ := hn d i w hw hneeds
  exact hcov d (hc d i w' hw' hneeds')

theorem Claims.needs (h : Claims s t) (hw : t.waiters[i]? = some w)
    (hn : w.needs d = true) : ∃ w' : Waiter, s.waiters[i]? = some w' ∧ w'.needs d = true := by
  obtain ⟨w', hw', hpc, hev, -, hcl⟩ := h.before i w hw
  refine ⟨w', hw', ?_⟩
  simp only [Waiter.needs, Bool.and_eq_true, Bool.not_eq_true'] at hn ⊢
  rw [← hpc, ← hev]
  refine ⟨⟨?_, hn.1.2⟩, hn.2⟩
  cases hwc : w'.claimed with
  | false => rfl
  | true => exact absurd (hcl hwc) (by simp [hn.1.1])

theorem Claims.cover (h : Claims s t) (hc : Cover s d) : Cover t d := by
  rcases hc with hc | ⟨c, hmem, hc⟩ | ⟨w, hmem, hc⟩
  · exact .inl (h.armed ▸ hc)
  · exact .inr (.inl ⟨c, h.pumps ▸ hmem, hc⟩)
  · obtain ⟨j, hj⟩ := List.mem_iff_getElem?.mp hmem
    obtain ⟨w', hw', hpc⟩ := h.after j w hj
    exact .inr (.inr ⟨w', List.mem_of_getElem? hw', hpc.trans hc⟩)

theorem Claims.covered (h : Claims s t) (hc : Covered s) : Covered t :=
  hc.mono (fun _ _ _ hw hn => h.needs hw hn) fun _ => h.cover

/-- Moving a waiter that is not waking everybody. -/
theorem Cover.setPc (hc : Cover s d)
    (hw : s.waiters[i]? = some w) (hpc : w.pc ≠ .wakeAll) : Cover (s.setPc i pc) d := by
  rcases hc with hc | hc | ⟨w', hmem, hc⟩
  · exact .inl hc
  · exact .inr (.inl hc)
  · obtain ⟨j, hj⟩ := List.mem_iff_getElem?.mp hmem
    have hij : i ≠ j := by
      rintro rfl
      rw [hw] at hj
      cases hj
      exact hpc hc
    refine .inr (.inr ⟨w', List.mem_of_getElem? (i := j) ?_, hc⟩)
    rw [setPc_waiters, if_neg hij]
    exact hj

/-- Moving a waiter that does not become registered by it. -/
theorem Covered.setPc (hc : Covered s)
    (hw : s.waiters[i]? = some w) (hpc : w.pc ≠ .wakeAll)
    (hreg : pc.registered = true → w.pc.registered = true) : Covered (s.setPc i pc) := by
  apply hc.mono
  · intro d j w' hw' hn
    rw [setPc_waiters] at hw'
    split at hw'
    · next hij =>
      subst hij
      rw [hw] at hw'
      cases hw'
      refine ⟨w, hw, ?_⟩
      simp only [Waiter.needs, Bool.and_eq_true] at hn ⊢
      exact ⟨hn.1, hreg hn.2⟩
    · exact ⟨w', hw', hn⟩
  · intro d hcov
    exact hcov.setPc hw hpc

/-- `Covered` reads the arm cache, the waiters and the pumps only. -/
theorem Covered.congr (hc : Covered s) (ha : t.armed = s.armed) (hw : t.waiters = s.waiters)
    (hp : t.pumps = s.pumps) : Covered t := by
  intro d i w hwi hn
  rw [hw] at hwi
  have := hc d i w hwi hn
  unfold Cover at this ⊢
  rwa [ha, hw, hp]

/-- A registration that leaves more armed than it found. -/
theorem Covered.register (hc : Covered s) (hw : s.waiters[i]? = some w)
    (hpc : w.pc = .register) (hwt : t.waiters = (s.setPc i .pendingAgain).waiters)
    (hpt : t.pumps = s.pumps) (harm : ∀ d, s.armed d = true ∨ w.events d = true → t.armed d = true) :
    Covered t := by
  intro d j w' hw' hn
  rw [hwt, setPc_waiters] at hw'
  split at hw'
  · next hij =>
    subst hij
    rw [hw] at hw'
    cases hw'
    simp only [Waiter.needs, Bool.and_eq_true] at hn
    exact .inl (harm d (.inr hn.1.2))
  · have hcov : Cover (s.setPc i .pendingAgain) d := (hc d j w' hw' hn).setPc hw (by simp [hpc])
    rcases hcov with hcov | hcov | hcov
    · exact .inl (harm d (.inl hcov))
    · exact .inr (.inl (hpt ▸ hcov))
    · exact .inr (.inr (hwt ▸ hcov))

theorem register_covered {ok : Bool} (hc : Covered s)
    (hw : s.waiters[i]? = some w) (hpc : w.pc = .register) :
    Covered (register backend s i w ok) := by
  have hunion (d : Dir) (h : s.armed d = true ∨ w.events d = true) :
      s.armed.union w.events d = true := by
    simpa [Mask.union] using h
  have hleave : Covered (s.setPc i .leave) :=
    hc.setPc hw (by simp [hpc]) (by simp [WaiterPc.registered])
  unfold Arm.register
  simp only
  split
  · split
    · exact hc.register hw hpc rfl rfl hunion
    · exact hleave.congr rfl rfl rfl
  · split
    · split
      · exact hc.register hw hpc rfl rfl hunion
      · -- the failed move leaves nothing armed; the caller will wake everybody
        intro d j w' _ _
        refine .inr (.inr ⟨{ w with pc := .wakeAll }, List.mem_of_getElem? (i := i) ?_, rfl⟩)
        rw [setPc_waiters, if_pos rfl]
        simp only [State.ctl, hw]
        rfl
    · split
      · next hle =>
        refine hc.register hw hpc rfl rfl ?_
        rintro d (hd | hd)
        · exact hd
        · exact le_of hle hd
      · split
        · exact hc.register hw hpc rfl rfl hunion
        · exact hleave

/-! ## The dispatches -/

theorem mem_linked (hl : Linked pools s)
    (hw : s.waiters[i]? = some w) (hn : w.needs d = true) : i ∈ s.linked pools := by
  simp only [Waiter.needs, Bool.and_eq_true, Bool.not_eq_true'] at hn
  have hpc : w.pc ≠ .returned := by
    intro h
    simp [h, WaiterPc.registered] at hn
  obtain ⟨hlt, hmem⟩ := hl i w hw hn.1.1 hpc
  exact List.mem_flatMap.mpr ⟨w.pool, List.mem_range.mpr hlt, hmem⟩

theorem matching_of_needs {mask : Mask}
    (hw : s.waiters[i]? = some w) (hn : w.needs d = true) (hd : mask d = true) :
    s.matching mask i = true := by
  simp only [Waiter.needs, Bool.and_eq_true, Bool.not_eq_true'] at hn
  simp [State.matching, hw, meets_of hn.1.2 hd, hn.1.1]

/-- After `dispatchAll` no registered waiter is left unclaimed. -/
theorem dispatchAll_served (hl : Linked pools s)
    (hw : (dispatchAll pools s).waiters[i]? = some w) : w.needs d = false := by
  by_contra hn
  have hneeds : w.needs d = true := by simpa using hn
  obtain ⟨w₀, hw₀, hn₀⟩ := (foldl_claims _ s).needs hw hneeds
  have hmem : i ∈ (s.linked pools).filter (s.matching .both) :=
    List.mem_filter.mpr ⟨mem_linked hl hw₀ hn₀, matching_of_needs hw₀ hn₀ rfl⟩
  have hclaimed := foldl_claimed hmem hw
  simp [Waiter.needs, hclaimed] at hneeds

/-- Unless `d` is armed again or somebody else has still to wake its waiters,
the dispatch of `d` claims the only registered one. -/
def Serves (pools : ℕ) (s : State) (p : ℕ) (d : Dir) : Prop :=
  s.armed d = true ∨
    (∃ q < s.pumps.length, q ≠ p ∧ (s.pumps[q]?).bind Pump.redispatch = some d) ∨
    (∃ w ∈ s.waiters, w.pc = .wakeAll) ∨
    ∀ i < s.waiters.length, (s.waiters[i]?).any (Waiter.needs d) = true →
      s.firstMatch pools (.only d) = some i

instance (p : ℕ) (d : Dir) : Decidable (Serves pools s p d) :=
  inferInstanceAs (Decidable (_ ∨ _ ∨ _ ∨ _))

theorem Cover.setPump (hc : Cover s d)
    (hp : s.pumps[p]? = some c) (hd : c.redispatch ≠ some d) : Cover (s.setPump p c') d := by
  rcases hc with hc | ⟨b, hmem, hc⟩ | hc
  · exact .inl hc
  · obtain ⟨q, hq⟩ := List.mem_iff_getElem?.mp hmem
    have hpq : p ≠ q := by
      rintro rfl
      rw [hp] at hq
      cases hq
      exact hd hc
    refine .inr (.inl ⟨b, List.mem_of_getElem? (i := q) ?_, hc⟩)
    simpa [State.setPump, List.getElem?_set, hpq] using hq
  · exact .inr (.inr hc)

/-- Moving a pump that is not about to dispatch for the second time. -/
theorem Covered.setPump (hc : Covered s) (hp : s.pumps[p]? = some c)
    (hd : c.redispatch = none) : Covered (s.setPump p c') :=
  hc.mono (fun _ _ w hw hn => ⟨w, hw, hn⟩) fun _ hcov => hcov.setPump hp (by simp [hd])

theorem redispatch_covered (hc : Covered s)
    (hp : s.pumps[p]? = some c) (hd : c.redispatch = some d) (hok : Serves pools s p d) :
    Covered ((dispatch pools s (.only d)).1.setPump p c') := by
  have hcl : Claims s (dispatch pools s (.only d)).1 := dispatch_claims s (.only d)
  have hp' : (dispatch pools s (.only d)).1.pumps[p]? = some c := by rw [hcl.pumps, hp]
  intro x i w hw hn
  obtain ⟨w₀, hw₀, hn₀⟩ := hcl.needs (d := x) hw hn
  by_cases hx : c.redispatch = some x
  · -- the direction this pump has served
    rw [hd] at hx
    cases hx
    rcases hok with harm | ⟨q, hq, hqp, hqd⟩ | ⟨v, hv, hvpc⟩ | hall
    · exact .inl (hcl.armed ▸ harm)
    · refine .inr (.inl ?_)
      obtain ⟨b, hb, hbd⟩ := Option.bind_eq_some_iff.mp hqd
      refine ⟨b, List.mem_of_getElem? (i := q) ?_, hbd⟩
      simp only [State.setPump, hcl.pumps, List.getElem?_set, Ne.symm hqp, ↓reduceIte]
      exact hb
    · obtain ⟨j, hj⟩ := List.mem_iff_getElem?.mp hv
      obtain ⟨v', hv', hpc⟩ := hcl.after j v hj
      exact .inr (.inr ⟨v', List.mem_of_getElem? hv', hpc.trans hvpc⟩)
    · exfalso
      have hlt : i < s.waiters.length := (List.getElem?_eq_some_iff.mp hw₀).1
      have hfirst := hall i hlt (by simp [hw₀, hn₀])
      have hclaimed : w.claimed = true := by
        simp only [State.setPump, dispatch, hfirst, claim_waiters, ↓reduceIte, hw₀] at hw
        cases hw
        rfl
      simp [Waiter.needs, hclaimed] at hn
  · exact (hcl.cover (hc x i w₀ hw₀ hn₀)).setPump hp' hx

/-! ## Steps -/

/-- What holds in every state of a conditioned run. -/
structure Inv (pools : ℕ) (s : State) : Prop where
  cache : CacheExact s
  linked : Linked pools s
  covered : Covered s

theorem Claims.inv (h : Claims s t) (hi : Inv pools s) : Inv pools t :=
  ⟨h.cacheExact hi.cache, h.linked hi.linked, h.covered hi.covered⟩

/-- A move of waiter `i` that takes no part in the registration. -/
theorem Inv.setPc (hi : Inv pools s)
    (hw : s.waiters[i]? = some w) (hret : w.pc ≠ .returned) (hpc : w.pc ≠ .wakeAll)
    (hreg : pc.registered = true → w.pc.registered = true) : Inv pools (s.setPc i pc) :=
  ⟨hi.cache, hi.linked.setPc hw hret, hi.covered.setPc hw hpc hreg⟩

theorem Inv.consume (hi : Inv pools s) (events : Mask) : Inv pools (s.consume events).1 :=
  ⟨hi.cache, hi.linked.congr rfl rfl, hi.covered.congr rfl rfl rfl⟩

theorem Inv.setPump (hi : Inv pools s) (hp : s.pumps[p]? = some c)
    (hd : c.redispatch = none) : Inv pools (s.setPump p c') :=
  ⟨hi.cache, hi.linked.congr rfl rfl, hi.covered.setPump hp hd⟩

theorem register_linked {ok : Bool} (hl : Linked pools s)
    (hw : s.waiters[i]? = some w) (hpc : w.pc = .register) :
    Linked pools (register backend s i w ok) := by
  have hset (pc : WaiterPc) : Linked pools (s.setPc i pc) := hl.setPc hw (by simp [hpc])
  unfold register
  simp only
  split
  · split
    · exact (hset _).congr rfl rfl
    · exact (hset _).congr rfl rfl
  · split
    · split
      · exact (hset _).congr rfl rfl
      · exact (hset _).congr rfl rfl
    · split
      · exact hset _
      · split
        · exact (hset _).congr rfl rfl
        · exact hset _

theorem waiterStep_inv {ok : Bool} (hi : Inv pools s)
    (h : waiterStep pools backend s i ok = some t) : Inv pools t := by
  unfold waiterStep at h
  split at h
  · cases h
  · next w hw =>
    split at h
    · next hpc =>
      cases h
      exact (hi.consume w.events).setPc hw (by simp [hpc]) (by simp [hpc])
        (by split <;> simp [WaiterPc.registered])
    · next hpc =>
      cases h
      exact ⟨register_cacheExact hi.cache i w ok, register_linked hi.linked hw hpc,
        register_covered hi.covered hw hpc⟩
    · next hpc =>
      cases h
      have hcl : Claims s (dispatchAll pools s) := foldl_claims _ s
      obtain ⟨w', hw', hpc'⟩ := hcl.after i w hw
      refine ⟨hcl.cacheExact hi.cache,
        (hcl.linked hi.linked).setPc hw' (by simp [hpc', hpc]), ?_⟩
      intro d j v hv hn
      rw [setPc_waiters] at hv
      split at hv
      · obtain ⟨v', -, rfl⟩ := Option.map_eq_some_iff.mp hv
        simp [Waiter.needs, WaiterPc.registered] at hn
      · rw [dispatchAll_served hi.linked hv] at hn
        cases hn
    · next hpc =>
      cases h
      exact (hi.consume w.events).setPc hw (by simp [hpc]) (by simp [hpc])
        (by simp [hpc, WaiterPc.registered])
    · next hpc =>
      cases h
      exact hi.setPc hw (by simp [hpc]) (by simp [hpc]) (by simp [hpc, WaiterPc.registered])
    · next hpc =>
      split at h <;> cases h
      exact hi.setPc hw (by simp [hpc]) (by simp [hpc]) (by simp [WaiterPc.registered])
    · next hpc =>
      cases h
      have hset : Inv pools (s.setPc i .returned) :=
        hi.setPc hw (by simp [hpc]) (by simp [hpc]) (by simp [WaiterPc.registered])
      refine ⟨hset.cache, ?_, hset.covered.congr rfl rfl rfl⟩
      intro j v hv hc hret
      have hij : i ≠ j := by
        rintro rfl
        change (s.setPc i .returned).waiters[i]? = some v at hv
        rw [setPc_waiters, if_pos rfl] at hv
        obtain ⟨v', -, rfl⟩ := Option.map_eq_some_iff.mp hv
        exact hret rfl
      obtain ⟨hlt, hmem⟩ := hset.linked j v hv hc hret
      refine ⟨hlt, ?_⟩
      simp only [State.unlink]
      split
      · exact (List.mem_erase_of_ne (Ne.symm hij)).mpr hmem
      · exact hmem
    · cases h

theorem disarm_inv (hi : Inv pools s) (hp : s.pumps[p]? = some c)
    (hc : c.redispatch = none) (hc' : c'.redispatch = some d) :
    Inv pools ((disarm s d).setPump p c') := by
  have hframe : (disarm s d).waiters = s.waiters ∧ (disarm s d).bucket = s.bucket ∧
      (disarm s d).pumps = s.pumps ∧
      ∀ x, x ≠ d → s.armed x = true → (disarm s d).armed x = true := by
    unfold disarm
    split
    · simp only
      split <;> exact ⟨rfl, rfl, rfl, fun x hx ha => by simp [State.ctl, Mask.without, hx, ha]⟩
    · exact ⟨rfl, rfl, rfl, fun _ _ ha => ha⟩
  obtain ⟨hw, hb, hpu, harm⟩ := hframe
  refine ⟨disarm_cacheExact hi.cache d, hi.linked.congr hw hb, ?_⟩
  intro x i w hwi hn
  simp only [State.setPump, hw] at hwi
  by_cases hx : x = d
  · -- the pump itself will dispatch `d`
    subst hx
    refine .inr (.inl ⟨c', ?_, hc'⟩)
    simp only [State.setPump, hpu]
    exact List.mem_set (List.getElem?_eq_some_iff.mp hp).1 c'
  · have hcov : Cover (s.setPump p c') x :=
      (hi.covered x i w hwi hn).setPump hp (by simp [hc])
    rcases hcov with ha | hq | hv
    · exact .inl (harm x hx ha)
    · exact .inr (.inl (by simpa [State.setPump, hpu] using hq))
    · exact .inr (.inr (by simpa [State.setPump, hw] using hv))

/-- The pump and the direction of a second dispatch. -/
def redispatching (s : State) : Action → Option (ℕ × Dir)
  | .pump p => ((s.pumps[p]?).bind Pump.redispatch).map (p, ·)
  | _ => none

/-- Every second dispatch serves the waiters that depend on it. -/
def ServesAll (pools : ℕ) (s : State) (a : Action) : Prop :=
  ∀ q ∈ redispatching s a, Serves pools s q.1 q.2

instance (a : Action) : Decidable (ServesAll pools s a) :=
  inferInstanceAs (Decidable (∀ q ∈ redispatching s a, Serves pools s q.1 q.2))

theorem pumpStep_inv (hi : Inv pools s) (hok : ServesAll pools s (.pump p))
    (h : pumpStep pools s p = some t) : Inv pools t := by
  have hserves {c : Pump} {d : Dir} (hp : s.pumps[p]? = some c) (hd : c.redispatch = some d) :
      Serves pools s p d :=
    hok (p, d) (by simp [redispatching, hp, hd])
  have hclaims (mask : Mask) : Inv pools (dispatch pools s mask).1 :=
    (dispatch_claims s mask).inv hi
  unfold pumpStep at h
  split at h
  · cases h
  · next c hp =>
    have hp' (mask : Mask) : (dispatch pools s mask).1.pumps[p]? = some c := by
      rw [(dispatch_claims s mask).pumps, hp]
    split at h
    · cases h
      exact (hclaims _).setPump (hp' _) rfl
    · cases h
      exact Inv.setPump ⟨hi.cache, hi.linked.congr rfl rfl, hi.covered.congr rfl rfl rfl⟩ hp rfl
    · cases h
      exact disarm_inv hi hp rfl rfl
    · cases h
      exact ⟨(hclaims _).cache, (hclaims _).linked.congr rfl rfl,
        redispatch_covered hi.covered hp rfl (hserves hp rfl)⟩
    · cases h
      exact disarm_inv hi hp rfl rfl
    · cases h
      exact ⟨(hclaims _).cache, (hclaims _).linked.congr rfl rfl,
        redispatch_covered hi.covered hp rfl (hserves hp rfl)⟩
    · cases h

theorem link_inv {events : Mask} {pool : ℕ} (hi : Inv pools s) (hlt : pool < pools) :
    Inv pools { s with
      waiters := s.waiters ++ [⟨events, pool, false, .pending⟩]
      bucket := fun x => if x = pool then s.waiters.length :: s.bucket x else s.bucket x } := by
  refine ⟨hi.cache, ?_, ?_⟩
  · intro i w hw hc hret
    rw [List.getElem?_append] at hw
    split at hw
    · obtain ⟨hpool, hmem⟩ := hi.linked i w hw hc hret
      refine ⟨hpool, ?_⟩
      simp only
      split
      · exact List.mem_cons_of_mem _ hmem
      · exact hmem
    · next hge =>
      have hlen : i - s.waiters.length < 1 := by
        simpa using (List.getElem?_eq_some_iff.mp hw).1
      have hieq : i = s.waiters.length := by omega
      subst hieq
      simp only [Nat.sub_self, List.getElem?_cons_zero, Option.some.injEq] at hw
      subst hw
      exact ⟨hlt, by simp⟩
  · intro d i w hw hn
    rw [List.getElem?_append] at hw
    split at hw
    · rcases hi.covered d i w hw hn with hc | hc | ⟨v, hv, hpc⟩
      · exact .inl hc
      · exact .inr (.inl hc)
      · exact .inr (.inr ⟨v, List.mem_append_left _ hv, hpc⟩)
    · have hmem := List.mem_of_getElem? hw
      rw [List.mem_singleton] at hmem
      subst hmem
      simp [Waiter.needs, WaiterPc.registered] at hn

theorem step_inv {a : Action} (hi : Inv pools s) (hok : ServesAll pools s a)
    (h : step pools backend s a = some t) : Inv pools t := by
  cases a with
  | setReady mask =>
    cases h
    exact ⟨hi.cache, hi.linked.congr rfl rfl, hi.covered.congr rfl rfl rfl⟩
  | link events pool =>
    simp only [step] at h
    split at h <;> cases h
    next hlt => exact link_inv hi hlt
  | waiter i ok => exact waiterStep_inv hi h
  | cancel i =>
    simp only [step] at h
    split at h <;> cases h
    exact (claim_claims s i).inv hi
  | event e mask =>
    simp only [step] at h
    split at h <;> cases h
    refine ⟨hi.cache, hi.linked.congr rfl rfl, ?_⟩
    intro d i w hw hn
    rcases hi.covered d i w hw hn with hc | ⟨c, hmem, hc⟩ | hc
    · exact .inl hc
    · exact .inr (.inl ⟨c, List.mem_append_left _ hmem, hc⟩)
    · exact .inr (.inr hc)
  | pump p => exact pumpStep_inv hi hok h

/-! ## Lost readiness -/

/-- The call is between its link and its commit. -/
@[grind =]
def WaiterPc.beforeCommit : WaiterPc → Bool
  | .pending | .register | .wakeAll | .pendingAgain | .commit => true
  | _ => false

/-- The fd is ready for `d` and a waiter is parked for it, but nothing is armed
and nobody is on the way to wake it. -/
def Stranded (s : State) (d : Dir) : Prop :=
  s.ready d = true ∧ (∃ w ∈ s.waiters, w.pc = .parked ∧ w.claimed = false ∧ w.events d = true) ∧
    (∀ c ∈ s.pumps, c = .done) ∧ (∀ w ∈ s.waiters, w.pc.beforeCommit = false) ∧
    ∀ e, s.kernel e d = false

/-- **No lost readiness.** In every run whose second dispatches serve the
waiters that depend on them, no ready direction is left unarmed with a waiter
parked on it. -/
theorem not_stranded {d : Dir} (h : Reachable ((system pools backend).restrict (ServesAll pools)) s) :
    ¬ Stranded s d := by
  have hi : Inv pools s := by
    refine Reachable.invariant ?_ ?_ h
    · rintro s rfl
      refine ⟨?_, ?_, ?_⟩
      · intro e d
        simp [init, Mask.none]
      · intro i w hw
        simp [init] at hw
      · intro d i w hw
        simp [init] at hw
    · intro s a t _ hi hs
      obtain ⟨hok, hs⟩ := System.restrict_step.mp hs
      exact step_inv hi hok hs
  rintro ⟨-, ⟨w, hmem, hpc, hcl, hev⟩, hdone, hbefore, hkernel⟩
  obtain ⟨i, hw⟩ := List.mem_iff_getElem?.mp hmem
  have hn : w.needs d = true := by simp [Waiter.needs, hcl, hev, hpc, WaiterPc.registered]
  rcases hi.covered d i w hw hn with harm | ⟨c, hc, hcd⟩ | ⟨v, hv, hvpc⟩
  · have := hi.cache s.owner d
    simp [hkernel, harm] at this
  · rw [hdone c hc] at hcd
    cases hcd
  · have := hbefore v hv
    simp [hvpc, WaiterPc.beforeCommit] at this

/-- One reader parks, is woken, and the next event finds nobody: the pump
disarms IN. -/
theorem not_stranded_oneReader :
    ∃ s, Reachable ((system 1 fun _ => true).restrict (ServesAll 1)) s ∧
      s.ready .read = true ∧ s.armed .read = false ∧ ¬ Stranded s .read := by
  have hr : Reachable ((system 1 fun _ => true).restrict (ServesAll 1)) _ :=
    reachable_of_run _
      [.link (.only .read) 0, .waiter 0 true, .waiter 0 true, .waiter 0 true, .waiter 0 true,
        .setReady (.only .read), .event (some 0) (.only .read), .pump 0, .waiter 0 true,
        .event (some 0) (.only .read), .pump 1, .pump 1, .pump 1, .pump 1] rfl rfl
  exact ⟨_, hr, rfl, rfl, not_stranded hr⟩

/-- **Stranded waiter.** A pump misses, two readers link, find IN armed, see no
pending bit and park; then the pump sets the bit, disarms IN and wakes only the
newer of them. -/
theorem waiter_stranded : ∃ s, Reachable (system 1 fun _ => true) s ∧ Stranded s .read := by
  have hr : Reachable (system 1 fun _ => true) _ :=
    reachable_of_run _
      [.link (.only .read) 0, .waiter 0 true, .waiter 0 true, .waiter 0 true, .waiter 0 true,
        .setReady (.only .read), .event (some 0) (.only .read), .pump 0, .waiter 0 true,
        .event (some 0) (.only .read), .pump 1,
        .link (.only .read) 0, .waiter 1 true, .waiter 1 true, .waiter 1 true, .waiter 1 true,
        .link (.only .read) 0, .waiter 2 true, .waiter 2 true, .waiter 2 true, .waiter 2 true,
        .pump 1, .pump 1, .pump 1, .waiter 2 true] rfl rfl
  refine ⟨_, hr, rfl, ⟨⟨.only .read, 0, false, .parked⟩, ?_, rfl, rfl, rfl⟩, ?_, ?_, ?_⟩
  · exact List.mem_of_getElem? (i := 1) rfl
  · exact List.forall_mem_cons.mpr ⟨rfl, List.forall_mem_singleton.mpr rfl⟩
  · exact List.forall_mem_cons.mpr ⟨rfl, List.forall_mem_cons.mpr
      ⟨rfl, List.forall_mem_singleton.mpr rfl⟩⟩
  · rintro (_ | _ | n) <;> rfl

end Stackweave.Netpoll.Arm
