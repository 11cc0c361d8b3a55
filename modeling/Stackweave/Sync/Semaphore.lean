import Mathlib
import Stackweave.Transition

/-!
# The weighted `Semaphore` (`sync.py`)

Any number of fibers in `acquire` (timed or not), `try_acquire` and `release`. What is done
under `_mu` is one step. A park returns when the fiber was woken, and may also return at
any time; the clock of a timed call is the choice to `expire`.

Calls are numbered in the order of their first guarded section. History: the granted
calls with their weights, the weight released, and the calls that timed out.
-/

namespace Stackweave.Sync.Semaphore

open Transition Function

/-- `[g, n, [granted]]`; the flag is kept under the number of the call. -/
structure Waiter where
  g : ℕ
  n : ℕ
  call : ℕ

structure Sem where
  limit : ℕ
  held : ℕ
  waiters : List Waiter
  granted : ℕ → Bool
  calls : ℕ
  grants : List (ℕ × ℕ)
  released : ℕ
  expired : List ℕ

/-- What a fiber does next. -/
inductive Pc
  | idle
  /-- what the last call returned; `none` if it raised -/
  | returned (result : Option Bool)
  /-- at the head of the loop of `acquire` -/
  | loop (timed : Bool) (call : ℕ)
  | parked (timed : Bool) (call : ℕ)
  | recheck (timed : Bool) (call : ℕ)
  /-- wakes the fibers that it has granted -/
  | waking (gs : List ℕ) (result : Option Bool)

structure State where
  sem : Sem
  pc : ℕ → Pc
  woken : ℕ → Bool

def init (limit : ℕ) : State :=
  { sem := ⟨limit, 0, [], fun _ => false, 0, [], 0, []⟩
    pc := fun _ => .idle, woken := fun _ => false }

/-! ## The guarded sections -/

/-- The front waiters that fit, from `held` on. -/
def fitting (limit : ℕ) : ℕ → List Waiter → List Waiter
  | _, [] => []
  | held, w :: ws => if held + w.n ≤ limit then w :: fitting limit (held + w.n) ws else []

/-- `_grant_locked`, with the fibers to wake. -/
def Sem.grantLocked (m : Sem) : Sem × List ℕ :=
  let out := fitting m.limit m.held m.waiters
  ({ m with
    held := m.held + (out.map Waiter.n).sum
    waiters := m.waiters.drop out.length
    granted := fun c => m.granted c || (out.map Waiter.call).contains c
    grants := m.grants ++ out.map fun w => (w.call, w.n) }, out.map Waiter.g)

/-- A call that has what it wants at once. -/
def Sem.take (m : Sem) (n : ℕ) : Sem :=
  { m with held := m.held + n, calls := m.calls + 1, grants := m.grants ++ [(m.calls, n)] }

def Sem.acquire (m : Sem) (f n : ℕ) (timed : Bool) : Sem × Pc :=
  if m.waiters = [] ∧ m.held + n ≤ m.limit then (m.take n, .returned (some true))
  else
    ({ m with
      waiters := m.waiters ++ [⟨f, n, m.calls⟩]
      calls := m.calls + 1 }, .loop timed m.calls)

def Sem.tryAcquire (m : Sem) (n : ℕ) : Sem × Pc :=
  if m.waiters = [] ∧ m.held + n ≤ m.limit then (m.take n, .returned (some true))
  else (m, .returned (some false))

/-- The deadline has passed. -/
def Sem.expire (m : Sem) (c : ℕ) : Sem × Pc :=
  if m.granted c then (m, .returned (some true))
  else
    let m : Sem := { m with
      waiters := m.waiters.filter fun w => w.call != c
      expired := m.expired ++ [c] }
    (m.grantLocked.1, .waking m.grantLocked.2 (some false))

def Sem.release (m : Sem) (n : ℕ) : Sem × Pc :=
  if m.held < n then (m, .returned none)
  else
    let m : Sem := { m with held := m.held - n, released := m.released + n }
    (m.grantLocked.1, .waking m.grantLocked.2 none)

/-! ## The steps -/

inductive Action
  | acquire (f : ℕ) (n : ℤ) (timed : Bool)
  | tryAcquire (f : ℕ) (n : ℤ)
  | release (f : ℕ) (n : ℤ)
  | resume (f : ℕ)
  | spurious (f : ℕ)
  | expire (f : ℕ)
  | fiber (f : ℕ)

/-- The fiber is not in a call. -/
def Pc.rests : Pc → Bool
  | .idle | .returned _ => true
  | _ => false

def State.goto (s : State) (f : ℕ) (q : Pc) : State :=
  { s with pc := Function.update s.pc f q }

/-- A guarded section of the fiber. -/
def State.section (s : State) (f : ℕ) (r : Sem × Pc) : State :=
  { s.goto f r.2 with sem := r.1 }

def fiberStep (s : State) (f : ℕ) : Option State :=
  match s.pc f with
  | .loop timed c => some (s.goto f (.parked timed c))
  | .recheck timed c =>
    some (s.goto f (if s.sem.granted c then .returned (some true) else .loop timed c))
  | .waking [] result => some (s.goto f (.returned result))
  | .waking (g :: gs) result =>
    some { s.goto f (.waking gs result) with woken := Function.update s.woken g true }
  | _ => none

@[grind =]
def step (s : State) : Action → Option State
  | .acquire f n timed =>
    if (s.pc f).rests then
      if n < 0 ∨ (s.sem.limit : ℤ) < n then some (s.goto f (.returned none))
      else some (s.section f (s.sem.acquire f n.toNat timed))
    else none
  | .tryAcquire f n =>
    if (s.pc f).rests then
      if n < 0 then some (s.goto f (.returned none))
      else some (s.section f (s.sem.tryAcquire n.toNat))
    else none
  | .release f n =>
    if (s.pc f).rests then
      if n < 0 then some (s.goto f (.returned none))
      else some (s.section f (s.sem.release n.toNat))
    else none
  | .resume f =>
    match s.pc f with
    | .parked timed c =>
      if s.woken f then
        some { s.goto f (.recheck timed c) with woken := Function.update s.woken f false }
      else none
    | _ => none
  | .spurious f =>
    match s.pc f with
    | .parked timed c => some (s.goto f (.recheck timed c))
    | _ => none
  | .expire f =>
    match s.pc f with
    | .loop true c => some (s.section f (s.sem.expire c))
    | _ => none
  | .fiber f => fiberStep s f

def system (limit : ℕ) : System State Action where
  init s := s = init limit
  step := step

/-! ## The grant loop -/

theorem fitting_append_rest (limit : ℕ) (ws : List Waiter) :
    ∀ held, fitting limit held ws ++ ws.drop (fitting limit held ws).length = ws := by
  induction ws with
  | nil => exact fun _ => rfl
  | cons w ws ih =>
    intro held
    unfold fitting
    split
    · simp only [List.cons_append, List.length_cons, List.drop_succ_cons, ih]
    · rfl

theorem fitting_sum (limit : ℕ) (ws : List Waiter) :
    ∀ held, held ≤ limit → held + ((fitting limit held ws).map Waiter.n).sum ≤ limit := by
  induction ws with
  | nil => exact fun _ h => h
  | cons w ws ih =>
    intro held h
    unfold fitting
    split
    case isTrue hfit =>
      have hrest := ih _ hfit
      simp only [List.map_cons, List.sum_cons]
      omega
    case isFalse => exact h

/-- The first waiter that is left does not fit. -/
theorem fitting_blocked (limit : ℕ) (ws : List Waiter) :
    ∀ held w rest, ws.drop (fitting limit held ws).length = w :: rest →
      limit < held + ((fitting limit held ws).map Waiter.n).sum + w.n := by
  induction ws with
  | nil =>
    intro held w rest h
    simp [fitting] at h
  | cons v ws ih =>
    intro held w rest h
    unfold fitting at h ⊢
    split
    case isTrue hfit =>
      rw [if_pos hfit] at h
      have hrest := ih _ w rest h
      simp only [List.map_cons, List.sum_cons]
      omega
    case isFalse hfit =>
      rw [if_neg hfit] at h
      cases h
      simp only [List.map_nil, List.sum_nil]
      omega

/-! ## The semaphore -/

/-- The calls that are granted, in this order, and then those that are queued. -/
def Sem.served (m : Sem) : List ℕ := m.grants.map Prod.fst ++ m.waiters.map Waiter.call

/-- What holds also inside of a guarded section, before the grant loop. -/
structure Book (m : Sem) : Prop where
  weight : m.held + m.released = (m.grants.map Prod.snd).sum
  bound : m.held ≤ m.limit
  sorted : m.served.Pairwise (· < ·)
  past : ∀ c ∈ m.served, c < m.calls
  flags : ∀ c, m.granted c = true → c ∈ m.grants.map Prod.fst
  expired : ∀ c ∈ m.expired, c < m.calls ∧ c ∉ m.served

/-- The first waiter does not fit. -/
def Blocked (m : Sem) : Prop := ∀ w ws, m.waiters = w :: ws → m.limit < m.held + w.n

theorem grantLocked_served (m : Sem) : m.grantLocked.1.served = m.served := by
  have hsplit := congrArg (List.map Waiter.call) (fitting_append_rest m.limit m.waiters m.held)
  simp only [Sem.served, Sem.grantLocked, List.map_append, List.map_map, List.append_assoc,
    List.append_cancel_left_eq]
  rw [List.map_append] at hsplit
  exact hsplit

variable {m : Sem} {f : ℕ} {q : Pc} {s t : State}

theorem Book.grantLocked (h : Book m) :
    Book m.grantLocked.1 ∧ Blocked m.grantLocked.1 := by
  refine ⟨?_, fun w ws hw => fitting_blocked m.limit m.waiters m.held w ws hw⟩
  constructor
  case weight =>
    have hw := h.weight
    simp only [Sem.grantLocked, List.map_append, List.map_map, List.sum_append]
    have hmap : (Prod.snd ∘ fun w : Waiter => (w.call, w.n)) = Waiter.n := rfl
    rw [hmap]
    omega
  case bound => exact fitting_sum _ _ _ h.bound
  case sorted => rw [grantLocked_served]; exact h.sorted
  case past => rw [grantLocked_served]; exact h.past
  case flags =>
    intro c hc
    simp only [Sem.grantLocked, Bool.or_eq_true, List.contains_iff_mem] at hc
    simp only [Sem.grantLocked, List.map_append, List.map_map]
    rcases hc with hc | hc
    · exact List.mem_append_left _ (h.flags c hc)
    · exact List.mem_append_right _ hc
  case expired => rw [grantLocked_served]; exact h.expired

/-- The newest call is granted or queued. -/
theorem Book.next {t : Sem} (h : Book m) (hserved : t.served = m.served ++ [m.calls])
    (hcalls : t.calls = m.calls + 1) (hexpired : t.expired = m.expired)
    (hweight : t.held + t.released = (t.grants.map Prod.snd).sum) (hbound : t.held ≤ t.limit)
    (hflags : ∀ c, t.granted c = true → c ∈ t.grants.map Prod.fst) : Book t := by
  constructor
  case weight => exact hweight
  case bound => exact hbound
  case sorted =>
    rw [hserved, List.pairwise_append]
    refine ⟨h.sorted, List.pairwise_singleton _ _, fun a ha b hb => ?_⟩
    rw [List.mem_singleton.mp hb]
    exact h.past a ha
  case past =>
    intro c hc
    rw [hserved] at hc
    rw [hcalls]
    rcases List.mem_append.mp hc with hc | hc
    · exact Nat.lt_succ_of_lt (h.past c hc)
    · rw [List.mem_singleton.mp hc]
      exact Nat.lt_succ_self _
  case flags => exact hflags
  case expired =>
    intro c hc
    rw [hexpired] at hc
    obtain ⟨hlt, hnot⟩ := h.expired c hc
    rw [hcalls, hserved]
    refine ⟨Nat.lt_succ_of_lt hlt, fun hm => ?_⟩
    rcases List.mem_append.mp hm with hm | hm
    · exact hnot hm
    · rw [List.mem_singleton.mp hm] at hlt
      exact absurd hlt (Nat.lt_irrefl _)

theorem Book.take (h : Book m) {n : ℕ} (hnone : m.waiters = [])
    (hfit : m.held + n ≤ m.limit) : Book (m.take n) ∧ Blocked (m.take n) := by
  refine ⟨h.next ?_ rfl rfl ?_ hfit ?_, fun w ws hw => absurd (hnone.symm.trans hw) (by rintro ⟨⟩)⟩
  · simp [Sem.served, Sem.take, hnone]
  · have hw := h.weight
    simp only [Sem.take, List.map_append, List.map_cons, List.map_nil, List.sum_append,
      List.sum_cons, List.sum_nil]
    omega
  · intro c hc
    simp only [Sem.take, List.map_append]
    exact List.mem_append_left _ (h.flags c hc)

theorem Book.acquire (h : Book m) (hb : Blocked m) (f n : ℕ) (timed : Bool) :
    Book (m.acquire f n timed).1 ∧ Blocked (m.acquire f n timed).1 := by
  unfold Sem.acquire
  split
  case isTrue hc => exact h.take hc.1 hc.2
  case isFalse hc =>
    refine ⟨h.next ?_ rfl rfl h.weight h.bound h.flags, fun w ws hw => ?_⟩
    · simp [Sem.served]
    · dsimp only at hw ⊢
      cases hq : m.waiters with
      | nil =>
        have hfull : ¬ m.held + n ≤ m.limit := fun hle => hc ⟨hq, hle⟩
        rw [hq] at hw
        cases hw
        dsimp only
        omega
      | cons v vs =>
        rw [hq] at hw
        cases hw
        exact hb w vs hq

theorem Book.tryAcquire (h : Book m) (hb : Blocked m) (n : ℕ) :
    Book (m.tryAcquire n).1 ∧ Blocked (m.tryAcquire n).1 := by
  unfold Sem.tryAcquire
  split
  case isTrue hc => exact h.take hc.1 hc.2
  case isFalse => exact ⟨h, hb⟩

theorem Book.release (h : Book m) (hb : Blocked m) (n : ℕ) :
    Book (m.release n).1 ∧ Blocked (m.release n).1 := by
  unfold Sem.release
  split
  case isTrue => exact ⟨h, hb⟩
  case isFalse hn =>
    refine Book.grantLocked ?_
    constructor
    case weight =>
      have hw := h.weight
      dsimp only
      omega
    case bound => exact Nat.le_trans (Nat.sub_le _ _) h.bound
    case sorted => exact h.sorted
    case past => exact h.past
    case flags => exact h.flags
    case expired => exact h.expired

/-- A waiter that has timed out leaves the queue, and the grant loop runs again. -/
theorem Book.expire (h : Book m) (hb : Blocked m) {c : ℕ}
    (hc : c < m.calls) (hq : m.granted c = false → c ∈ m.waiters.map Waiter.call) :
    Book (m.expire c).1 ∧ Blocked (m.expire c).1 := by
  unfold Sem.expire
  split
  case isTrue => exact ⟨h, hb⟩
  case isFalse hg =>
    rw [Bool.not_eq_true] at hg
    have hnd : m.served.Nodup := h.sorted.imp Nat.ne_of_lt
    have hsub : (m.waiters.filter fun w => w.call != c).Sublist m.waiters := List.filter_sublist
    have hserved : (m.grants.map Prod.fst ++
        (m.waiters.filter fun w => w.call != c).map Waiter.call).Sublist m.served :=
      (List.Sublist.refl _).append (hsub.map _)
    refine Book.grantLocked ?_
    constructor
    case weight => exact h.weight
    case bound => exact h.bound
    case sorted => exact h.sorted.sublist hserved
    case past => exact fun x hx => h.past x (hserved.subset hx)
    case flags => exact h.flags
    case expired =>
      intro x hx
      rcases List.mem_append.mp hx with hx | hx
      · obtain ⟨hlt, hnot⟩ := h.expired x hx
        exact ⟨hlt, fun hm => hnot (hserved.subset hm)⟩
      · rw [List.mem_singleton.mp hx]
        refine ⟨hc, fun hm => ?_⟩
        rcases List.mem_append.mp hm with hm | hm
        · exact (List.nodup_append.mp hnd).2.2 c hm c (hq hg) rfl
        · obtain ⟨w, hw, rfl⟩ := List.mem_map.mp hm
          simpa using (List.mem_filter.mp hw).2

/-! ## The fibers -/

/-- The call in progress. -/
def Pc.call : Pc → Option ℕ
  | .loop _ c | .parked _ c | .recheck _ c => some c
  | _ => none

/-- The fiber parks before it looks at its flag. -/
def Pc.waits : Pc → Bool
  | .loop _ _ | .parked _ _ => true
  | _ => false

def Pc.wakes : Pc → List ℕ
  | .waking gs _ => gs
  | _ => []

/-- The wake of the fiber has been made, or another fiber is going to make it. -/
def PendingWake (s : State) (f : ℕ) : Prop :=
  s.woken f = true ∨ ∃ e, f ∈ (s.pc e).wakes

/-- A call in progress is queued, or it is granted and its fiber is awake or will be woken. -/
def Attended (s : State) : Prop :=
  ∀ f c, (s.pc f).call = some c → (∃ n, ⟨f, n, c⟩ ∈ s.sem.waiters) ∨
    (s.sem.granted c = true ∧ ((s.pc f).waits = true → PendingWake s f))

/-- What a guarded section does to the waiters of the other fibers: they stay, or they are
granted and are going to be woken. -/
structure Passes (m : Sem) (f : ℕ) (r : Sem × Pc) : Prop where
  limit : r.1.limit = m.limit
  stays : ∀ w ∈ m.waiters, w.g ≠ f → w ∈ r.1.waiters ∨
    (r.1.granted w.call = true ∧ w.g ∈ r.2.wakes)
  flags : ∀ c, m.granted c = true → r.1.granted c = true
  queued : ∀ c, r.2.call = some c → ∃ n, ⟨f, n, c⟩ ∈ r.1.waiters

/-- The grant loop, after a step under the same guard that has left the waiters of the
others alone. -/
theorem Passes.grantLocked {t : Sem} {result : Option Bool}
    (hl : t.limit = m.limit) (hw : ∀ w ∈ m.waiters, w.g ≠ f → w ∈ t.waiters)
    (hg : t.granted = m.granted) :
    Passes m f (t.grantLocked.1, .waking t.grantLocked.2 result) := by
  constructor
  case limit => exact hl
  case stays =>
    intro w hm hne
    have ht := hw w hm hne
    rw [← fitting_append_rest t.limit t.waiters t.held] at ht
    rcases List.mem_append.mp ht with ht | ht
    · refine .inr ⟨?_, List.mem_map_of_mem ht⟩
      simp only [Sem.grantLocked, Bool.or_eq_true, List.contains_iff_mem]
      exact .inr (List.mem_map_of_mem ht)
    · exact .inl ht
  case flags =>
    intro c hc
    simp only [Sem.grantLocked, hg, hc, Bool.true_or]
  case queued => rintro _ ⟨⟩

theorem Passes.same {t : Sem} (hq : q.call = none) (hl : t.limit = m.limit)
    (hw : t.waiters = m.waiters) (hg : t.granted = m.granted) : Passes m f (t, q) := by
  constructor
  case limit => exact hl
  case stays => exact fun w hm _ => .inl (hw ▸ hm)
  case flags => exact fun c hc => by rw [hg]; exact hc
  case queued => exact fun c hc => absurd (hc.symm.trans hq) (by rintro ⟨⟩)

theorem Passes.acquire (m : Sem) (f n : ℕ) (timed : Bool) : Passes m f (m.acquire f n timed) := by
  unfold Sem.acquire
  split
  case isTrue => exact .same rfl rfl rfl rfl
  case isFalse =>
    constructor
    case limit => rfl
    case stays => exact fun w hm _ => .inl (List.mem_append_left _ hm)
    case flags => exact fun _ hc => hc
    case queued =>
      intro c hc
      cases hc
      exact ⟨n, List.mem_append_right _ List.mem_cons_self⟩

theorem Passes.tryAcquire (m : Sem) (f n : ℕ) : Passes m f (m.tryAcquire n) := by
  unfold Sem.tryAcquire
  split
  · exact .same rfl rfl rfl rfl
  · exact .same rfl rfl rfl rfl

theorem Passes.release (m : Sem) (f n : ℕ) : Passes m f (m.release n) := by
  unfold Sem.release
  split
  · exact .same rfl rfl rfl rfl
  · exact .grantLocked rfl (fun _ hm _ => hm) rfl

/-- Only the fiber's own waiter has its call. -/
theorem Passes.expire (h : Book m) {c : ℕ}
    (hq : m.granted c = false → ∃ n, ⟨f, n, c⟩ ∈ m.waiters) : Passes m f (m.expire c) := by
  unfold Sem.expire
  split
  case isTrue => exact .same rfl rfl rfl rfl
  case isFalse hg =>
    refine .grantLocked rfl (fun w hm hne => ?_) rfl
    refine List.mem_filter.mpr ⟨hm, ?_⟩
    rw [Bool.not_eq_true] at hg
    obtain ⟨n, hf⟩ := hq hg
    have hnd : (m.waiters.map Waiter.call).Nodup :=
      ((List.pairwise_append.mp h.sorted).2.1).imp Nat.ne_of_lt
    simp only [bne_iff_ne, ne_eq]
    intro hc
    have heq : w = ⟨f, n, c⟩ := List.inj_on_of_nodup_map hnd hm hf hc
    exact hne (by rw [heq])

structure Inv (limit : ℕ) (s : State) : Prop where
  limit : s.sem.limit = limit
  book : Book s.sem
  blocked : Blocked s.sem
  attended : Attended s

theorem inv_init (limit : ℕ) : Inv limit (init limit) where
  limit := rfl
  book :=
    { weight := rfl, bound := Nat.zero_le _, sorted := List.Pairwise.nil
      past := (by rintro _ ⟨⟩), flags := (by rintro _ ⟨⟩), expired := (by rintro _ ⟨⟩) }
  blocked := by rintro _ _ ⟨⟩
  attended := by rintro _ _ ⟨⟩

theorem PendingWake.goto {e : ℕ} (h : PendingWake s e)
    (hpc : t.pc = update s.pc f q) (hf : (s.pc f).wakes = [])
    (hw : s.woken e = true → t.woken e = true) : PendingWake t e := by
  rcases h with h | ⟨m, hm⟩
  · exact .inl (hw h)
  · refine .inr ⟨m, ?_⟩
    have hmf : m ≠ f := by
      rintro rfl
      rw [hf] at hm
      cases hm
    rw [hpc, update_of_ne hmf]
    exact hm

/-- A guarded section of a fiber that has no wakes to make. -/
theorem Attended.section (h : Attended s) (hf : (s.pc f).wakes = [])
    {r : Sem × Pc} (hr : Passes s.sem f r) : Attended (s.section f r) := by
  have hself : (s.section f r).pc f = r.2 := update_self ..
  intro e c hc
  by_cases hef : e = f
  · subst hef
    rw [hself] at hc
    exact .inl (hr.queued c hc)
  · have hold : (s.section f r).pc e = s.pc e := update_of_ne hef _ _
    rw [hold] at hc ⊢
    rcases h e c hc with ⟨n, hq⟩ | ⟨hg, hp⟩
    · rcases hr.stays _ hq hef with hq | ⟨hg, hw⟩
      · exact .inl ⟨n, hq⟩
      · refine .inr ⟨hg, fun _ => .inr ⟨f, ?_⟩⟩
        rw [hself]
        exact hw
    · exact .inr ⟨hr.flags c hg, fun ha => (hp ha).goto rfl hf id⟩

/-- A fiber moves on outside of the guarded sections. -/
theorem Attended.goto (h : Attended s)
    (hpc : t.pc = update s.pc f q) (hsem : t.sem = s.sem)
    (hcall : q.call = none ∨ q.call = (s.pc f).call)
    (hwaits : q.waits = true →
      (s.pc f).waits = true ∨ ∀ c, q.call = some c → s.sem.granted c = false)
    (hwakes : ∀ e, (e = f → q.waits = true) → PendingWake s e → PendingWake t e) :
    Attended t := by
  intro e c hc
  rw [hsem]
  rw [hpc] at hc ⊢
  by_cases hef : e = f
  · subst hef
    rw [update_self] at hc ⊢
    rcases hcall with hnone | hsame
    · rw [hnone] at hc
      cases hc
    · rcases h e c (hsame ▸ hc) with hq | ⟨hg, hp⟩
      · exact .inl hq
      · refine .inr ⟨hg, fun ha => ?_⟩
        rcases hwaits ha with hw | hn
        · exact hwakes e (fun _ => ha) (hp hw)
        · rw [hn c hc] at hg
          cases hg
  · rw [update_of_ne hef] at hc ⊢
    rcases h e c hc with hq | ⟨hg, hp⟩
    · exact .inl hq
    · exact .inr ⟨hg, fun ha => hwakes e (fun he => absurd he hef) (hp ha)⟩

theorem fiberStep_attended (h : Attended s) (hs : fiberStep s f = some t) :
    Attended t ∧ t.sem = s.sem := by
  unfold fiberStep at hs
  split at hs
  case h_1 timed c hf =>
    cases hs
    exact ⟨h.goto rfl rfl (.inr (by rw [hf]; rfl)) (fun _ => .inl (by rw [hf]; rfl))
      fun e _ hp => hp.goto rfl (by rw [hf]; rfl) id, rfl⟩
  case h_2 timed c hf =>
    cases hs
    refine ⟨h.goto rfl rfl ?_ ?_ fun e _ hp => hp.goto rfl (by rw [hf]; rfl) id, rfl⟩
    · split
      · exact .inl rfl
      · exact .inr (by rw [hf]; rfl)
    · split
      case isTrue => rintro ⟨⟩
      case isFalse hg =>
        intro _
        right
        intro c' hc
        cases hc
        exact Bool.not_eq_true _ ▸ hg
  case h_3 result hf =>
    cases hs
    exact ⟨h.goto rfl rfl (.inl rfl) (by rintro ⟨⟩) fun e _ hp => hp.goto rfl (by rw [hf]; rfl) id, rfl⟩
  case h_4 g gs result hf =>
    cases hs
    refine ⟨h.goto rfl rfl (.inl rfl) (by rintro ⟨⟩) fun e _ hp => ?_, rfl⟩
    have hwoken : e = g ∨ s.woken e = true → update s.woken g true e = true := by
      rintro (rfl | hw)
      · exact update_self ..
      · by_cases heg : e = g
        · rw [heg, update_self]
        · rw [update_of_ne heg, hw]
    rcases hp with hw | ⟨m, hm⟩
    · exact .inl (hwoken (.inr hw))
    · by_cases hmf : m = f
      · rw [hmf, hf] at hm
        rcases List.mem_cons.mp hm with heg | hm
        · exact .inl (hwoken (.inl heg))
        · refine .inr ⟨f, ?_⟩
          simp only [State.goto, update_self]
          exact hm
      · refine .inr ⟨m, ?_⟩
        simp only [State.goto, update_of_ne hmf]
        exact hm
  case h_5 => cases hs

theorem rests_wakes (h : q.rests = true) : q.wakes = [] := by
  cases q <;> first | rfl | cases h

theorem Inv.section {limit : ℕ} (h : Inv limit s) (hf : (s.pc f).wakes = [])
    {r : Sem × Pc} (hr : Passes s.sem f r) (hb : Book r.1 ∧ Blocked r.1) :
    Inv limit (s.section f r) :=
  ⟨hr.limit.trans h.limit, hb.1, hb.2, h.attended.section hf hr⟩

/-- A call raises before it takes the guard. -/
theorem Inv.raise {limit : ℕ} (h : Inv limit s)
    (hf : (s.pc f).rests = true) : Inv limit (s.goto f (.returned none)) :=
  ⟨h.limit, h.book, h.blocked, h.attended.goto rfl rfl (.inl rfl) (by rintro ⟨⟩) fun _ _ hp =>
    hp.goto rfl (rests_wakes hf) id⟩

theorem Inv.step {limit : ℕ} {a : Action} (h : Inv limit s)
    (hs : step s a = some t) : Inv limit t := by
  cases a with
  | acquire f n timed =>
    dsimp only [Semaphore.step] at hs
    split at hs
    case isTrue hf =>
      split at hs
      · cases hs
        exact h.raise hf
      · cases hs
        exact h.section (rests_wakes hf) (.acquire _ _ _ _) (h.book.acquire h.blocked _ _ _)
    case isFalse => cases hs
  | tryAcquire f n =>
    dsimp only [Semaphore.step] at hs
    split at hs
    case isTrue hf =>
      split at hs
      · cases hs
        exact h.raise hf
      · cases hs
        exact h.section (rests_wakes hf) (.tryAcquire _ _ _) (h.book.tryAcquire h.blocked _)
    case isFalse => cases hs
  | release f n =>
    dsimp only [Semaphore.step] at hs
    split at hs
    case isTrue hf =>
      split at hs
      · cases hs
        exact h.raise hf
      · cases hs
        exact h.section (rests_wakes hf) (.release _ _ _) (h.book.release h.blocked _)
    case isFalse => cases hs
  | resume f =>
    dsimp only [Semaphore.step] at hs
    split at hs
    case h_1 timed c hf =>
      split at hs
      case isTrue =>
        cases hs
        refine ⟨h.limit, h.book, h.blocked, h.attended.goto rfl rfl (.inr (by rw [hf]; rfl)) (by rintro ⟨⟩) ?_⟩
        intro e hef hp
        refine hp.goto rfl (by rw [hf]; rfl) (fun hw => ?_)
        have hne : e ≠ f := fun he => absurd (hef he) (by rintro ⟨⟩)
        exact (update_of_ne hne _ _).trans hw
      case isFalse => cases hs
    case h_2 => cases hs
  | spurious f =>
    dsimp only [Semaphore.step] at hs
    split at hs
    case h_1 timed c hf =>
      cases hs
      exact ⟨h.limit, h.book, h.blocked, h.attended.goto rfl rfl (.inr (by rw [hf]; rfl)) (by rintro ⟨⟩)
        fun e _ hp => hp.goto rfl (by rw [hf]; rfl) id⟩
    case h_2 => cases hs
  | expire f =>
    dsimp only [Semaphore.step] at hs
    split at hs
    case h_1 c hf =>
      cases hs
      have hcall := h.attended f c (by rw [hf]; rfl)
      have hq : s.sem.granted c = false → ∃ n, ⟨f, n, c⟩ ∈ s.sem.waiters := by
        intro hg
        rcases hcall with hq | ⟨ht, -⟩
        · exact hq
        · rw [hg] at ht
          cases ht
      refine h.section (by rw [hf]; rfl) (.expire h.book hq) (h.book.expire h.blocked ?_ ?_)
      · rcases hcall with ⟨n, hm⟩ | ⟨hg, -⟩
        · exact h.book.past c (List.mem_append_right _ (List.mem_map_of_mem hm))
        · exact h.book.past c (List.mem_append_left _ (h.book.flags c hg))
      · intro hg
        obtain ⟨n, hm⟩ := hq hg
        exact List.mem_map_of_mem hm
    case h_2 => cases hs
  | fiber f =>
    obtain ⟨ha, hl⟩ := fiberStep_attended h.attended hs
    exact ⟨hl ▸ h.limit, hl ▸ h.book, hl ▸ h.blocked, ha⟩

/-- What holds between two guarded sections: `held` is the weight granted and not released,
calls are granted in the order in which they came, each once and none that has timed
out, the front waiter does not fit, and a call that parks is queued or has a wake. -/
structure Weighted (limit : ℕ) (s : State) : Prop where
  fixed : s.sem.limit = limit
  held : (s.sem.grants.map Prod.snd).sum = s.sem.held + s.sem.released
  bound : s.sem.held ≤ limit
  fifo : (s.sem.grants.map Prod.fst ++ s.sem.waiters.map Waiter.call).Pairwise (· < ·)
  blocked : ∀ w ws, s.sem.waiters = w :: ws → limit < s.sem.held + w.n
  expired : ∀ c ∈ s.sem.expired, c ∉ s.sem.grants.map Prod.fst
  attended : Attended s

/-- **Over every run, for every limit.** -/
theorem reachable_weighted {limit : ℕ} {s : State} (hr : Reachable (system limit) s) :
    Weighted limit s := by
  have h : Inv limit s := by
    refine Reachable.invariant ?_ ?_ hr
    · rintro s rfl
      exact inv_init limit
    · intro s a t _ h hs
      exact h.step hs
  constructor
  case fixed => exact h.limit
  case held => exact h.book.weight.symm
  case bound => exact h.limit ▸ h.book.bound
  case fifo => exact h.book.sorted
  case blocked => exact h.limit ▸ h.blocked
  case expired => exact fun c hc hm => (h.book.expired c hc).2 (List.mem_append_left _ hm)
  case attended => exact h.attended

/-- Two of three permits are held, a call for three and one for one queue; the first times out,
and the second is granted. -/
theorem reachable_weighted_expired : ∃ s, Reachable (system 3) s ∧ Weighted 3 s ∧
    s.sem.expired = [1] ∧ s.sem.grants = [(0, 2), (2, 1)] := by
  have hr := reachable_of_run (system 3)
    [.acquire 0 2 false, .acquire 1 3 true, .acquire 2 1 false, .expire 1] rfl rfl
  exact ⟨_, hr, reachable_weighted hr, rfl, rfl⟩

end Stackweave.Sync.Semaphore
