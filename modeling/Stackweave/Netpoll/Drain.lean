import Mathlib
import Stackweave.Netpoll.Parkers

/-!
# The deadline drain (`runloom_pump_drain_expired`)

A parked waiter has the deadline of its caller (`user`), and until its staleness probe
has fired the key of its heap entry is the time of the probe. The drain takes the
entries with a key up to `now` off the heap of each pool, in batches of 64 wakes. An
entry with a pending probe gets the user deadline for its key, or leaves the heap when
there is none; any other is a timeout. The fds of up to 64 probes are validated when
the pool is done, and a dead one wakes everybody who waits on it.

The drain is one step here, from any state that parks, commits, claims and unlinks in
any order lead to.
-/

namespace Stackweave.Netpoll.Drain

open Transition LinkedList Parkers Function

/-- `p->commit` -/
inductive Commit
  | armed
  | parked
  | woken
  deriving DecidableEq

structure State where
  pools : Parkers.State
  /-- `user_deadline_ns`; negative is none. -/
  user : ℕ → ℤ
  /-- `probe_pending` -/
  probe : ℕ → Bool
  commit : ℕ → Commit
  events : ℕ → ℕ
  /-- `*p->ready_out` -/
  ready : ℕ → Option ℕ
  /-- The waiters that were put back on a run queue. -/
  queue : List ℕ
  /-- `lock_inited` of the pools. -/
  inited : ℕ → Bool
  /-- The probe ticks since the waiter parked. -/
  ticks : ℕ → ℕ

def State.init : State :=
  { pools := .init, user := fun _ => -1, probe := fun _ => false, commit := fun _ => .armed
    events := fun _ => 0, ready := fun _ => none, queue := [], inited := fun _ => false
    ticks := fun _ => 0 }

def State.unlink (cap : ℕ) (s : State) (i p : ℕ) : State :=
  { s with pools := (s.pools.unlink cap i p).1.mark p false }

/-! ### One pool -/

/-- A probe tick: the entry leaves the heap and comes back with the user deadline. -/
def State.tick (s : State) (i p : ℕ) (ok : Bool) : State :=
  let key := Function.update s.pools.deadline p (s.user p)
  let d := s.pools.deadlines.remove s.pools.deadline i p
  { s with
    probe := Function.update s.probe p false
    pools := { s.pools with deadline := key, deadlines := d.insert key i p ok }
    ticks := Function.update s.ticks p (s.ticks p + 1) }

/-- The claim of a waiter that nobody else has claimed, and its result. -/
def State.wake (cap : ℕ) (s : State) (i p r : ℕ) : State :=
  { s.unlink cap i p with
    commit := Function.update s.commit p .woken
    ready := Function.update s.ready p (some r) }

/-- The locals of the loop over one pool: `wakes`, `probe_fds`, and the waiters that `woke`
counts. -/
structure Loop where
  s : State
  wakes : List ℕ
  probes : List ℤ
  woke : List ℕ

/-- `RUNLOOM_TIMEOUT_WAKE_BATCH` and `RUNLOOM_STALE_PROBE_BATCH` -/
def batch : ℕ := 64

def Loop.tick (x : Loop) (i p : ℕ) (ok : Bool) : Loop :=
  { x with
    s := x.s.tick i p ok
    probes := if x.s.pools.fd p ∈ x.probes then x.probes else x.probes ++ [x.s.pools.fd p] }

/-- An entry whose waiter was claimed by somebody else is only dropped. -/
def Loop.expire (cap : ℕ) (x : Loop) (i p : ℕ) : Loop :=
  if x.s.commit p = .woken then { x with s := x.s.unlink cap i p }
  else
    { x with
      s := x.s.wake cap i p 0
      wakes := if x.s.commit p = .parked then x.wakes ++ [p] else x.wakes
      woke := x.woke ++ [p] }

/-- The `while` loop under the lock, with a bound on its turns; the result says whether it stopped
for a full batch. -/
def drainLoop (cap : ℕ) (now : ℤ) (ok : Bool) (i : ℕ) : ℕ → Loop → Option (Loop × Bool)
  | 0, _ => none
  | fuel + 1, x =>
    let p := x.s.pools.deadlines.arr i 0
    if x.s.pools.deadlines.size i = 0 ∨ now < x.s.pools.deadline p then some (x, false)
    else if batch ≤ x.wakes.length then some (x, true)
    else if x.s.probe p then
      if x.s.pools.fd p ∉ x.probes ∧ batch ≤ x.probes.length then some (x, false)
      else drainLoop cap now ok i fuel (x.tick i p ok)
    else drainLoop cap now ok i fuel (x.expire cap i p)

/-- The wakes after the lock is dropped. -/
def Loop.flush (x : Loop) : Loop :=
  { x with s := { x.s with queue := x.s.queue ++ x.wakes }, wakes := [] }

/-- From `drain_more`; `n` bounds the turns of each loop. -/
def drainBatches (cap : ℕ) (now : ℤ) (ok : Bool) (i n : ℕ) : ℕ → Loop → Option Loop
  | 0, _ => none
  | fuel + 1, x =>
    match drainLoop cap now ok i n x with
    | none => none
    | some (y, true) => drainBatches cap now ok i n fuel y.flush
    | some (y, false) => some y.flush

/-! ### The error wakes of dead fds -/

/-- `READ | WRITE` -/
def bothWays : ℕ := 3

/-- One turn of the walk of `runloom_pump_dispatch_event`, for both directions. -/
def State.eventWake (cap : ℕ) (s : State) (i p : ℕ) : State :=
  if s.events p &&& bothWays ≠ 0 ∧ s.commit p ≠ .woken then
    let t := s.wake cap i p (bothWays &&& s.events p)
    { t with queue := if s.commit p = .parked then t.queue ++ [p] else t.queue }
  else s

/-- The walk over a bucket with `wake_all`; the next parker is read before the wake. -/
def wakeBucket (cap i : ℕ) : ℕ → State → Option ℕ → Option State
  | _, s, none => some s
  | 0, _, some _ => none
  | fuel + 1, s, some p =>
    wakeBucket cap i fuel (s.eventWake cap i p) (s.pools.buckets.next p)

/-- `runloom_pump_dispatch_event` on one pool: whether the mask or the fallback lets it in. -/
def dispatchPool (cap n : ℕ) (fd : ℤ) (fallback : ℕ → Bool) (s : State) (i : ℕ) : Option State :=
  if (poolHubs ≤ i ∨ fallback i) ∧ s.inited i ∧ 0 ≤ fd ∧ fd.toNat < s.pools.buckets.byFdCap i then
    wakeBucket cap i n s (s.pools.buckets.byFd i fd.toNat)
  else some s

/-- `runloom_pump_dispatch_event` with the mask of the fd, read once. -/
def dispatch (cap n : ℕ) (s : State) (fd : ℤ) : Option State :=
  let fallback i := decide (cap ≤ fd.toNat) || s.pools.buckets.mask fd.toNat i
  (List.range (poolHubs + 1)).foldlM (dispatchPool cap n fd fallback) s

/-! ### The drain -/

/-- The answers of `runloom_netpoll_validate_arm` after each pool, and of `realloc`. -/
structure Env where
  dead : ℕ → ℤ → Bool
  ok : Bool

def serviceProbes (cap n : ℕ) (env : Env) (i : ℕ) (s : State) (fd : ℤ) : Option State :=
  if env.dead i fd then dispatch cap n s fd else some s

/-- The drain of one pool: the state and the waiters woken so far. -/
def drainPool (cap : ℕ) (now : ℤ) (env : Env) (n : ℕ) (x : State × List ℕ) (i : ℕ) :
    Option (State × List ℕ) :=
  if x.1.inited i then
    (drainBatches cap now env.ok i n n { s := x.1, wakes := [], probes := [], woke := x.2 }).bind
      fun y => (y.probes.foldlM (serviceProbes cap n env i) y.s).map fun t => (t, y.woke)
  else some x

/-- `runloom_pump_drain_expired_pools`; `n` bounds every loop, and the count it returns is the
length of the list. -/
def drainExpiredPools (cap : ℕ) (now : ℤ) (npools : ℕ) (env : Env) (n : ℕ) (s : State) :
    Option (State × List ℕ) :=
  (List.range npools).foldlM (drainPool cap now env n) (s, [])

/-- `runloom_pump_drain_expired` -/
def drainExpired (cap : ℕ) (now : ℤ) (env : Env) (n : ℕ) (s : State) : Option (State × List ℕ) :=
  drainExpiredPools cap now (poolHubs + 1) env n s

/-! ### The system -/

/-- What `runloom_netpoll_wait_fd` is called with and finds; `probeAt` is the time of a probe,
if the arm of the fd is to be probed. -/
structure Wait where
  fd : ℤ
  user : ℤ
  probeAt : Option ℕ
  events : ℕ
  hub : Option ℕ
  owner : Option ℕ
  fdOk : Bool
  dhOk : Bool

/-- The probe comes first, or there is none. -/
def Wait.pending (w : Wait) : Bool :=
  match w.probeAt with
  | some d => w.user < 0 ∨ d < w.user
  | none => false

def Wait.deadline (w : Wait) : ℤ :=
  match w.probeAt with
  | some d => if w.user < 0 ∨ d < w.user then d else w.user
  | none => w.user

inductive Act
  | park (p : ℕ) (w : Wait)
  | commit (p : ℕ)
  /-- Another waker has claimed the waiter, with this result. -/
  | claim (p r : ℕ)
  | unlink (i p : ℕ)
  | drain (now : ℤ) (env : Env)

/-- Turns enough for the loops of a drain: two for every parker. -/
def State.turns (s : State) : ℕ :=
  2 * ((List.range (poolHubs + 1)).map fun i => (s.pools.total i).toNat).sum + 1

def State.park (s : State) (q : Parkers.State) (p : ℕ) (w : Wait) : State :=
  { s with
    pools := q
    user := Function.update s.user p w.user
    probe := Function.update s.probe p w.pending
    commit := Function.update s.commit p .armed
    events := Function.update s.events p w.events
    ready := Function.update s.ready p none
    inited := Function.update s.inited (poolForHub w.hub) true
    ticks := Function.update s.ticks p 0 }

def step (cap : ℕ) (s : State) : Act → Option State
  | .park p w =>
    ((Parkers.pools cap).run s.pools
      [.fill p w.fd w.deadline w.hub w.owner, .link p w.fdOk w.dhOk]).map fun q => s.park q p w
  | .commit p =>
    if s.commit p = .armed then some { s with commit := Function.update s.commit p .parked }
    else none
  | .claim p r =>
    if s.commit p = .woken then none
    else
      some { s with
        commit := Function.update s.commit p .woken
        ready := Function.update s.ready p (some r) }
  | .unlink i p =>
    if s.pools.linked p → i = s.pools.pool p then some (s.unlink cap i p) else none
  | .drain now env => (drainExpired cap now env s.turns s).map Prod.fst

def waits (cap : ℕ) : System State Act := { init := fun s => s = .init, step := step cap }

/-! ### What the heap says -/

section Heap

variable {cap : ℕ} {s : Parkers.State} {L : ℕ → List ℕ} {B : ℕ × ℕ → List ℕ} {i p : ℕ} {now : ℤ}

/-- On the deadline heap of its pool. -/
def Timed (s : Parkers.State) (p : ℕ) : Prop :=
  s.linked p = true ∧ 0 ≤ s.deadline p ∧ s.deadlines.missed p = false

theorem root_timed (h : Inv cap s L B) (hsize : s.deadlines.size i ≠ 0) :
    Timed s (s.deadlines.arr i 0) ∧ s.pool (s.deadlines.arr i 0) = i := by
  have hon := (h.deadlines.has i _).mp ⟨0, Nat.pos_of_ne_zero hsize, rfl⟩
  exact ⟨⟨hon.1.1, hon.2⟩, hon.1.2⟩

/-- The loop ends with no key up to `now` on the heap. -/
theorem clear_of_root (h : Inv cap s L B)
    (hroot : s.deadlines.size i = 0 ∨ now < s.deadline (s.deadlines.arr i 0))
    (hp : Timed s p) (hi : s.pool p = i) : now < s.deadline p := by
  obtain ⟨k, -, hk, hkp⟩ := h.deadlines.place ⟨⟨hp.1, hi⟩, hp.2⟩
  rcases hroot with hsize | hroot
  · omega
  · refine lt_of_lt_of_le hroot ?_
    have := (h.deadlines.ordered i).root hk
    rwa [show (s.deadlines.cells i).arr k = p from hkp] at this

/-- A timed parker gets another deadline; if it has one it is on the heap again, because the
heap had room for it before. -/
theorem rekey_inv (h : Inv cap s L B) (hp : Timed s p) (v : ℤ) (ok : Bool) :
    ∃ d, (s.deadlines.remove s.deadline (s.pool p) p).insert (update s.deadline p v)
        (s.pool p) p ok = d ∧ d.missed = s.deadlines.missed ∧
      Inv cap { s with deadline := update s.deadline p v, deadlines := d } L B := by
  obtain ⟨hlinked, hd, hm⟩ := hp
  obtain ⟨hshape, hsize, hcap, hmissed⟩ := h.deadlines.remove ⟨⟨hlinked, rfl⟩, hd, hm⟩
  have hroom := h.deadlines.room (s.pool p)
  -- off the heap the key does not matter
  have hrest := hshape.congr (fun i q hq => update_of_ne hq.2 v s.deadline)
    fun _ _ => Iff.rfl
  have hfree := hrest.free p fun _ hj => hj.2 rfl
  have hmissed' : ((s.deadlines.remove s.deadline (s.pool p) p).push
      (update s.deadline p v) (s.pool p) p).missed = s.deadlines.missed := by
    change update (s.deadlines.remove s.deadline (s.pool p) p).missed p false = _
    rw [hmissed, ← hm, update_eq_self]
  refine ⟨_, rfl, ?_, h.lists, h.list, h.buckets, h.bucket, h.indexed, ?_, h.total, h.parked⟩
  · by_cases hv : v < 0
    · rw [Deadlines.insert, if_pos (.inl (by rwa [update_self])), hmissed]
    · rw [Deadlines.insert_eq_push (by rw [update_self]; omega) hfree
        (by rw [hcap]; omega), hmissed']
  · by_cases hv : v < 0
    · rw [Deadlines.insert, if_pos (.inl (by rwa [update_self]))]
      refine hrest.congr (fun _ _ _ => rfl) fun j q => ?_
      by_cases hq : q = p
      · subst hq
        simp only [update_self, ne_eq, not_true_eq_false, and_false, iff_false]
        exact fun hj => absurd hj.2.1 (by omega)
      · simp only [update_of_ne hq, hmissed, ne_eq, hq, not_false_eq_true, and_true]
        rfl
    · rw [Deadlines.insert_eq_push (by rw [update_self]; omega) hfree
        (by rw [hcap]; omega)]
      have hnot : ∀ j, ¬ (((s.linked p = true ∧ s.pool p = j) ∧ 0 ≤ s.deadline p ∧
          s.deadlines.missed p = false) ∧ p ≠ p) := fun j hj => hj.2 rfl
      refine (hrest.push hnot (i := s.pool p) (by rw [hcap]; omega)).congr (fun _ _ _ => rfl)
        fun j q => ?_
      rw [hmissed']
      by_cases hq : q = p
      · subst hq
        simp only [update_self, ne_eq, not_true_eq_false, and_false, false_or, and_true]
        exact ⟨fun hj => hj.1.2.symm, fun hj => ⟨⟨hlinked, hj.symm⟩, by omega, hm⟩⟩
      · simp only [update_of_ne hq, ne_eq, hq, not_false_eq_true, and_true, and_false,
          or_false]
        rfl

end Heap

/-! ### What the drain keeps -/

/-- The waiter has not been touched. -/
structure Untouched (s t : State) (p : ℕ) : Prop where
  deadline : t.pools.deadline p = s.pools.deadline p
  probe : t.probe p = s.probe p
  ticks : t.ticks p = s.ticks p

/-- Its probe was due and has fired: the user deadline is its key now. -/
structure Ticked (now : ℤ) (s t : State) (p : ℕ) : Prop where
  timed : Timed s.pools p
  due : s.pools.deadline p ≤ now
  pending : s.probe p = true
  deadline : t.pools.deadline p = s.user p
  probe : t.probe p = false
  ticks : t.ticks p = s.ticks p + 1

/-- The waiters that are still linked after a part of the drain were linked before it, and
nothing but a tick has happened to them. -/
structure Kept (now : ℤ) (s t : State) : Prop where
  user : t.user = s.user
  fd : t.pools.fd = s.pools.fd
  hub : t.pools.hub = s.pools.hub
  missed : t.pools.deadlines.missed = s.pools.deadlines.missed
  inited : t.inited = s.inited
  queue : s.queue ⊆ t.queue
  linked : ∀ p, t.pools.linked p = true → s.pools.linked p = true
  commit : ∀ p, t.pools.linked p = true → t.commit p = s.commit p
  waiter : ∀ p, t.pools.linked p = true → Untouched s t p ∨ Ticked now s t p

section Kept

variable {now : ℤ} {s t u : State} {p : ℕ}

theorem Kept.refl (s : State) : Kept now s s :=
  ⟨rfl, rfl, rfl, rfl, rfl, List.Subset.refl _, fun _ h => h, fun _ _ => rfl,
    fun _ _ => .inl ⟨rfl, rfl, rfl⟩⟩

theorem Kept.trans (h : Kept now s t) (k : Kept now t u) : Kept now s u := by
  refine ⟨k.user.trans h.user, k.fd.trans h.fd, k.hub.trans h.hub, k.missed.trans h.missed,
    k.inited.trans h.inited, List.Subset.trans h.queue k.queue,
    fun p hp => h.linked p (k.linked p hp), fun p hp => ?_, fun p hp => ?_⟩
  · exact (k.commit p hp).trans (h.commit p (k.linked p hp))
  · have ht := k.linked p hp
    rcases h.waiter p ht with hw | hw <;> rcases k.waiter p hp with kw | kw
    · exact .inl ⟨kw.deadline.trans hw.deadline, kw.probe.trans hw.probe, kw.ticks.trans hw.ticks⟩
    · refine .inr ⟨⟨h.linked p ht, ?_, ?_⟩, ?_, ?_, ?_, kw.probe, ?_⟩
      · rw [← hw.deadline]
        exact kw.timed.2.1
      · rw [← h.missed]
        exact kw.timed.2.2
      · rw [← hw.deadline]
        exact kw.due
      · rw [← hw.probe]
        exact kw.pending
      · rw [kw.deadline, h.user]
      · rw [kw.ticks, hw.ticks]
    · exact .inr ⟨hw.timed, hw.due, hw.pending, kw.deadline.trans hw.deadline,
        kw.probe.trans hw.probe, kw.ticks.trans hw.ticks⟩
    · -- the probe fires once
      have hpending := kw.pending
      rw [hw.probe] at hpending
      exact absurd hpending Bool.false_ne_true

/-- A pending probe was pending before, with the same key. -/
theorem Kept.of_probe (h : Kept now s t) (hp : t.pools.linked p = true) (hprobe : t.probe p = true) :
    Untouched s t p := by
  refine (h.waiter p hp).resolve_right fun hw => ?_
  rw [hw.probe] at hprobe
  exact Bool.false_ne_true hprobe

end Kept

/-- The key of a linked waiter is its user deadline, or an earlier probe that has not fired. -/
structure Good (s : State) : Prop where
  probing : ∀ p, s.pools.linked p = true → s.probe p = true →
    0 ≤ s.pools.deadline p ∧ (s.user p < 0 ∨ s.pools.deadline p < s.user p)
  settled : ∀ p, s.pools.linked p = true → s.probe p = false → s.pools.deadline p = s.user p
  ticks : ∀ p, s.ticks p ≤ 1
  unticked : ∀ p, s.probe p = true → s.ticks p = 0
  inited : ∀ p, s.pools.linked p = true → s.inited (s.pools.pool p) = true

/-- A part of the drain from `s` has led to `t` and timed out the waiters `woke`; `L` and `B` are
the lists and the buckets of `t`. -/
structure Drained (cap : ℕ) (now : ℤ) (s t : State) (woke : List ℕ) (L : ℕ → List ℕ)
    (B : ℕ × ℕ → List ℕ) : Prop where
  inv : Inv cap t.pools L B
  good : Good t
  kept : Kept now s t
  nodup : woke.Nodup
  linked : ∀ p ∈ woke, s.pools.linked p = true
  unclaimed : ∀ p ∈ woke, s.commit p ≠ .woken
  expired : ∀ p ∈ woke, 0 ≤ s.user p ∧ s.user p ≤ now
  unlinked : ∀ p ∈ woke, t.pools.linked p = false
  ready : ∀ p ∈ woke, t.ready p = some 0

section Drained

variable {cap : ℕ} {now : ℤ} {s t t' : State} {woke : List ℕ} {L : ℕ → List ℕ}
  {B : ℕ × ℕ → List ℕ} {i p : ℕ}

theorem queue_kept {q : List ℕ} (hq : t.queue ⊆ q) : Kept now t { t with queue := q } :=
  ⟨rfl, rfl, rfl, rfl, rfl, hq, fun _ h => h, fun _ _ => rfl, fun _ _ => .inl ⟨rfl, rfl, rfl⟩⟩

/-- Nothing but the run queue has changed. -/
theorem Drained.queued (h : Drained cap now s t woke L B) {q : List ℕ} (hq : t.queue ⊆ q) :
    Drained cap now s { t with queue := q } woke L B :=
  ⟨h.inv, ⟨h.good.probing, h.good.settled, h.good.ticks, h.good.unticked, h.good.inited⟩,
    h.kept.trans (queue_kept hq), h.nodup, h.linked, h.unclaimed, h.expired, h.unlinked, h.ready⟩

theorem tick_kept (h : Inv cap t.pools L B) (hp : Timed t.pools p)
    (hdue : t.pools.deadline p ≤ now) (hprobe : t.probe p = true) (ok : Bool) :
    Kept now t (t.tick (t.pools.pool p) p ok) := by
  obtain ⟨d, hd, hmissed, -⟩ := rekey_inv h hp (t.user p) ok
  subst hd
  refine ⟨rfl, rfl, rfl, hmissed, rfl, List.Subset.refl _, fun _ h => h, fun _ _ => rfl,
    fun q _ => ?_⟩
  by_cases hq : q = p
  · subst hq
    exact .inr ⟨hp, hdue, hprobe, update_self .., update_self ..,
      update_self ..⟩
  · exact .inl ⟨update_of_ne hq .., update_of_ne hq ..,
      update_of_ne hq ..⟩

theorem tick_good (h : Good t) (hprobe : t.probe p = true) (i : ℕ) (ok : Bool) :
    Good (t.tick i p ok) := by
  refine ⟨fun q hq hpend => ?_, fun q hq hset => ?_, fun q => ?_, fun q hpend => ?_, h.inited⟩
  · have hqp : q ≠ p := fun he => by
      rw [he, State.tick] at hpend
      simp only [update_self, Bool.false_eq_true] at hpend
    simp only [State.tick, update_of_ne hqp] at hpend ⊢
    exact h.probing q hq hpend
  · by_cases hqp : q = p
    · rw [hqp]
      exact update_self ..
    · simp only [State.tick, update_of_ne hqp] at hset ⊢
      exact h.settled q hq hset
  · by_cases hqp : q = p
    · rw [hqp]
      simp only [State.tick, update_self, h.unticked p hprobe]
      exact Nat.le_refl 1
    · simp only [State.tick, update_of_ne hqp]
      exact h.ticks q
  · have hqp : q ≠ p := fun he => by
      rw [he, State.tick] at hpend
      simp only [update_self, Bool.false_eq_true] at hpend
    simp only [State.tick, update_of_ne hqp] at hpend ⊢
    exact h.unticked q hpend

theorem Drained.tick (h : Drained cap now s t woke L B) (hp : Timed t.pools p)
    (hdue : t.pools.deadline p ≤ now) (hprobe : t.probe p = true) (ok : Bool) :
    Drained cap now s (t.tick (t.pools.pool p) p ok) woke L B := by
  obtain ⟨d, hd, -, hinv⟩ := rekey_inv h.inv hp (t.user p) ok
  subst hd
  exact ⟨hinv, tick_good h.good hprobe _ ok, h.kept.trans (tick_kept h.inv hp hdue hprobe ok),
    h.nodup, h.linked, h.unclaimed, h.expired, h.unlinked, h.ready⟩

theorem unlink_fields (cap : ℕ) (s : Parkers.State) (i p : ℕ) :
    (s.unlink cap i p).1.fd = s.fd ∧ (s.unlink cap i p).1.deadline = s.deadline ∧
      (s.unlink cap i p).1.hub = s.hub ∧ (s.unlink cap i p).1.linked = s.linked ∧
      (s.unlink cap i p).1.deadlines = s.deadlines.remove s.deadline i p := by
  unfold Parkers.State.unlink
  split <;> exact ⟨rfl, rfl, rfl, rfl, rfl⟩

theorem remove_missed (key : ℕ → ℤ) (d : Deadlines) (i p : ℕ) :
    (d.remove key i p).missed = d.missed := by
  unfold Deadlines.remove
  split
  · rfl
  · split <;> rfl

theorem linked_of_unlink {q : ℕ} (h : (t.unlink cap i p).pools.linked q = true) :
    q ≠ p ∧ t.pools.linked q = true := by
  change update (t.pools.unlink cap i p).1.linked p false q = true at h
  rw [(unlink_fields cap t.pools i p).2.2.2.1] at h
  by_cases hqp : q = p
  · rw [hqp, update_self] at h
    exact absurd h Bool.false_ne_true
  · rw [update_of_ne hqp] at h
    exact ⟨hqp, h⟩

theorem not_linked_unlink : (t.unlink cap i p).pools.linked p = false := update_self ..

/-- `t'` is `t` without the waiter `p`, whose commit word and result may have been written. -/
structure Without (cap : ℕ) (t : State) (p : ℕ) (t' : State) : Prop where
  pools : t'.pools = (t.unlink cap (t.pools.pool p) p).pools
  user : t'.user = t.user
  probe : t'.probe = t.probe
  ticks : t'.ticks = t.ticks
  inited : t'.inited = t.inited
  queue : t'.queue = t.queue
  commit : ∀ q, q ≠ p → t'.commit q = t.commit q
  ready : ∀ q, q ≠ p → t'.ready q = t.ready q

theorem Without.kept (h : Without cap t p t') : Kept now t t' := by
  obtain ⟨hfd, hdeadline, hhub, -, hdl⟩ := unlink_fields cap t.pools (t.pools.pool p) p
  have hlinked : ∀ q, t'.pools.linked q = true → q ≠ p ∧ t.pools.linked q = true := fun q hq => by
    rw [h.pools] at hq
    exact linked_of_unlink hq
  refine ⟨h.user, h.pools ▸ hfd, h.pools ▸ hhub, ?_, h.inited, h.queue ▸ List.Subset.refl _,
    fun q hq => (hlinked q hq).2, fun q hq => h.commit q (hlinked q hq).1, fun q _ => .inl ⟨?_, ?_, ?_⟩⟩
  · rw [h.pools]
    change (t.pools.unlink cap _ p).1.deadlines.missed = _
    rw [hdl, remove_missed]
  · rw [h.pools]
    exact congrFun hdeadline q
  · rw [h.probe]
  · rw [h.ticks]

/-- What `Good` says is kept with the waiters. -/
theorem Good.without (h : Good t) (k : Without cap t p t') : Good t' := by
  have hkept : Kept 0 t t' := k.kept
  obtain ⟨-, hdeadline, -, -, -⟩ := unlink_fields cap t.pools (t.pools.pool p) p
  have hd : t'.pools.deadline = t.pools.deadline := k.pools ▸ hdeadline
  refine ⟨fun q hq hpend => ?_, fun q hq hset => ?_, fun q => ?_, fun q hpend => ?_, fun q hq => ?_⟩
  · rw [k.user, hd]
    exact h.probing q (hkept.linked q hq) (k.probe ▸ hpend)
  · rw [k.user, hd]
    exact h.settled q (hkept.linked q hq) (k.probe ▸ hset)
  · rw [k.ticks]
    exact h.ticks q
  · rw [k.ticks]
    exact h.unticked q (k.probe ▸ hpend)
  · rw [k.inited, Parkers.State.pool, hkept.hub]
    exact h.inited q (hkept.linked q hq)

theorem Drained.without (h : Drained cap now s t woke L B) (hp : t.pools.linked p = true)
    (k : Without cap t p t') :
    ∃ C, Drained cap now s t' woke
        (update L (t.pools.pool p) ((L (t.pools.pool p)).erase p)) C ∧
      ∀ j, C j = (B j).erase p := by
  obtain ⟨C, hinv, herase⟩ := h.inv.unlink hp
  have hne : ∀ q ∈ woke, q ≠ p := fun q hq he => by
    have := h.unlinked q hq
    rw [he, hp] at this
    exact Bool.false_ne_true this.symm
  refine ⟨C, ⟨k.pools ▸ hinv, h.good.without k, h.kept.trans k.kept, h.nodup, h.linked,
    h.unclaimed, h.expired, fun q hq => ?_, fun q hq => ?_⟩, herase⟩
  · by_contra hlinked
    have hkept : Kept now t t' := k.kept
    have hold := hkept.linked q (Bool.not_eq_false _ ▸ hlinked)
    rw [h.unlinked q hq] at hold
    exact Bool.false_ne_true hold
  · rw [k.ready q (hne q hq)]
    exact h.ready q hq

theorem unlink_without (t : State) : Without cap t p (t.unlink cap (t.pools.pool p) p) :=
  ⟨rfl, rfl, rfl, rfl, rfl, rfl, fun _ _ => rfl, fun _ _ => rfl⟩

theorem wake_without (t : State) (r : ℕ) : Without cap t p (t.wake cap (t.pools.pool p) p r) :=
  ⟨rfl, rfl, rfl, rfl, rfl, rfl, fun _ hq => update_of_ne hq ..,
    fun _ hq => update_of_ne hq ..⟩

/-- Whoever was linked before and is not any more has been timed out, or was claimed already, or
has been woken with some readiness. -/
def Gone (s t : State) (woke : List ℕ) : Prop :=
  ∀ p, s.pools.linked p = true → t.pools.linked p = false →
    p ∈ woke ∨ s.commit p = .woken ∨ ∃ r, r ≠ 0 ∧ t.ready p = some r

theorem Gone.without {woke' : List ℕ} (h : Gone s t woke) (k : Without cap t p t')
    (hsub : woke ⊆ woke')
    (hp : p ∈ woke' ∨ s.commit p = .woken ∨ ∃ r, r ≠ 0 ∧ t'.ready p = some r) :
    Gone s t' woke' := by
  intro q hq hgone
  by_cases hqp : q = p
  · rw [hqp]
    exact hp
  · have hsame : t'.pools.linked q = t.pools.linked q := by
      rw [k.pools]
      change update (t.pools.unlink cap _ p).1.linked p false q = _
      rw [update_of_ne hqp, (unlink_fields cap t.pools _ p).2.2.2.1]
    rw [k.ready q hqp]
    exact (h q hq (hsame ▸ hgone)).imp_left fun hw => hsub hw

theorem Drained.timeout (h : Drained cap now s t woke L B) (hp : t.pools.linked p = true)
    (hcommit : t.commit p ≠ .woken) (hexpired : 0 ≤ t.user p ∧ t.user p ≤ now) :
    ∃ C, Drained cap now s (t.wake cap (t.pools.pool p) p 0) (woke ++ [p])
        (update L (t.pools.pool p) ((L (t.pools.pool p)).erase p)) C ∧
      ∀ j, C j = (B j).erase p := by
  obtain ⟨C, hd, herase⟩ := h.without hp (wake_without t 0)
  have hfresh : p ∉ woke := fun hm => by
    have := h.unlinked p hm
    rw [hp] at this
    exact Bool.false_ne_true this.symm
  have hall : ∀ {P : ℕ → Prop}, (∀ q ∈ woke, P q) → P p → ∀ q ∈ woke ++ [p], P q := by
    intro P hwoke hP q hq
    rcases List.mem_append.mp hq with hq | hq
    · exact hwoke q hq
    · exact List.mem_singleton.mp hq ▸ hP
  refine ⟨C, ⟨hd.inv, hd.good, hd.kept, ?_, hall hd.linked (h.kept.linked p hp),
    hall hd.unclaimed (h.kept.commit p hp ▸ hcommit), hall hd.expired (h.kept.user ▸ hexpired),
    hall hd.unlinked not_linked_unlink, hall hd.ready (update_self ..)⟩, herase⟩
  exact List.nodup_append.mpr ⟨h.nodup, List.nodup_singleton p, fun a ha b hb he =>
    hfresh (List.mem_singleton.mp hb ▸ he ▸ ha)⟩

end Drained

/-! ### The loop over one pool -/

/-- The entries of a pool that the loop may still pop, once more each for a pending probe. -/
def work (L : ℕ → List ℕ) (s : State) (i : ℕ) : ℕ := (L i).length + (L i).countP s.probe

theorem countP_update_lt {l : List ℕ} {f : ℕ → Bool} {p : ℕ} (hp : p ∈ l) (hf : f p = true) :
    l.countP (update f p false) < l.countP f := by
  have hperm := List.perm_cons_erase hp
  rw [hperm.countP_eq, hperm.countP_eq (p := f), List.countP_cons, List.countP_cons,
    update_self, if_neg Bool.false_ne_true, if_pos hf]
  refine Nat.lt_succ_of_le (List.countP_mono_left fun q _ hq => ?_)
  by_cases hqp : q = p
  · rw [hqp]
    exact hf
  · rwa [update_of_ne hqp] at hq

section Loop

variable {cap : ℕ} {now : ℤ} {s : State} {x y : Loop} {L : ℕ → List ℕ}
  {B : ℕ × ℕ → List ℕ} {i p : ℕ} {ok : Bool}

theorem work_tick (hp : p ∈ L i) (hprobe : s.probe p = true) :
    work L (s.tick i p ok) i < work L s i :=
  Nat.add_lt_add_left (countP_update_lt hp hprobe) _

theorem work_erase {t : State} (hp : p ∈ L i) (hprobe : t.probe = s.probe) :
    work (update L i ((L i).erase p)) t i < work L s i := by
  have hlen := (List.perm_cons_erase hp).length_eq
  have hcount : ((L i).erase p).countP s.probe ≤ (L i).countP s.probe :=
    List.erase_sublist.countP_le
  rw [List.length_cons] at hlen
  unfold work
  rw [update_self, hprobe]
  omega

theorem erase_length_le (L : ℕ → List ℕ) (i p j : ℕ) :
    (update L i ((L i).erase p) j).length ≤ (L j).length := by
  by_cases hj : j = i
  · rw [hj, update_self]
    exact List.length_erase_le
  · rw [update_of_ne hj]

/-- The fds of `probe_fds` had due probes when the drain began. -/
structure Probed (now : ℤ) (s : State) (probes : List ℤ) : Prop where
  nodup : probes.Nodup
  due : ∀ f ∈ probes, ∃ p, Timed s.pools p ∧ s.pools.deadline p ≤ now ∧ s.probe p = true ∧
    s.pools.fd p = f

/-- What holds between the turns. -/
structure Looped (cap : ℕ) (now : ℤ) (s : State) (x : Loop) (L : ℕ → List ℕ)
    (B : ℕ × ℕ → List ℕ) : Prop where
  drained : Drained cap now s x.s x.woke L B
  probed : Probed now s x.probes
  requeued : ∀ p ∈ x.woke, s.commit p = .parked → p ∈ x.wakes ∨ p ∈ x.s.queue
  gone : Gone s x.s x.woke

theorem Looped.tick (h : Looped cap now s x L B) (hp : Timed x.s.pools p)
    (hdue : x.s.pools.deadline p ≤ now) (hprobe : x.s.probe p = true) (ok : Bool) :
    Looped cap now s (x.tick (x.s.pools.pool p) p ok) L B := by
  refine ⟨h.drained.tick hp hdue hprobe ok, ?_, h.requeued, h.gone⟩
  have hkept := h.drained.kept
  have hsame := hkept.of_probe hp.1 hprobe
  unfold Loop.tick
  split
  · exact h.probed
  case isFalse hnew =>
    constructor
    · exact List.nodup_append.mpr ⟨h.probed.nodup, List.nodup_singleton _, fun a ha b hb he =>
        hnew (List.mem_singleton.mp hb ▸ he ▸ ha)⟩
    · intro f hf
      rcases List.mem_append.mp hf with hf | hf
      · exact h.probed.due f hf
      · refine ⟨p, ⟨hkept.linked p hp.1, ?_, ?_⟩, ?_, ?_, ?_⟩
        · exact hsame.deadline ▸ hp.2.1
        · exact hkept.missed ▸ hp.2.2
        · exact hsame.deadline ▸ hdue
        · exact hsame.probe ▸ hprobe
        · rw [List.mem_singleton.mp hf, hkept.fd]

theorem expire_kept (x : Loop) (p : ℕ) :
    Kept now x.s (x.expire cap (x.s.pools.pool p) p).s := by
  unfold Loop.expire
  split
  · exact (unlink_without x.s).kept
  · exact (wake_without x.s 0).kept

theorem expire_probe (cap : ℕ) (x : Loop) (i p : ℕ) : (x.expire cap i p).s.probe = x.s.probe := by
  unfold Loop.expire
  split <;> rfl

theorem Looped.expire (h : Looped cap now s x L B) (hp : Timed x.s.pools p)
    (hdue : x.s.pools.deadline p ≤ now) (hprobe : x.s.probe p = false) :
    ∃ C, Looped cap now s (x.expire cap (x.s.pools.pool p) p)
      (update L (x.s.pools.pool p) ((L (x.s.pools.pool p)).erase p)) C := by
  have huser := h.drained.good.settled p hp.1 hprobe
  unfold Loop.expire
  have hcommit := h.drained.kept.commit p hp.1
  split
  case isTrue hclaimed =>
    obtain ⟨C, hd, -⟩ := h.drained.without hp.1 (unlink_without x.s)
    refine ⟨C, hd, h.probed, h.requeued, ?_⟩
    exact h.gone.without (unlink_without x.s) (List.Subset.refl _) (.inr (.inl (hcommit ▸ hclaimed)))
  case isFalse hfree =>
    obtain ⟨C, hd, -⟩ := h.drained.timeout hp.1 hfree (huser ▸ ⟨hp.2.1, hdue⟩)
    refine ⟨C, hd, h.probed, fun q hq hparked => ?_, h.gone.without (wake_without x.s 0)
      (List.subset_append_left _ _) (.inl (List.mem_append_right _ (List.mem_singleton_self p)))⟩
    dsimp only at hq ⊢
    rcases List.mem_append.mp hq with hq | hq
    · rcases h.requeued q hq hparked with hw | hw
      · left
        split
        · exact List.mem_append_left _ hw
        · exact hw
      · exact .inr hw
    · have hqp := List.mem_singleton.mp hq
      rw [hqp, ← hcommit] at hparked
      rw [if_pos hparked]
      exact .inl (List.mem_append_right _ hq)

/-- After the loop: its heap has no key up to `now`, or it stopped for `probe_fds`. -/
def Cleared (now : ℤ) (y : Loop) (i : ℕ) : Prop :=
  (∀ p, Timed y.s.pools p → y.s.pools.pool p = i → now < y.s.pools.deadline p) ∨
    batch ≤ y.probes.length

/-- The loop from `x` has ended with `r` and kept what holds between the turns; a full batch is
progress. -/
def Ends (cap : ℕ) (now : ℤ) (s : State) (i : ℕ) (x : Loop) (L : ℕ → List ℕ)
    (r : Option (Loop × Bool)) : Prop :=
  ∃ y more M C, r = some (y, more) ∧ Looped cap now s y M C ∧ Kept now x.s y.s ∧
    (∀ j, (M j).length ≤ (L j).length) ∧ work M y.s i ≤ work L x.s i ∧
    (more = true → x.wakes.length < batch → work M y.s i < work L x.s i) ∧
    (more = false → Cleared now y i)

theorem Ends.here (h : Looped cap now s x L B) (hclear : Cleared now x i) :
    Ends cap now s i x L (some (x, false)) :=
  ⟨x, false, L, B, rfl, h, .refl _, fun _ => Nat.le_refl _, Nat.le_refl _,
    fun hf => absurd hf Bool.false_ne_true, fun _ => hclear⟩

theorem Ends.turn {M : ℕ → List ℕ} {r : Option (Loop × Bool)} (hkept : Kept now x.s y.s)
    (hlen : ∀ j, (M j).length ≤ (L j).length) (hwork : work M y.s i < work L x.s i)
    (h : Ends cap now s i y M r) : Ends cap now s i x L r := by
  obtain ⟨z, more, N, C, hr, hloop, hk, hl, hw, -, hclear⟩ := h
  exact ⟨z, more, N, C, hr, hloop, hkept.trans hk, fun j => Nat.le_trans (hl j) (hlen j),
    Nat.le_of_lt (Nat.lt_of_le_of_lt hw hwork), fun _ _ => Nat.lt_of_le_of_lt hw hwork, hclear⟩

theorem drainLoop_ends (ok : Bool) (n : ℕ) (h : Looped cap now s x L B) (hn : work L x.s i < n) :
    Ends cap now s i x L (drainLoop cap now ok i n x) := by
  induction n generalizing x L B with
  | zero => exact absurd hn (Nat.not_lt_zero _)
  | succ n ih =>
    rw [drainLoop]
    split
    case isTrue hroot => exact .here h (.inl fun p hp hi => clear_of_root h.drained.inv hroot hp hi)
    case isFalse hroot =>
      rw [not_or] at hroot
      obtain ⟨htimed, hpool⟩ := root_timed h.drained.inv hroot.1
      have hdue := Int.not_lt.mp hroot.2
      have hmem : x.s.pools.deadlines.arr i 0 ∈ L i :=
        (h.drained.inv.list i _).mpr ⟨htimed.1, hpool⟩
      generalize x.s.pools.deadlines.arr i 0 = p at htimed hpool hdue hmem ⊢
      subst hpool
      split
      case isTrue hfull =>
        exact ⟨x, true, L, B, rfl, h, .refl _, fun _ => Nat.le_refl _, Nat.le_refl _,
          fun _ hlt => absurd hfull (Nat.not_le.mpr hlt),
          fun hf => absurd hf Bool.false_ne_true.symm⟩
      case isFalse =>
        split
        case isTrue hprobe =>
          split
          case isTrue hstop => exact .here h (.inr hstop.2)
          case isFalse =>
            have hwork : work L (x.tick (x.s.pools.pool p) p ok).s (x.s.pools.pool p) <
                work L x.s (x.s.pools.pool p) := work_tick hmem hprobe
            refine .turn (tick_kept h.drained.inv htimed hdue hprobe ok) (fun _ => Nat.le_refl _)
              hwork ?_
            exact ih (h.tick htimed hdue hprobe ok) (by omega)
        case isFalse hprobe =>
          obtain ⟨C, hnext⟩ := h.expire htimed hdue (Bool.not_eq_true _ ▸ hprobe)
          have hwork := work_erase hmem (expire_probe cap x (x.s.pools.pool p) p)
          refine .turn (expire_kept x p) (erase_length_le L _ p) hwork ?_
          exact ih hnext (by omega)

theorem Looped.flush (h : Looped cap now s x L B) : Looped cap now s x.flush L B := by
  refine ⟨h.drained.queued (List.subset_append_left _ _), h.probed, fun p hp hparked => .inr ?_,
    h.gone⟩
  rcases h.requeued p hp hparked with hw | hw
  · exact List.mem_append_right _ hw
  · exact List.mem_append_left _ hw

theorem drainBatches_ends (ok : Bool) (n m : ℕ) (h : Looped cap now s x L B) (hwakes : x.wakes = [])
    (hn : work L x.s i < n) (hm : work L x.s i < m) :
    ∃ y M C, drainBatches cap now ok i n m x = some y ∧ Looped cap now s y M C ∧ y.wakes = [] ∧
      Kept now x.s y.s ∧ (∀ j, (M j).length ≤ (L j).length) ∧ Cleared now y i := by
  induction m generalizing x L B with
  | zero => exact absurd hm (Nat.not_lt_zero _)
  | succ m ih =>
    obtain ⟨y, more, M, C, hr, hloop, hkept, hlen, hwork, hprogress, hclear⟩ :=
      drainLoop_ends ok n h hn
    have hflush : Kept now y.s y.flush.s := queue_kept (List.subset_append_left _ _)
    have hsame : work M y.flush.s i = work M y.s i := rfl
    rw [drainBatches, hr]
    cases more with
    | false =>
      exact ⟨y.flush, M, C, rfl, hloop.flush, rfl, hkept.trans hflush, hlen, hclear rfl⟩
    | true =>
      have hlt := hprogress rfl (by rw [hwakes]; decide)
      obtain ⟨z, N, D, hz, hloop', hnil, hkept', hlen', hclear'⟩ :=
        ih hloop.flush rfl (by omega) (by omega)
      exact ⟨z, N, D, hz, hloop', hnil, (hkept.trans hflush).trans hkept',
        fun j => Nat.le_trans (hlen' j) (hlen j), hclear'⟩

end Loop

/-! ### The error wakes -/

/-- A fold of steps that all succeed. -/
theorem foldlM_some {σ α : Type} {f : σ → α → Option σ} (P : σ → Prop)
    (hf : ∀ s a, P s → ∃ t, f s a = some t ∧ P t) (l : List α) {s : σ} (hs : P s) :
    ∃ t, l.foldlM f s = some t ∧ P t := by
  induction l generalizing s with
  | nil => exact ⟨s, rfl, hs⟩
  | cons a l ih =>
    obtain ⟨t, ht, hP⟩ := hf s a hs
    rw [List.foldlM_cons, ht]
    exact ih hP

section Dispatch

variable {cap : ℕ} {now : ℤ} {s t u : State} {woke : List ℕ} {L : ℕ → List ℕ}
  {B : ℕ × ℕ → List ℕ} {i p f n : ℕ}

/-- What a part of the drain that times out nobody does to `t`; `n` bounds the loops. -/
def Woken (cap : ℕ) (now : ℤ) (n : ℕ) (s t : State) (woke : List ℕ) (u : State) : Prop :=
  Gone s u woke ∧
    ∃ L B, Drained cap now s u woke L B ∧ Kept now t u ∧ ∀ j, 2 * (L j).length < n

theorem eventWake_cases (h : Drained cap now s t woke L B) (hgone : Gone s t woke)
    (hp : t.pools.linked p = true) :
    t.eventWake cap (t.pools.pool p) p = t ∨
      Gone s (t.eventWake cap (t.pools.pool p) p) woke ∧
      Kept now t (t.eventWake cap (t.pools.pool p) p) ∧
      ∃ M C, Drained cap now s (t.eventWake cap (t.pools.pool p) p) woke M C ∧
        (∀ j, (M j).length ≤ (L j).length) ∧ ∀ k, C k = (B k).erase p := by
  unfold State.eventWake
  split
  case isFalse => exact .inl rfl
  case isTrue hevents =>
    refine .inr ?_
    have hready : bothWays &&& t.events p ≠ 0 := by
      rw [Nat.and_comm]
      exact hevents.1
    have hwithout : Without cap t p (t.wake cap (t.pools.pool p) p (bothWays &&& t.events p)) :=
      wake_without t _
    obtain ⟨C, hd, herase⟩ := h.without hp hwithout
    have hsub : ∀ l : List ℕ, l ⊆ if t.commit p = .parked then l ++ [p] else l := by
      intro l
      split
      · exact List.subset_append_left _ _
      · exact List.Subset.refl l
    have hgone' := hgone.without hwithout (List.Subset.refl _)
      (.inr (.inr ⟨_, hready, update_self ..⟩))
    exact ⟨hgone', hwithout.kept.trans (queue_kept (hsub _)), _, C, hd.queued (hsub _),
      erase_length_le L _ p, herase⟩

/-- The walk ends: the rest of the bucket is the rest of the walk, whether or not the parker
before it has been taken out. -/
theorem wakeBucket_ends {l k : List ℕ} {q : Option ℕ} (h : Drained cap now s t woke L B)
    (hgone : Gone s t woke) (hB : B (i, f) = k ++ l) (hq : Leads t.pools.buckets.next q l) {m : ℕ} (hm : l.length ≤ m)
    (hlen : ∀ j, 2 * (L j).length < n) :
    ∃ u, wakeBucket cap i m t q = some u ∧ Woken cap now n s t woke u := by
  induction l generalizing t q L B k m with
  | nil =>
    obtain rfl : q = none := hq
    exact ⟨t, by cases m <;> rfl, hgone, L, B, h, .refl t, hlen⟩
  | cons p l ih =>
    obtain ⟨m, rfl⟩ := Nat.exists_eq_succ_of_ne_zero (Nat.ne_of_gt (Nat.zero_lt_of_lt hm))
    have hmem : p ∈ B (i, f) := hB ▸ List.mem_append_right k List.mem_cons_self
    obtain ⟨⟨hlinked, rfl⟩, -, -⟩ := (h.inv.bucket i f p).mp hmem
    rw [hq.1, wakeBucket]
    rcases eventWake_cases h hgone hlinked with heq | ⟨hgone', hkept, M, C, hd, hless, herase⟩
    · rw [heq]
      exact ih h hgone (k := k ++ [p]) (by rw [hB, List.append_assoc]; rfl) hq.2
        (Nat.le_of_succ_le_succ hm) hlen
    · have hnd := (h.inv.buckets.family.doubly (t.pools.pool p, f)).nodup
      rw [hB] at hnd
      have hpk : p ∉ k := fun hpk => (List.nodup_append'.mp hnd).2.2 hpk List.mem_cons_self
      have hC : C (t.pools.pool p, f) = k ++ l := by
        rw [herase, hB, List.erase_append_right _ hpk, List.erase_cons_head]
      have hleads := (hd.inv.buckets.family.doubly (t.pools.pool p, f)).leads
      rw [hC] at hleads
      obtain ⟨q', hq'⟩ := hleads.suffix
      rw [hq'.head, ← hq.2.head] at hq'
      obtain ⟨u, hu, hgoneu, N, D, hdrained, hk, hl⟩ :=
        ih hd hgone' hC hq' (Nat.le_of_succ_le_succ hm) fun j =>
          Nat.lt_of_le_of_lt (Nat.mul_le_mul_left 2 (hless j)) (hlen j)
      exact ⟨u, hu, hgoneu, N, D, hdrained, hkept.trans hk, hl⟩

theorem bucket_length_le (h : Inv cap t.pools L B) : (B (i, f)).length ≤ (L i).length := by
  refine ((h.buckets.family.doubly (i, f)).nodup.subperm fun p hp => ?_).length_le
  exact (h.list i p).mpr ((h.bucket i f p).mp hp).1

theorem dispatchPool_ends {fd : ℤ} {fallback : ℕ → Bool} (h : Woken cap now n s t woke u) (i : ℕ) :
    ∃ v, dispatchPool cap n fd fallback u i = some v ∧ Woken cap now n s t woke v := by
  obtain ⟨hgone, L, B, hd, hkept, hlen⟩ := h
  unfold dispatchPool
  split
  case isFalse => exact ⟨u, rfl, hgone, L, B, hd, hkept, hlen⟩
  case isTrue =>
    have hbound : (B (i, fd.toNat)).length ≤ n := by
      have := bucket_length_le (i := i) (f := fd.toNat) hd.inv
      have := hlen i
      omega
    obtain ⟨v, hv, hgonev, M, C, hdv, hkeptv, hlenv⟩ := wakeBucket_ends (k := []) hd hgone
      (List.nil_append _).symm (hd.inv.buckets.family.doubly (i, fd.toNat)).leads hbound hlen
    exact ⟨v, hv, hgonev, M, C, hdv, hkept.trans hkeptv, hlenv⟩

theorem serviceProbes_ends (env : Env) (h : Woken cap now n s t woke u) (i : ℕ) (fd : ℤ) :
    ∃ v, serviceProbes cap n env i u fd = some v ∧ Woken cap now n s t woke v := by
  unfold serviceProbes
  split
  · exact foldlM_some (Woken cap now n s t woke) (fun _ j hu => dispatchPool_ends hu j) _ h
  · exact ⟨u, rfl, h⟩

end Dispatch

/-! ### The pools -/

section Pools

variable {cap : ℕ} {now : ℤ} {s t u : State} {woke : List ℕ} {L : ℕ → List ℕ}
  {B : ℕ × ℕ → List ℕ} {i n : ℕ} {env : Env}

/-- No key up to `now` is on the heap of the pool `i`. -/
def Clear (now : ℤ) (t : State) (i : ℕ) : Prop :=
  ∀ p, Timed t.pools p → t.pools.pool p = i → now < t.pools.deadline p

theorem Clear.kept (h : Clear now t i) (hkept : Kept now t u) : Clear now u i := by
  intro p hp hi
  have hlinked := hkept.linked p hp.1
  have hpool : t.pools.pool p = i := by
    rw [← hi, Parkers.State.pool, Parkers.State.pool, hkept.hub]
  rcases hkept.waiter p hp.1 with hw | hw
  · have htimed : Timed t.pools p :=
      ⟨hlinked, hw.deadline ▸ hp.2.1, hkept.missed ▸ hp.2.2⟩
    rw [hw.deadline]
    exact h p htimed hpool
  · -- a tick needs a key up to `now`
    have := h p hw.timed hpool
    exact absurd hw.due (Int.not_le.mpr this)

/-- The drain of the pools below `k` has ended; the heaps are clear unless `probe_fds` was full
once. -/
structure Done (cap : ℕ) (now : ℤ) (n : ℕ) (s : State) (k : ℕ) (t : State) (woke : List ℕ) :
    Prop where
  drained : ∃ L B, Drained cap now s t woke L B ∧ ∀ j, 2 * (L j).length < n
  requeued : ∀ p ∈ woke, s.commit p = .parked → p ∈ t.queue
  gone : Gone s t woke
  clear : (∀ l, Probed now s l → l.length < batch) → ∀ i < k, Clear now t i

theorem work_le (L : ℕ → List ℕ) (s : State) (i : ℕ) : work L s i ≤ 2 * (L i).length := by
  have := (L i).countP_le_length (p := s.probe)
  unfold work
  omega

theorem drainPool_done (h : Done cap now n s i t woke) (env : Env) :
    ∃ u woke', drainPool cap now env n (t, woke) i = some (u, woke') ∧
      Done cap now n s (i + 1) u woke' := by
  obtain ⟨⟨L, B, hd, hlen⟩, hrequeued, hgone, hclear⟩ := h
  unfold drainPool
  split
  case isFalse hinit =>
    refine ⟨t, woke, rfl, ⟨L, B, hd, hlen⟩, hrequeued, hgone, fun hfew j hj => ?_⟩
    by_cases hji : j = i
    · -- nobody has parked in this pool
      intro p hp hpool
      have hinited := hd.good.inited p hp.1
      rw [hpool, hji] at hinited
      exact absurd hinited hinit
    · exact hclear hfew j (by omega)
  case isTrue =>
    have hstart : Looped cap now s { s := t, wakes := [], probes := [], woke := woke } L B :=
      ⟨hd, ⟨List.nodup_nil, fun f hf => absurd hf List.not_mem_nil⟩,
        fun p hp hparked => .inr (hrequeued p hp hparked), hgone⟩
    have hwork : work L t i < n := Nat.lt_of_le_of_lt (work_le L t i) (hlen i)
    obtain ⟨y, M, C, hy, hloop, hnil, hkept, hless, hcleared⟩ :=
      drainBatches_ends env.ok n n hstart rfl hwork hwork
    have hsmall : ∀ j, 2 * (M j).length < n := fun j =>
      Nat.lt_of_le_of_lt (Nat.mul_le_mul_left 2 (hless j)) (hlen j)
    obtain ⟨u, hu, hgoneu, N, D, hdu, hkeptu, hlenu⟩ := foldlM_some (Woken cap now n s y.s y.woke)
      (fun _ fd hu => serviceProbes_ends env hu i fd) y.probes
      ⟨hloop.gone, M, C, hloop.drained, .refl y.s, hsmall⟩
    refine ⟨u, y.woke, by rw [hy, Option.bind_some, hu]; rfl, ⟨N, D, hdu, hlenu⟩,
      fun p hp hparked => ?_, hgoneu, fun hfew j hj => ?_⟩
    · rcases hloop.requeued p hp hparked with hw | hw
      · rw [hnil] at hw
        exact absurd hw List.not_mem_nil
      · exact hkeptu.queue hw
    · by_cases hji : j = i
      · rw [hji]
        rcases hcleared with hc | hfull
        · exact Clear.kept hc hkeptu
        · exact absurd hfull (Nat.not_le.mpr (hfew y.probes hloop.probed))
      · exact ((hclear hfew j (by omega)).kept hkept).kept hkeptu

theorem drainExpiredPools_done (h : Inv cap s.pools L B) (hgood : Good s)
    (hn : ∀ j, 2 * (L j).length < n) (env : Env) (k : ℕ) :
    ∃ t woke, drainExpiredPools cap now k env n s = some (t, woke) ∧
      Done cap now n s k t woke := by
  induction k with
  | zero =>
    refine ⟨s, [], rfl, ⟨L, B, ⟨h, hgood, .refl s, List.nodup_nil, ?_, ?_, ?_, ?_, ?_⟩, hn⟩, ?_, ?_, ?_⟩
    case refine_7 => exact fun p hp hgone => absurd hp (hgone ▸ Bool.false_ne_true)
    case refine_8 => exact fun _ i hi => absurd hi (Nat.not_lt_zero i)
    all_goals exact fun p hp => absurd hp List.not_mem_nil
  | succ k ih =>
    obtain ⟨t, woke, ht, hdone⟩ := ih
    obtain ⟨u, woke', hu, hdone'⟩ := drainPool_done hdone env
    refine ⟨u, woke', ?_, hdone'⟩
    rw [drainExpiredPools] at ht ⊢
    rw [List.range_succ, List.foldlM_append, ht]
    change (drainPool cap now env n (t, woke) k).bind _ = _
    rw [hu]
    rfl

end Pools

/-! ### Runs -/

section Runs

variable {cap : ℕ} {s t : State} {L : ℕ → List ℕ} {B : ℕ × ℕ → List ℕ} {p : ℕ}

theorem pool_lt (s : Parkers.State) (p : ℕ) : s.pool p < poolHubs + 1 := by
  unfold Parkers.State.pool poolForHub
  split
  · split
    · omega
    · exact Nat.lt_succ_self _
  · exact Nat.lt_succ_self _

theorem lt_turns (h : Inv cap s.pools L B) (j : ℕ) : 2 * (L j).length < s.turns := by
  unfold State.turns
  by_cases hj : j < poolHubs + 1
  · have hmem : (L j).length ∈ (List.range (poolHubs + 1)).map fun i => (s.pools.total i).toNat :=
      List.mem_map.mpr ⟨j, List.mem_range.mpr hj, by rw [h.total j, Int.toNat_natCast]⟩
    have := List.le_sum_of_mem hmem
    omega
  · have hnil : L j = [] := List.eq_nil_iff_forall_not_mem.mpr fun p hp =>
      hj (((h.list j p).mp hp).2 ▸ pool_lt s.pools p)
    rw [hnil]
    exact Nat.zero_lt_succ _

theorem park_fields {q : Parkers.State} {w : Wait}
    (h : (Parkers.pools cap).run s.pools
      [.fill p w.fd w.deadline w.hub w.owner, .link p w.fdOk w.dhOk] = some q) :
    q.linked = update s.pools.linked p true ∧
      q.deadline = update s.pools.deadline p w.deadline ∧
      q.hub = update s.pools.hub p w.hub := by
  obtain ⟨r, hr, h⟩ := Option.bind_eq_some_iff.mp h
  obtain ⟨hfill, ⟨⟩⟩ := Option.ite_none_left_eq_some.mp hr
  obtain ⟨r, hr, ⟨⟩⟩ := Option.bind_eq_some_iff.mp h
  obtain ⟨-, ⟨⟩⟩ := Option.ite_none_left_eq_some.mp hr
  exact ⟨rfl, rfl, rfl⟩

theorem run_inv {q r : Parkers.State} {as : List Parkers.Act} (h : Inv cap q L B)
    (hrun : (Parkers.pools cap).run q as = some r) : ∃ M C, Inv cap r M C := by
  induction as generalizing q L B with
  | nil =>
    cases hrun
    exact ⟨L, B, h⟩
  | cons a as ih =>
    obtain ⟨q', hq', hrun⟩ := Option.bind_eq_some_iff.mp hrun
    obtain ⟨M, C, hinv⟩ := step_inv h hq'
    exact ih hinv hrun

theorem wait_probing {w : Wait} (h : w.pending = true) :
    0 ≤ w.deadline ∧ (w.user < 0 ∨ w.deadline < w.user) := by
  unfold Wait.pending at h
  unfold Wait.deadline
  split at h
  · have hfirst := of_decide_eq_true h
    rw [if_pos hfirst]
    exact ⟨Int.natCast_nonneg _, hfirst⟩
  · exact absurd h Bool.false_ne_true

theorem wait_settled {w : Wait} (h : w.pending = false) : w.deadline = w.user := by
  unfold Wait.pending at h
  unfold Wait.deadline
  split at h
  · rw [if_neg (of_decide_eq_false h)]
  · rfl

theorem park_good {q : Parkers.State} {w : Wait} (h : Good s)
    (hlinked : q.linked = update s.pools.linked p true)
    (hdeadline : q.deadline = update s.pools.deadline p w.deadline)
    (hhub : q.hub = update s.pools.hub p w.hub) : Good (s.park q p w) := by
  have hnew : (s.park q p w).pools.deadline p = w.deadline ∧ (s.park q p w).user p = w.user ∧
      (s.park q p w).probe p = w.pending ∧ (s.park q p w).ticks p = 0 := by
    simp only [State.park, hdeadline, update_self, and_self]
  have hold : ∀ r, r ≠ p → (s.park q p w).pools.linked r = s.pools.linked r ∧
      (s.park q p w).pools.deadline r = s.pools.deadline r ∧ (s.park q p w).user r = s.user r ∧
      (s.park q p w).probe r = s.probe r ∧ (s.park q p w).ticks r = s.ticks r := fun r hr => by
    simp only [State.park, hlinked, hdeadline, update_of_ne hr, and_self]
  refine ⟨fun r hr hpend => ?_, fun r hr hset => ?_, fun r => ?_, fun r hpend => ?_, fun r hr => ?_⟩
  · by_cases hrp : r = p
    · rw [hrp, hnew.2.2.1] at hpend
      rw [hrp, hnew.1, hnew.2.1]
      exact wait_probing hpend
    · obtain ⟨hl, hd, hu, hp, -⟩ := hold r hrp
      rw [hd, hu]
      exact h.probing r (hl ▸ hr) (hp ▸ hpend)
  · by_cases hrp : r = p
    · rw [hrp, hnew.2.2.1] at hset
      rw [hrp, hnew.1, hnew.2.1]
      exact wait_settled hset
    · obtain ⟨hl, hd, hu, hp, -⟩ := hold r hrp
      rw [hd, hu]
      exact h.settled r (hl ▸ hr) (hp ▸ hset)
  · by_cases hrp : r = p
    · rw [hrp, hnew.2.2.2]
      exact Nat.zero_le 1
    · rw [(hold r hrp).2.2.2.2]
      exact h.ticks r
  · by_cases hrp : r = p
    · rw [hrp, hnew.2.2.2]
    · obtain ⟨-, -, -, hp, ht⟩ := hold r hrp
      rw [ht]
      exact h.unticked r (hp ▸ hpend)
  · change update s.inited (poolForHub w.hub) true (poolForHub (q.hub r)) = true
    rw [hhub]
    by_cases hrp : r = p
    · rw [hrp, update_self, update_self]
    · rw [update_of_ne hrp]
      by_cases hpool : poolForHub (s.pools.hub r) = poolForHub w.hub
      · rw [hpool, update_self]
      · rw [update_of_ne hpool]
        exact h.inited r ((hold r hrp).1 ▸ hr)

theorem unlink_good (h : Inv cap s.pools L B) (hgood : Good s) {i : ℕ}
    (hi : s.pools.linked p → i = s.pools.pool p) :
    (∃ M C, Inv cap (s.unlink cap i p).pools M C) ∧ Good (s.unlink cap i p) := by
  cases hp : s.pools.linked p with
  | true =>
    obtain rfl := hi hp
    obtain ⟨C, hinv, -⟩ := h.unlink hp
    exact ⟨⟨_, C, hinv⟩, hgood.without (unlink_without s)⟩
  | false =>
    have hsame : (s.unlink cap i p).pools = s.pools := by
      rw [State.unlink, h.unlink_free hp i]
      change s.pools.mark p false = s.pools
      rw [Parkers.State.mark, ← hp, update_eq_self]
    refine ⟨⟨L, B, hsame ▸ h⟩, ?_⟩
    have heq : s.unlink cap i p = s := by
      rw [State.unlink] at hsame ⊢
      dsimp only at hsame
      rw [hsame]
    rw [heq]
    exact hgood

theorem step_good {a : Act} (h : Inv cap s.pools L B) (hgood : Good s)
    (hstep : step cap s a = some t) : (∃ M C, Inv cap t.pools M C) ∧ Good t := by
  cases a with
  | park p w =>
    obtain ⟨q, hq, ⟨⟩⟩ := Option.map_eq_some_iff.mp hstep
    obtain ⟨hlinked, hdeadline, hhub⟩ := park_fields hq
    exact ⟨run_inv h hq, park_good hgood hlinked hdeadline hhub⟩
  | commit p =>
    obtain ⟨-, ⟨⟩⟩ := Option.ite_none_right_eq_some.mp hstep
    exact ⟨⟨L, B, h⟩, hgood.probing, hgood.settled, hgood.ticks, hgood.unticked, hgood.inited⟩
  | claim p r =>
    obtain ⟨-, ⟨⟩⟩ := Option.ite_none_left_eq_some.mp hstep
    exact ⟨⟨L, B, h⟩, hgood.probing, hgood.settled, hgood.ticks, hgood.unticked, hgood.inited⟩
  | unlink i p =>
    obtain ⟨hi, ⟨⟩⟩ := Option.ite_none_right_eq_some.mp hstep
    exact unlink_good h hgood hi
  | drain now env =>
    obtain ⟨⟨u, woke⟩, hu, ⟨⟩⟩ := Option.map_eq_some_iff.mp hstep
    obtain ⟨v, woke', hv, hdone⟩ := drainExpiredPools_done h hgood (lt_turns h) env (poolHubs + 1)
    rw [drainExpired, hv] at hu
    cases hu
    obtain ⟨M, C, hd, -⟩ := hdone.drained
    exact ⟨⟨M, C, hd.inv⟩, hd.good⟩

theorem reachable_good (h : Reachable (waits cap) s) :
    (∃ L B, Inv cap s.pools L B) ∧ Good s := by
  induction h with
  | start hs =>
    obtain rfl : _ = State.init := hs
    refine ⟨⟨_, _, init_inv⟩, ?_, ?_, fun _ => Nat.zero_le 1, fun _ _ => rfl, ?_⟩
    all_goals exact fun p hp => absurd hp Bool.false_ne_true
  | next _ hstep ih =>
    obtain ⟨⟨L, B, hinv⟩, hgood⟩ := ih
    exact step_good hinv hgood hstep

/-- The fds of the probes that are due. -/
def DueFds (now : ℤ) (s : State) (F : List ℤ) : Prop :=
  ∀ p, s.pools.linked p = true → s.probe p = true → s.pools.deadline p ≤ now → s.pools.fd p ∈ F

theorem probed_length_lt {now : ℤ} {F l : List ℤ} (hF : DueFds now s F) (hlen : F.length < batch)
    (h : Probed now s l) : l.length < batch := by
  refine Nat.lt_of_le_of_lt (h.nodup.subperm fun f hf => ?_).length_le hlen
  obtain ⟨p, htimed, hdue, hprobe, rfl⟩ := h.due f hf
  exact hF p htimed.1 hprobe hdue

/-- What a drain from `s` to `t` that times out `woke` does. -/
structure Exact (now : ℤ) (s t : State) (woke : List ℕ) : Prop where
  nodup : woke.Nodup
  /-- A timeout is of a waiter that was parked and not yet claimed, with a deadline up to `now`. -/
  timeout : ∀ p ∈ woke, s.pools.linked p = true ∧ s.commit p ≠ .woken ∧ 0 ≤ s.user p ∧
    s.user p ≤ now
  /-- It is unlinked with the result `0`, and on a run queue if it had yielded. -/
  woken : ∀ p ∈ woke, t.pools.linked p = false ∧ t.ready p = some 0 ∧
    (s.commit p = .parked → p ∈ t.queue)
  /-- Whoever stays linked is as before, or its due probe has fired: it is on the heap with its
  user deadline, or it has none and is off the heap. -/
  stays : ∀ p, t.pools.linked p = true → s.pools.linked p = true ∧ t.commit p = s.commit p ∧
    (Untouched s t p ∨ Ticked now s t p ∧
      (s.user p < 0 → t.pools.deadlines.heapIndex p = none) ∧
      (0 ≤ s.user p → ∃ k, t.pools.deadlines.heapIndex p = some k ∧
        t.pools.deadlines.arr (t.pools.pool p) k = p))
  /-- A probe fires once in a park. -/
  ticks : ∀ p, t.ticks p ≤ 1
  /-- With fewer than 64 fds to probe nobody on a heap is left behind: a due waiter is timed out,
  or the error wake of a dead fd has come first. -/
  due : ∀ F, DueFds now s F → F.length < batch → ∀ p, s.pools.linked p = true →
    s.commit p ≠ .woken → s.pools.deadlines.missed p = false → 0 ≤ s.user p → s.user p ≤ now →
    p ∈ woke ∨ ∃ r, r ≠ 0 ∧ t.ready p = some r
  complete : ∀ F, DueFds now s F → F.length < batch → ∀ p, t.pools.linked p = true →
    t.pools.deadlines.missed p = false → ¬ (0 ≤ t.user p ∧ t.user p ≤ now)

theorem Ticked.heap {now : ℤ} (h : Inv cap t.pools L B) (hp : t.pools.linked p = true)
    (hm : t.pools.deadlines.missed p = false) (hw : Ticked now s t p) :
    (s.user p < 0 → t.pools.deadlines.heapIndex p = none) ∧
      (0 ≤ s.user p → ∃ k, t.pools.deadlines.heapIndex p = some k ∧
        t.pools.deadlines.arr (t.pools.pool p) k = p) := by
  constructor
  · intro hneg
    refine h.deadlines.free p fun i hi => ?_
    have hnn := hi.2.1
    rw [hw.deadline] at hnn
    omega
  · intro hnn
    obtain ⟨k, hk, -, hkp⟩ := h.deadlines.place ⟨⟨hp, rfl⟩, hw.deadline ▸ hnn, hm⟩
    exact ⟨k, hk, hkp⟩

/-- On a clear heap no user deadline is up to `now`. -/
theorem Drained.clear_user {now : ℤ} {woke : List ℕ} (h : Drained cap now s t woke L B)
    (hclear : Clear now t (t.pools.pool p)) (hp : t.pools.linked p = true)
    (hm : t.pools.deadlines.missed p = false) : ¬ (0 ≤ t.user p ∧ t.user p ≤ now) := by
  intro hdue
  -- the key is not after the user deadline
  have hkey : 0 ≤ t.pools.deadline p ∧ t.pools.deadline p ≤ t.user p := by
    cases hprobe : t.probe p with
    | true =>
      obtain ⟨hnn, hlt⟩ := h.good.probing p hp hprobe
      omega
    | false =>
      have := h.good.settled p hp hprobe
      omega
  have := hclear p ⟨hp, hkey.1, hm⟩ rfl
  omega

theorem Done.exact {now : ℤ} {n : ℕ} {woke : List ℕ}
    (h : Done cap now n s (poolHubs + 1) t woke) : Exact now s t woke := by
  obtain ⟨⟨L, B, hd, -⟩, hrequeued, hgone, hclear⟩ := h
  have hcomplete : ∀ F, DueFds now s F → F.length < batch → ∀ p, t.pools.linked p = true →
      t.pools.deadlines.missed p = false → ¬ (0 ≤ t.user p ∧ t.user p ≤ now) :=
    fun F hF hlen p hp hm => hd.clear_user
      (hclear (fun l hl => probed_length_lt hF hlen hl) _ (pool_lt t.pools p)) hp hm
  refine ⟨hd.nodup, fun p hp => ⟨hd.linked p hp, hd.unclaimed p hp, hd.expired p hp⟩,
    fun p hp => ⟨hd.unlinked p hp, hd.ready p hp, hrequeued p hp⟩, fun p hp => ?_, hd.good.ticks,
    fun F hF hlen p hp hfree hm hnn hdue => ?_, hcomplete⟩
  · refine ⟨hd.kept.linked p hp, hd.kept.commit p hp, (hd.kept.waiter p hp).imp_right fun hw => ?_⟩
    exact ⟨hw, hw.heap hd.inv hp (hd.kept.missed ▸ hw.timed.2.2)⟩
  · have hunlinked : t.pools.linked p = false := by
      by_contra hlinked
      refine hcomplete F hF hlen p (Bool.not_eq_false _ ▸ hlinked) (hd.kept.missed ▸ hm) ?_
      rw [hd.kept.user]
      exact ⟨hnn, hdue⟩
    exact (hgone p hp hunlinked).imp_right fun hr => hr.resolve_left hfree

/-- From every reachable state the drain ends, with any number of turns from some on, and it times
out exactly what is due. -/
theorem drainExpired_exact (h : Reachable (waits cap) s) (now : ℤ) (env : Env) :
    ∃ N, ∀ n ≥ N, ∃ t woke, drainExpired cap now env n s = some (t, woke) ∧
      Exact now s t woke := by
  obtain ⟨⟨L, B, hinv⟩, hgood⟩ := reachable_good h
  refine ⟨s.turns, fun n hn => ?_⟩
  have hbound : ∀ j, 2 * (L j).length < n := fun j => Nat.lt_of_lt_of_le (lt_turns hinv j) hn
  obtain ⟨t, woke, ht, hdone⟩ := drainExpiredPools_done hinv hgood hbound env (poolHubs + 1)
  exact ⟨t, woke, ht, hdone.exact⟩

end Runs

/-- A wait on the fd `3`, outside of any hub. -/
def waitUntil (user : ℤ) (probeAt : Option ℕ) (dhOk : Bool) : Wait :=
  { fd := 3, user := user, probeAt := probeAt, events := 1, hub := none, owner := some 7
    fdOk := true, dhOk := dhOk }

def calm : Env := { dead := fun _ _ => false, ok := true }

/-- A short wait with a probe, an untimed one with a probe and one without. -/
def three : List Act :=
  [.park 1 (waitUntil 6 (some 3) true), .commit 1, .park 2 (waitUntil (-1) (some 4) true),
    .park 3 (waitUntil 20 none true), .commit 3]

theorem drainExpired_exact_three :
    ∃ s, Reachable (waits 1024) s ∧ s.probe 1 = true ∧ s.probe 2 = true ∧ s.user 3 = 20 ∧
      ∃ N, ∀ n ≥ N, ∃ t woke, drainExpired 1024 10 calm n s = some (t, woke) ∧
        Exact 10 s t woke := by
  have hrun : ((waits 1024).run .init three).map
      (fun s => decide (s.probe 1 = true ∧ s.probe 2 = true ∧ s.user 3 = 20)) = some true := by
    decide +kernel
  obtain ⟨s, hs, hobs⟩ := Option.map_eq_some_iff.mp hrun
  obtain ⟨h1, h2, h3⟩ := of_decide_eq_true hobs
  have hreach := reachable_of_run (waits 1024) three rfl hs
  exact ⟨s, hreach, h1, h2, h3, drainExpired_exact hreach 10 calm⟩

/-- A waiter whose heap entry there was no memory for is still parked after its deadline. -/
theorem dropped_never_times_out :
    ∃ s t, Reachable (waits 1024) s ∧ s.pools.linked 1 = true ∧ s.user 1 = 6 ∧
      s.commit 1 = .parked ∧ (∀ p, s.probe p = false) ∧ (waits 1024).step s (.drain 10 calm) = some t ∧
      t.pools.linked 1 = true ∧ t.commit 1 = .parked := by
  have hrun : ((waits 1024).run .init
      [.park 1 (waitUntil 6 none false), .commit 1, .drain 10 calm]).map
      (fun t => decide (t.pools.linked 1 = true ∧ t.commit 1 = .parked)) = some true := by
    decide +kernel
  obtain ⟨t, ht, hobs⟩ := Option.map_eq_some_iff.mp hrun
  obtain ⟨r, hr, ht⟩ := Option.bind_eq_some_iff.mp ht
  obtain ⟨s, hs, ht⟩ := Option.bind_eq_some_iff.mp ht
  obtain ⟨u, hu, ⟨⟩⟩ := Option.bind_eq_some_iff.mp ht
  obtain ⟨ht1, ht2⟩ := of_decide_eq_true hobs
  have hreach : Reachable (waits 1024) s := ((Reachable.start rfl).next hr).next hs
  cases hr
  cases hs
  refine ⟨_, _, hreach, by decide +kernel, by decide +kernel, by decide +kernel, fun p => ?_, hu, ht1,
    ht2⟩
  change Function.update (fun _ => false) 1 false p = false
  by_cases hp : p = 1
  · rw [hp, Function.update_self]
  · rw [Function.update_of_ne hp]

end Stackweave.Netpoll.Drain
