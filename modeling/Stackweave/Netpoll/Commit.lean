import Mathlib.Data.Int.Notation
import Mathlib.Data.Nat.Notation
import Mathlib.Logic.Function.Basic
import Stackweave.Transition

/-!
# The netpoll commit protocol (`runloom_netpoll_wait_fd`)

One `wait_fd` call links a parker, and event dispatch, deadline expiry, the
cancel calls, the drains and signal delivery race to claim it through its
commit word. The claimers act under the pool lock; the fiber takes that lock
for its link and its unlinks only. The steps are the accesses to the commit
word, the ready slot, the parker's list membership and the owner's
`signal_exc` slot, the re-queue, and the lock itself.
-/

namespace Stackweave.Netpoll.Commit

open Transition

/-- `RUNLOOM_PARK_ARMED`, `RUNLOOM_PARK_PARKED`, `RUNLOOM_PARK_WOKEN`. -/
inductive Word
  | armed
  | parked
  | woken
  deriving DecidableEq

/-- The claim sites. `drain` is `runloom_netpoll_drain_parked_owner`, `reap`
is `runloom_netpoll_drain_parked_mn`. An event carries a set of READ = 1 and
WRITE = 2. -/
inductive Kind
  | event (mask : Fin 4)
  | expiry
  | cancelFd
  | cancelG
  | unpark
  | drain
  | reap
  | signal (exc : ℕ)
  deriving DecidableEq

/-- `RUNLOOM_NETPOLL_CANCELLED`. -/
def cancelled : ℤ := 0x40000000

/-- `RUNLOOM_NETPOLL_SIGNALED`. -/
def signaled : ℤ := 0x20000000

/-- `RUNLOOM_NETPOLL_UNPARKED`. -/
def unparked : ℤ := 0x10000000

/-- What a winner of this kind stores in `ready_out`, for a parker that waits
for `events`. -/
@[grind =]
def Kind.ready (events : ℕ) : Kind → ℤ
  | .event mask => ((mask.val &&& events : ℕ) : ℤ)
  | .expiry => 0
  | .cancelFd => cancelled
  | .cancelG => cancelled
  | .unpark => unparked
  | .drain => -1
  | .reap => -1
  | .signal _ => signaled

/-- The expiry sweep and the drains unlink before they write `ready_out`, and
unlink a parker they lost as well. -/
@[grind =]
def Kind.unlinksFirst : Kind → Bool
  | .expiry | .drain | .reap => true
  | _ => false

/-- The expiry sweep and the reap re-queue after they dropped the lock. -/
@[grind =]
def Kind.wakesLate : Kind → Bool
  | .expiry | .reap => true
  | _ => false

/-- What `wait_fd` hands to its caller: the return value, the Python exception
set, and whether errno was set to `ECANCELED`. -/
structure Result where
  ret : ℤ
  exc : Option ℕ
  ecanceled : Bool
  deriving DecidableEq

/-- Where a claimer stands; each constructor names what it does next. `src` is
the state it claimed the word from. -/
inductive Claimer
  | idle
  | reserve (k : Kind)
  | load (k : Kind)
  | cas (k : Kind) (cur : Word)
  | lost (k : Kind)
  | write (k : Kind) (src : Word)
  | unlink (k : Kind) (src : Word)
  | wake (k : Kind) (src : Word)
  | unlock (k : Kind) (src : Option Word)
  | wakeLate (k : Kind)
  | done (k : Kind) (src : Option Word)
  deriving DecidableEq

/-- Where the fiber stands in `runloom_netpoll_wait_fd`. -/
inductive FiberPc
  | link
  | pending
  | register
  | pendingAgain
  | leave (r : Result)
  | commit
  | aborted
  | yield
  | yielded
  | resumed
  | read
  | takeLoad
  | takeStore (exc : Option ℕ)
  | returned (r : Result)
  deriving DecidableEq

/-- What stands in the owner's `signal_exc`: an exception reserved by a claimer
of this parker, or one of another parker of the same owner. -/
inductive Delivery
  | ours (claimer exc : ℕ)
  | other (exc : ℕ)

def Delivery.exc : Delivery → ℕ
  | .ours _ e => e
  | .other e => e

structure Winner where
  claimer : ℕ
  kind : Kind
  src : Word

/-- `lock` is the claimer that holds the pool lock. `winner`, `committed`,
`yields` and `requeued` are history: no step reads them. -/
structure State where
  word : Word
  linked : Bool
  ready : ℤ
  lock : Option ℕ
  slot : Option Delivery
  queue : ℕ
  pc : FiberPc
  claimer : ℕ → Claimer
  winner : Option Winner
  committed : Bool
  yields : ℕ
  requeued : ℕ

/-- A parker fresh from the freelist. -/
def Initial (s : State) : Prop :=
  s.word = .armed ∧ s.linked = false ∧ s.ready = 0 ∧ s.lock = none ∧
    (∀ i e, s.slot ≠ some (.ours i e)) ∧ s.queue = 0 ∧ s.pc = .link ∧
    (∀ i, s.claimer i = .idle) ∧ s.winner = none ∧ s.committed = false ∧ s.yields = 0 ∧
    s.requeued = 0

/-- `bits` is what `runloom_fd_pending_wake_consume` returns, `ok` whether
`runloom_netpoll_register` succeeds; a step reads the one it needs. -/
inductive Action
  | fiber (bits : ℕ) (ok : Bool)
  | claim (i : ℕ) (k : Kind)
  | claimer (i : ℕ)
  | otherReserve (exc : ℕ)
  | otherClear

def State.set (s : State) (i : ℕ) (c : Claimer) : State :=
  { s with claimer := fun j => if j = i then c else s.claimer j }

/-- `runloom_mn_wake_g` or `runloom_sched_wake`. -/
def State.requeue (s : State) : State :=
  { s with queue := s.queue + 1, requeued := s.requeued + 1 }

/-- A claimer takes the pool lock and looks for the parker in the lists. -/
def claimStart (s : State) (i : ℕ) (k : Kind) : Option State :=
  if s.claimer i = .idle ∧ s.lock = none then
    if s.linked then
      some { s.set i (match k with
        | .signal _ => .reserve k
        | _ => .load k) with lock := some i }
    else some (s.set i (.done k none))
  else none

/-- The next access of claimer `i` (`runloom_pump_claim` and the code around
it at each claim site). -/
def claimerStep (events : ℕ) (s : State) (i : ℕ) : Option State :=
  match s.claimer i with
  | .reserve k =>
    match k, s.slot with
    | .signal e, none => some { s.set i (.load k) with slot := some (.ours i e) }
    | _, _ => some (s.set i (.unlock k none))
  | .load k =>
    if s.word = .woken then some (s.set i (.lost k)) else some (s.set i (.cas k s.word))
  | .cas k cur =>
    if s.word = cur then
      some { s.set i (if k.unlinksFirst then .unlink k cur else .write k cur) with
        word := .woken, winner := some ⟨i, k, cur⟩ }
    else some (s.set i (.load k))
  | .lost k =>
    let t := s.set i (.unlock k none)
    match k with
    | .signal _ => some { t with slot := none }
    | _ => if k.unlinksFirst then some { t with linked := false } else some t
  | .write k src =>
    some { s.set i (if k.unlinksFirst then (if k.wakesLate then .unlock k (some src)
        else .wake k src) else .unlink k src) with ready := k.ready events }
  | .unlink k src =>
    some { s.set i (if k.unlinksFirst then .write k src else .wake k src) with linked := false }
  | .wake k src =>
    let t := s.set i (.unlock k (some src))
    if src = .parked then some t.requeue else some t
  | .unlock k src =>
    some { s.set i (if k.wakesLate ∧ src = some .parked then .wakeLate k else .done k src) with
      lock := none }
  | .wakeLate k => some (s.set i (.done k (some .parked))).requeue
  | _ => none

/-- The next access of the fiber. Its locked sections (the link and the
unlinks) are one step each. -/
def fiberStep (s : State) (bits : ℕ) (ok : Bool) : Option State :=
  match s.pc with
  | .link => if s.lock = none then some { s with linked := true, pc := .pending } else none
  | .pending =>
    some { s with pc := if bits ≠ 0 then .leave ⟨bits, none, false⟩ else .register }
  | .register =>
    some { s with pc := if ok then .pendingAgain else .leave ⟨-1, none, false⟩ }
  | .pendingAgain =>
    some { s with pc := if bits ≠ 0 then .leave ⟨bits, none, false⟩ else .commit }
  | .leave r => if s.lock = none then some { s with linked := false, pc := .returned r } else none
  | .commit =>
    if s.word = .armed then some { s with word := .parked, committed := true, pc := .yield }
    else some { s with pc := .aborted }
  | .aborted => if s.lock = none then some { s with linked := false, pc := .read } else none
  | .yield => some { s with yields := s.yields + 1, pc := .yielded }
  | .yielded => if 0 < s.queue then some { s with queue := s.queue - 1, pc := .resumed } else none
  | .resumed => if s.lock = none then some { s with linked := false, pc := .read } else none
  | .read =>
    some { s with pc :=
      if s.ready = signaled then .takeLoad else .returned ⟨s.ready, none, s.ready == -1⟩ }
  | .takeLoad => some { s with pc := .takeStore (s.slot.map Delivery.exc) }
  | .takeStore exc => some { s with slot := none, pc := .returned ⟨-1, exc, false⟩ }
  | .returned _ => none

/-- Deliveries to other parkers of the same owner use the slot only while it is
not reserved for this one. -/
@[grind =]
def step (events : ℕ) (s : State) : Action → Option State
  | .fiber bits ok => fiberStep s bits ok
  | .claim i k => claimStart s i k
  | .claimer i => claimerStep events s i
  | .otherReserve e =>
    match s.slot with
    | none => some { s with slot := some (.other e) }
    | some _ => none
  | .otherClear =>
    match s.slot with
    | some (.other _) => some { s with slot := none }
    | _ => none

def system (events : ℕ) : System State Action where
  init := Initial
  step := step events

variable {s t : State} {c : Claimer} {i events : ℕ} {k : Kind} {pc : FiberPc} {a : Action}

/-- The fiber leaves the claimers, `ready_out` and the re-queues alone. -/
theorem fiberStep_frame {bits : ℕ} {ok : Bool} (h : fiberStep s bits ok = some t) :
    t.claimer = s.claimer ∧ t.ready = s.ready ∧ t.requeued = s.requeued ∧
      t.winner = s.winner := by
  unfold fiberStep at h
  split at h
  case h_1 => split at h <;> cases h; exact ⟨rfl, rfl, rfl, rfl⟩
  case h_5 => split at h <;> cases h; exact ⟨rfl, rfl, rfl, rfl⟩
  case h_6 => split at h <;> cases h <;> exact ⟨rfl, rfl, rfl, rfl⟩
  case h_7 => split at h <;> cases h; exact ⟨rfl, rfl, rfl, rfl⟩
  case h_9 => split at h <;> cases h; exact ⟨rfl, rfl, rfl, rfl⟩
  case h_10 => split at h <;> cases h; exact ⟨rfl, rfl, rfl, rfl⟩
  all_goals cases h <;> exact ⟨rfl, rfl, rfl, rfl⟩

/-! ## Phases -/

/-- The claimer holds the pool lock. -/
@[grind =]
def Claimer.holding : Claimer → Bool
  | .idle | .wakeLate _ | .done _ _ => false
  | _ => true

/-- The claimer won, with the state it claimed from. -/
@[grind =]
def Claimer.won : Claimer → Option (Kind × Word)
  | .write k src | .unlink k src | .wake k src => some (k, src)
  | .unlock k src | .done k src => src.map (k, ·)
  | .wakeLate k => some (k, .parked)
  | _ => none

/-- The claimer has found the parker linked and not unlinked it. -/
@[grind =]
def Claimer.toUnlink : Claimer → Bool
  | .reserve _ | .load _ | .cas _ _ | .lost _ | .unlink _ _ => true
  | .write k _ => !k.unlinksFirst
  | _ => false

/-- The claimer won and has written `ready_out`. -/
@[grind =]
def Claimer.written : Claimer → Bool
  | .unlink k _ => !k.unlinksFirst
  | .wake _ _ | .unlock _ (some _) | .wakeLate _ | .done _ (some _) => true
  | _ => false

/-- The claimer has re-queued the fiber. -/
@[grind =]
def Claimer.requeued : Claimer → Bool
  | .unlock k (some .parked) => !k.wakesLate
  | .done _ (some .parked) => true
  | _ => false

/-- Before the fiber's commit. -/
@[grind =]
def FiberPc.early : FiberPc → Bool
  | .link | .pending | .register | .pendingAgain | .leave _ | .commit => true
  | _ => false

/-- Past the locked section that follows the park. -/
@[grind =]
def FiberPc.past : FiberPc → Bool
  | .read | .takeLoad | .takeStore _ | .returned _ => true
  | _ => false

theorem Claimer.holding_of_toUnlink (h : c.toUnlink = true) : c.holding = true := by
  cases c <;> simp_all [holding, toUnlink]

theorem Claimer.won_of_requeued (h : c.requeued = true) :
    ∃ k, c.won = some (k, .parked) := by
  unfold requeued at h
  split at h
  · exact ⟨_, rfl⟩
  · exact ⟨_, rfl⟩
  · cases h

/-! ## The lock and the winner -/

structure Locked (s : State) : Prop where
  holder : ∀ i, (s.claimer i).holding = true ↔ s.lock = some i
  won : ∀ i k src, (s.claimer i).won = some (k, src) ↔ s.winner = some ⟨i, k, src⟩
  woken : s.word = .woken ↔ s.winner ≠ none
  casCur : ∀ i k cur, s.claimer i = .cas k cur → cur ≠ .woken
  toUnlink : ∀ i, (s.claimer i).toUnlink = true → s.linked = true
  unlinked : ∀ i k src, (s.claimer i).won = some (k, src) → (s.claimer i).toUnlink = false →
    s.linked = false
  unlinkedPc : s.pc = .link ∨ s.pc.past = true → s.linked = false ∧ s.lock = none
  linkPc : s.pc = .link → s.winner = none

theorem initial_locked (h : Initial s) : Locked s := by
  obtain ⟨hword, hlinked, -, hlock, -, -, hpc, hidle, hwinner, -, -, -⟩ := h
  constructor
  case holder => simp [hidle, hlock, Claimer.holding]
  case won => simp [hidle, hwinner, Claimer.won]
  case woken => simp [hword, hwinner]
  case casCur => simp [hidle]
  case toUnlink => simp [hidle, Claimer.toUnlink]
  case unlinked => simp [hidle, Claimer.won]
  case unlinkedPc => exact fun _ => ⟨hlinked, hlock⟩
  case linkPc => exact fun _ => hwinner

theorem State.set_claimer (s : State) (i j : ℕ) (c : Claimer) :
    (s.set i c).claimer j = if j = i then c else s.claimer j := rfl

/-- What holds of the claimer that moved and of the others holds of all. -/
theorem forall_claimer {P : ℕ → Claimer → Prop}
    (ht : t.claimer = (s.set i c).claimer) (hmoved : P i c)
    (hothers : ∀ j, j ≠ i → P j (s.claimer j)) (j : ℕ) : P j (t.claimer j) := by
  rw [ht, State.set_claimer]
  by_cases hj : j = i
  · rw [if_pos hj, hj]
    exact hmoved
  · rw [if_neg hj]
    exact hothers j hj

section Moves

variable {s t : State} {i : ℕ} {c : Claimer}

theorem Locked.free (hi : Locked s) (hlock : s.lock = none) (j : ℕ) :
    (s.claimer j).holding = false := by
  by_contra hh
  have := (hi.holder j).mp (by simpa using hh)
  rw [hlock] at this
  cases this

theorem Locked.others (hi : Locked s) (hlock : s.lock = some i) {j : ℕ} (hj : j ≠ i) :
    (s.claimer j).holding = false := by
  by_contra hh
  have := (hi.holder j).mp (by simpa using hh)
  rw [hlock] at this
  cases this
  exact hj rfl

theorem Claimer.toUnlink_of_free {c : Claimer} (h : c.holding = false) : c.toUnlink = false := by
  by_contra hu
  rw [Claimer.holding_of_toUnlink (by simpa using hu)] at h
  cases h

/-- The claimer that holds the lock goes on, or drops it. -/
theorem Locked.move (hi : Locked s) (hheld : (s.claimer i).holding = true)
    (ht : t.claimer = (s.set i c).claimer) (hpc : t.pc = s.pc) (hwinner : t.winner = s.winner)
    (hword : t.word = s.word) (hlock : t.lock = if c.holding then some i else none)
    (hwon : c.won = (s.claimer i).won) (hcas : ∀ k cur, c = .cas k cur → cur ≠ .woken)
    (hlinked : t.linked = s.linked ∨ t.linked = false) (hto : c.toUnlink = true → t.linked = true)
    (hun : ∀ k src, c.won = some (k, src) → c.toUnlink = false → t.linked = false) : Locked t := by
  have hmine := (hi.holder i).mp hheld
  constructor
  case holder =>
    refine forall_claimer (P := fun j x => x.holding = true ↔ t.lock = some j) ht ?_ fun j hj => ?_
    · rw [hlock]
      cases c.holding <;> simp
    · rw [hi.others hmine hj, hlock]
      cases c.holding <;> simp [hj.symm]
  case won =>
    rw [hwinner]
    refine forall_claimer (P := fun j x => ∀ k src, x.won = some (k, src) ↔
      s.winner = some ⟨j, k, src⟩) ht ?_ fun j _ => hi.won j
    rw [hwon]
    exact hi.won i
  case woken =>
    rw [hword, hwinner]
    exact hi.woken
  case casCur =>
    exact forall_claimer (P := fun _ x => ∀ k cur, x = .cas k cur → cur ≠ .woken) ht hcas
      fun j _ => hi.casCur j
  case toUnlink =>
    refine forall_claimer (P := fun _ x => x.toUnlink = true → t.linked = true) ht hto
      fun j hj hu => ?_
    exact absurd (Claimer.holding_of_toUnlink hu) (by rw [hi.others hmine hj]; nofun)
  case unlinked =>
    refine forall_claimer (P := fun _ x => ∀ k src, x.won = some (k, src) → x.toUnlink = false →
      t.linked = false) ht hun fun j _ k src hw hu => ?_
    rcases hlinked with hl | hl
    · exact hl.trans (hi.unlinked j k src hw hu)
    · exact hl
  case unlinkedPc =>
    intro hp
    rw [hpc] at hp
    exact absurd (hmine.symm.trans (hi.unlinkedPc hp).2) nofun
  case linkPc =>
    rw [hpc, hwinner]
    exact hi.linkPc

/-- A step of a claimer outside the lock. -/
theorem Locked.aside (hi : Locked s) (hfree : (s.claimer i).holding = false)
    (hc : c.holding = false) (ht : t.claimer = (s.set i c).claimer) (hpc : t.pc = s.pc)
    (hwinner : t.winner = s.winner) (hword : t.word = s.word) (hlock : t.lock = s.lock)
    (hlinked : t.linked = s.linked) (hwon : c.won = (s.claimer i).won) : Locked t := by
  constructor
  case holder =>
    rw [hlock]
    refine forall_claimer (P := fun j x => x.holding = true ↔ s.lock = some j) ht ?_
      fun j _ => hi.holder j
    rw [hc, ← hfree]
    exact hi.holder i
  case won =>
    rw [hwinner]
    refine forall_claimer (P := fun j x => ∀ k src, x.won = some (k, src) ↔
      s.winner = some ⟨j, k, src⟩) ht ?_ fun j _ => hi.won j
    rw [hwon]
    exact hi.won i
  case woken =>
    rw [hword, hwinner]
    exact hi.woken
  case casCur =>
    refine forall_claimer (P := fun _ x => ∀ k cur, x = .cas k cur → cur ≠ .woken) ht ?_
      fun j _ => hi.casCur j
    rintro k cur rfl
    cases hc
  case toUnlink =>
    rw [hlinked]
    refine forall_claimer (P := fun _ x => x.toUnlink = true → s.linked = true) ht ?_
      fun j _ => hi.toUnlink j
    rw [Claimer.toUnlink_of_free hc]
    nofun
  case unlinked =>
    rw [hlinked]
    refine forall_claimer (P := fun _ x => ∀ k src, x.won = some (k, src) → x.toUnlink = false →
      s.linked = false) ht ?_ fun j _ => hi.unlinked j
    intro k src hw _
    exact hi.unlinked i k src (hwon ▸ hw) (Claimer.toUnlink_of_free hfree)
  case unlinkedPc =>
    rw [hpc, hlinked, hlock]
    exact hi.unlinkedPc
  case linkPc =>
    rw [hpc, hwinner]
    exact hi.linkPc

/-- A claimer takes the lock and finds the parker. -/
theorem Locked.take (hi : Locked s) (hnone : s.lock = none) (hfound : s.linked = true)
    (hidle : s.claimer i = .idle) (hheld : c.holding = true) (hwon : c.won = none)
    (hcas : ∀ k cur, c ≠ .cas k cur) : Locked { s.set i c with lock := some i } := by
  constructor
  case holder =>
    refine forall_claimer (s := s) (c := c)
      (P := fun j x => x.holding = true ↔ some i = some j) rfl ?_ fun j hj => ?_
    · exact ⟨fun _ => rfl, fun _ => hheld⟩
    · rw [hi.free hnone j]
      simp [hj.symm]
  case won =>
    refine forall_claimer (s := s) (c := c) (P := fun j x => ∀ k src, x.won = some (k, src) ↔
      s.winner = some ⟨j, k, src⟩) rfl ?_ fun j _ => hi.won j
    have hidleWon := hi.won i
    rw [hidle] at hidleWon
    rw [hwon]
    exact hidleWon
  case woken => exact hi.woken
  case casCur =>
    exact forall_claimer (s := s) (c := c) (P := fun _ x => ∀ k cur, x = .cas k cur → cur ≠ .woken)
      rfl (fun k cur he => absurd he (hcas k cur)) fun j _ => hi.casCur j
  case toUnlink => exact fun _ _ => hfound
  case unlinked =>
    refine forall_claimer (s := s) (c := c) (P := fun _ x => ∀ k src, x.won = some (k, src) →
      x.toUnlink = false → s.linked = false) rfl ?_ fun j _ => hi.unlinked j
    rw [hwon]
    nofun
  case unlinkedPc =>
    intro hp
    exact absurd (hfound.symm.trans (hi.unlinkedPc hp).1) nofun
  case linkPc => exact hi.linkPc

/-- The claimer that holds the lock claims the word. -/
theorem Locked.win (hi : Locked s) {k : Kind} {cur : Word} (hcur : s.claimer i = .cas k cur)
    (hword : s.word = cur) (hheld : c.holding = true) (hwon : c.won = some (k, cur))
    (hto : c.toUnlink = true) :
    Locked { s.set i c with word := .woken, winner := some ⟨i, k, cur⟩ } := by
  have hmine := (hi.holder i).mp (by rw [hcur]; rfl)
  have hlinked := hi.toUnlink i (by rw [hcur]; rfl)
  have hnone : s.winner = none := by
    by_contra hn
    exact hi.casCur i k cur hcur (hword.symm.trans (hi.woken.mpr hn))
  have hnobody : ∀ j, (s.claimer j).won = none := by
    intro j
    by_contra hn
    obtain ⟨⟨k', src⟩, hw⟩ := Option.ne_none_iff_exists'.mp hn
    exact absurd (hnone.symm.trans ((hi.won j k' src).mp hw)) nofun
  constructor
  case holder =>
    refine forall_claimer (s := s) (c := c) (P := fun j x => x.holding = true ↔ s.lock = some j)
      rfl ?_ fun j _ => hi.holder j
    exact ⟨fun _ => hmine, fun _ => hheld⟩
  case won =>
    refine forall_claimer (s := s) (c := c) (P := fun j x => ∀ k' src, x.won = some (k', src) ↔
      some (Winner.mk i k cur) = some ⟨j, k', src⟩) rfl ?_ fun j hj => ?_
    · intro k' src
      rw [hwon]
      simp
    · intro k' src
      rw [hnobody j]
      simp [hj.symm]
  case woken => simp
  case casCur =>
    refine forall_claimer (s := s) (c := c) (P := fun _ x => ∀ k cur, x = .cas k cur → cur ≠ .woken)
      rfl ?_ fun j _ => hi.casCur j
    rintro k' cur' rfl
    cases hwon
  case toUnlink => exact fun _ _ => hlinked
  case unlinked =>
    refine forall_claimer (s := s) (c := c) (P := fun _ x => ∀ k src, x.won = some (k, src) →
      x.toUnlink = false → s.linked = false) rfl ?_ fun j _ => hi.unlinked j
    rw [hto]
    nofun
  case unlinkedPc => exact hi.unlinkedPc
  case linkPc =>
    intro hp
    exact absurd (hlinked.symm.trans (hi.unlinkedPc (.inl hp)).1) nofun

end Moves

theorem claimStart_locked (hi : Locked s)
    (h : claimStart s i k = some t) : Locked t := by
  unfold claimStart at h
  split at h
  case isTrue hidle =>
    split at h <;> cases h
    case isTrue hfound =>
      refine hi.take hidle.2 hfound hidle.1 ?_ ?_ ?_
      · split <;> rfl
      · split <;> rfl
      · intro k' cur
        split <;> nofun
    case isFalse =>
      exact hi.aside (by rw [hidle.1]; rfl) rfl rfl rfl rfl rfl rfl rfl (by rw [hidle.1]; rfl)
  case isFalse => cases h

theorem claimerStep_locked (hi : Locked s)
    (h : claimerStep events s i = some t) : Locked t := by
  have hlock : (s.claimer i).holding = true → s.lock = some i := (hi.holder i).mp
  have hlinked : (s.claimer i).toUnlink = true → s.linked = true := hi.toUnlink i
  unfold claimerStep at h
  split at h
  case h_1 k hc =>
    rw [hc] at hlock hlinked
    have hheld : (s.claimer i).holding = true := by rw [hc]; rfl
    split at h <;> cases h
    · exact hi.move hheld rfl rfl rfl rfl (hlock rfl) (by rw [hc]; rfl) nofun (.inl rfl)
        (fun _ => hlinked rfl) nofun
    · exact hi.move hheld rfl rfl rfl rfl (hlock rfl) (by rw [hc]; rfl) nofun (.inl rfl) nofun nofun
  case h_2 k hc =>
    rw [hc] at hlock hlinked
    have hheld : (s.claimer i).holding = true := by rw [hc]; rfl
    split at h <;> cases h
    · exact hi.move hheld rfl rfl rfl rfl (hlock rfl) (by rw [hc]; rfl) nofun (.inl rfl)
        (fun _ => hlinked rfl) nofun
    · next hword =>
      refine hi.move hheld rfl rfl rfl rfl (hlock rfl) (by rw [hc]; rfl) ?_ (.inl rfl)
        (fun _ => hlinked rfl) nofun
      rintro k' cur ⟨⟩
      exact hword
  case h_3 k cur hc =>
    rw [hc] at hlock hlinked
    split at h <;> cases h
    · next hword =>
      refine hi.win hc hword ?_ ?_ ?_
      all_goals cases hk : k.unlinksFirst <;> simp [Claimer.holding, Claimer.won, Claimer.toUnlink, hk]
    · exact hi.move (by rw [hc]; rfl) rfl rfl rfl rfl (hlock rfl) (by rw [hc]; rfl) nofun (.inl rfl)
        (fun _ => hlinked rfl) nofun
  case h_4 k hc =>
    rw [hc] at hlock
    have hheld : (s.claimer i).holding = true := by rw [hc]; rfl
    have hwon : Claimer.won (.unlock k none) = (s.claimer i).won := by rw [hc]; rfl
    split at h
    · cases h
      exact hi.move hheld rfl rfl rfl rfl (hlock rfl) hwon nofun (.inl rfl) nofun nofun
    · split at h <;> cases h
      · exact hi.move hheld rfl rfl rfl rfl (hlock rfl) hwon nofun (.inr rfl) nofun nofun
      · exact hi.move hheld rfl rfl rfl rfl (hlock rfl) hwon nofun (.inl rfl) nofun nofun
  case h_5 k src hc =>
    rw [hc] at hlock hlinked
    have hun := hi.unlinked i k src (by rw [hc]; rfl)
    rw [hc] at hun
    cases h
    refine hi.move (by rw [hc]; rfl) rfl rfl rfl rfl ?_ ?_ ?_ (.inl rfl) ?_ ?_
    case refine_3 => cases k <;> nofun
    all_goals
      cases k
      all_goals
        simp_all [State.set, Claimer.holding, Claimer.won, Claimer.toUnlink, Kind.unlinksFirst,
          Kind.wakesLate]
  case h_6 k src hc =>
    rw [hc] at hlock
    cases h
    refine hi.move (by rw [hc]; rfl) rfl rfl rfl rfl ?_ ?_ ?_ (.inr rfl) ?_ fun _ _ _ _ => rfl
    case refine_3 => split <;> nofun
    all_goals
      cases hk : k.unlinksFirst <;>
        simp [State.set, hc, hk, hlock rfl, Claimer.holding, Claimer.won, Claimer.toUnlink]
  case h_7 k src hc =>
    rw [hc] at hlock
    have hheld : (s.claimer i).holding = true := by rw [hc]; rfl
    have hwon : Claimer.won (.unlock k (some src)) = (s.claimer i).won := by rw [hc]; rfl
    have hun : s.linked = false :=
      hi.unlinked i k src (by rw [hc]; rfl) (by rw [hc]; rfl)
    split at h <;> cases h
    · exact hi.move hheld rfl rfl rfl rfl (hlock rfl) hwon nofun (.inl rfl) nofun fun _ _ _ _ => hun
    · exact hi.move hheld rfl rfl rfl rfl (hlock rfl) hwon nofun (.inl rfl) nofun fun _ _ _ _ => hun
  case h_8 k src hc =>
    have hun : ∀ k' src', (s.claimer i).won = some (k', src') → s.linked = false :=
      fun k' src' hw => hi.unlinked i k' src' hw (by rw [hc]; rfl)
    rw [hc] at hun
    have hwon : (if k.wakesLate ∧ src = some .parked then Claimer.wakeLate k
        else .done k src).won = (Claimer.unlock k src).won := by
      split
      · next hk => rw [hk.2]; rfl
      · rfl
    cases h
    refine hi.move (by rw [hc]; rfl) rfl rfl rfl rfl ?_ (hwon.trans (by rw [hc])) ?_ (.inl rfl) ?_ ?_
    · split <;> rfl
    · split <;> nofun
    · split <;> nofun
    · exact fun k' src' hw _ => hun k' src' (hwon.symm.trans hw)
  case h_9 k hc =>
    cases h
    exact hi.aside (by rw [hc]; rfl) rfl rfl rfl rfl rfl rfl rfl (by rw [hc]; rfl)
  case h_10 => cases h

/-- The fiber goes on; what it does to the list suits the claimers. -/
theorem Locked.fiber (hi : Locked s) (hclaimer : t.claimer = s.claimer)
    (hwinner : t.winner = s.winner) (hlock : t.lock = s.lock)
    (hword : t.word = .woken ↔ s.word = .woken)
    (hto : ∀ i, (s.claimer i).toUnlink = true → t.linked = true)
    (hun : ∀ i k src, (s.claimer i).won = some (k, src) → (s.claimer i).toUnlink = false →
      t.linked = false)
    (hpc : t.pc = .link ∨ t.pc.past = true → t.linked = false ∧ s.lock = none)
    (hlink : t.pc = .link → s.winner = none) : Locked t := by
  constructor
  case holder =>
    rw [hclaimer, hlock]
    exact hi.holder
  case won =>
    rw [hclaimer, hwinner]
    exact hi.won
  case woken =>
    rw [hwinner]
    exact hword.trans hi.woken
  case casCur =>
    rw [hclaimer]
    exact hi.casCur
  case toUnlink =>
    rw [hclaimer]
    exact hto
  case unlinked =>
    rw [hclaimer]
    exact hun
  case unlinkedPc =>
    rw [hlock]
    exact hpc
  case linkPc =>
    rw [hwinner]
    exact hlink

/-- The locked section of the fiber that unlinks the parker. -/
theorem Locked.unlink (hi : Locked s) (hnone : s.lock = none)
    (hpc : pc ≠ .link) : Locked { s with linked := false, pc := pc } := by
  refine hi.fiber rfl rfl rfl Iff.rfl (fun j hj => ?_) (fun _ _ _ _ _ => rfl) (fun _ => ⟨rfl, hnone⟩)
    fun he => absurd he hpc
  exact absurd (Claimer.holding_of_toUnlink hj) (by rw [hi.free hnone j]; nofun)

theorem fiberStep_locked {bits : ℕ} {ok : Bool} (hi : Locked s)
    (h : fiberStep s bits ok = some t) : Locked t := by
  unfold fiberStep at h
  split at h
  case h_1 hpc =>
    split at h <;> cases h
    next hnone =>
    have hwinner := hi.linkPc hpc
    refine hi.fiber rfl rfl rfl Iff.rfl (fun _ _ => rfl) (fun i k src hw => ?_) nofun nofun
    exact absurd (hwinner.symm.trans ((hi.won i k src).mp hw)) nofun
  case h_5 =>
    split at h <;> cases h
    next hnone => exact hi.unlink hnone nofun
  case h_6 =>
    split at h <;> cases h
    · next hword =>
      refine hi.fiber rfl rfl rfl ?_ hi.toUnlink hi.unlinked nofun nofun
      rw [hword]
      exact ⟨nofun, nofun⟩
    · exact hi.fiber rfl rfl rfl Iff.rfl hi.toUnlink hi.unlinked nofun nofun
  case h_7 =>
    split at h <;> cases h
    next hnone => exact hi.unlink hnone nofun
  case h_9 =>
    split at h <;> cases h
    exact hi.fiber rfl rfl rfl Iff.rfl hi.toUnlink hi.unlinked nofun nofun
  case h_10 =>
    split at h <;> cases h
    next hnone => exact hi.unlink hnone nofun
  case h_14 => cases h
  case h_2 =>
    cases h
    refine hi.fiber rfl rfl rfl Iff.rfl hi.toUnlink hi.unlinked ?_ ?_
    all_goals
      dsimp only
      split <;> nofun
  case h_3 =>
    cases h
    refine hi.fiber rfl rfl rfl Iff.rfl hi.toUnlink hi.unlinked ?_ ?_
    all_goals
      dsimp only
      split <;> nofun
  case h_4 =>
    cases h
    refine hi.fiber rfl rfl rfl Iff.rfl hi.toUnlink hi.unlinked ?_ ?_
    all_goals
      dsimp only
      split <;> nofun
  case h_8 =>
    cases h
    exact hi.fiber rfl rfl rfl Iff.rfl hi.toUnlink hi.unlinked nofun nofun
  case h_11 hpc =>
    cases h
    refine hi.fiber rfl rfl rfl Iff.rfl hi.toUnlink hi.unlinked ?_ ?_
    · exact fun _ => hi.unlinkedPc (.inr (by rw [hpc]; rfl))
    · dsimp only
      split <;> nofun
  case h_12 hpc =>
    cases h
    exact hi.fiber rfl rfl rfl Iff.rfl hi.toUnlink hi.unlinked
      (fun _ => hi.unlinkedPc (.inr (by rw [hpc]; rfl))) nofun
  case h_13 hpc =>
    cases h
    exact hi.fiber rfl rfl rfl Iff.rfl hi.toUnlink hi.unlinked
      (fun _ => hi.unlinkedPc (.inr (by rw [hpc]; rfl))) nofun

theorem step_locked (hi : Locked s)
    (h : step events s a = some t) : Locked t := by
  cases a with
  | fiber bits ok => exact fiberStep_locked hi h
  | claim i k => exact claimStart_locked hi h
  | claimer i => exact claimerStep_locked hi h
  | otherReserve e =>
    simp only [step] at h
    split at h <;> cases h
    exact ⟨hi.1, hi.2, hi.3, hi.4, hi.5, hi.6, hi.7, hi.8⟩
  | otherClear =>
    simp only [step] at h
    split at h <;> cases h
    exact ⟨hi.1, hi.2, hi.3, hi.4, hi.5, hi.6, hi.7, hi.8⟩

theorem reachable_locked (h : Reachable (system events) s) :
    Locked s := by
  induction h with
  | start hs => exact initial_locked hs
  | next _ hs ih => exact step_locked ih hs

/-! ## The re-queue -/

/-- The re-queues are the winner's: one when it has done it, none before. -/
structure Requeue (s : State) : Prop where
  one : ∀ i, (s.claimer i).requeued = true → s.requeued = 1
  zero : (∀ i, (s.claimer i).requeued = false) → s.requeued = 0
  wakeKind : ∀ i k src, s.claimer i = .wake k src → k.wakesLate = false

/-- A move that does not re-queue. -/
theorem Requeue.move (hi : Requeue s)
    (ht : t.claimer = (s.set i c).claimer) (hr : t.requeued = s.requeued)
    (hc : c.requeued = (s.claimer i).requeued)
    (hk : ∀ k src, c = .wake k src → k.wakesLate = false) : Requeue t := by
  have hsame : ∀ j, (t.claimer j).requeued = (s.claimer j).requeued := by
    intro j
    rw [ht, State.set_claimer]
    split
    · next h => rw [h, hc]
    · rfl
  constructor
  · intro j hj
    rw [hr]
    exact hi.one j (hsame j ▸ hj)
  · intro hz
    rw [hr]
    exact hi.zero fun j => hsame j ▸ hz j
  · intro j k src hj
    rw [ht, State.set_claimer] at hj
    split at hj
    · exact hk k src hj
    · exact hi.wakeKind j k src hj

/-- The move of the winner that re-queues. -/
theorem Requeue.wake (hl : Locked s)
    (hi : Requeue s) (hwon : (s.claimer i).won = some (k, .parked))
    (hbefore : (s.claimer i).requeued = false) (ht : t.claimer = (s.set i c).claimer)
    (hr : t.requeued = s.requeued + 1) (hc : c.requeued = true)
    (hk : ∀ k src, c ≠ .wake k src) : Requeue t := by
  -- nobody else can have re-queued, since only the winner does
  have hzero : s.requeued = 0 := by
    apply hi.zero
    intro j
    by_contra hj
    obtain ⟨k', hj'⟩ := Claimer.won_of_requeued (by simpa using hj)
    have hji := (hl.won j k' _).mp hj'
    rw [(hl.won i k _).mp hwon] at hji
    cases hji
    exact hj hbefore
  constructor
  · intro j _
    rw [hr, hzero]
  · intro hz
    have hi' := hz i
    rw [ht, State.set_claimer, if_pos rfl, hc] at hi'
    cases hi'
  · intro j k src hj
    rw [ht, State.set_claimer] at hj
    split at hj
    · exact absurd hj (hk k src)
    · exact hi.wakeKind j k src hj

theorem claimerStep_requeue (hl : Locked s) (hi : Requeue s)
    (h : claimerStep events s i = some t) : Requeue t := by
  unfold claimerStep at h
  split at h
  case h_1 k hpc =>
    split at h <;> cases h <;> exact hi.move rfl rfl (by simp [hpc, Claimer.requeued]) nofun
  case h_2 k hpc =>
    split at h <;> cases h <;> exact hi.move rfl rfl (by simp [hpc, Claimer.requeued]) nofun
  case h_3 k cur hpc =>
    split at h <;> cases h
    · refine hi.move rfl rfl ?_ ?_
      · split <;> simp [hpc, Claimer.requeued]
      · intro k' src hc
        split at hc <;> cases hc
    · exact hi.move rfl rfl (by simp [hpc, Claimer.requeued]) nofun
  case h_4 k hpc =>
    split at h
    · cases h
      exact hi.move rfl rfl (by simp [hpc, Claimer.requeued]) nofun
    · split at h <;> cases h <;> exact hi.move rfl rfl (by simp [hpc, Claimer.requeued]) nofun
  case h_5 k src hpc =>
    cases h
    refine hi.move rfl rfl ?_ ?_
    · cases k <;> cases src <;>
        simp [hpc, Claimer.requeued, Kind.unlinksFirst, Kind.wakesLate]
    · intro k' src' hc
      cases k <;> cases hc <;> rfl
  case h_6 k src hpc =>
    cases h
    refine hi.move rfl rfl ?_ ?_
    · split <;> simp [hpc, Claimer.requeued]
    · intro k' src' hc
      cases k <;> cases hc <;> rfl
  case h_7 k src hpc =>
    have hk := hi.wakeKind i k src hpc
    split at h <;> cases h
    · next hsrc =>
      subst hsrc
      refine hi.wake (k := k) hl ?_ ?_ rfl rfl ?_ nofun
      · simp [hpc, Claimer.won]
      · simp [hpc, Claimer.requeued]
      · simp [Claimer.requeued, hk]
    · next hsrc =>
      refine hi.move rfl rfl ?_ nofun
      cases src <;> simp_all [Claimer.requeued]
  case h_8 k src hpc =>
    cases h
    refine hi.move rfl rfl ?_ ?_
    · rcases src with - | (- | - | -) <;> cases hk : k.wakesLate <;>
        simp [hpc, Claimer.requeued, hk]
    · intro k' src' hc
      split at hc <;> cases hc
  case h_9 k hpc =>
    cases h
    refine hi.wake (k := k) hl ?_ ?_ rfl rfl rfl nofun
    · simp [hpc, Claimer.won]
    · simp [hpc, Claimer.requeued]
  case h_10 => cases h

theorem step_requeue (hl : Locked s) (hi : Requeue s)
    (h : step events s a = some t) : Requeue t := by
  cases a with
  | fiber bits ok =>
    obtain ⟨hc, -, hr, -⟩ := fiberStep_frame h
    exact ⟨hc ▸ hr ▸ hi.one, hc ▸ hr ▸ hi.zero, hc ▸ hi.wakeKind⟩
  | claim i k =>
    simp only [step, claimStart] at h
    split at h
    · next hidle =>
      split at h <;> cases h
      · refine hi.move rfl rfl ?_ ?_
        · cases k <;> simp [hidle.1, Claimer.requeued]
        · intro k' src hc
          split at hc <;> cases hc
      · exact hi.move rfl rfl (by simp [hidle.1, Claimer.requeued]) nofun
    · cases h
  | claimer i => exact claimerStep_requeue hl hi h
  | otherReserve e =>
    simp only [step] at h
    split at h <;> cases h
    exact ⟨hi.one, hi.zero, hi.wakeKind⟩
  | otherClear =>
    simp only [step] at h
    split at h <;> cases h
    exact ⟨hi.one, hi.zero, hi.wakeKind⟩

theorem reachable_requeue (h : Reachable (system events) s) :
    Requeue s := by
  induction h with
  | start hs =>
    obtain ⟨-, -, -, -, -, -, -, hc, -, -, -, hr⟩ := hs
    exact ⟨by simp [hc, Claimer.requeued], fun _ => hr, by simp [hc]⟩
  | next hr hs ih => exact step_requeue (reachable_locked hr) ih hs

theorem woken_of_requeued (hl : Locked s) (hr : Requeue s) (h : 0 < s.requeued) :
    s.word = .woken := by
  by_contra hw
  have hnone : s.winner = none := by
    by_contra hn
    exact hw (hl.woken.mpr hn)
  have hzero : s.requeued = 0 := by
    apply hr.zero
    intro i
    by_contra hi
    obtain ⟨k, hk⟩ := Claimer.won_of_requeued (by simpa using hi)
    rw [hl.won, hnone] at hk
    cases hk
  omega

/-! ## The word and the yield -/

/-- The fiber has been resumed from its park. -/
def State.resumed (s : State) : Bool := s.committed && (s.pc == .resumed || s.pc.past)

/-- The fiber is past a claim it has seen. -/
@[grind =]
def FiberPc.claimed : FiberPc → Bool
  | .aborted | .resumed | .read | .takeLoad | .takeStore _ => true
  | _ => false

theorem FiberPc.past_late (h : pc.past = true) :
    pc.early = false ∧ pc ≠ .aborted ∧ pc ≠ .yield ∧ pc ≠ .yielded ∧ pc ≠ .resumed := by
  cases pc <;> simp_all [past, early]

structure Phases (s : State) : Prop where
  early : s.pc.early = true ∨ s.pc = .aborted → s.committed = false
  parking : s.pc = .yield ∨ s.pc = .yielded ∨ s.pc = .resumed → s.committed = true
  claimed : s.pc.claimed = true → s.word = .woken
  armed : s.word = .armed → s.committed = false
  parked : s.word = .parked → s.committed = true
  src : ∀ w, s.winner = some w → w.src ≠ .woken ∧ (w.src = .parked ↔ s.committed = true)
  yields : s.yields = if s.committed && s.pc != .yield then 1 else 0
  queue : s.queue + (if s.resumed then 1 else 0) = s.requeued
  woken : s.committed = true → s.pc.past = true → s.word = .woken

/-- A claimer's step that leaves the word alone. -/
theorem Phases.frame (hi : Phases s) (hw : t.word = s.word)
    (hn : t.winner = s.winner) (hp : t.pc = s.pc) (hc : t.committed = s.committed)
    (hy : t.yields = s.yields) (hq : t.queue + s.requeued = s.queue + t.requeued) : Phases t := by
  have hres : t.resumed = s.resumed := by simp [State.resumed, hp, hc]
  obtain ⟨h1, h2, h3, h4, h5, h6, h7, h8, h9⟩ := hi
  refine ⟨?_, ?_, ?_, ?_, ?_, ?_, ?_, ?_, ?_⟩
  · rwa [hp, hc]
  · rwa [hp, hc]
  · rwa [hp, hw]
  · rwa [hw, hc]
  · rwa [hw, hc]
  · rwa [hn, hc]
  · rwa [hp, hc, hy]
  · rw [hres]
    omega
  · rwa [hp, hw, hc]

theorem claimerStep_phases (hl : Locked s) (hi : Phases s)
    (h : claimerStep events s i = some t) : Phases t := by
  unfold claimerStep at h
  split at h
  case h_3 k cur hpc =>
    have hcur := hl.casCur i k cur hpc
    split at h <;> cases h
    · next hword =>
      obtain ⟨h1, h2, h3, h4, h5, h6, h7, h8, h9⟩ := hi
      refine ⟨h1, h2, fun _ => rfl, nofun, nofun, ?_, h7, h8, fun _ _ => rfl⟩
      rintro w ⟨⟩
      refine ⟨hcur, ?_⟩
      subst hword
      constructor
      · exact h5
      · intro (hc : s.committed = true)
        cases hw : s.word with
        | armed => exact absurd (h4 hw) (by simpa using hc)
        | parked => rfl
        | woken => exact absurd hw hcur
    · exact hi.frame rfl rfl rfl rfl rfl rfl
  case h_1 => split at h <;> cases h <;> exact hi.frame rfl rfl rfl rfl rfl rfl
  case h_2 => split at h <;> cases h <;> exact hi.frame rfl rfl rfl rfl rfl rfl
  case h_4 =>
    split at h
    · cases h
      exact hi.frame rfl rfl rfl rfl rfl rfl
    · split at h <;> cases h <;> exact hi.frame rfl rfl rfl rfl rfl rfl
  case h_7 =>
    split at h <;> cases h
    · exact hi.frame rfl rfl rfl rfl rfl (by simp only [State.requeue, State.set]; omega)
    · exact hi.frame rfl rfl rfl rfl rfl rfl
  case h_9 =>
    cases h
    exact hi.frame rfl rfl rfl rfl rfl (by simp only [State.requeue, State.set]; omega)
  case h_10 => cases h
  all_goals
    cases h
    exact hi.frame rfl rfl rfl rfl rfl rfl

/-- The fiber goes on without having committed. -/
theorem Phases.uncommitted (hi : Phases s) (hcom : s.committed = false)
    (linked : Bool) (hpark : ¬ (pc = .yield ∨ pc = .yielded ∨ pc = .resumed))
    (hclaimed : pc.claimed = true → s.word = .woken) :
    Phases { s with linked := linked, pc := pc } := by
  have hqueue := hi.queue
  rw [State.resumed, hcom] at hqueue
  have hyields := hi.yields
  rw [hcom] at hyields
  constructor
  case early => exact fun _ => hcom
  case parking => exact fun hp => absurd hp hpark
  case claimed => exact hclaimed
  case armed => exact fun _ => hcom
  case parked => exact hi.parked
  case src => exact hi.src
  case yields =>
    show s.yields = if s.committed && pc != .yield then 1 else 0
    rw [hcom]
    exact hyields
  case queue =>
    simp only [State.resumed, hcom]
    exact hqueue
  case woken => exact fun hc => absurd (hcom.symm.trans hc) nofun

/-- The fiber goes on past its locked section. -/
theorem Phases.past (hi : Phases s) (hpast : s.pc.past = true)
    (hclaimed : s.pc.claimed = true) (slot : Option Delivery)
    (hpc : pc.past = true) : Phases { s with slot := slot, pc := pc } := by
  have hword := hi.claimed hclaimed
  obtain ⟨hearly, haborted, hyield, hyielded, hresumed⟩ := FiberPc.past_late hpc
  have hold := (FiberPc.past_late hpast).2.2.1
  constructor
  case early =>
    rintro (he | he)
    · exact absurd (hearly.symm.trans he) nofun
    · exact absurd he haborted
  case parking =>
    rintro (he | he | he)
    · exact absurd he hyield
    · exact absurd he hyielded
    · exact absurd he hresumed
  case claimed => exact fun _ => hword
  case armed => exact hi.armed
  case parked => exact hi.parked
  case src => exact hi.src
  case yields =>
    have hyields := hi.yields
    rw [bne_iff_ne.mpr hold] at hyields
    show s.yields = if s.committed && pc != .yield then 1 else 0
    rw [bne_iff_ne.mpr hyield]
    exact hyields
  case queue =>
    have hqueue := hi.queue
    simp only [State.resumed, hpast, Bool.or_true] at hqueue
    simp only [State.resumed, hpc, Bool.or_true]
    exact hqueue
  case woken => exact fun _ _ => hword

/-- The fiber commits: nobody has claimed it, so nobody has re-queued it. -/
theorem Phases.commit (hl : Locked s) (hr : Requeue s) (hi : Phases s)
    (hword : s.word = .armed) :
    Phases { s with word := .parked, committed := true, pc := .yield } := by
  have hcom := hi.armed hword
  have hnone : s.winner = none := by
    by_contra hn
    exact absurd (hword.symm.trans (hl.woken.mpr hn)) nofun
  have hzero : s.requeued = 0 := by
    by_contra hz
    exact absurd (hword.symm.trans (woken_of_requeued hl hr (Nat.pos_of_ne_zero hz))) nofun
  constructor
  case early => exact fun he => by rcases he with he | he <;> cases he
  case parking => exact fun _ => rfl
  case claimed => exact nofun
  case armed => exact nofun
  case parked => exact fun _ => rfl
  case src => exact fun w hw => absurd (hnone.symm.trans hw) nofun
  case yields =>
    have hyields := hi.yields
    rw [hcom] at hyields
    exact hyields
  case queue =>
    have hqueue := hi.queue
    rw [State.resumed, hcom] at hqueue
    exact hqueue
  case woken => exact nofun

theorem Phases.yield (hi : Phases s) (hpc : s.pc = .yield) :
    Phases { s with yields := s.yields + 1, pc := .yielded } := by
  have hcom : s.committed = true := hi.parking (.inl hpc)
  constructor
  case early => exact fun he => by rcases he with he | he <;> cases he
  case parking => exact fun _ => hcom
  case claimed => exact nofun
  case armed => exact hi.armed
  case parked => exact hi.parked
  case src => exact hi.src
  case yields =>
    have hyields := hi.yields
    rw [hpc, hcom] at hyields
    show s.yields + 1 = if s.committed && FiberPc.yielded != .yield then 1 else 0
    rw [hyields, hcom]
    rfl
  case queue =>
    have hqueue := hi.queue
    rw [State.resumed, hpc, hcom] at hqueue
    simp only [State.resumed, hcom]
    exact hqueue
  case woken => exact nofun

/-- The resume takes the one entry that the winner made. -/
theorem Phases.resume (hl : Locked s) (hr : Requeue s) (hi : Phases s)
    (hpc : s.pc = .yielded) (hq : 0 < s.queue) :
    Phases { s with queue := s.queue - 1, pc := .resumed } := by
  have hcom : s.committed = true := hi.parking (.inr (.inl hpc))
  have hqueue : s.queue + 0 = s.requeued := by
    have hqueue := hi.queue
    rw [State.resumed, hpc, hcom] at hqueue
    exact hqueue
  have hword := woken_of_requeued hl hr (by omega)
  constructor
  case early => exact fun he => by rcases he with he | he <;> cases he
  case parking => exact fun _ => hcom
  case claimed => exact fun _ => hword
  case armed => exact hi.armed
  case parked => exact hi.parked
  case src => exact hi.src
  case yields =>
    have hyields := hi.yields
    rw [hpc] at hyields
    exact hyields
  case queue =>
    simp only [State.resumed, hcom]
    show s.queue - 1 + 1 = s.requeued
    omega
  case woken => exact fun _ _ => hword

theorem Phases.unlink (hi : Phases s) (hpc : s.pc = .resumed) :
    Phases { s with linked := false, pc := .read } := by
  have hcom : s.committed = true := hi.parking (.inr (.inr hpc))
  have hword := hi.claimed (by rw [hpc]; rfl)
  constructor
  case early => exact fun he => by rcases he with he | he <;> cases he
  case parking => exact fun he => by rcases he with he | he | he <;> cases he
  case claimed => exact fun _ => hword
  case armed => exact hi.armed
  case parked => exact hi.parked
  case src => exact hi.src
  case yields =>
    have hyields := hi.yields
    rw [hpc] at hyields
    exact hyields
  case queue =>
    have hqueue := hi.queue
    rw [State.resumed, hpc, hcom] at hqueue
    simp only [State.resumed, hcom]
    exact hqueue
  case woken => exact fun _ _ => hword

theorem fiberStep_phases {bits : ℕ} {ok : Bool} (hl : Locked s) (hr : Requeue s)
    (hi : Phases s) (h : fiberStep s bits ok = some t) : Phases t := by
  unfold fiberStep at h
  split at h
  case h_1 hpc =>
    split at h <;> cases h
    exact hi.uncommitted (hi.early (.inl (by rw [hpc]; rfl))) _ (by simp) nofun
  case h_2 hpc =>
    cases h
    refine hi.uncommitted (hi.early (.inl (by rw [hpc]; rfl))) _ ?_ ?_
    · split <;> simp
    · split <;> nofun
  case h_3 hpc =>
    cases h
    refine hi.uncommitted (hi.early (.inl (by rw [hpc]; rfl))) _ ?_ ?_
    · split <;> simp
    · split <;> nofun
  case h_4 hpc =>
    cases h
    refine hi.uncommitted (hi.early (.inl (by rw [hpc]; rfl))) _ ?_ ?_
    · split <;> simp
    · split <;> nofun
  case h_5 hpc =>
    split at h <;> cases h
    exact hi.uncommitted (hi.early (.inl (by rw [hpc]; rfl))) _ (by simp) nofun
  case h_6 hpc =>
    have hcom := hi.early (.inl (by rw [hpc]; rfl))
    split at h <;> cases h
    · next hword => exact hi.commit hl hr hword
    · next hword =>
      -- a failed commit means that the word is woken
      refine hi.uncommitted hcom _ (by simp) fun _ => ?_
      cases hw : s.word with
      | armed => exact absurd hw hword
      | parked => exact absurd (hcom.symm.trans (hi.parked hw)) nofun
      | woken => rfl
  case h_7 hpc =>
    split at h <;> cases h
    have hword := hi.claimed (by rw [hpc]; rfl)
    exact hi.uncommitted (hi.early (.inr hpc)) _ (by simp) fun _ => hword
  case h_8 hpc =>
    cases h
    exact hi.yield hpc
  case h_9 hpc =>
    split at h <;> cases h
    next hq => exact hi.resume hl hr hpc hq
  case h_10 hpc =>
    split at h <;> cases h
    exact hi.unlink hpc
  case h_11 hpc =>
    cases h
    refine hi.past (by rw [hpc]; rfl) (by rw [hpc]; rfl) _ ?_
    split <;> rfl
  case h_12 hpc =>
    cases h
    exact hi.past (by rw [hpc]; rfl) (by rw [hpc]; rfl) _ rfl
  case h_13 hpc =>
    cases h
    exact hi.past (by rw [hpc]; rfl) (by rw [hpc]; rfl) _ rfl
  case h_14 => cases h

theorem step_phases (hl : Locked s) (hr : Requeue s)
    (hi : Phases s) (h : step events s a = some t) : Phases t := by
  cases a with
  | fiber bits ok => exact fiberStep_phases hl hr hi h
  | claim i k =>
    simp only [step, claimStart] at h
    split at h
    · split at h <;> cases h <;> exact hi.frame rfl rfl rfl rfl rfl rfl
    · cases h
  | claimer i => exact claimerStep_phases hl hi h
  | otherReserve e =>
    simp only [step] at h
    split at h <;> cases h
    exact hi.frame rfl rfl rfl rfl rfl rfl
  | otherClear =>
    simp only [step] at h
    split at h <;> cases h
    exact hi.frame rfl rfl rfl rfl rfl rfl

theorem reachable_phases (h : Reachable (system events) s) :
    Phases s := by
  induction h with
  | start hs =>
    obtain ⟨hw, -, -, -, -, hq, hp, -, hn, hm, hy, hr⟩ := hs
    constructor <;> simp [hw, hq, hp, hn, hm, hy, hr, State.resumed, FiberPc.claimed, FiberPc.past]
  | next hr hs ih => exact step_phases (reachable_locked hr) (reachable_requeue hr) ih hs

/-! ## The ready slot -/

/-- What the winner wrote stays in `ready_out`. -/
def ReadySlot (events : ℕ) (s : State) : Prop :=
  ∀ i k src, (s.claimer i).won = some (k, src) → (s.claimer i).written = true →
    s.ready = k.ready events

/-- Only a winner writes `ready_out`. -/
theorem step_ready (h : step events s a = some t) :
    t.ready = s.ready ∨
      ∃ i k src, a = .claimer i ∧ s.claimer i = .write k src ∧ t.ready = k.ready events := by
  cases a with
  | fiber bits ok => exact .inl (fiberStep_frame h).2.1
  | claim i k =>
    left
    simp only [step, claimStart] at h
    split at h
    · split at h <;> cases h <;> rfl
    · cases h
  | claimer i =>
    simp only [step, claimerStep] at h
    split at h
    case h_1 => split at h <;> cases h <;> exact .inl rfl
    case h_2 => split at h <;> cases h <;> exact .inl rfl
    case h_3 => split at h <;> cases h <;> exact .inl rfl
    case h_4 => split at h <;> (try split at h) <;> cases h <;> exact .inl rfl
    case h_5 k src hpc =>
      cases h
      exact .inr ⟨i, k, src, rfl, hpc, rfl⟩
    case h_7 => split at h <;> cases h <;> exact .inl rfl
    case h_10 => cases h
    all_goals cases h; exact .inl rfl
  | otherReserve e =>
    simp only [step] at h
    split at h <;> cases h
    exact .inl rfl
  | otherClear =>
    simp only [step] at h
    split at h <;> cases h
    exact .inl rfl

theorem claimStart_moves (h : claimStart s i k = some t) :
    ∃ c, t.claimer = (s.set i c).claimer ∧ c.won = none := by
  unfold claimStart at h
  split at h
  · split at h <;> cases h
    · refine ⟨_, rfl, ?_⟩
      split <;> rfl
    · exact ⟨_, rfl, rfl⟩
  · cases h

theorem claimerStep_moves (h : claimerStep events s i = some t) :
    ∃ c, t.claimer = (s.set i c).claimer ∧ ∀ k src, c.won = some (k, src) → c.written = true →
      (s.claimer i).won = some (k, src) ∧
        ((s.claimer i).written = true ∨ s.claimer i = .write k src) := by
  unfold claimerStep at h
  split at h
  case h_1 => split at h <;> cases h <;> exact ⟨_, rfl, nofun⟩
  case h_2 => split at h <;> cases h <;> exact ⟨_, rfl, nofun⟩
  case h_3 k' cur hc =>
    split at h <;> cases h
    · refine ⟨_, rfl, fun k src _ hw => ?_⟩
      cases hk : k'.unlinksFirst <;> simp [hk, Claimer.written] at hw
    · exact ⟨_, rfl, nofun⟩
  case h_4 =>
    split at h
    · cases h
      exact ⟨_, rfl, nofun⟩
    · split at h <;> cases h <;> exact ⟨_, rfl, nofun⟩
  case h_5 k' src' hc =>
    cases h
    refine ⟨_, rfl, fun k src hwon _ => ?_⟩
    have hsame : k' = k ∧ src' = src := by
      cases k' <;> simpa [Claimer.won, Kind.unlinksFirst, Kind.wakesLate] using hwon
    obtain ⟨rfl, rfl⟩ := hsame
    rw [hc]
    exact ⟨rfl, .inr rfl⟩
  case h_6 k' src' hc =>
    cases h
    refine ⟨_, rfl, fun k src hwon hw => ?_⟩
    rw [hc]
    cases hk : k'.unlinksFirst with
    | true =>
      rw [hk, if_pos rfl] at hw
      cases hw
    | false =>
      rw [hk] at hwon
      refine ⟨hwon, .inl ?_⟩
      simp [Claimer.written, hk]
  case h_7 k' src' hc =>
    split at h <;> cases h
    · exact ⟨_, rfl, fun k src hwon _ => by rw [hc]; exact ⟨hwon, .inl rfl⟩⟩
    · exact ⟨_, rfl, fun k src hwon _ => by rw [hc]; exact ⟨hwon, .inl rfl⟩⟩
  case h_8 k' src' hc =>
    cases h
    refine ⟨_, rfl, fun k src hwon hw => ?_⟩
    rw [hc]
    cases src' with
    | none =>
      rw [if_neg (by simp)] at hwon
      cases hwon
    | some x =>
      refine ⟨?_, .inl rfl⟩
      split at hwon
      · next hk => rw [hk.2]; exact hwon
      · exact hwon
  case h_9 k' hc =>
    cases h
    exact ⟨_, rfl, fun k src hwon _ => by rw [hc]; exact ⟨hwon, .inl rfl⟩⟩
  case h_10 => cases h

/-- A claimer that stands written after a step stood written before it, or
wrote in this step. -/
theorem step_written {j : ℕ} {src : Word}
    (h : step events s a = some t) (hwon : (t.claimer j).won = some (k, src))
    (hw : (t.claimer j).written = true) :
    (s.claimer j).won = some (k, src) ∧
      ((s.claimer j).written = true ∨ a = .claimer j ∧ s.claimer j = .write k src) := by
  cases a with
  | fiber bits ok =>
    rw [(fiberStep_frame h).1] at hwon hw
    exact ⟨hwon, .inl hw⟩
  | claim i k =>
    obtain ⟨c, hc, hnone⟩ := claimStart_moves h
    rw [hc, State.set_claimer] at hwon hw
    by_cases hj : j = i
    · rw [if_pos hj, hnone] at hwon
      cases hwon
    · rw [if_neg hj] at hwon hw
      exact ⟨hwon, .inl hw⟩
  | claimer i =>
    obtain ⟨c, hc, hwrote⟩ := claimerStep_moves h
    rw [hc, State.set_claimer] at hwon hw
    by_cases hj : j = i
    · rw [if_pos hj] at hwon hw
      rw [hj]
      obtain ⟨hwon', hw' | hw'⟩ := hwrote k src hwon hw
      · exact ⟨hwon', .inl hw'⟩
      · exact ⟨hwon', .inr ⟨rfl, hw'⟩⟩
    · rw [if_neg hj] at hwon hw
      exact ⟨hwon, .inl hw⟩
  | otherReserve e =>
    simp only [step] at h
    split at h <;> cases h
    exact ⟨hwon, .inl hw⟩
  | otherClear =>
    simp only [step] at h
    split at h <;> cases h
    exact ⟨hwon, .inl hw⟩

theorem step_readySlot (hl : Locked s)
    (hi : ReadySlot events s) (h : step events s a = some t) : ReadySlot events t := by
  intro j k src hwon hw
  obtain ⟨hwon', hw'⟩ := step_written h hwon hw
  rcases step_ready h with hr | ⟨i, k', src', ha, hpc, hr⟩
  · rw [hr]
    rcases hw' with hw' | ⟨rfl, hpc⟩
    · exact hi j k src hwon' hw'
    · -- the write itself, with the value that was there already
      simp only [step, claimerStep, hpc, Option.some.injEq] at h
      rw [← hr, ← h]
  · -- the writer is the one winner
    have hwin := (hl.won i k' src').mp (by simp [hpc, Claimer.won])
    rw [(hl.won j k src).mp hwon'] at hwin
    cases hwin
    exact hr

theorem reachable_readySlot (h : Reachable (system events) s) :
    ReadySlot events s := by
  induction h with
  | start hs =>
    obtain ⟨-, -, -, -, -, -, -, hc, -⟩ := hs
    intro i k src hwon
    simp [hc, Claimer.won] at hwon
  | next hr hs ih => exact step_readySlot (reachable_locked hr) ih hs

/-! ## The protocol -/

/-- No claimer is between finding the parker and finishing once the fiber is
past its locked section. -/
theorem past_quiet (hl : Locked s) (hr : Requeue s) (hp : Phases s)
    (h : s.pc.past = true) (i : ℕ) :
    s.claimer i = .idle ∨ ∃ k src, s.claimer i = .done k src := by
  have hfree : (s.claimer i).holding = false := by
    have hlock := (hl.unlinkedPc (.inr h)).2
    by_contra hheld
    have := (hl.holder i).mp (by simpa using hheld)
    rw [hlock] at this
    cases this
  cases hc : s.claimer i with
  | idle => exact .inl rfl
  | done k src => exact .inr ⟨k, src, rfl⟩
  | wakeLate k =>
    -- a late wake still owed means that the fiber was not resumed
    exfalso
    have hwin := (hl.won i k .parked).mp (by simp [hc, Claimer.won])
    have hcom : s.committed = true := (hp.src _ hwin).2.mp rfl
    have hq := hp.queue
    simp only [State.resumed, hcom, h, Bool.or_true, Bool.and_self, ↓reduceIte] at hq
    have hone : s.requeued ≠ 0 := by omega
    apply hone
    apply hr.zero
    intro j
    by_contra hj
    obtain ⟨k', hk'⟩ := Claimer.won_of_requeued (by simpa using hj)
    have hwin' := (hl.won j k' .parked).mp hk'
    rw [hwin] at hwin'
    cases hwin'
    exact hj (by simp [hc, Claimer.requeued])
  | _ =>
    rw [hc] at hfree
    cases hfree

/-- What the commit protocol promises in every state of one `wait_fd` park. -/
structure Safe (events : ℕ) (s : State) : Prop where
  oneWinner : ∀ i j, (s.claimer i).won ≠ none → (s.claimer j).won ≠ none → i = j
  /-- The fiber yields only after its own move from ARMED to PARKED, and once. -/
  yields : s.yields ≠ 0 → s.committed = true ∧ s.yields = 1
  /-- One re-queue at most, none without a winner; a winner from ARMED makes
  none, and then the fiber does not yield; a winner from PARKED that has
  finished has made one, and `wait_fd` returns only after it. -/
  requeuedLe : s.requeued ≤ 1
  requeuedNone : (∀ i, (s.claimer i).won = none) → s.requeued = 0
  requeuedArmed : ∀ i k, (s.claimer i).won = some (k, .armed) → s.requeued = 0 ∧ s.yields = 0
  requeuedParked : ∀ i k, s.claimer i = .done k (some .parked) → s.requeued = 1
  returnedParked : ∀ i k r, (s.claimer i).won = some (k, .parked) → s.pc = .returned r →
    s.requeued = 1
  /-- `ready_out` is written by the winner only, before the fiber gets past its
  locked section, and the fiber then reads what the winner wrote. -/
  writer : ∀ a t, step events s a = some t → t.ready ≠ s.ready →
    s.pc.past = false ∧ ∃ i k src, a = .claimer i ∧ (s.claimer i).won = some (k, src)
  written : s.pc.past = true → ∀ i k src, (s.claimer i).won = some (k, src) →
    s.ready = k.ready events
  /-- Once `wait_fd` has returned nobody touches the parker. -/
  untouched : ∀ r, s.pc = .returned r → ∀ a t, step events s a = some t →
    t.word = s.word ∧ t.linked = s.linked ∧ t.ready = s.ready ∧ t.requeued = s.requeued

theorem untouched_of_returned {r : Result} (hl : Locked s)
    (hr : Requeue s) (hp : Phases s) (hpc : s.pc = .returned r) (h : step events s a = some t) :
    t.word = s.word ∧ t.linked = s.linked ∧ t.ready = s.ready ∧ t.requeued = s.requeued := by
  have hpast : s.pc.past = true := by simp [hpc, FiberPc.past]
  cases a with
  | fiber bits ok => simp [step, fiberStep, hpc] at h
  | claim i k =>
    simp only [step, claimStart, (hl.unlinkedPc (.inr hpast)).1] at h
    split at h
    · cases h
      exact ⟨rfl, rfl, rfl, rfl⟩
    · cases h
  | claimer i =>
    rcases past_quiet hl hr hp hpast i with hi | ⟨k, src, hi⟩ <;>
      simp [step, claimerStep, hi] at h
  | otherReserve e =>
    simp only [step] at h
    split at h <;> cases h
    exact ⟨rfl, rfl, rfl, rfl⟩
  | otherClear =>
    simp only [step] at h
    split at h <;> cases h
    exact ⟨rfl, rfl, rfl, rfl⟩

/-- **Commit protocol.** In every reachable state of a `wait_fd` park at most
one claimer has won, the fiber is re-queued exactly once or not at all, and
only the winner has written what the fiber reads. -/
theorem reachable_safe {events : ℕ} {s : State} (h : Reachable (system events) s) :
    Safe events s := by
  have hl := reachable_locked h
  have hr := reachable_requeue h
  have hp := reachable_phases h
  have hs := reachable_readySlot h
  have hwinner (i : ℕ) (hi : (s.claimer i).won ≠ none) :
      ∃ k src, s.winner = some ⟨i, k, src⟩ := by
    obtain ⟨⟨k, src⟩, hw⟩ := Option.ne_none_iff_exists'.mp hi
    exact ⟨k, src, (hl.won i k src).mp hw⟩
  have hzero (hn : ∀ i k, (s.claimer i).won ≠ some (k, .parked)) : s.requeued = 0 := by
    apply hr.zero
    intro i
    by_contra hi
    obtain ⟨k, hk⟩ := Claimer.won_of_requeued (by simpa using hi)
    exact hn i k hk
  constructor
  · intro i j hi hj
    obtain ⟨k, src, hwi⟩ := hwinner i hi
    obtain ⟨k', src', hwj⟩ := hwinner j hj
    rw [hwi] at hwj
    cases hwj
    rfl
  · intro hy
    have := hp.yields
    split at this
    · next hc => exact ⟨by simp at hc; exact hc.1, this⟩
    · exact absurd this hy
  · by_cases hex : ∃ i, (s.claimer i).requeued = true
    · obtain ⟨i, hi⟩ := hex
      exact Nat.le_of_eq (hr.one i hi)
    · rw [hr.zero fun i => by simpa using fun hi => hex ⟨i, hi⟩]
      decide
  · intro hn
    exact hzero fun i k hk => by simp [hn i] at hk
  · intro i k hi
    have hwin := (hl.won i k .armed).mp hi
    have hcom : s.committed = false := by
      cases hc : s.committed with
      | false => rfl
      | true => exact absurd ((hp.src _ hwin).2.mpr hc) nofun
    refine ⟨hzero fun j k' hj => ?_, by simpa [hcom] using hp.yields⟩
    rw [hl.won, hwin] at hj
    cases hj
  · intro i k hi
    exact hr.one i (by simp [hi, Claimer.requeued])
  · intro i k r hi hpc
    have hpast : s.pc.past = true := by simp [hpc, FiberPc.past]
    rcases past_quiet hl hr hp hpast i with hc | ⟨k', src, hc⟩
    · simp [hc, Claimer.won] at hi
    · cases src with
      | none => simp [hc, Claimer.won] at hi
      | some src =>
        simp only [hc, Claimer.won, Option.map_some, Option.some.injEq, Prod.mk.injEq] at hi
        obtain ⟨rfl, rfl⟩ := hi
        exact hr.one i (by simp [hc, Claimer.requeued])
  · intro a t hstep hne
    rcases step_ready hstep with hsame | ⟨i, k, src, rfl, hpc, -⟩
    · exact absurd hsame hne
    · refine ⟨?_, i, k, src, rfl, by simp [hpc, Claimer.won]⟩
      cases hpast : s.pc.past with
      | false => rfl
      | true =>
        rcases past_quiet hl hr hp hpast i with hc | ⟨k', src', hc⟩ <;> rw [hc] at hpc <;> cases hpc
  · intro hpast i k src hi
    rcases past_quiet hl hr hp hpast i with hc | ⟨k', src', hc⟩
    · simp [hc, Claimer.won] at hi
    · cases src' with
      | none => simp [hc, Claimer.won] at hi
      | some src' => exact hs i k src hi (by simp [hc, Claimer.written])
  · intro r hpc a t hstep
    exact untouched_of_returned hl hr hp hpc hstep

/-- A parker fresh from the freelist, with an empty `signal_exc`. -/
def fresh : State :=
  { word := .armed, linked := false, ready := 0, lock := none, slot := none, queue := 0,
    pc := .link, claimer := fun _ => .idle, winner := none, committed := false, yields := 0,
    requeued := 0 }

theorem fresh_initial : Initial fresh := by
  refine ⟨rfl, rfl, rfl, rfl, ?_, rfl, rfl, fun _ => rfl, rfl, rfl, rfl, rfl⟩
  intro i e
  exact nofun

/-- `runloom_netpoll_cancel_g` on a committed park. -/
theorem reachable_safe_cancel :
    ∃ s, Reachable (system 1) s ∧ s.pc = .returned ⟨cancelled, none, false⟩ ∧ s.requeued = 1 ∧
      Safe 1 s := by
  have hr : Reachable (system 1) _ :=
    reachable_of_run (system 1)
      [.fiber 0 true, .fiber 0 true, .fiber 0 true, .fiber 0 true, .claim 0 .cancelG, .claimer 0,
        .fiber 0 true, .fiber 0 true, .claimer 0, .claimer 0, .claimer 0, .claimer 0, .claimer 0,
        .claimer 0, .fiber 0 true, .claimer 0, .fiber 0 true, .fiber 0 true]
      fresh_initial rfl
  exact ⟨_, hr, rfl, rfl, reachable_safe hr⟩

end Stackweave.Netpoll.Commit
