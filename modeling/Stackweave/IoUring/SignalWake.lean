import Mathlib.Data.Int.Notation
import Mathlib.Data.List.Nodup
import Mathlib.Tactic.Common
import Stackweave.Transition

/-!
# Signals for io_uring waiters (`runloom_iouring_signal_wake`)

Any number of `runloom_iouring_signal_wake` calls against fibers that wait in
`runloom_iouring_do` (on a hub or on a single-thread scheduler), in
`runloom_iouring_ring_do` or in `runloom_iouring_ms_recv`, and against the completions
of their operations. A signal call walks the list of waiters under its lock, reserves
the `signal_exc` slot of the scheduler that owns the fiber, marks the waiter and wakes
it. The three wait loops differ in what they do with the mark: `ms_recv` raises the
exception at once; the single-shot loops cancel their operation, go on waiting for its
result and raise the exception if that is an error.

Other recipients of the same scheduler (`wait_fd` and the sleepers) reserve and clear
the slot as well. A drain that completes an operation publishes the result and wakes
the fiber in one step; what a multishot has received is left open. Exceptions are
named by the call that was given them.
-/

namespace Stackweave.IoUring.SignalWake

open Transition Function

/-- Which loop a call waits in: `runloom_iouring_do` in a single-thread scheduler or on a
hub, `runloom_iouring_ring_do`, `runloom_iouring_ms_recv`. -/
inductive Kind
  | sched
  | hub
  | ring
  | many
  deriving DecidableEq

inductive Wait
  | inflight
  | parked
  | done
  deriving DecidableEq

/-- What `signal_exc` points to: the exception of a signal call here, or one that is for
another kind of waiter. -/
inductive Exc
  | sig (k : ℕ)
  | other
  deriving DecidableEq

inductive Pc
  | unborn
  | commit
  | top
  | link
  | park
  | asleep
  | awake
  | test
  | unlink
  | check
  | load
  | store (e : Option Exc)
  | returned (r : ℤ)
  deriving DecidableEq

/-- A waiting call: its op record, its node in the list (`signaled` with the call that set
it) and its locals. `raised` and `left` are history: the Python error that is set when
the call returns, and the slot then. -/
structure Call where
  kind : Kind
  owner : ℕ
  pc : Pc
  result : Option ℤ
  wait : Wait
  signaled : Option ℕ
  cancelled : Bool
  woken : Bool
  raised : Option Exc
  left : Option Exc

/-- A call of `runloom_iouring_signal_wake`; it returns 1 for the waiter it names. -/
inductive Sig
  | idle
  | lock
  | walk (rest : List ℕ)
  | mark (w : ℕ)
  | wake (w : ℕ)
  | returned (w : Option ℕ)
  deriving DecidableEq

structure State where
  calls : ℕ → Call
  next : ℕ
  waiters : List ℕ
  lock : Option ℕ
  sigs : ℕ → Sig
  slot : ℕ → Option Exc

def blank : Call := ⟨.sched, 0, .unborn, none, .inflight, none, false, false, none, none⟩

def init : State :=
  { calls := fun _ => blank, next := 0, waiters := [], lock := none, sigs := fun _ => .idle
    slot := fun _ => none }

/-- `cancel` is how the cancel of a marked waiter goes, `finish` what `ms_recv` returns
without waiting, `complete` a result of the kernel, `wake` a wake from elsewhere;
`reserve` and `clear` are the other recipients. -/
inductive Action
  | call (kind : Kind) (owner : ℕ)
  | step (j : ℕ)
  | cancel (j : ℕ) (ok : Bool)
  | finish (j : ℕ) (r : ℤ)
  | complete (j : ℕ) (r : ℤ)
  | wake (j : ℕ)
  | signal (k : ℕ)
  | sig (k : ℕ)
  | reserve (o : ℕ)
  | clear (o : ℕ)

def State.set (s : State) (j : ℕ) (c : Call) : State :=
  { s with calls := Function.update s.calls j c }

def State.goto (s : State) (j : ℕ) (p : Pc) : State :=
  s.set j { s.calls j with pc := p }

/-- The call returns. -/
def State.leave (s : State) (j : ℕ) (r : ℤ) : State :=
  s.set j { s.calls j with pc := .returned r, left := s.slot (s.calls j).owner }

/-- What a single-shot call returns for the result of its operation. -/
def Call.value (c : Call) : ℤ :=
  match c.result with
  | some r => if r < 0 then -1 else r
  | none => -1

def Call.failed (c : Call) : Bool :=
  match c.result with
  | some r => r < 0
  | none => true

@[grind =]
def start : Kind → Pc
  | .sched => .link
  | .hub | .ring => .commit
  | .many => .top

/-- One step of a waiting call. -/
def callStep (s : State) (j : ℕ) : Option State :=
  let c := s.calls j
  match c.pc with
  | .commit =>
    if c.wait = .done then some (s.leave j c.value)
    else some (s.set j { c with pc := .link, wait := .parked })
  | .top => some (s.goto j .link)
  | .link =>
    if s.lock = none then
      some { s.set j { c with pc := .park, signaled := none } with waiters := j :: s.waiters }
    else none
  | .park => some (s.goto j .asleep)
  | .asleep =>
    if c.woken then
      some (s.set j { c with
        woken := false, pc := if c.kind = .many then .unlink else .awake })
    else none
  | .awake => if c.signaled.isSome ∧ ¬ c.cancelled then none else some (s.goto j .test)
  | .test => some (s.goto j (if c.result = none then .park else .unlink))
  | .unlink =>
    if s.lock = none then some { s.goto j .check with waiters := s.waiters.erase j } else none
  | .check =>
    if c.kind = .many then some (s.goto j (if c.signaled.isSome then .load else .top))
    else if c.signaled.isSome ∧ c.failed then some (s.goto j .load)
    else some (s.leave j c.value)
  | .load => some (s.goto j (.store (s.slot c.owner)))
  | .store e =>
    some { s.set j { c with pc := .returned (-1), raised := e, left := none } with
      slot := Function.update s.slot c.owner none }
  | .unborn | .returned _ => none

/-- A marked waiter cancels its operation. Only `ring_do` can fail to: it is away from its
hub and the mailbox is busy. -/
def cancelStep (s : State) (j : ℕ) (ok : Bool) : Option State :=
  let c := s.calls j
  if c.pc = .awake ∧ c.signaled.isSome ∧ ¬ c.cancelled ∧ (ok = true ∨ c.kind = .ring) then
    some (s.set j { c with cancelled := ok, pc := .test })
  else none

/-- A drain takes the completion of a single-shot operation. -/
def completeStep (s : State) (j : ℕ) (r : ℤ) : Option State :=
  let c := s.calls j
  if c.pc ≠ .unborn ∧ c.kind ≠ .many ∧ c.result = none then
    some (s.set j { c with
      result := some r
      wait := .done
      woken := c.woken || c.kind = .sched || c.wait = .parked })
  else none

/-- One step of `runloom_iouring_signal_wake`. -/
def sigStep (s : State) (k : ℕ) : Option State :=
  match s.sigs k with
  | .lock =>
    if s.lock = none then
      some { s with lock := some k, sigs := Function.update s.sigs k (.walk s.waiters) }
    else none
  | .walk [] =>
    some { s with lock := none, sigs := Function.update s.sigs k (.returned none) }
  | .walk (w :: rest) =>
    if (s.calls w).signaled = none ∧ s.slot (s.calls w).owner = none then
      some { s with
        slot := Function.update s.slot (s.calls w).owner (some (.sig k))
        sigs := Function.update s.sigs k (.mark w) }
    else some { s with sigs := Function.update s.sigs k (.walk rest) }
  | .mark w =>
    some { s.set w { s.calls w with signaled := some k } with
      lock := none, sigs := Function.update s.sigs k (.wake w) }
  | .wake w =>
    some { s.set w { s.calls w with woken := true } with
      sigs := Function.update s.sigs k (.returned (some w)) }
  | .idle | .returned _ => none

@[grind =]
def step (s : State) : Action → Option State
  | .call kind owner =>
    some { s.set s.next ⟨kind, owner, start kind, none, .inflight, none, false, false, none, none⟩
      with next := s.next + 1 }
  | .step j => callStep s j
  | .cancel j ok => cancelStep s j ok
  | .finish j r => if (s.calls j).pc = .top then some (s.leave j r) else none
  | .complete j r => completeStep s j r
  | .wake j =>
    if (s.calls j).pc = .unborn then none
    else some (s.set j { s.calls j with woken := true })
  | .signal k =>
    if s.sigs k = .idle then some { s with sigs := Function.update s.sigs k .lock } else none
  | .sig k => sigStep s k
  | .reserve o =>
    if s.slot o = none then some { s with slot := Function.update s.slot o (some .other) }
    else none
  | .clear o =>
    if s.slot o = some .other then some { s with slot := Function.update s.slot o none }
    else none

def system : System State Action where
  init := fun s => s = init
  step := step

/-! ## What becomes of a marked waiter -/

/-- The call has returned -1 with the exception of signal call `k` set and left the slot of
its scheduler empty; `now` is what the slot holds at present. -/
def Call.Raised (c : Call) (now : Option Exc) (k : ℕ) (r : ℤ) : Prop :=
  r = -1 ∧ c.raised = some (.sig k) ∧ c.left = none ∧ now ≠ some (.sig k)

/-- The operation of a single-shot call was successful before the mark took effect: the
call has returned its result with no error set, and the exception stays in the slot. -/
def Call.Outrun (c : Call) (now : Option Exc) (k : ℕ) (r : ℤ) : Prop :=
  c.kind ≠ .many ∧ c.result = some r ∧ 0 ≤ r ∧ c.raised = none ∧ c.left = some (.sig k) ∧
    now = some (.sig k)

/-- In the list of waiters. -/
@[grind =]
def Pc.linked : Pc → Bool
  | .park | .asleep | .awake | .test | .unlink => true
  | _ => false

/-- Where a call can be that signal call `k` has marked, and what holds of the slot there. -/
def Call.Marked (c : Call) (now : Option Exc) (k : ℕ) : Prop :=
  match c.pc with
  | .unborn | .commit | .top | .link => False
  | .park | .asleep | .awake | .test | .unlink | .check =>
    now = some (.sig k) ∧ c.raised = none
  | .load => now = some (.sig k) ∧ c.raised = none ∧ (c.kind = .many ∨ c.failed = true)
  | .store e =>
    e = some (.sig k) ∧ now = some (.sig k) ∧ c.raised = none ∧
      (c.kind = .many ∨ c.failed = true)
  | .returned r =>
    c.Raised now k r ∧ (c.kind = .many ∨ c.failed = true) ∨ c.Outrun now k r

/-- About to take the exception out of the slot. -/
def Pc.delivers : Pc → Bool
  | .load | .store _ => true
  | _ => false

/-- Inside the lock of the list. -/
def Sig.holds : Sig → Bool
  | .walk _ | .mark _ => true
  | _ => false

/-- The signal call has marked this waiter. -/
def Sig.Took (g : Sig) (j : ℕ) : Prop := g = .wake j ∨ g = .returned (some j)

structure Inv (s : State) : Prop where
  listed : ∀ j, j ∈ s.waiters ↔ (s.calls j).pc.linked = true
  nodup : s.waiters.Nodup
  locked : ∀ k, (s.sigs k).holds = true ↔ s.lock = some k
  walking : ∀ k rest, s.sigs k = .walk rest → ∀ w ∈ rest, w ∈ s.waiters
  marking : ∀ k w, s.sigs k = .mark w → w ∈ s.waiters ∧ (s.calls w).signaled = none ∧
    s.slot (s.calls w).owner = some (.sig k)
  marked : ∀ j k, (s.calls j).signaled = some k →
    (s.sigs k).Took j ∧ (s.calls j).Marked (s.slot (s.calls j).owner) k
  took : ∀ k j, (s.sigs k).Took j → (s.calls j).signaled = some k
  unmarked : ∀ j, (s.calls j).signaled = none →
    (s.calls j).raised = none ∧ (s.calls j).pc.delivers = false
  slots : ∀ o k, s.slot o = some (.sig k) →
    ∃ w, (s.calls w).owner = o ∧ (s.sigs k = .mark w ∨ (s.sigs k).Took w)
  unborn : ∀ j, s.next ≤ j → (s.calls j).pc = .unborn

theorem init_inv : Inv init := by
  refine ⟨?_, List.nodup_nil, ?_, ?_, ?_, ?_, ?_, fun _ _ => ⟨rfl, rfl⟩, ?_, fun _ _ => rfl⟩
  · intro j
    constructor <;> intro h <;> cases h
  · intro k
    constructor <;> intro h <;> cases h
  · intro k rest h
    cases h
  · intro k w h
    cases h
  · intro j k h
    cases h
  · rintro k j (h | h) <;> cases h
  · intro o k h
    cases h

theorem update_cases {α : Type*} (f : ℕ → α) (a : ℕ) (b : α) (i : ℕ) :
    (i = a ∧ update f a b i = b) ∨ (i ≠ a ∧ update f a b i = f i) := by
  by_cases hi : i = a
  · exact Or.inl ⟨hi, by rw [hi, update_self]⟩
  · exact Or.inr ⟨hi, update_of_ne hi _ _⟩

variable {s t : State} {j k : ℕ} {c c' : Call} {now : Option Exc}

/-- A marked call is past its link. -/
theorem Inv.unmarked_of_pc (h : Inv s)
    (hpc : (s.calls j).pc = .unborn ∨ (s.calls j).pc = .commit ∨ (s.calls j).pc = .top ∨
      (s.calls j).pc = .link) : (s.calls j).signaled = none := by
  by_contra hne
  obtain ⟨k, hk⟩ := Option.ne_none_iff_exists'.mp hne
  have hmarked := (h.marked j k hk).2
  unfold Call.Marked at hmarked
  rcases hpc with hpc | hpc | hpc | hpc <;> rw [hpc] at hmarked <;> exact hmarked

/-- With the lock free no signal call is in its walk. -/
theorem Inv.no_walk (h : Inv s) (hlock : s.lock = none) (k : ℕ) :
    (s.sigs k).holds = false := by
  by_contra hk
  have := (h.locked k).mp (by simpa using hk)
  rw [hlock] at this
  cases this

/-- Two calls that one signal call has marked are one. -/
theorem Inv.marked_inj (h : Inv s) {i : ℕ} (hi : (s.calls i).signaled = some k)
    (hj : (s.calls j).signaled = some k) : i = j := by
  rcases (h.marked i k hi).1 with hi | hi <;> rcases (h.marked j k hj).1 with hj | hj <;>
    rw [hi] at hj
  · exact Sig.wake.inj hj
  · cases hj
  · cases hj
  · exact Option.some.inj (Sig.returned.inj hj)

/-! ### Steps of a waiting call -/

/-- What may change in a call when its mark, its scheduler and the slots stay. -/
structure Kept (s : State) (c c' : Call) : Prop where
  owner : c'.owner = c.owner
  signaled : c'.signaled = c.signaled
  marked : ∀ k, c.signaled = some k → c.Marked (s.slot c.owner) k →
    c'.Marked (s.slot c.owner) k
  unmarked : c.signaled = none → c'.raised = c.raised ∧ c'.pc.delivers = false

/-- A step that marks nobody: marks, locks and owners stay, the list changes only while
nobody walks it. -/
theorem Inv.stay (h : Inv s) (hnext : t.next = s.next) (hlock : t.lock = s.lock)
    (hsigs : t.sigs = s.sigs) (howner : ∀ i, (t.calls i).owner = (s.calls i).owner)
    (hsignaled : ∀ i, (t.calls i).signaled = (s.calls i).signaled)
    (hunborn : ∀ i, (s.calls i).pc = .unborn → (t.calls i).pc = .unborn)
    (hlisted : ∀ i, i ∈ t.waiters ↔ (t.calls i).pc.linked = true) (hnodup : t.waiters.Nodup)
    (hwalk : t.waiters = s.waiters ∨ s.lock = none)
    (hmarked : ∀ i k, (s.calls i).signaled = some k →
      (s.calls i).Marked (s.slot (s.calls i).owner) k →
        (t.calls i).Marked (t.slot (s.calls i).owner) k)
    (hunmarked : ∀ i, (s.calls i).signaled = none →
      (t.calls i).raised = none ∧ (t.calls i).pc.delivers = false)
    (hreserved : ∀ k w, s.sigs k = .mark w → t.slot (s.calls w).owner = some (.sig k))
    (hslots : ∀ o k, t.slot o = some (.sig k) → s.slot o = some (.sig k)) : Inv t := by
  have hsame : ∀ k, (s.sigs k).holds = true → t.waiters = s.waiters := by
    intro k hk
    rcases hwalk with hw | hw
    · exact hw
    · rw [h.no_walk hw k] at hk
      cases hk
  refine ⟨hlisted, hnodup, by rw [hsigs, hlock]; exact h.locked, ?_, ?_, ?_, ?_, ?_, ?_, ?_⟩
  · intro k rest hk
    rw [hsigs] at hk
    rw [hsame k (by rw [hk]; rfl)]
    exact h.walking k rest hk
  · intro k w hk
    rw [hsigs] at hk
    obtain ⟨hmem, hnone, -⟩ := h.marking k w hk
    rw [hsame k (by rw [hk]; rfl), hsignaled, howner]
    exact ⟨hmem, hnone, hreserved k w hk⟩
  · intro i k hk
    rw [hsignaled] at hk
    obtain ⟨htook, hm⟩ := h.marked i k hk
    rw [hsigs, howner]
    exact ⟨htook, hmarked i k hk hm⟩
  · intro k i hk
    rw [hsigs] at hk
    rw [hsignaled]
    exact h.took k i hk
  · intro i hi
    rw [hsignaled] at hi
    exact hunmarked i hi
  · intro o k ho
    obtain ⟨w, hw, hs⟩ := h.slots o k (hslots o k ho)
    exact ⟨w, (howner w).trans hw, by rw [hsigs]; exact hs⟩
  · intro i hi
    rw [hnext] at hi
    exact hunborn i (h.unborn i hi)

/-- A call goes on; the list changes only while nobody walks it. -/
theorem Inv.relist (h : Inv s)
    (hcalls : t.calls = update s.calls j c) (hborn : (s.calls j).pc ≠ .unborn)
    (hnext : t.next = s.next) (hlock : t.lock = s.lock) (hsigs : t.sigs = s.sigs)
    (hslot : t.slot = s.slot) (hkept : Kept s (s.calls j) c)
    (hlisted : ∀ i, i ∈ t.waiters ↔ (t.calls i).pc.linked = true) (hnodup : t.waiters.Nodup)
    (hwalk : t.waiters = s.waiters ∨ s.lock = none) : Inv t := by
  have hcases : ∀ i, (i = j ∧ t.calls i = c) ∨ (i ≠ j ∧ t.calls i = s.calls i) := by
    rw [hcalls]
    exact update_cases s.calls j c
  refine h.stay hnext hlock hsigs ?_ ?_ ?_ hlisted hnodup hwalk ?_ ?_
    (fun k w hk => by rw [hslot]; exact (h.marking k w hk).2.2) (by rw [hslot]; exact fun _ _ => id)
  · intro i
    obtain ⟨rfl, hi⟩ | ⟨-, hi⟩ := hcases i
    · rw [hi, hkept.owner]
    · rw [hi]
  · intro i
    obtain ⟨rfl, hi⟩ | ⟨-, hi⟩ := hcases i
    · rw [hi, hkept.signaled]
    · rw [hi]
  · intro i hu
    obtain ⟨rfl, -⟩ | ⟨-, hi⟩ := hcases i
    · exact absurd hu hborn
    · rw [hi]
      exact hu
  · intro i k hk hm
    rw [hslot]
    obtain ⟨rfl, hi⟩ | ⟨-, hi⟩ := hcases i
    · rw [hi]
      exact hkept.marked k hk hm
    · rw [hi]
      exact hm
  · intro i hi
    obtain ⟨rfl, hc⟩ | ⟨-, hc⟩ := hcases i
    · obtain ⟨hr, hd⟩ := hkept.unmarked hi
      rw [hc, hr]
      exact ⟨(h.unmarked i hi).1, hd⟩
    · rw [hc]
      exact h.unmarked i hi

/-- A call goes on without linking or unlinking its node. -/
theorem Inv.set (h : Inv s) (hborn : (s.calls j).pc ≠ .unborn)
    (hkept : Kept s (s.calls j) c) (hlinked : c.pc.linked = (s.calls j).pc.linked) :
    Inv (s.set j c) := by
  refine h.relist rfl hborn rfl rfl rfl rfl hkept ?_ h.nodup (Or.inl rfl)
  intro i
  by_cases hi : i = j
  · subst hi
    change i ∈ s.waiters ↔ (update s.calls i c i).pc.linked = true
    rw [update_self, hlinked]
    exact h.listed i
  · change i ∈ s.waiters ↔ (update s.calls j c i).pc.linked = true
    rw [update_of_ne hi]
    exact h.listed i

theorem Inv.link (h : Inv s) (hlock : s.lock = none)
    (hpc : (s.calls j).pc = .link) :
    Inv { s.set j { s.calls j with pc := .park, signaled := none } with
      waiters := j :: s.waiters } := by
  have hnone := h.unmarked_of_pc (Or.inr (Or.inr (Or.inr hpc)))
  have hout : j ∉ s.waiters := by
    rw [h.listed, hpc]
    simp [Pc.linked]
  refine h.relist (j := j) (c := { s.calls j with pc := .park, signaled := none }) rfl
    (by rw [hpc]; simp) rfl rfl rfl rfl ⟨rfl, hnone.symm, ?_, fun _ => ⟨rfl, rfl⟩⟩ ?_
    (List.nodup_cons.mpr ⟨hout, h.nodup⟩) (Or.inr hlock)
  · intro k hk
    rw [hnone] at hk
    cases hk
  · intro i
    change i ∈ j :: s.waiters ↔ (update s.calls j _ i).pc.linked = true
    by_cases hi : i = j
    · subst hi
      rw [update_self]
      exact ⟨fun _ => rfl, fun _ => List.mem_cons_self⟩
    · rw [update_of_ne hi, ← h.listed i]
      simp [hi]

theorem Inv.unlink (h : Inv s) (hlock : s.lock = none)
    (hpc : (s.calls j).pc = .unlink) :
    Inv { s.goto j .check with waiters := s.waiters.erase j } := by
  refine h.relist (j := j) (c := { s.calls j with pc := .check }) rfl (by rw [hpc]; simp) rfl rfl
    rfl rfl ⟨rfl, rfl, ?_, fun _ => ⟨rfl, rfl⟩⟩ ?_ (h.nodup.erase j) (Or.inr hlock)
  · intro k hk hm
    simpa only [Call.Marked, hpc] using hm
  · intro i
    change i ∈ s.waiters.erase j ↔ (update s.calls j _ i).pc.linked = true
    by_cases hi : i = j
    · subst hi
      rw [update_self]
      exact ⟨fun hm => absurd hm h.nodup.not_mem_erase, fun hl => by cases hl⟩
    · rw [update_of_ne hi, ← h.listed i]
      exact List.mem_erase_of_ne hi

/-- A marked call whose exception is not in the slot has raised it. -/
theorem Call.Marked.reslot {new : Option Exc} (h : c.Marked now k)
    (hnow : now ≠ some (.sig k)) (hnew : new ≠ some (.sig k)) : c.Marked new k := by
  unfold Call.Marked at h ⊢
  split at h
  · exact h.elim
  · exact h.elim
  · exact h.elim
  · exact h.elim
  all_goals first
    | exact absurd h.1 hnow
    | exact absurd h.2.1 hnow
    | skip
  rcases h with ⟨⟨hr, hraised, hleft, -⟩, hkind⟩ | hout
  · exact Or.inl ⟨⟨hr, hraised, hleft, hnew⟩, hkind⟩
  · exact absurd hout.2.2.2.2.2 hnow

/-- Another recipient uses a slot. -/
theorem Inv.reslot (h : Inv s) {o : ℕ} {e : Option Exc}
    (hold : ∀ k, s.slot o ≠ some (.sig k)) (hnew : ∀ k, e ≠ some (.sig k)) :
    Inv { s with slot := update s.slot o e } := by
  refine h.stay rfl rfl rfl (fun _ => rfl) (fun _ => rfl) (fun _ => id) h.listed h.nodup
    (Or.inl rfl) ?_ h.unmarked ?_ ?_ <;> dsimp only
  · intro i k _ hm
    by_cases ho : (s.calls i).owner = o
    · rw [ho, update_self]
      rw [ho] at hm
      exact hm.reslot (hold k) (hnew k)
    · rw [update_of_ne ho]
      exact hm
  · intro k w hk
    have hslot := (h.marking k w hk).2.2
    rw [update_of_ne]
    · exact hslot
    · intro ho
      exact hold k (ho ▸ hslot)
  · intro o' k ho
    rw [update_apply] at ho
    split at ho
    · exact absurd ho (hnew k)
    · exact ho

/-- The call takes the exception out of the slot and returns with it. -/
theorem Inv.store (h : Inv s) {e : Option Exc}
    (hpc : (s.calls j).pc = .store e) :
    Inv { s.set j { s.calls j with pc := .returned (-1), raised := e, left := none } with
      slot := update s.slot (s.calls j).owner none } := by
  obtain ⟨k, hk⟩ : ∃ k, (s.calls j).signaled = some k := by
    apply Option.ne_none_iff_exists'.mp
    intro hnone
    have := (h.unmarked j hnone).2
    rw [hpc] at this
    cases this
  obtain ⟨htook, hm⟩ := h.marked j k hk
  unfold Call.Marked at hm
  rw [hpc] at hm
  obtain ⟨rfl, hslot, -, hkind⟩ := hm
  have hcases := update_cases s.calls j
    { s.calls j with pc := .returned (-1), raised := some (.sig k), left := none }
  refine h.stay rfl rfl rfl ?_ ?_ ?_ ?_ h.nodup (Or.inl rfl) ?_ ?_ ?_ ?_ <;>
    dsimp only [State.set]
  · intro i
    obtain ⟨rfl, hi⟩ | ⟨-, hi⟩ := hcases i <;> rw [hi]
  · intro i
    obtain ⟨rfl, hi⟩ | ⟨-, hi⟩ := hcases i <;> rw [hi]
  · intro i hu
    obtain ⟨rfl, -⟩ | ⟨-, hi⟩ := hcases i
    · rw [hpc] at hu
      cases hu
    · rw [hi]
      exact hu
  · intro i
    rw [h.listed i]
    obtain ⟨rfl, hi⟩ | ⟨-, hi⟩ := hcases i
    · rw [hi, hpc]
      rfl
    · rw [hi]
  · -- nobody else has a claim to what is in the slot
    intro i k' hk' hm
    obtain ⟨rfl, hi⟩ | ⟨hne, hi⟩ := hcases i
    · obtain rfl : k = k' := Option.some.inj (hk.symm.trans hk')
      rw [hi, update_self]
      exact Or.inl ⟨⟨rfl, rfl, rfl, by simp⟩, hkind⟩
    · rw [hi]
      by_cases ho : (s.calls i).owner = (s.calls j).owner
      · rw [ho, update_self]
        rw [ho, hslot] at hm
        refine hm.reslot ?_ (by simp)
        intro heq
        cases heq
        exact hne (h.marked_inj hk' hk)
      · rw [update_of_ne ho]
        exact hm
  · intro i hi
    obtain ⟨rfl, -⟩ | ⟨-, hc⟩ := hcases i
    · rw [hk] at hi
      cases hi
    · rw [hc]
      exact h.unmarked i hi
  · intro k' w hk'
    have hw := (h.marking k' w hk').2.2
    rw [update_of_ne]
    · exact hw
    · intro ho
      rw [ho, hslot] at hw
      cases hw
      rcases htook with ht | ht <;> rw [hk'] at ht <;> cases ht
  · intro o k' ho
    rw [update_apply] at ho
    split at ho
    · cases ho
    · exact ho

/-! ### Steps of a signal call -/

/-- Who holds the lock after signal call `k` has taken it, kept it or let it go. -/
theorem Inv.relock (h : Inv s) {g : Sig} {l : Option ℕ}
    (hold : s.lock = none ∨ s.lock = some k) (hnew : l = if g.holds then some k else none)
    (k' : ℕ) : (update s.sigs k g k').holds = true ↔ l = some k' := by
  by_cases hk : k' = k
  · subst hk
    rw [update_self, hnew]
    split <;> simp_all
  · rw [update_of_ne hk, h.locked k', hnew]
    have hne : ∀ o : Option ℕ, o = none ∨ o = some k → o ≠ some k' := by
      rintro o (rfl | rfl)
      · simp
      · intro heq
        exact hk (Option.some.inj heq).symm
    constructor
    · intro hl
      exact absurd hl (hne _ hold)
    · intro hl
      refine absurd hl (hne _ ?_)
      split
      · exact Or.inr rfl
      · exact Or.inl rfl

/-- A signal call goes on without reserving a slot or marking a waiter. -/
theorem Inv.resig (h : Inv s) {g : Sig} {l : Option ℕ}
    (hlocked : ∀ k', (update s.sigs k g k').holds = true ↔ l = some k')
    (hwalk : ∀ rest, g = .walk rest → ∀ w ∈ rest, w ∈ s.waiters)
    (hold : ∀ w, s.sigs k ≠ .mark w ∧ ¬ (s.sigs k).Took w)
    (hnew : ∀ w, g ≠ .mark w ∧ ¬ g.Took w) :
    Inv { s with lock := l, sigs := update s.sigs k g } := by
  have hcases := update_cases s.sigs k g
  refine ⟨h.listed, h.nodup, hlocked, ?_, ?_, ?_, ?_, h.unmarked, ?_, h.unborn⟩ <;> dsimp only
  · intro k' rest hk'
    obtain ⟨rfl, hk⟩ | ⟨-, hk⟩ := hcases k' <;> rw [hk] at hk'
    · exact hwalk rest hk'
    · exact h.walking k' rest hk'
  · intro k' w hk'
    obtain ⟨rfl, hk⟩ | ⟨-, hk⟩ := hcases k' <;> rw [hk] at hk'
    · exact absurd hk' (hnew w).1
    · exact h.marking k' w hk'
  · intro j k' hj
    obtain ⟨htook, hm⟩ := h.marked j k' hj
    obtain ⟨rfl, -⟩ | ⟨-, hk⟩ := hcases k'
    · exact absurd htook (hold j).2
    · rw [hk]
      exact ⟨htook, hm⟩
  · intro k' j hk'
    obtain ⟨rfl, hk⟩ | ⟨-, hk⟩ := hcases k' <;> rw [hk] at hk'
    · exact absurd hk' (hnew j).2
    · exact h.took k' j hk'
  · intro o k' ho
    obtain ⟨w, hw, hs⟩ := h.slots o k' ho
    refine ⟨w, hw, ?_⟩
    obtain ⟨rfl, -⟩ | ⟨-, hk⟩ := hcases k'
    · rcases hs with hs | hs
      · exact absurd hs (hold w).1
      · exact absurd hs (hold w).2
    · rw [hk]
      exact hs

/-- A signal call reserves the slot of a waiter that is not marked. -/
theorem Inv.reserve (h : Inv s) {w : ℕ} {rest : List ℕ}
    (hk : s.sigs k = .walk (w :: rest)) (hnone : (s.calls w).signaled = none)
    (hfree : s.slot (s.calls w).owner = none) :
    Inv { s with
      slot := update s.slot (s.calls w).owner (some (.sig k))
      sigs := update s.sigs k (.mark w) } := by
  have hlock : s.lock = some k := (h.locked k).mp (by rw [hk]; rfl)
  have hcases := update_cases s.sigs k (.mark w)
  refine ⟨h.listed, h.nodup, h.relock (Or.inr hlock) hlock, ?_, ?_, ?_, ?_, h.unmarked, ?_,
    h.unborn⟩ <;> dsimp only
  · intro k' rest' hk'
    obtain ⟨rfl, hc⟩ | ⟨-, hc⟩ := hcases k' <;> rw [hc] at hk'
    · cases hk'
    · exact h.walking k' rest' hk'
  · intro k' w' hk'
    obtain ⟨rfl, hc⟩ | ⟨hne, hc⟩ := hcases k' <;> rw [hc] at hk'
    · cases hk'
      rw [update_self]
      exact ⟨h.walking k' _ hk w List.mem_cons_self, hnone, rfl⟩
    · -- the lock is with `k`
      have hother := (h.locked k').mp (by rw [hk']; rfl)
      rw [hlock] at hother
      exact absurd (Option.some.inj hother).symm hne
  · intro j k' hj
    obtain ⟨htook, hm⟩ := h.marked j k' hj
    have hne : k' ≠ k := by
      rintro rfl
      rcases htook with ht | ht <;> rw [hk] at ht <;> cases ht
    rw [update_of_ne hne]
    refine ⟨htook, ?_⟩
    by_cases ho : (s.calls j).owner = (s.calls w).owner
    · rw [ho, update_self]
      rw [ho, hfree] at hm
      refine hm.reslot (by simp) ?_
      intro heq
      exact hne (Exc.sig.inj (Option.some.inj heq)).symm
    · rw [update_of_ne ho]
      exact hm
  · intro k' j hk'
    obtain ⟨rfl, hc⟩ | ⟨-, hc⟩ := hcases k' <;> rw [hc] at hk'
    · rcases hk' with ht | ht <;> cases ht
    · exact h.took k' j hk'
  · intro o k' ho
    rw [update_apply] at ho
    split at ho
    · rename_i heq
      cases ho
      exact ⟨w, heq.symm, Or.inl (update_self _ _ _)⟩
    · obtain ⟨w', hw', hs⟩ := h.slots o k' ho
      refine ⟨w', hw', ?_⟩
      obtain ⟨rfl, -⟩ | ⟨-, hc⟩ := hcases k'
      · rw [hk] at hs
        rcases hs with hs | hs | hs <;> cases hs
      · rw [hc]
        exact hs

/-- A linked call with the exception in its slot, as it is when it gets marked. -/
theorem Call.Marked.of_linked (hlinked : c.pc.linked = true)
    (hnow : now = some (.sig k)) (hraised : c.raised = none) : c.Marked now k := by
  unfold Call.Marked
  cases hpc : c.pc <;> rw [hpc] at hlinked <;> first | exact ⟨hnow, hraised⟩ | cases hlinked

theorem Inv.mark (h : Inv s) {w : ℕ} (hk : s.sigs k = .mark w) :
    Inv { s.set w { s.calls w with signaled := some k } with
      lock := none, sigs := update s.sigs k (.wake w) } := by
  have hlock : s.lock = some k := (h.locked k).mp (by rw [hk]; rfl)
  obtain ⟨hmem, hnone, hslot⟩ := h.marking k w hk
  have hlinked := (h.listed w).mp hmem
  have hcases := update_cases s.sigs k (.wake w)
  have hcalls := update_cases s.calls w { s.calls w with signaled := some k }
  -- the lock was with `k`, so nobody else walks or marks
  have halone : ∀ k', k' ≠ k → (s.sigs k').holds = false := by
    intro k' hne
    by_contra hh
    have := (h.locked k').mp (by simpa using hh)
    rw [hlock] at this
    exact hne (Option.some.inj this).symm
  have hwalks : ∀ k' g, update s.sigs k (.wake w) k' = g → g.holds = false := by
    rintro k' g rfl
    obtain ⟨-, hc⟩ | ⟨hne, hc⟩ := hcases k' <;> rw [hc]
    · rfl
    · exact halone k' hne
  refine ⟨?_, h.nodup, h.relock (Or.inr hlock) rfl, ?_, ?_, ?_, ?_, ?_, ?_, ?_⟩ <;>
    dsimp only [State.set]
  · intro i
    rw [h.listed i]
    obtain ⟨rfl, hi⟩ | ⟨-, hi⟩ := hcalls i <;> rw [hi]
  · intro k' rest hk'
    cases hwalks k' _ hk'
  · intro k' w' hk'
    cases hwalks k' _ hk'
  · intro i k' hi
    obtain ⟨rfl, hc⟩ | ⟨hne, hc⟩ := hcalls i <;> rw [hc] at hi ⊢
    · cases hi
      rw [update_self]
      exact ⟨Or.inl rfl, Call.Marked.of_linked hlinked hslot (h.unmarked i hnone).1⟩
    · obtain ⟨htook, hm⟩ := h.marked i k' hi
      obtain ⟨rfl, -⟩ | ⟨-, hs⟩ := hcases k'
      · rcases htook with ht | ht <;> rw [hk] at ht <;> cases ht
      · rw [hs]
        exact ⟨htook, hm⟩
  · intro k' i hk'
    obtain ⟨rfl, hs⟩ | ⟨hne, hs⟩ := hcases k' <;> rw [hs] at hk'
    · rcases hk' with ht | ht <;> cases ht
      rw [update_self]
    · have hsig := h.took k' i hk'
      obtain ⟨rfl, -⟩ | ⟨-, hc⟩ := hcalls i
      · rw [hnone] at hsig
        cases hsig
      · rw [hc]
        exact hsig
  · intro i hi
    obtain ⟨rfl, hc⟩ | ⟨-, hc⟩ := hcalls i <;> rw [hc] at hi ⊢
    · cases hi
    · exact h.unmarked i hi
  · intro o k' ho
    obtain ⟨w', hw', hs⟩ := h.slots o k' ho
    refine ⟨w', ?_, ?_⟩
    · obtain ⟨rfl, hc⟩ | ⟨-, hc⟩ := hcalls w' <;> rw [hc] <;> exact hw'
    · obtain ⟨rfl, hc⟩ | ⟨-, hc⟩ := hcases k' <;> rw [hc]
      · rw [hk] at hs
        rcases hs with hs | hs | hs <;> cases hs
        exact Or.inr (Or.inl rfl)
      · exact hs
  · intro i hi
    have hu := h.unborn i hi
    obtain ⟨rfl, hc⟩ | ⟨-, hc⟩ := hcalls i <;> rw [hc] <;> exact hu

/-- A signal call returns 1. -/
theorem Inv.finish (h : Inv s) {w : ℕ} (hk : s.sigs k = .wake w) :
    Inv { s with sigs := update s.sigs k (.returned (some w)) } := by
  have hcases := update_cases s.sigs k (.returned (some w))
  have htook : ∀ k' j, (update s.sigs k (.returned (some w)) k').Took j ↔
      (s.sigs k').Took j := by
    intro k' j
    obtain ⟨rfl, hc⟩ | ⟨-, hc⟩ := hcases k' <;> rw [hc]
    rw [hk]
    simp [Sig.Took]
  refine ⟨h.listed, h.nodup, ?_, ?_, ?_, ?_, ?_, h.unmarked, ?_, h.unborn⟩ <;> dsimp only
  · intro k'
    rw [← h.locked k']
    obtain ⟨rfl, hc⟩ | ⟨-, hc⟩ := hcases k' <;> rw [hc]
    rw [hk]
    rfl
  · intro k' rest hk'
    obtain ⟨rfl, hc⟩ | ⟨-, hc⟩ := hcases k' <;> rw [hc] at hk'
    · cases hk'
    · exact h.walking k' rest hk'
  · intro k' w' hk'
    obtain ⟨rfl, hc⟩ | ⟨-, hc⟩ := hcases k' <;> rw [hc] at hk'
    · cases hk'
    · exact h.marking k' w' hk'
  · intro j k' hj
    rw [htook]
    exact h.marked j k' hj
  · intro k' j hk'
    exact h.took k' j ((htook k' j).mp hk')
  · intro o k' ho
    obtain ⟨w', hw', hs⟩ := h.slots o k' ho
    refine ⟨w', hw', ?_⟩
    rcases hs with hs | hs
    · obtain ⟨rfl, -⟩ | ⟨-, hc⟩ := hcases k'
      · rw [hk] at hs
        cases hs
      · rw [hc]
        exact Or.inl hs
    · exact Or.inr ((htook k' w').mpr hs)

/-- A new call. -/
theorem Inv.call (h : Inv s) (kind : Kind) (owner : ℕ) :
    Inv { s.set s.next
      ⟨kind, owner, start kind, none, .inflight, none, false, false, none, none⟩ with
        next := s.next + 1 } := by
  have hunborn := h.unborn s.next (Nat.le_refl _)
  have hnone := h.unmarked_of_pc (Or.inl hunborn)
  have hout : s.next ∉ s.waiters := by
    rw [h.listed, hunborn]
    simp [Pc.linked]
  have hcases := update_cases s.calls s.next
    ⟨kind, owner, start kind, none, .inflight, none, false, false, none, none⟩
  refine ⟨?_, h.nodup, h.locked, h.walking, ?_, ?_, ?_, ?_, ?_, ?_⟩ <;> dsimp only [State.set]
  · intro i
    obtain ⟨rfl, hc⟩ | ⟨-, hc⟩ := hcases i <;> rw [hc]
    · constructor
      · exact fun hm => absurd hm hout
      · intro hl
        cases kind <;> cases hl
    · exact h.listed i
  · intro k w hk
    obtain ⟨hmem, hw⟩ := h.marking k w hk
    obtain ⟨rfl, -⟩ | ⟨-, hc⟩ := hcases w
    · exact absurd hmem hout
    · rw [hc]
      exact ⟨hmem, hw⟩
  · intro i k hi
    obtain ⟨rfl, hc⟩ | ⟨-, hc⟩ := hcases i <;> rw [hc] at hi ⊢
    · cases hi
    · exact h.marked i k hi
  · intro k i hk
    have hsig := h.took k i hk
    obtain ⟨rfl, -⟩ | ⟨-, hc⟩ := hcases i
    · rw [hnone] at hsig
      cases hsig
    · rw [hc]
      exact hsig
  · intro i hi
    obtain ⟨rfl, hc⟩ | ⟨-, hc⟩ := hcases i <;> rw [hc] at hi ⊢
    · exact ⟨rfl, by cases kind <;> rfl⟩
    · exact h.unmarked i hi
  · intro o k ho
    obtain ⟨w, hw, hs⟩ := h.slots o k ho
    refine ⟨w, ?_, hs⟩
    obtain ⟨rfl, -⟩ | ⟨-, hc⟩ := hcases w
    · rcases hs with hs | hs
      · exact absurd (h.marking k _ hs).1 hout
      · have := h.took k _ hs
        rw [hnone] at this
        cases this
    · rw [hc]
      exact hw
  · intro i hi
    obtain ⟨rfl, -⟩ | ⟨-, hc⟩ := hcases i
    · omega
    · rw [hc]
      exact h.unborn i (by omega)

/-! ## Results and wakes -/

/-- The park loop of a single-shot call is over. -/
@[grind =]
def Pc.past : Pc → Bool
  | .unlink | .check | .load | .store _ | .returned _ => true
  | _ => false

/-- About to sleep, or asleep. -/
@[grind =]
def Pc.sleepy : Pc → Bool
  | .link | .park | .asleep => true
  | _ => false

/-- In the park loop, between the commit and the end of the loop. -/
@[grind =]
def Pc.loops : Pc → Bool
  | .link | .park | .asleep | .awake | .test => true
  | _ => false

/-- What a call knows of its operation. -/
structure Call.Fits (c : Call) : Prop where
  done : c.result ≠ none ↔ c.wait = .done
  top : c.pc = .top → c.kind = .many
  single : c.pc = .awake ∨ c.pc = .test → c.kind ≠ .many
  past : c.kind ≠ .many → c.pc.past = true → c.result ≠ none
  parked : c.kind = .hub ∨ c.kind = .ring → c.pc.loops = true → c.wait ≠ .inflight
  woken : c.kind ≠ .many → c.pc.sleepy = true → c.result ≠ none → c.woken = true

/-- A call goes on and knows no more of its operation. -/
theorem Call.Fits.goto (h : c.Fits) (hkind : c'.kind = c.kind)
    (hresult : c'.result = c.result) (hwait : c'.wait = c.wait)
    (htop : c'.pc = .top → c.kind = .many)
    (hsingle : c'.pc = .awake ∨ c'.pc = .test → c.kind ≠ .many)
    (hpast : c.kind ≠ .many → c'.pc.past = true → c.result ≠ none)
    (hloops : c'.pc.loops = true → c.pc.loops = true ∨ c.kind = .many)
    (hwoken : c'.pc.sleepy = true → c.pc.sleepy = true ∧ c'.woken = c.woken ∨ c.kind = .many ∨
      c.result = none) : c'.Fits := by
  constructor
  · rw [hresult, hwait]
    exact h.done
  · rw [hkind]
    exact htop
  · rw [hkind]
    exact hsingle
  · rw [hkind, hresult]
    exact hpast
  · rw [hkind, hwait]
    intro hk hl
    rcases hloops hl with hl | hm
    · exact h.parked hk hl
    · rw [hm] at hk
      rcases hk with hk | hk <;> cases hk
  · rw [hkind, hresult]
    intro hk hs hr
    rcases hwoken hs with ⟨hs, hw⟩ | hm | hn
    · rw [hw]
      exact h.woken hk hs hr
    · exact absurd hm hk
    · exact absurd hn hr

theorem fits_set (h : ∀ i, (s.calls i).Fits) (hc : c.Fits) :
    ∀ i, ((s.set j c).calls i).Fits := by
  intro i
  change (update s.calls j c i).Fits
  obtain ⟨-, hi⟩ | ⟨-, hi⟩ := update_cases s.calls j c i <;> rw [hi]
  · exact hc
  · exact h i

theorem callStep_fits (h : ∀ i, (s.calls i).Fits)
    (hstep : callStep s j = some t) : ∀ i, (t.calls i).Fits := by
  have hj := h j
  unfold callStep at hstep
  dsimp only at hstep
  split at hstep <;> rename_i hpc
  · split at hstep <;> cases hstep
    · rename_i hdone
      exact fits_set h (hj.goto rfl rfl rfl (by simp) (by simp)
        (fun _ _ => hj.done.mpr hdone) (by simp [Pc.loops]) (by simp [Pc.sleepy]))
    · rename_i hdone
      have hnone : (s.calls j).result = none := by
        by_contra hr
        exact hdone (hj.done.mp hr)
      exact fits_set h ⟨by simp [hnone], by simp, by simp, by simp [Pc.past], by simp,
        by simp [hnone]⟩
  · cases hstep
    have hmany := hj.top hpc
    exact fits_set h (hj.goto rfl rfl rfl (by simp) (by simp) (by simp [Pc.past])
      (fun _ => Or.inr hmany)
      (fun _ => Or.inr (Or.inl hmany)))
  · obtain ⟨-, hstep⟩ := Option.ite_none_right_eq_some.mp hstep
    cases hstep
    exact fits_set h (hj.goto rfl rfl rfl (by simp) (by simp) (by simp [Pc.past])
      (fun _ => Or.inl (by rw [hpc]; rfl)) (fun _ => Or.inl ⟨by rw [hpc]; rfl, rfl⟩))
  · cases hstep
    exact fits_set h (hj.goto rfl rfl rfl (by simp) (by simp) (by simp [Pc.past])
      (fun _ => Or.inl (by rw [hpc]; rfl)) (fun _ => Or.inl ⟨by rw [hpc]; rfl, rfl⟩))
  · obtain ⟨-, hstep⟩ := Option.ite_none_right_eq_some.mp hstep
    cases hstep
    refine fits_set h (hj.goto rfl rfl rfl ?_ ?_ ?_ (fun _ => Or.inl (by rw [hpc]; rfl)) ?_) <;>
      dsimp only <;> split <;> rename_i hmany <;> simp [Pc.past, Pc.sleepy, hmany]
  · split at hstep <;> cases hstep
    exact fits_set h (hj.goto rfl rfl rfl (by simp) (fun _ => hj.single (Or.inl hpc))
      (by simp [Pc.past]) (fun _ => Or.inl (by rw [hpc]; rfl)) (by simp [Pc.sleepy]))
  · cases hstep
    refine fits_set h (hj.goto rfl rfl rfl ?_ ?_ ?_ (fun _ => Or.inl (by rw [hpc]; rfl)) ?_) <;>
      dsimp only <;> split <;> rename_i hnone <;> simp [Pc.past, Pc.sleepy, hnone]
  · obtain ⟨-, hstep⟩ := Option.ite_none_right_eq_some.mp hstep
    cases hstep
    exact fits_set h (hj.goto rfl rfl rfl (by simp) (by simp)
      (fun hk _ => hj.past hk (by rw [hpc]; rfl)) (by simp [Pc.loops]) (by simp [Pc.sleepy]))
  · split at hstep
    · rename_i hmany
      cases hstep
      refine fits_set h (hj.goto rfl rfl rfl (fun _ => hmany) ?_ (fun hk => absurd hmany hk)
        (fun _ => Or.inr hmany) (fun _ => Or.inr (Or.inl hmany)))
      dsimp only
      split <;> simp
    · split at hstep <;> cases hstep <;>
        exact fits_set h (hj.goto rfl rfl rfl (by simp) (by simp)
          (fun hk _ => hj.past hk (by rw [hpc]; rfl)) (by simp [Pc.loops]) (by simp [Pc.sleepy]))
  · cases hstep
    exact fits_set h (hj.goto rfl rfl rfl (by simp) (by simp)
      (fun hk _ => hj.past hk (by rw [hpc]; rfl)) (by simp [Pc.loops]) (by simp [Pc.sleepy]))
  · cases hstep
    exact fits_set h (hj.goto rfl rfl rfl (by simp) (by simp)
      (fun hk _ => hj.past hk (by rw [hpc]; rfl)) (by simp [Pc.loops]) (by simp [Pc.sleepy]))
  · cases hstep
  · cases hstep

/-- A drain wakes a single-shot call that has committed to its park. -/
theorem Call.Fits.complete (h : c.Fits) (hkind : c.kind ≠ .many)
    (hnone : c.result = none) (r : ℤ) :
    Call.Fits { c with
      result := some r
      wait := .done
      woken := c.woken || c.kind = .sched || c.wait = .parked } := by
  refine ⟨by simp, h.top, h.single, by simp, by simp, ?_⟩
  intro _ hs _
  by_cases hsched : c.kind = .sched
  · simp [hsched]
  · have hhub : c.kind = .hub ∨ c.kind = .ring := by
      cases hk : c.kind with
      | sched => exact absurd hk hsched
      | hub => exact Or.inl rfl
      | ring => exact Or.inr rfl
      | many => exact absurd hk hkind
    have hloops : c.pc.loops = true := by
      change c.pc.sleepy = true at hs
      cases hpc : c.pc <;> rw [hpc] at hs <;> first | rfl | cases hs
    have hwait := h.parked hhub hloops
    have hparked : c.wait = .parked := by
      cases hw : c.wait with
      | inflight => exact absurd hw hwait
      | parked => rfl
      | done => exact absurd hnone (h.done.mpr hw)
    simp [hparked]

theorem step_fits {x : Action} (h : ∀ i, (s.calls i).Fits)
    (hstep : step s x = some t) : ∀ i, (t.calls i).Fits := by
  cases x with
  | call kind owner =>
    cases hstep
    refine fits_set h ⟨by simp, ?_, ?_, ?_, ?_, by simp⟩ <;> cases kind <;>
      simp [start, Pc.past, Pc.loops]
  | step j => exact callStep_fits h hstep
  | cancel j ok =>
    obtain ⟨⟨hpc, -⟩, hstep⟩ := Option.ite_none_right_eq_some.mp hstep
    cases hstep
    exact fits_set h ((h j).goto rfl rfl rfl (by simp) (fun _ => (h j).single (Or.inl hpc))
      (by simp [Pc.past]) (fun _ => Or.inl (by rw [hpc]; rfl)) (by simp [Pc.sleepy]))
  | finish j r =>
    obtain ⟨hpc, hstep⟩ := Option.ite_none_right_eq_some.mp hstep
    cases hstep
    have hmany := (h j).top hpc
    exact fits_set h ((h j).goto rfl rfl rfl (by simp) (by simp) (fun hk => absurd hmany hk)
      (fun _ => Or.inr hmany) (fun _ => Or.inr (Or.inl hmany)))
  | complete j r =>
    obtain ⟨⟨-, hkind, hnone⟩, hstep⟩ := Option.ite_none_right_eq_some.mp hstep
    cases hstep
    exact fits_set h ((h j).complete hkind hnone r)
  | wake j =>
    obtain ⟨-, hstep⟩ := Option.ite_none_left_eq_some.mp hstep
    cases hstep
    have hj := h j
    exact fits_set h ⟨hj.done, hj.top, hj.single, hj.past, hj.parked, fun _ _ _ => rfl⟩
  | signal k =>
    obtain ⟨-, hstep⟩ := Option.ite_none_right_eq_some.mp hstep
    cases hstep
    exact h
  | sig k =>
    simp only [step, sigStep] at hstep
    split at hstep
    · obtain ⟨-, hstep⟩ := Option.ite_none_right_eq_some.mp hstep
      cases hstep
      exact h
    · cases hstep
      exact h
    · split at hstep <;> cases hstep <;> exact h
    · rename_i w _
      cases hstep
      have hw := h w
      exact fits_set h ⟨hw.done, hw.top, hw.single, hw.past, hw.parked, hw.woken⟩
    · rename_i w _
      cases hstep
      have hw := h w
      exact fits_set h ⟨hw.done, hw.top, hw.single, hw.past, hw.parked, fun _ _ _ => rfl⟩
    · cases hstep
    · cases hstep
  | reserve o =>
    obtain ⟨-, hstep⟩ := Option.ite_none_right_eq_some.mp hstep
    cases hstep
    exact h
  | clear o =>
    obtain ⟨-, hstep⟩ := Option.ite_none_right_eq_some.mp hstep
    cases hstep
    exact h

/-! ## Runs -/

/-- The places where a mark means the same: the exception is in the slot. -/
def Pc.plain : Pc → Bool
  | .park | .asleep | .awake | .test | .unlink | .check => true
  | _ => false

theorem marked_plain (h : c.pc.plain = true) :
    c.Marked now k ↔ now = some (.sig k) ∧ c.raised = none := by
  unfold Call.Marked
  cases hpc : c.pc <;> rw [hpc] at h <;> cases h

theorem Kept.plain (h : c.pc.plain = true) (h' : c'.pc.plain = true)
    (howner : c'.owner = c.owner) (hsignaled : c'.signaled = c.signaled)
    (hraised : c'.raised = c.raised) : Kept s c c' := by
  refine ⟨howner, hsignaled, ?_, fun _ => ⟨hraised, ?_⟩⟩
  · intro k _ hm
    rw [marked_plain h] at hm
    rw [marked_plain h', hraised]
    exact hm
  · cases hpc : c'.pc <;> rw [hpc] at h' <;> first | rfl | cases h'

/-- Before it is linked a call has no mark to lose. -/
theorem Kept.early (hnone : c.signaled = none)
    (howner : c'.owner = c.owner) (hsignaled : c'.signaled = c.signaled)
    (hraised : c'.raised = c.raised) (hdelivers : c'.pc.delivers = false) : Kept s c c' := by
  refine ⟨howner, hsignaled, ?_, fun _ => ⟨hraised, hdelivers⟩⟩
  intro k hk
  rw [hnone] at hk
  cases hk

/-- A single-shot call whose operation was successful, or which is not marked, returns. -/
theorem kept_leave (hfits : (s.calls j).Fits)
    (hpc : (s.calls j).pc = .check) (hkind : (s.calls j).kind ≠ .many)
    (hstay : ¬ ((s.calls j).signaled.isSome ∧ (s.calls j).failed)) :
    Kept s (s.calls j) { s.calls j with
      pc := .returned (s.calls j).value, left := s.slot (s.calls j).owner } := by
  refine ⟨rfl, rfl, ?_, fun _ => ⟨rfl, rfl⟩⟩
  intro k hk hm
  rw [marked_plain (by rw [hpc]; rfl)] at hm
  obtain ⟨r, hr⟩ := Option.ne_none_iff_exists'.mp (hfits.past hkind (by rw [hpc]; rfl))
  have hpos : 0 ≤ r := by
    by_contra hneg
    apply hstay
    simp [hk, Call.failed, hr]
    omega
  have hvalue : (s.calls j).value = r := by
    simp only [Call.value, hr]
    rw [if_neg (by omega)]
  exact Or.inr ⟨hkind, by rw [hvalue]; exact hr, by rw [hvalue]; exact hpos, hm.2, hm.1, hm.1⟩

theorem callStep_inv (h : Inv s) (hfits : ∀ i, (s.calls i).Fits)
    (hstep : callStep s j = some t) : Inv t := by
  unfold callStep at hstep
  dsimp only at hstep
  split at hstep <;> rename_i hpc
  · have hnone := h.unmarked_of_pc (Or.inr (Or.inl hpc))
    split at hstep <;> cases hstep
    · exact h.set (by rw [hpc]; simp) (Kept.early hnone rfl rfl rfl rfl) (by rw [hpc]; rfl)
    · exact h.set (by rw [hpc]; simp) (Kept.early hnone rfl rfl rfl rfl) (by rw [hpc]; rfl)
  · have hnone := h.unmarked_of_pc (Or.inr (Or.inr (Or.inl hpc)))
    cases hstep
    exact h.set (by rw [hpc]; simp) (Kept.early hnone rfl rfl rfl rfl) (by rw [hpc]; rfl)
  · obtain ⟨hlock, hstep⟩ := Option.ite_none_right_eq_some.mp hstep
    cases hstep
    exact h.link hlock hpc
  · cases hstep
    exact h.set (by rw [hpc]; simp) (Kept.plain (by rw [hpc]; rfl) rfl rfl rfl rfl)
      (by rw [hpc]; rfl)
  · obtain ⟨-, hstep⟩ := Option.ite_none_right_eq_some.mp hstep
    cases hstep
    refine h.set (by rw [hpc]; simp) (Kept.plain (by rw [hpc]; rfl) ?_ rfl rfl rfl) ?_
    · dsimp only
      split <;> rfl
    · rw [hpc]
      dsimp only
      split <;> rfl
  · split at hstep <;> cases hstep
    exact h.set (by rw [hpc]; simp) (Kept.plain (by rw [hpc]; rfl) rfl rfl rfl rfl)
      (by rw [hpc]; rfl)
  · cases hstep
    refine h.set (by rw [hpc]; simp) (Kept.plain (by rw [hpc]; rfl) ?_ rfl rfl rfl) ?_
    · dsimp only
      split <;> rfl
    · rw [hpc]
      dsimp only
      split <;> rfl
  · obtain ⟨hlock, hstep⟩ := Option.ite_none_right_eq_some.mp hstep
    cases hstep
    exact h.unlink hlock hpc
  · split at hstep
    · rename_i hmany
      cases hstep
      refine h.set (by rw [hpc]; simp) ⟨rfl, rfl, ?_, ?_⟩ (by rw [hpc]; dsimp only; split <;> rfl)
      · intro k hk hm
        rw [marked_plain (by rw [hpc]; rfl)] at hm
        rw [hk]
        exact ⟨hm.1, hm.2, Or.inl hmany⟩
      · intro hn
        rw [hn]
        exact ⟨rfl, rfl⟩
    · rename_i hkind
      split at hstep <;> cases hstep
      · rename_i hsig
        refine h.set (by rw [hpc]; simp) ⟨rfl, rfl, ?_, ?_⟩ (by rw [hpc]; rfl)
        · intro k hk hm
          rw [marked_plain (by rw [hpc]; rfl)] at hm
          exact ⟨hm.1, hm.2, Or.inr hsig.2⟩
        · intro hn
          rw [hn] at hsig
          cases hsig.1
      · rename_i hstay
        exact h.set (by rw [hpc]; simp) (kept_leave (hfits j) hpc hkind hstay)
          (by rw [hpc]; rfl)
  · cases hstep
    refine h.set (by rw [hpc]; simp) ⟨rfl, rfl, ?_, ?_⟩ (by rw [hpc]; rfl)
    · intro k hk hm
      unfold Call.Marked at hm
      rw [hpc] at hm
      exact ⟨hm.1, hm⟩
    · intro hn
      have := (h.unmarked j hn).2
      rw [hpc] at this
      cases this
  · cases hstep
    exact h.store hpc
  · cases hstep
  · cases hstep

/-- What a mark says of a call depends on its result only once the call is past its loop. -/
theorem Call.Marked.complete (h : c.Marked now k)
    (hfits : c.Fits) (hkind : c.kind ≠ .many) (hnone : c.result = none) (hpc : c'.pc = c.pc)
    (hraised : c'.raised = c.raised) : c'.Marked now k := by
  have hloop : c.pc.past = false := by
    by_contra hp
    exact hfits.past hkind (by simpa using hp) hnone
  unfold Call.Marked at h ⊢
  rw [hpc]
  cases hq : c.pc <;> rw [hq] at h hloop <;>
    first | cases hloop; done | exact h.elim | exact ⟨h.1, hraised.trans h.2⟩

theorem sigStep_inv (h : Inv s) (hstep : sigStep s k = some t) : Inv t := by
  unfold sigStep at hstep
  split at hstep <;> rename_i hk
  · obtain ⟨hlock, hstep⟩ := Option.ite_none_right_eq_some.mp hstep
    cases hstep
    refine h.resig (h.relock (Or.inl hlock) rfl) ?_ ?_ ?_
    · intro rest hrest w hw
      cases hrest
      exact hw
    · intro w
      rw [hk]
      simp [Sig.Took]
    · intro w
      simp [Sig.Took]
  · cases hstep
    have hlock : s.lock = some k := (h.locked k).mp (by rw [hk]; rfl)
    refine h.resig (h.relock (Or.inr hlock) rfl) (fun rest hrest => by cases hrest) ?_ ?_
    · intro w
      rw [hk]
      simp [Sig.Took]
    · intro w
      simp [Sig.Took]
  · rename_i w rest
    split at hstep <;> cases hstep
    · rename_i hfree
      exact h.reserve hk hfree.1 hfree.2
    · have hlock : s.lock = some k := (h.locked k).mp (by rw [hk]; rfl)
      refine h.resig (h.relock (Or.inr hlock) hlock) ?_ ?_ ?_
      · intro rest' hrest w' hw'
        cases hrest
        exact h.walking k _ hk w' (List.mem_cons_of_mem _ hw')
      · intro w'
        rw [hk]
        simp [Sig.Took]
      · intro w'
        simp [Sig.Took]
  · cases hstep
    exact h.mark hk
  · rename_i w
    cases hstep
    have hsig := h.took k w (Or.inl hk)
    have hm := (h.marked w k hsig).2
    have hborn : (s.calls w).pc ≠ .unborn := by
      intro hu
      unfold Call.Marked at hm
      rw [hu] at hm
      exact hm
    have hset : Inv (s.set w { s.calls w with woken := true }) := by
      refine h.set hborn ⟨rfl, rfl, fun _ _ hm => hm, ?_⟩ rfl
      intro hn
      rw [hsig] at hn
      cases hn
    exact hset.finish hk
  · cases hstep
  · cases hstep

theorem step_inv {x : Action} (h : Inv s) (hfits : ∀ i, (s.calls i).Fits)
    (hstep : step s x = some t) : Inv t := by
  cases x with
  | call kind owner =>
    cases hstep
    exact h.call kind owner
  | step j => exact callStep_inv h hfits hstep
  | cancel j ok =>
    obtain ⟨⟨hpc, -⟩, hstep⟩ := Option.ite_none_right_eq_some.mp hstep
    cases hstep
    exact h.set (by rw [hpc]; simp) (Kept.plain (by rw [hpc]; rfl) rfl rfl rfl rfl)
      (by rw [hpc]; rfl)
  | finish j r =>
    obtain ⟨hpc, hstep⟩ := Option.ite_none_right_eq_some.mp hstep
    cases hstep
    have hnone := h.unmarked_of_pc (Or.inr (Or.inr (Or.inl hpc)))
    exact h.set (by rw [hpc]; simp) (Kept.early hnone rfl rfl rfl rfl) (by rw [hpc]; rfl)
  | complete j r =>
    obtain ⟨⟨hborn, hkind, hnone⟩, hstep⟩ := Option.ite_none_right_eq_some.mp hstep
    cases hstep
    exact h.set hborn ⟨rfl, rfl, fun k _ hm => hm.complete (hfits j) hkind hnone rfl rfl,
      fun hn => ⟨rfl, (h.unmarked j hn).2⟩⟩ rfl
  | wake j =>
    obtain ⟨hborn, hstep⟩ := Option.ite_none_left_eq_some.mp hstep
    cases hstep
    exact h.set hborn ⟨rfl, rfl, fun _ _ hm => hm, fun hn => ⟨rfl, (h.unmarked j hn).2⟩⟩ rfl
  | signal k =>
    obtain ⟨hidle, hstep⟩ := Option.ite_none_right_eq_some.mp hstep
    cases hstep
    refine h.resig (l := s.lock) ?_ (fun rest hrest => by cases hrest) ?_ ?_
    · intro k'
      rw [← h.locked k']
      obtain ⟨rfl, hc⟩ | ⟨-, hc⟩ := update_cases s.sigs k .lock k' <;> rw [hc]
      rw [hidle]
      rfl
    · intro w
      rw [hidle]
      simp [Sig.Took]
    · intro w
      simp [Sig.Took]
  | sig k => exact sigStep_inv h hstep
  | reserve o =>
    obtain ⟨hfree, hstep⟩ := Option.ite_none_right_eq_some.mp hstep
    cases hstep
    exact h.reslot (by simp [hfree]) (by simp)
  | clear o =>
    obtain ⟨hother, hstep⟩ := Option.ite_none_right_eq_some.mp hstep
    cases hstep
    exact h.reslot (by simp [hother]) (by simp)

theorem reachable_inv (h : Reachable system s) :
    Inv s ∧ ∀ i, (s.calls i).Fits := by
  refine Reachable.invariant (P := fun s => Inv s ∧ ∀ i, (s.calls i).Fits) ?_ ?_ h
  · rintro s rfl
    refine ⟨init_inv, fun i => ⟨?_, ?_, ?_, ?_, ?_, ?_⟩⟩ <;>
      simp [init, blank, Pc.past, Pc.loops, Pc.sleepy]
  · intro s x t _ hs hstep
    exact ⟨step_inv hs.1 hs.2 hstep, step_fits hs.2 hstep⟩

/-- About to sleep behind its link, or asleep. -/
def Pc.dozes : Pc → Bool
  | .park | .asleep => true
  | _ => false

/-- A marked `ms_recv` does not sleep on: its wake has come or is on the way. -/
def Nudged (s : State) : Prop :=
  ∀ j k, (s.calls j).kind = .many → (s.calls j).signaled = some k →
    (s.calls j).pc.dozes = true → (s.calls j).woken = true ∨ s.sigs k = .wake j

theorem Nudged.change (h : Nudged s)
    (hcalls : t.calls = update s.calls j c)
    (hsigs : ∀ k i, i ≠ j → s.sigs k = .wake i → t.sigs k = .wake i)
    (hown : ∀ k, c.kind = .many → c.signaled = some k → c.pc.dozes = true →
      c.woken = true ∨ t.sigs k = .wake j) : Nudged t := by
  intro i k hkind hsig hdozes
  rw [hcalls] at hkind hsig hdozes ⊢
  obtain ⟨rfl, hi⟩ | ⟨hne, hi⟩ := update_cases s.calls j c i <;> rw [hi] at hkind hsig hdozes ⊢
  · exact hown k hkind hsig hdozes
  · rcases h i k hkind hsig hdozes with hw | hw
    · exact Or.inl hw
    · exact Or.inr (hsigs k i hne hw)

/-- A call goes on that is not about to sleep. -/
theorem Nudged.set (h : Nudged s) (hp : c.pc.dozes = false) :
    Nudged (s.set j c) := by
  refine h.change rfl (fun _ _ _ hw => hw) ?_
  intro k _ _ hd
  rw [hp] at hd
  cases hd

theorem callStep_nudged (h : Nudged s) (hfits : ∀ i, (s.calls i).Fits)
    (hstep : callStep s j = some t) : Nudged t := by
  unfold callStep at hstep
  dsimp only at hstep
  split at hstep <;> rename_i hpc
  · split at hstep <;> cases hstep <;> exact h.set rfl
  · cases hstep
    exact h.set rfl
  · obtain ⟨-, hstep⟩ := Option.ite_none_right_eq_some.mp hstep
    cases hstep
    exact h.change rfl (fun _ _ _ hw => hw) (fun k _ hsig => by cases hsig)
  · cases hstep
    exact h.change rfl (fun _ _ _ hw => hw) (fun k hk hsig _ => h j k hk hsig (by rw [hpc]; rfl))
  · obtain ⟨-, hstep⟩ := Option.ite_none_right_eq_some.mp hstep
    cases hstep
    refine h.set ?_
    dsimp only
    split <;> rfl
  · split at hstep <;> cases hstep
    exact h.set rfl
  · cases hstep
    exact h.change rfl (fun _ _ _ hw => hw)
      (fun k hk => absurd hk ((hfits j).single (Or.inr hpc)))
  · obtain ⟨-, hstep⟩ := Option.ite_none_right_eq_some.mp hstep
    cases hstep
    exact h.set (c := { s.calls j with pc := .check }) rfl
  · split at hstep
    · cases hstep
      refine h.set ?_
      dsimp only
      split <;> rfl
    · split at hstep <;> cases hstep <;> exact h.set rfl
  · cases hstep
    exact h.set rfl
  · rename_i e
    cases hstep
    exact h.set (c := { s.calls j with pc := .returned (-1), raised := e, left := none }) rfl
  · cases hstep
  · cases hstep

theorem sigStep_nudged (h : Nudged s) (hstep : sigStep s k = some t) :
    Nudged t := by
  have hkeep : ∀ g : Sig, (∀ w, s.sigs k ≠ .wake w) → ∀ j k', s.sigs k' = .wake j →
      update s.sigs k g k' = .wake j := by
    intro g hne j k' hk'
    rw [update_of_ne]
    · exact hk'
    · rintro rfl
      exact hne j hk'
  unfold sigStep at hstep
  split at hstep <;> rename_i hk
  · obtain ⟨-, hstep⟩ := Option.ite_none_right_eq_some.mp hstep
    cases hstep
    exact fun j k' hkind hsig hd =>
      (h j k' hkind hsig hd).imp_right (hkeep _ (by simp [hk]) j k')
  · cases hstep
    exact fun j k' hkind hsig hd =>
      (h j k' hkind hsig hd).imp_right (hkeep _ (by simp [hk]) j k')
  · split at hstep <;> cases hstep <;>
      exact fun j k' hkind hsig hd =>
        (h j k' hkind hsig hd).imp_right (hkeep _ (by simp [hk]) j k')
  · rename_i w
    cases hstep
    refine h.change rfl (fun k' i _ => hkeep _ (by simp [hk]) i k') ?_
    intro k' _ hsig _
    cases hsig
    exact Or.inr (update_self _ _ _)
  · rename_i w
    cases hstep
    refine h.change rfl ?_ (fun _ _ _ _ => Or.inl rfl)
    intro k' i hne hk'
    change update s.sigs k _ k' = _
    rw [update_of_ne]
    · exact hk'
    · rintro rfl
      rw [hk] at hk'
      exact hne (Sig.wake.inj hk').symm
  · cases hstep
  · cases hstep

theorem step_nudged {x : Action} (h : Nudged s) (hfits : ∀ i, (s.calls i).Fits)
    (hstep : step s x = some t) : Nudged t := by
  cases x with
  | call kind owner =>
    cases hstep
    exact h.set (c := ⟨kind, owner, start kind, none, .inflight, none, false, false, none, none⟩)
      (by cases kind <;> rfl)
  | step j => exact callStep_nudged h hfits hstep
  | cancel j ok =>
    obtain ⟨-, hstep⟩ := Option.ite_none_right_eq_some.mp hstep
    cases hstep
    exact h.set rfl
  | finish j r =>
    obtain ⟨-, hstep⟩ := Option.ite_none_right_eq_some.mp hstep
    cases hstep
    exact h.set rfl
  | complete j r =>
    obtain ⟨⟨-, hkind, -⟩, hstep⟩ := Option.ite_none_right_eq_some.mp hstep
    cases hstep
    exact h.change rfl (fun _ _ _ hw => hw) (fun k hk => absurd hk hkind)
  | wake j =>
    obtain ⟨-, hstep⟩ := Option.ite_none_left_eq_some.mp hstep
    cases hstep
    exact h.change rfl (fun _ _ _ hw => hw) (fun _ _ _ _ => Or.inl rfl)
  | signal k =>
    obtain ⟨hidle, hstep⟩ := Option.ite_none_right_eq_some.mp hstep
    cases hstep
    intro j k' hkind hsig hd
    refine (h j k' hkind hsig hd).imp_right ?_
    intro hw
    change update s.sigs k _ k' = _
    rw [update_of_ne]
    · exact hw
    · rintro rfl
      rw [hidle] at hw
      cases hw
  | sig k => exact sigStep_nudged h hstep
  | reserve o =>
    obtain ⟨-, hstep⟩ := Option.ite_none_right_eq_some.mp hstep
    cases hstep
    exact h
  | clear o =>
    obtain ⟨-, hstep⟩ := Option.ite_none_right_eq_some.mp hstep
    cases hstep
    exact h

theorem reachable_nudged (h : Reachable system s) : Nudged s := by
  refine Reachable.invariant (P := Nudged) ?_ ?_ h
  · rintro s rfl
    intro j k hkind
    cases hkind
  · intro s x t hr hs hstep
    exact step_nudged hs (reachable_inv hr).2 hstep

/-! ## Signals that found a waiter -/

/-- What is true when signal call `k` has returned 1 for the waiter `j`. -/
structure Delivered (s : State) (j k : ℕ) : Prop where
  /-- A call of `ms_recv`, and a single-shot call whose operation ended in an error or was
  cancelled, returns -1 with this exception, and leaves the slot empty. -/
  raised : ∀ r, (s.calls j).pc = .returned r →
    (s.calls j).kind = .many ∨ (∃ v < 0, (s.calls j).result = some v) →
      (s.calls j).Raised (s.slot (s.calls j).owner) k r
  /-- A single-shot call whose operation was successful returns its result and leaves the
  exception in the slot. -/
  outrun : ∀ r v, (s.calls j).pc = .returned r → (s.calls j).kind ≠ .many →
    (s.calls j).result = some v → 0 ≤ v →
      v = r ∧ (s.calls j).Outrun (s.slot (s.calls j).owner) k r
  /-- No other call gets the exception. -/
  only : ∀ i, (s.calls i).raised = some (.sig k) → i = j
  /-- The waiter sleeps on only if it waits for the result of a single-shot operation. -/
  sleeps : (s.calls j).pc = .asleep → (s.calls j).woken = false →
    (s.calls j).kind ≠ .many ∧ (s.calls j).result = none

theorem Inv.marked_of_raised (h : Inv s) {i : ℕ}
    (hi : (s.calls i).raised = some (.sig k)) : (s.calls i).signaled = some k := by
  have hne : (s.calls i).signaled ≠ none := by
    intro hn
    rw [(h.unmarked i hn).1] at hi
    cases hi
  obtain ⟨k', hk'⟩ := Option.ne_none_iff_exists'.mp hne
  have hm := (h.marked i k' hk').2
  unfold Call.Marked at hm
  split at hm
  all_goals try simp only [hi, reduceCtorEq, and_false, false_and] at hm
  rcases hm with ⟨⟨-, hr, -⟩, -⟩ | hout
  · rw [hi] at hr
    rw [hk', Exc.sig.inj (Option.some.inj hr)]
  · rw [hout.2.2.2.1] at hi
    cases hi

/-- Every signal that found a waiter ends in one of two ways, in every interleaving. -/
theorem signal_delivered {s : State} (h : Reachable system s) {k j : ℕ}
    (hk : s.sigs k = .returned (some j)) : Delivered s j k := by
  obtain ⟨hinv, hfits⟩ := reachable_inv h
  have hsig := hinv.took k j (Or.inr hk)
  have hm := (hinv.marked j k hsig).2
  have hend : ∀ r, (s.calls j).pc = .returned r →
      (s.calls j).Raised (s.slot (s.calls j).owner) k r ∧
          ((s.calls j).kind = .many ∨ (s.calls j).failed = true) ∨
        (s.calls j).Outrun (s.slot (s.calls j).owner) k r := by
    intro r hr
    unfold Call.Marked at hm
    rw [hr] at hm
    exact hm
  constructor
  · intro r hr hwhy
    rcases hend r hr with hraised | hout
    · exact hraised.1
    · rcases hwhy with hmany | ⟨v, hv, hresult⟩
      · exact absurd hmany hout.1
      · have hsame := hout.2.1
        rw [hresult] at hsame
        cases hsame
        exact absurd hout.2.2.1 (by omega)
  · intro r v hr hkind hresult hv
    rcases hend r hr with ⟨-, hmany | hfailed⟩ | hout
    · exact absurd hmany hkind
    · simp only [Call.failed, hresult, decide_eq_true_eq] at hfailed
      omega
    · have hsame := hout.2.1
      rw [hresult] at hsame
      cases hsame
      exact ⟨rfl, hout⟩
  · intro i hi
    exact hinv.marked_inj (hinv.marked_of_raised hi) hsig
  · intro hpc hwoken
    have hkind : (s.calls j).kind ≠ .many := by
      intro hmany
      rcases reachable_nudged h j k hmany hsig (by rw [hpc]; rfl) with hw | hw
      · rw [hwoken] at hw
        cases hw
      · rw [hk] at hw
        cases hw
    refine ⟨hkind, ?_⟩
    by_contra hresult
    have := (hfits j).woken hkind (by rw [hpc]; rfl) hresult
    rw [hwoken] at this
    cases this

/-- A fiber sleeps in `ms_recv`, and a signal reaches it. -/
def signalledRecv : List Action :=
  [.call .many 5, .step 0, .step 0, .step 0, .signal 9, .sig 9, .sig 9, .sig 9, .sig 9, .step 0,
    .step 0, .step 0, .step 0, .step 0]

theorem signal_delivered_recv :
    ∃ s, system.run init signalledRecv = some s ∧ (s.calls 0).pc = .returned (-1) ∧
      Delivered s 0 9 := by
  obtain ⟨s, hs, hpc, hk⟩ :
      ∃ s, system.run init signalledRecv = some s ∧ (s.calls 0).pc = .returned (-1) ∧
        s.sigs 9 = .returned (some 0) :=
    ⟨_, rfl, rfl, rfl⟩
  exact ⟨s, hs, hpc, signal_delivered (reachable_of_run _ _ rfl hs) hk⟩

/-- The operation of a fiber on a hub is successful, and the signal comes between the end of
its park loop and its unlink. -/
def outrunSignal : List Action :=
  [.call .hub 5, .step 0, .step 0, .step 0, .complete 0 7, .step 0, .step 0, .step 0, .signal 9,
    .sig 9, .sig 9, .sig 9, .sig 9, .step 0, .step 0]

/-- The signal call has returned 1, but the waiter returns 7 with no error set, and the
exception is left in the slot. -/
theorem signal_outrun :
    ¬ ∀ s, Reachable system s → ∀ k j r, s.sigs k = .returned (some j) →
      (s.calls j).pc = .returned r →
        r = -1 ∧ (s.calls j).raised = some (.sig k) ∧ (s.calls j).left = none := by
  intro hall
  obtain ⟨s, hs, hpc, hk⟩ :
      ∃ s, system.run init outrunSignal = some s ∧ (s.calls 0).pc = .returned 7 ∧
        s.sigs 9 = .returned (some 0) :=
    ⟨_, rfl, rfl, rfl⟩
  have hclaim := hall s (reachable_of_run _ _ rfl hs) 9 0 7 hk hpc
  exact absurd hclaim.1 (by decide)

end Stackweave.IoUring.SignalWake
