import Mathlib.Data.Finset.Card
import Mathlib.Data.Int.Notation
import Mathlib.Tactic.Common
import Stackweave.IoUring.Submit
import Stackweave.Transition

/-!
# The in-flight count (`io_uring_l_buf.c.inc`, `io_uring_l_ring.c.inc`)

`runloom_iouring_inflight_count` over any number of threads that submit and drain: on
the global ring, which `sub_lock` and the `draining` flag serialise, and on the hub
rings without the loop backend, where a drain claims each completion with a CAS. A
submission is a fiber's single-shot op, a multishot receive or a cancel; a multishot is
submitted under the lock of its handle, which `ms_on_cqe` takes as well. The kernel may
post a completion as soon as it has consumed the SQE.

A submission queue is the list of what is pending on it (`Submit.call_onList`), the
completion queue the list of what is posted, with the completions that overflow
behind it. Op records are never reused.
-/

namespace Stackweave.IoUring.Inflight

open Submit Transition Function

inductive Kind
  | single
  | multishot (h : ℕ)
  | cancel
  deriving DecidableEq

inductive Wait
  | inflight
  | parked
  | done
  deriving DecidableEq

/-- What a submitting call does next. `unlock` and `release` carry whether the enter went
well; a multishot call is in `ms_submit`, a single-shot one goes on in
`runloom_iouring_do` or `ring_do`. -/
inductive Pc
  | unborn
  | acquire
  | write
  | enter
  | unlock (ok : Bool)
  | addRing
  | add
  | arm
  | release (ok : Bool)
  | commit
  | parked
  | awake
  | returned (ok : Bool)
  deriving DecidableEq

/-- Where the SQE of a submission or its last completion is. `handled` is between the
work of the drain on it and its decrement of the count. -/
inductive Stage
  | fresh
  | pending
  | inflight
  | posted
  | taken
  | handled
  | settled
  deriving DecidableEq

structure Call where
  ring : RingName
  kind : Kind
  pc : Pc
  stage : Stage
  wait : Wait
  result : Bool
  woken : Bool

/-- A completion: the submission that its op record is of, and `IORING_CQE_F_MORE`. -/
structure Cqe where
  op : ℕ
  more : Bool
  deriving DecidableEq

/-- What a thread in `runloom_iouring_drain` or `runloom_iouring_ring_drain` does next;
`published` is whether it has stored the result of a single-shot op. -/
inductive Drainer
  | idle
  | exchange
  | walk (r : RingName)
  | process (r : RingName) (c : Cqe) (published : Bool)
  | subRing (h j : ℕ)
  | sub (r : RingName) (j : ℕ)
  | clear
  | recheck
  deriving DecidableEq

/-- `issuer` is the holder of `sub_lock` and, for a hub ring, the call that its hub is in.
`armed` is the submission that has set the flag of a handle, if it is set. -/
structure State where
  calls : ℕ → Call
  next : ℕ
  issuer : RingName → Option ℕ
  sq : RingName → List ℕ
  cq : RingName → List Cqe
  draining : Bool
  drainers : ℕ → Drainer
  handleLock : ℕ → Option ℕ
  armed : ℕ → Option ℕ
  inflight : ℕ → ℤ
  count : ℤ

def blank : Call := ⟨.global, .single, .unborn, .fresh, .inflight, false, false⟩

def init : State :=
  { calls := fun _ => blank, next := 0, issuer := fun _ => none, sq := fun _ => []
    cq := fun _ => [], draining := false, drainers := fun _ => .idle
    handleLock := fun _ => none, armed := fun _ => none, inflight := fun _ => 0, count := 0 }

inductive Action
  | submit (r : RingName) (k : Kind)
  | call (j : ℕ)
  | enter (j : ℕ) (ok : Bool)
  | post (j : ℕ) (more : Bool)
  | signal (j : ℕ)
  | drain (d : ℕ) (r : RingName)
  | drainer (d : ℕ)

def State.set (s : State) (j : ℕ) (c : Call) : State :=
  { s with calls := Function.update s.calls j c }

def State.goto (s : State) (j : ℕ) (p : Pc) : State :=
  s.set j { s.calls j with pc := p }

def State.mark (s : State) (j : ℕ) (g : Stage) : State :=
  s.set j { s.calls j with stage := g }

def State.turn (s : State) (d : ℕ) (p : Drainer) : State :=
  { s with drainers := Function.update s.drainers d p }

def Kind.many : Kind → Bool
  | .multishot _ => true
  | _ => false

/-- A call whose enter failed. -/
def failed : Kind → Pc
  | .multishot _ => .release false
  | _ => .returned false

/-- Where a call goes on once its submission is counted. -/
def submitted : Kind → Pc
  | .single => .commit
  | .multishot _ => .arm
  | .cancel => .returned true

variable (entries : RingName → ℕ)

/-- One step of a call. -/
def callStep (s : State) (j : ℕ) : Option State :=
  let c := s.calls j
  match c.pc with
  | .acquire =>
    if s.issuer c.ring = none then
      some { s.goto j .write with issuer := Function.update s.issuer c.ring (some j) }
    else none
  | .write =>
    if (s.sq c.ring).length < entries c.ring then
      some { s.set j { c with pc := .enter, stage := .pending } with
        sq := Function.update s.sq c.ring (s.sq c.ring ++ [j]) }
    else none
  | .unlock ok =>
    some { s.goto j (if ok then .add else failed c.kind) with
      issuer := Function.update s.issuer c.ring none }
  | .addRing =>
    match c.ring with
    | .global => none
    | .hub h => some { s.goto j .add with
        inflight := Function.update s.inflight h (s.inflight h + 1) }
  | .add =>
    let t := { s.goto j (submitted c.kind) with count := s.count + 1 }
    match c.ring with
    | .global => some t
    | .hub h => some { t with issuer := Function.update s.issuer (.hub h) none }
  | .arm =>
    match c.kind with
    | .multishot h => some { s.goto j (.release true) with
        armed := Function.update s.armed h (some j) }
    | _ => none
  | .release ok =>
    match c.kind with
    | .multishot h => some { s.goto j (.returned ok) with
        handleLock := Function.update s.handleLock h none }
    | _ => none
  | .commit =>
    if c.wait = .done then some (s.goto j (.returned true))
    else some (s.set j { c with pc := .parked, wait := .parked })
  | .parked =>
    if c.woken then some (s.set j { c with pc := .awake, woken := false }) else none
  | .awake => some (s.goto j (if c.result then .returned true else .parked))
  | .unborn | .enter | .returned _ => none

/-- `io_uring_enter` of a call: the kernel takes the oldest SQE, or fails and takes none.
The hub ring then puts its tail back, the global ring leaves it. -/
def enterStep (s : State) (j : ℕ) (ok : Bool) : Option State :=
  let c := s.calls j
  if c.pc = .enter then
    match ok, c.ring with
    | true, r =>
      match s.sq r with
      | [] => none
      | i :: rest =>
        let t := (s.mark i .inflight).goto j (if r = .global then .unlock true else .addRing)
        some { t with sq := Function.update s.sq r rest }
    | false, .global => some (s.goto j (.unlock false))
    | false, .hub h =>
      some { s.goto j (failed c.kind) with
        sq := Function.update s.sq (.hub h) (s.sq (.hub h)).dropLast
        issuer := Function.update s.issuer (.hub h) none }
  else none

/-- A new call. Multishots stay on the global ring, and one is submitted with the lock of
its handle held and the handle not armed. -/
def submitStep (s : State) (r : RingName) (k : Kind) : Option State :=
  let t := { s.set s.next ⟨r, k, .acquire, .fresh, .inflight, false, false⟩ with
    next := s.next + 1 }
  match k with
  | .multishot h =>
    if r = .global ∧ s.handleLock h = none ∧ s.armed h = none then
      some { t with handleLock := Function.update s.handleLock h (some s.next) }
    else none
  | _ => some t

/-- The kernel posts a completion of an operation that it has consumed. -/
def postStep (s : State) (j : ℕ) (more : Bool) : Option State :=
  let c := s.calls j
  if c.stage = .inflight ∧ (more = true → c.kind.many = true) then
    let t := if more then s else s.mark j .posted
    some { t with
      cq := Function.update s.cq c.ring (s.cq c.ring ++ [⟨j, more⟩]) }
  else none

/-- A thread enters the drain of a ring. -/
def drainStart (s : State) (d : ℕ) (r : RingName) : Option State :=
  if s.drainers d = .idle then some (s.turn d (if r = .global then .exchange else .walk r))
  else none

/-- One step of a drain. On a hub ring the completion that a thread has read is its own if
the CAS on `cq_head` succeeds; on the global ring only the holder of `draining` walks. -/
def drainStep (s : State) (d : ℕ) : Option State :=
  match s.drainers d with
  | .idle => none
  | .exchange =>
    if s.draining then some (s.turn d .idle)
    else some { s.turn d (.walk .global) with draining := true }
  | .walk r =>
    match s.cq r with
    | [] => some (s.turn d (if r = .global then .clear else .idle))
    | c :: rest =>
      let t := if c.more then s else s.mark c.op .taken
      some { t.turn d (.process r c false) with cq := Function.update s.cq r rest }
  | .process r c published =>
    let o := s.calls c.op
    match o.kind, c.more with
    | .single, false =>
      if published then
        some ((s.set c.op { o with
          wait := .done, woken := o.woken || o.wait = .parked, stage := .handled }).turn d
            (down r c.op))
      else some ((s.set c.op { o with result := true }).turn d (.process r c true))
    | .cancel, false => some ((s.mark c.op .handled).turn d (down r c.op))
    | .multishot h, false =>
      if s.handleLock h = none then
        some { (s.mark c.op .handled).turn d (down r c.op) with
          armed := Function.update s.armed h none }
      else none
    | .multishot h, true =>
      if s.handleLock h = none then some (s.turn d (.walk r)) else none
    -- only a multishot has completions before its last one
    | _, true => none
  | .subRing h j =>
    some { s.turn d (.sub (.hub h) j) with
      inflight := Function.update s.inflight h (s.inflight h - 1) }
  | .sub r j => some { (s.mark j .settled).turn d (.walk r) with count := s.count - 1 }
  | .clear => some { s.turn d .recheck with draining := false }
  | .recheck => some (s.turn d (if s.cq .global = [] then .idle else .exchange))
where
  /-- A hub ring has a count of its own, which goes down first. -/
  down : RingName → ℕ → Drainer
    | .global, j => .sub .global j
    | .hub h, j => .subRing h j

/-- A signal handler has raised and wakes a parked fiber. -/
def signalStep (s : State) (j : ℕ) : Option State :=
  if (s.calls j).pc = .parked then some (s.set j { s.calls j with woken := true }) else none

def step (s : State) : Action → Option State
  | .submit r k => submitStep s r k
  | .call j => callStep entries s j
  | .enter j ok => enterStep s j ok
  | .post j more => postStep s j more
  | .signal j => signalStep s j
  | .drain d r => drainStart s d r
  | .drainer d => drainStep s d

def system : System State Action where
  init := fun s => s = init
  step := step entries

/-- The calls that have counted their submission. -/
@[grind =]
def Pc.counted : Pc → Bool
  | .arm | .release true | .commit | .parked | .awake | .returned true => true
  | _ => false

/-- A fiber is parked on a single-shot op with which no drain is done. -/
def State.Waits (s : State) (j : ℕ) : Prop :=
  (s.calls j).kind = .single ∧ (s.calls j).pc = .parked ∧ (s.calls j).stage ≠ .settled

/-- The count is no less than the parked fibers and the armed handles together. -/
def Covers (s : State) : Prop :=
  (∀ P H : Finset ℕ, (∀ j ∈ P, s.Waits j) → (∀ h ∈ H, s.armed h ≠ none) →
    (P.card + H.card : ℤ) ≤ s.count) ∧ 0 ≤ s.count

/-- A drain counts a completion down only after its submission has been counted up. -/
def ordered (s : State) : Action → Bool
  | .drainer d =>
    match s.drainers d with
    | .sub _ j => (s.calls j).pc.counted
    | _ => true
  | _ => true

/-! ## The ledger

What the count depends on: the calls, the queues, the last completions that drains have
in their hands, and the handles. A step of the system is a few moves on it. -/

/-- The last completion that a drain has in its hands, and whether it has handled it. -/
def Drainer.holds : Drainer → Option (ℕ × Bool)
  | .process _ c _ => if c.more then none else some (c.op, false)
  | .subRing _ j => some (j, true)
  | .sub _ j => some (j, true)
  | _ => none

structure Ledger where
  calls : ℕ → Call
  next : ℕ
  sq : RingName → List ℕ
  cq : RingName → List Cqe
  held : ℕ → Option (ℕ × Bool)
  handleLock : ℕ → Option ℕ
  armed : ℕ → Option ℕ
  count : ℤ

def State.ledger (s : State) : Ledger :=
  { calls := s.calls, next := s.next, sq := s.sq, cq := s.cq
    held := fun d => (s.drainers d).holds, handleLock := s.handleLock, armed := s.armed
    count := s.count }

/-- Before its SQE is in the queue. -/
def Pc.before : Pc → Bool
  | .unborn | .acquire | .write => true
  | _ => false

/-- Between the lock of the handle and its release. -/
def Pc.locked : Pc → Bool
  | .acquire | .write | .enter | .unlock _ | .addRing | .add | .arm | .release _ => true
  | _ => false

/-- The drain is done with the last completion, or only has to count it down. -/
def Stage.late : Stage → Bool
  | .handled | .settled => true
  | _ => false

/-- A change of a call that the ledger does not depend on. -/
structure Like (c c' : Call) : Prop where
  ring : c'.ring = c.ring
  kind : c'.kind = c.kind
  stage : c'.stage = c.stage
  counted : c'.pc.counted = c.pc.counted
  before : c'.pc.before = true → c.pc.before = true
  locked : c'.pc.locked = true → c.pc.locked = true
  unborn : c.pc = .unborn → c'.pc = .unborn

inductive Move (a : Ledger) : Ledger → Prop
  | frame (f : ℕ → Call) (hf : ∀ j, Like (a.calls j) (f j)) : Move a { a with calls := f }
  | write (j : ℕ) (hpc : (a.calls j).pc = .write) :
      Move a { a with
        calls := Function.update a.calls j { a.calls j with pc := .enter, stage := .pending }
        sq := Function.update a.sq (a.calls j).ring (a.sq (a.calls j).ring ++ [j]) }
  | takes (r : RingName) (i : ℕ) (rest : List ℕ) (hsq : a.sq r = i :: rest) :
      Move a { a with
        calls := Function.update a.calls i { a.calls i with stage := .inflight }
        sq := Function.update a.sq r rest }
  | shrink (r : RingName) : Move a { a with sq := Function.update a.sq r (a.sq r).dropLast }
  | add (j : ℕ) (hpc : (a.calls j).pc = .add) :
      Move a { a with
        calls := Function.update a.calls j
          { a.calls j with pc := submitted (a.calls j).kind }
        count := a.count + 1 }
  | arm (j h : ℕ) (hpc : (a.calls j).pc = .arm) (hk : (a.calls j).kind = .multishot h) :
      Move a { a with
        calls := Function.update a.calls j { a.calls j with pc := .release true }
        armed := Function.update a.armed h (some j) }
  | release (j h : ℕ) (ok : Bool) (hpc : (a.calls j).pc = .release ok)
      (hk : (a.calls j).kind = .multishot h) :
      Move a { a with
        calls := Function.update a.calls j { a.calls j with pc := .returned ok }
        handleLock := Function.update a.handleLock h none }
  | submit (r : RingName) (k : Kind) (hk : k.many = false) :
      Move a { a with
        calls := Function.update a.calls a.next ⟨r, k, .acquire, .fresh, .inflight, false, false⟩
        next := a.next + 1 }
  | submitMany (r : RingName) (h : ℕ) (hfree : a.handleLock h = none) :
      Move a { a with
        calls := Function.update a.calls a.next
          ⟨r, .multishot h, .acquire, .fresh, .inflight, false, false⟩
        next := a.next + 1
        handleLock := Function.update a.handleLock h (some a.next) }
  | more (j : ℕ) (hstage : (a.calls j).stage = .inflight) :
      Move a { a with
        cq := Function.update a.cq (a.calls j).ring (a.cq (a.calls j).ring ++ [⟨j, true⟩]) }
  | last (j : ℕ) (hstage : (a.calls j).stage = .inflight) :
      Move a { a with
        calls := Function.update a.calls j { a.calls j with stage := .posted }
        cq := Function.update a.cq (a.calls j).ring (a.cq (a.calls j).ring ++ [⟨j, false⟩]) }
  | skip (r : RingName) (c : Cqe) (rest : List Cqe) (hcq : a.cq r = c :: rest)
      (hmore : c.more = true) : Move a { a with cq := Function.update a.cq r rest }
  | take (d : ℕ) (r : RingName) (c : Cqe) (rest : List Cqe) (hcq : a.cq r = c :: rest)
      (hlast : c.more = false) :
      Move a { a with
        calls := Function.update a.calls c.op { a.calls c.op with stage := .taken }
        cq := Function.update a.cq r rest
        held := Function.update a.held d (some (c.op, false)) }
  | handle (d j : ℕ) (hd : a.held d = some (j, false)) (hk : (a.calls j).kind.many = false) :
      Move a { a with
        calls := Function.update a.calls j { a.calls j with stage := .handled }
        held := Function.update a.held d (some (j, true)) }
  | handleMany (d j h : ℕ) (hd : a.held d = some (j, false))
      (hk : (a.calls j).kind = .multishot h) (hfree : a.handleLock h = none) :
      Move a { a with
        calls := Function.update a.calls j { a.calls j with stage := .handled }
        held := Function.update a.held d (some (j, true))
        armed := Function.update a.armed h none }
  | sub (d j : ℕ) (hd : a.held d = some (j, true))
      (hcounted : (a.calls j).pc.counted = true) :
      Move a { a with
        calls := Function.update a.calls j { a.calls j with stage := .settled }
        held := Function.update a.held d none
        count := a.count - 1 }

/-! ## Where SQEs and last completions are -/

/-- The SQE of a submission or its last completion is in one place, the one that its
stage names. -/
structure Place (a : Ledger) (j : ℕ) : Prop where
  before : (a.calls j).pc.before = true → (a.calls j).stage = .fresh
  pending : ∀ r, 0 < (a.sq r).count j → (a.calls j).stage = .pending ∧ (a.calls j).ring = r
  sqOnce : ∀ r, (a.sq r).count j ≤ 1
  posted : ∀ r, 0 < (a.cq r).count ⟨j, false⟩ →
    (a.calls j).stage = .posted ∧ (a.calls j).ring = r
  cqOnce : ∀ r, (a.cq r).count ⟨j, false⟩ ≤ 1
  held : ∀ d b, a.held d = some (j, b) → (a.calls j).stage = if b then .handled else .taken
  apart : ∀ d d' b b', a.held d = some (j, b) → a.held d' = some (j, b') → d = d'

variable {a b : Ledger} {j d : ℕ} {c : Call} {s t : State}

/-- A move that does not touch the stage of a submission and adds it to no place. -/
theorem Place.congr (h : Place a j)
    (hring : (b.calls j).ring = (a.calls j).ring)
    (hstage : (b.calls j).stage = (a.calls j).stage)
    (hbefore : (b.calls j).pc.before = true → (a.calls j).pc.before = true)
    (hsq : ∀ r, (b.sq r).count j ≤ (a.sq r).count j)
    (hcq : ∀ r, (b.cq r).count ⟨j, false⟩ ≤ (a.cq r).count ⟨j, false⟩)
    (hheld : ∀ d x, b.held d = some (j, x) → a.held d = some (j, x)) : Place b j := by
  constructor
  · intro hb
    rw [hstage]
    exact h.before (hbefore hb)
  · intro r hr
    rw [hstage, hring]
    exact h.pending r (hr.trans_le (hsq r))
  · exact fun r => (hsq r).trans (h.sqOnce r)
  · intro r hr
    rw [hstage, hring]
    exact h.posted r (hr.trans_le (hcq r))
  · exact fun r => (hcq r).trans (h.cqOnce r)
  · intro d x hd
    rw [hstage]
    exact h.held d x (hheld d x hd)
  · intro d d' x x' hd hd'
    exact h.apart d d' x x' (hheld d x hd) (hheld d' x' hd')

section

variable {a : Ledger} {j : ℕ}

theorem Place.begun (h : Place a j) (hg : (a.calls j).stage ≠ .fresh) :
    (a.calls j).pc.before = false := by
  by_contra hb
  exact hg (h.before (by simpa using hb))

theorem born_of_begun (h : (a.calls j).pc.before = false) : (a.calls j).pc ≠ .unborn := by
  intro hu
  rw [hu] at h
  cases h

theorem Place.not_pending (h : Place a j) (hg : (a.calls j).stage ≠ .pending) (r : RingName) :
    (a.sq r).count j = 0 := by
  by_contra hr
  exact hg (h.pending r (Nat.pos_of_ne_zero hr)).1

theorem Place.not_posted (h : Place a j) (hg : (a.calls j).stage ≠ .posted) (r : RingName) :
    (a.cq r).count ⟨j, false⟩ = 0 := by
  by_contra hr
  exact hg (h.posted r (Nat.pos_of_ne_zero hr)).1

theorem Place.not_held (h : Place a j) (ht : (a.calls j).stage ≠ .taken)
    (hh : (a.calls j).stage ≠ .handled) (d : ℕ) (x : Bool) : a.held d ≠ some (j, x) := by
  intro hd
  have := h.held d x hd
  cases x
  · exact ht this
  · exact hh this

/-- A submission that is in no place. -/
theorem Place.nowhere (hbefore : (a.calls j).pc.before = true → (a.calls j).stage = .fresh)
    (hsq : ∀ r, (a.sq r).count j = 0) (hcq : ∀ r, (a.cq r).count ⟨j, false⟩ = 0)
    (hheld : ∀ d x, a.held d ≠ some (j, x)) : Place a j := by
  refine ⟨hbefore, ?_, ?_, ?_, ?_, ?_, ?_⟩
  · intro r hr
    rw [hsq r] at hr
    cases hr
  · intro r
    rw [hsq r]
    exact Nat.zero_le 1
  · intro r hr
    rw [hcq r] at hr
    cases hr
  · intro r
    rw [hcq r]
    exact Nat.zero_le 1
  · intro d x hd
    exact absurd hd (hheld d x)
  · intro d _ x _ hd
    exact absurd hd (hheld d x)

/-- A submission whose last completion one drain has in its hands. -/
theorem Place.inHand {d : ℕ} {x : Bool} (hbefore : (a.calls j).pc.before = false)
    (hstage : (a.calls j).stage = if x then .handled else .taken)
    (hsq : ∀ r, (a.sq r).count j = 0) (hcq : ∀ r, (a.cq r).count ⟨j, false⟩ = 0)
    (hd : a.held d = some (j, x)) (hheld : ∀ d' x', a.held d' = some (j, x') → d' = d) :
    Place a j := by
  refine ⟨?_, ?_, ?_, ?_, ?_, ?_, ?_⟩
  · intro hb
    rw [hbefore] at hb
    cases hb
  · intro r hr
    rw [hsq r] at hr
    cases hr
  · intro r
    rw [hsq r]
    exact Nat.zero_le 1
  · intro r hr
    rw [hcq r] at hr
    cases hr
  · intro r
    rw [hcq r]
    exact Nat.zero_le 1
  · intro d' x' hd'
    obtain rfl := hheld d' x' hd'
    rw [hd] at hd'
    cases hd'
    exact hstage
  · intro d₁ d₂ x₁ x₂ h₁ h₂
    rw [hheld d₁ x₁ h₁, hheld d₂ x₂ h₂]

end

structure Placed (a : Ledger) : Prop where
  unborn : ∀ j, a.next ≤ j → (a.calls j).pc = .unborn
  place : ∀ j, Place a j

section

variable {a b : Ledger} {j : ℕ}

theorem Placed.lt_next (h : Placed a) (hborn : (a.calls j).pc ≠ .unborn) : j < a.next := by
  by_contra hn
  exact hborn (h.unborn j (Nat.le_of_not_lt hn))

/-- A move that puts one submission elsewhere. -/
theorem Placed.change (h : Placed a) {c : Call} (hcalls : b.calls = update a.calls j c)
    (hnext : b.next = a.next) (hborn : (a.calls j).pc ≠ .unborn)
    (hsq : ∀ r i, i ≠ j → (b.sq r).count i ≤ (a.sq r).count i)
    (hcq : ∀ r i, i ≠ j → (b.cq r).count ⟨i, false⟩ ≤ (a.cq r).count ⟨i, false⟩)
    (hheld : ∀ d i x, i ≠ j → b.held d = some (i, x) → a.held d = some (i, x))
    (hown : Place b j) : Placed b := by
  have hother : ∀ i, i ≠ j → b.calls i = a.calls i := by
    intro i hi
    rw [hcalls, update_of_ne hi]
  constructor
  · intro i hi
    rw [hnext] at hi
    have hne : i ≠ j := by
      rintro rfl
      exact hborn (h.unborn i hi)
    rw [hother i hne]
    exact h.unborn i hi
  · intro i
    by_cases hij : i = j
    · rw [hij]
      exact hown
    · have heq := hother i hij
      exact (h.place i).congr (by rw [heq]) (by rw [heq]) (by rw [heq]; exact id)
        (fun r => hsq r i hij) (fun r => hcq r i hij) (fun d x => hheld d i x hij)

/-- A move that puts no submission elsewhere. -/
theorem Placed.keep (h : Placed a) (hnext : b.next = a.next)
    (hunborn : ∀ i, (a.calls i).pc = .unborn → (b.calls i).pc = .unborn)
    (hring : ∀ i, (b.calls i).ring = (a.calls i).ring)
    (hstage : ∀ i, (b.calls i).stage = (a.calls i).stage)
    (hbefore : ∀ i, (b.calls i).pc.before = true → (a.calls i).pc.before = true)
    (hsq : ∀ r i, (b.sq r).count i ≤ (a.sq r).count i)
    (hcq : ∀ r i, (b.cq r).count ⟨i, false⟩ ≤ (a.cq r).count ⟨i, false⟩)
    (hheld : b.held = a.held) : Placed b := by
  refine ⟨fun i hi => hunborn i (h.unborn i (hnext ▸ hi)), ?_⟩
  intro i
  exact (h.place i).congr (hring i) (hstage i) (hbefore i) (fun r => hsq r i) (fun r => hcq r i)
    (fun d x hd => by rw [hheld] at hd; exact hd)

end

section

variable {ι β : Type*} [DecidableEq ι] [DecidableEq β] {f : ι → List β} {r : ι} {x : β}
  {rest : List β}

theorem count_update_append (r' : ι) (y : β) :
    (update f r (f r ++ [x]) r').count y =
      (f r').count y + if r' = r ∧ x = y then 1 else 0 := by
  by_cases hr : r' = r
  · subst hr
    by_cases hy : x = y
    · simp [hy]
    · simp [hy]
  · simp [hr]

theorem count_update_tail (hf : f r = x :: rest) (r' : ι) (y : β) :
    (update f r rest r').count y + (if r' = r ∧ x = y then 1 else 0) =
      (f r').count y := by
  by_cases hr : r' = r
  · subst hr
    by_cases hy : x = y
    · simp [hf, hy]
    · simp [hf, hy]
  · simp [hr]

end

/-- The SQE that a call writes. -/
theorem Placed.write (h : Placed a) (hpc : (a.calls j).pc = .write) :
    Placed { a with
      calls := update a.calls j { a.calls j with pc := .enter, stage := .pending }
      sq := update a.sq (a.calls j).ring (a.sq (a.calls j).ring ++ [j]) } := by
  have hfresh := (h.place j).before (by rw [hpc]; rfl)
  have hsq := (h.place j).not_pending (by rw [hfresh]; simp)
  have hcq := (h.place j).not_posted (by rw [hfresh]; simp)
  have hheld := (h.place j).not_held (by rw [hfresh]; simp) (by rw [hfresh]; simp)
  refine h.change rfl rfl (by rw [hpc]; simp) ?_ (fun _ _ _ => Nat.le_refl _)
    (fun _ _ _ _ hd => hd) ?_
  · intro r i hi
    dsimp only
    rw [count_update_append, if_neg (fun hc => hi hc.2.symm)]
    exact Nat.le_refl _
  · refine ⟨?_, ?_, ?_, ?_, ?_, fun d x hd => absurd hd (hheld d x),
      fun d _ x _ hd => absurd hd (hheld d x)⟩ <;> dsimp only
    · rw [update_self]
      intro hb
      cases hb
    · intro r hr
      rw [update_self]
      rw [count_update_append, hsq] at hr
      split at hr
      · rename_i hc
        exact ⟨rfl, hc.1.symm⟩
      · cases hr
    · intro r
      rw [count_update_append, hsq]
      split <;> decide
    · intro r hr
      rw [hcq r] at hr
      cases hr
    · intro r
      rw [hcq r]
      exact Nat.zero_le 1

/-- The SQE that the kernel takes. -/
theorem Placed.takes (h : Placed a) {r : RingName} {i : ℕ} {rest : List ℕ}
    (hsq : a.sq r = i :: rest) :
    Placed { a with
      calls := update a.calls i { a.calls i with stage := .inflight }
      sq := update a.sq r rest } := by
  obtain ⟨hstage, hring⟩ := (h.place i).pending r (by rw [hsq]; simp)
  have hbegun := (h.place i).begun (by rw [hstage]; simp)
  have hcq := (h.place i).not_posted (by rw [hstage]; simp)
  have hheld := (h.place i).not_held (by rw [hstage]; simp) (by rw [hstage]; simp)
  refine h.change rfl rfl (born_of_begun hbegun) ?_ (fun _ _ _ => Nat.le_refl _)
    (fun _ _ _ _ hd => hd) ?_
  · intro r' k hk
    have := count_update_tail hsq r' k
    dsimp only
    omega
  · refine Place.nowhere ?_ ?_ hcq hheld <;> dsimp only
    · rw [update_self]
      intro hb
      rw [hbegun] at hb
      cases hb
    · intro r'
      have hcount := count_update_tail hsq r' i
      by_cases hr : r' = r
      · have := (h.place i).sqOnce r'
        rw [if_pos ⟨hr, rfl⟩] at hcount
        omega
      · rw [update_of_ne hr]
        by_contra hpos
        exact hr (((h.place i).pending r' (Nat.pos_of_ne_zero hpos)).2.symm.trans hring)

/-- The last completion of an operation that is in flight. -/
theorem Placed.last (h : Placed a)
    (hstage : (a.calls j).stage = .inflight) :
    Placed { a with
      calls := update a.calls j { a.calls j with stage := .posted }
      cq := update a.cq (a.calls j).ring (a.cq (a.calls j).ring ++ [⟨j, false⟩]) } := by
  have hbegun := (h.place j).begun (by rw [hstage]; simp)
  have hsq := (h.place j).not_pending (by rw [hstage]; simp)
  have hcq := (h.place j).not_posted (by rw [hstage]; simp)
  have hheld := (h.place j).not_held (by rw [hstage]; simp) (by rw [hstage]; simp)
  refine h.change rfl rfl (born_of_begun hbegun) (fun _ _ _ => Nat.le_refl _) ?_
    (fun _ _ _ _ hd => hd) ?_
  · intro r i hi
    dsimp only
    rw [count_update_append, if_neg (fun hc => hi (congrArg Cqe.op hc.2).symm)]
    exact Nat.le_refl _
  · refine ⟨?_, ?_, ?_, ?_, ?_, fun d x hd => absurd hd (hheld d x),
      fun d _ x _ hd => absurd hd (hheld d x)⟩ <;> dsimp only
    · rw [update_self]
      intro hb
      rw [hbegun] at hb
      cases hb
    · intro r hr
      rw [hsq r] at hr
      cases hr
    · intro r
      rw [hsq r]
      exact Nat.zero_le 1
    · intro r hr
      rw [update_self]
      rw [count_update_append, hcq] at hr
      split at hr
      · rename_i hc
        exact ⟨rfl, hc.1.symm⟩
      · cases hr
    · intro r
      rw [count_update_append, hcq]
      split <;> decide

/-- The last completion that a drain takes off the queue. -/
theorem Placed.take (h : Placed a) {r : RingName} {c : Cqe}
    {rest : List Cqe} (hcq : a.cq r = c :: rest) (hlast : c.more = false) :
    Placed { a with
      calls := update a.calls c.op { a.calls c.op with stage := .taken }
      cq := update a.cq r rest
      held := update a.held d (some (c.op, false)) } := by
  obtain ⟨j, more⟩ := c
  obtain rfl : more = false := hlast
  obtain ⟨hstage, hring⟩ := (h.place j).posted r (by rw [hcq]; simp)
  have hbegun := (h.place j).begun (by rw [hstage]; simp)
  have hsq := (h.place j).not_pending (by rw [hstage]; simp)
  have hheld := (h.place j).not_held (by rw [hstage]; simp) (by rw [hstage]; simp)
  refine h.change rfl rfl (born_of_begun hbegun) (fun _ _ _ => Nat.le_refl _) ?_ ?_ ?_
  · intro r' i hi
    have := count_update_tail hcq r' ⟨i, false⟩
    dsimp only
    omega
  · intro d' i x hi hd'
    dsimp only at hd'
    rw [update_apply] at hd'
    split at hd'
    · cases hd'
      exact absurd rfl hi
    · exact hd'
  · refine Place.inHand (d := d) (x := false) ?_ ?_ hsq ?_ ?_ ?_ <;> dsimp only
    · rw [update_self]
      exact hbegun
    · rw [update_self]
      rfl
    · intro r'
      have hcount := count_update_tail hcq r' ⟨j, false⟩
      by_cases hr : r' = r
      · have := (h.place j).cqOnce r'
        rw [if_pos ⟨hr, rfl⟩] at hcount
        omega
      · rw [update_of_ne hr]
        by_contra hpos
        exact hr (((h.place j).posted r' (Nat.pos_of_ne_zero hpos)).2.symm.trans hring)
    · rw [update_self]
    · intro d' x hd'
      rw [update_apply] at hd'
      split at hd'
      · assumption
      · exact absurd hd' (hheld d' x)

/-- A drain has handled the completion in its hands. -/
theorem Placed.handle (h : Placed a) (hd : a.held d = some (j, false)) :
    Placed { a with
      calls := update a.calls j { a.calls j with stage := .handled }
      held := update a.held d (some (j, true)) } := by
  have hstage := (h.place j).held d false hd
  have hbegun := (h.place j).begun (by rw [hstage]; simp)
  have hsq := (h.place j).not_pending (by rw [hstage]; simp)
  have hcq := (h.place j).not_posted (by rw [hstage]; simp)
  refine h.change rfl rfl (born_of_begun hbegun) (fun _ _ _ => Nat.le_refl _)
    (fun _ _ _ => Nat.le_refl _) ?_ ?_
  · intro d' i x hi hd'
    dsimp only at hd'
    rw [update_apply] at hd'
    split at hd'
    · cases hd'
      exact absurd rfl hi
    · exact hd'
  · refine Place.inHand (d := d) (x := true) ?_ ?_ hsq hcq ?_ ?_ <;> dsimp only
    · rw [update_self]
      exact hbegun
    · rw [update_self]
      rfl
    · rw [update_self]
    · intro d' x hd'
      rw [update_apply] at hd'
      split at hd'
      · assumption
      · exact (h.place j).apart d' d x false hd' hd

/-- A drain has counted the completion down. -/
theorem Placed.sub (h : Placed a) (hd : a.held d = some (j, true)) :
    Placed { a with
      calls := update a.calls j { a.calls j with stage := .settled }
      held := update a.held d none
      count := a.count - 1 } := by
  have hstage := (h.place j).held d true hd
  have hbegun := (h.place j).begun (by rw [hstage]; simp)
  have hsq := (h.place j).not_pending (by rw [hstage]; simp)
  have hcq := (h.place j).not_posted (by rw [hstage]; simp)
  refine h.change rfl rfl (born_of_begun hbegun) (fun _ _ _ => Nat.le_refl _)
    (fun _ _ _ => Nat.le_refl _) ?_ ?_
  · intro d' i x hi hd'
    dsimp only at hd'
    rw [update_apply] at hd'
    split at hd'
    · cases hd'
    · exact hd'
  · refine Place.nowhere ?_ hsq hcq ?_ <;> dsimp only
    · rw [update_self]
      intro hb
      rw [hbegun] at hb
      cases hb
    · intro d' x hd'
      rw [update_apply] at hd'
      split at hd'
      · cases hd'
      · rename_i hne
        exact hne ((h.place j).apart d' d x true hd' hd)

/-- A new call. -/
theorem Placed.submit (h : Placed a) (r : RingName) (k : Kind) :
    Placed { a with
      calls := update a.calls a.next ⟨r, k, .acquire, .fresh, .inflight, false, false⟩
      next := a.next + 1 } := by
  have hunborn := h.unborn a.next (Nat.le_refl _)
  have hfresh := (h.place a.next).before (by rw [hunborn]; rfl)
  constructor
  · intro i hi
    dsimp only at hi ⊢
    rw [update_of_ne (by omega)]
    exact h.unborn i (by omega)
  · intro i
    by_cases hi : i = a.next
    · subst hi
      refine Place.nowhere ?_ ((h.place a.next).not_pending (by rw [hfresh]; simp))
        ((h.place a.next).not_posted (by rw [hfresh]; simp))
        ((h.place a.next).not_held (by rw [hfresh]; simp) (by rw [hfresh]; simp))
      dsimp only
      rw [update_self]
      exact fun _ => rfl
    · have heq : update a.calls a.next
          ⟨r, k, .acquire, .fresh, .inflight, false, false⟩ i = a.calls i :=
        update_of_ne hi _ _
      refine (h.place i).congr ?_ ?_ ?_ (fun _ => Nat.le_refl _) (fun _ => Nat.le_refl _)
        (fun _ _ hd => hd) <;> dsimp only <;> rw [heq]
      exact id

/-- The place of a submission has nothing to do with locks, handles and the count. -/
theorem Placed.aside (h : Placed a) (hcalls : b.calls = a.calls)
    (hnext : b.next = a.next) (hsq : b.sq = a.sq) (hcq : b.cq = a.cq) (hheld : b.held = a.held) :
    Placed b :=
  h.keep hnext (by simp [hcalls]) (by simp [hcalls]) (by simp [hcalls]) (by simp [hcalls])
    (by simp [hsq]) (by simp [hcq]) hheld

/-- A call goes on without its SQE changing its place. -/
theorem Placed.goto (h : Placed a) {p : Pc}
    (hborn : (a.calls j).pc ≠ .unborn) (hp : p.before = false) :
    Placed { a with calls := update a.calls j { a.calls j with pc := p } } := by
  refine h.keep rfl ?_ ?_ ?_ ?_ (fun _ _ => Nat.le_refl _) (fun _ _ => Nat.le_refl _) rfl <;>
    intro i <;> by_cases hi : i = j
  · subst hi
    exact fun hu => absurd hu hborn
  · simp [hi]
  · simp [hi]
  · simp [hi]
  · simp [hi]
  · simp [hi]
  · subst hi
    simp [hp]
  · simp [hi]

theorem Placed.move (h : Placed a) (hm : Move a b) : Placed b := by
  cases hm with
  | frame f hf =>
    exact h.keep rfl (fun i => (hf i).unborn) (fun i => (hf i).ring) (fun i => (hf i).stage)
      (fun i => (hf i).before) (fun _ _ => Nat.le_refl _) (fun _ _ => Nat.le_refl _) rfl
  | write j hpc => exact h.write hpc
  | takes r i rest hsq => exact h.takes hsq
  | shrink r =>
    refine h.keep rfl (fun _ => id) (fun _ => rfl) (fun _ => rfl) (fun _ => id) ?_
      (fun _ _ => Nat.le_refl _) rfl
    intro r' i
    by_cases hr : r' = r
    · subst hr
      simpa using (List.dropLast_sublist (a.sq r')).count_le i
    · simp [hr]
  | add j hpc =>
    refine (h.goto (j := j) (p := submitted (a.calls j).kind) (by rw [hpc]; simp) ?_).aside
      rfl rfl rfl rfl rfl
    cases (a.calls j).kind <;> rfl
  | arm j g hpc hk =>
    exact (h.goto (j := j) (p := .release true) (by rw [hpc]; simp) rfl).aside
      rfl rfl rfl rfl rfl
  | release j g ok hpc hk =>
    exact (h.goto (j := j) (p := .returned ok) (by rw [hpc]; simp) rfl).aside
      rfl rfl rfl rfl rfl
  | submit r k hk => exact h.submit r k
  | submitMany r g hfree => exact (h.submit r (.multishot g)).aside rfl rfl rfl rfl rfl
  | more j hstage =>
    refine h.keep rfl (fun _ => id) (fun _ => rfl) (fun _ => rfl) (fun _ => id)
      (fun _ _ => Nat.le_refl _) ?_ rfl
    intro r i
    dsimp only
    rw [count_update_append, if_neg]
    · exact Nat.le_refl _
    · rintro ⟨-, hc⟩
      cases hc
  | last j hstage => exact h.last hstage
  | skip r c rest hcq hmore =>
    refine h.keep rfl (fun _ => id) (fun _ => rfl) (fun _ => rfl) (fun _ => id)
      (fun _ _ => Nat.le_refl _) ?_ rfl
    intro r' i
    have := count_update_tail hcq r' ⟨i, false⟩
    dsimp only
    omega
  | take d r c rest hcq hlast => exact h.take hcq hlast
  | handle d j hd hk => exact h.handle hd
  | handleMany d j g hd hk hfree => exact (h.handle hd).aside rfl rfl rfl rfl rfl
  | sub d j hd hcounted => exact h.sub hd

/-! ## The count -/

/-- The submissions that are counted: up, and not down again. -/
def Ledger.counted (a : Ledger) : Finset ℕ :=
  (Finset.range a.next).filter fun j =>
    (a.calls j).pc.counted = true ∧ (a.calls j).stage ≠ .settled

structure Sound (a : Ledger) : Prop where
  settled : ∀ j, (a.calls j).stage = .settled → (a.calls j).pc.counted = true
  locked : ∀ j h, (a.calls j).kind = .multishot h → (a.calls j).pc.locked = true →
    a.handleLock h = some j ∧ (a.calls j).stage.late = false
  armed : ∀ h j, a.armed h = some j → (a.calls j).kind = .multishot h ∧
    (a.calls j).pc.counted = true ∧ (a.calls j).stage.late = false
  count : a.count = a.counted.card

/-- A move that neither counts nor arms nor locks. -/
theorem Sound.keep (h : Sound a) (hnext : b.next = a.next)
    (hkind : ∀ i, (b.calls i).kind = (a.calls i).kind)
    (hcounted : ∀ i, (b.calls i).pc.counted = (a.calls i).pc.counted)
    (hlocked : ∀ i, (b.calls i).pc.locked = true → (a.calls i).pc.locked = true)
    (hsettled : ∀ i, (b.calls i).stage = .settled ↔ (a.calls i).stage = .settled)
    (hlate : ∀ i, (b.calls i).stage.late = (a.calls i).stage.late)
    (hlock : b.handleLock = a.handleLock) (harmed : b.armed = a.armed)
    (hcount : b.count = a.count) : Sound b := by
  constructor
  · intro j hj
    rw [hcounted]
    exact h.settled j ((hsettled j).mp hj)
  · intro j g hk hl
    rw [hlock, hlate]
    exact h.locked j g ((hkind j).symm.trans hk) (hlocked j hl)
  · intro g j hg
    rw [hkind, hcounted, hlate]
    exact h.armed g j (harmed ▸ hg)
  · rw [hcount, h.count]
    unfold Ledger.counted
    simp only [hnext, hcounted, ne_eq, hsettled]

/-- The same for a move that changes one call. -/
theorem Sound.change (h : Sound a)
    (hcalls : b.calls = update a.calls j c) (hnext : b.next = a.next)
    (hkind : c.kind = (a.calls j).kind) (hcounted : c.pc.counted = (a.calls j).pc.counted)
    (hlocked : c.pc.locked = true → (a.calls j).pc.locked = true)
    (hsettled : c.stage = .settled ↔ (a.calls j).stage = .settled)
    (hlate : c.stage.late = (a.calls j).stage.late)
    (hlock : b.handleLock = a.handleLock) (harmed : b.armed = a.armed)
    (hcount : b.count = a.count) : Sound b := by
  have hcases : ∀ i, (i = j ∧ b.calls i = c) ∨ b.calls i = a.calls i := by
    intro i
    by_cases hi : i = j
    · exact Or.inl ⟨hi, by rw [hcalls, hi, update_self]⟩
    · exact Or.inr (by rw [hcalls, update_of_ne hi])
  refine h.keep hnext ?_ ?_ ?_ ?_ ?_ hlock harmed hcount <;> intro i <;>
    obtain ⟨rfl, hi⟩ | hi := hcases i <;> rw [hi]
  · exact hkind
  · exact hcounted
  · exact hlocked
  · exact id
  · exact hsettled
  · exact hlate

theorem Sound.add (h : Sound a) (hp : Placed a)
    (hpc : (a.calls j).pc = .add) :
    Sound { a with
      calls := update a.calls j { a.calls j with pc := submitted (a.calls j).kind }
      count := a.count + 1 } := by
  have hnew : (submitted (a.calls j).kind).counted = true := by
    cases (a.calls j).kind <;> rfl
  have hopen : (a.calls j).stage ≠ .settled := by
    intro hs
    have := h.settled j hs
    rw [hpc] at this
    cases this
  have hlt : j < a.next := hp.lt_next (by rw [hpc]; simp)
  constructor <;> dsimp only
  · intro i hi
    by_cases hij : i = j
    · subst hij
      rw [update_self]
      exact hnew
    · rw [update_of_ne hij] at hi ⊢
      exact h.settled i hi
  · intro i g hk hl
    by_cases hij : i = j
    · subst hij
      rw [update_self] at hk ⊢
      exact h.locked i g hk (by rw [hpc]; rfl)
    · rw [update_of_ne hij] at hk hl ⊢
      exact h.locked i g hk hl
  · intro g i hg
    obtain ⟨hk, hc, hl⟩ := h.armed g i hg
    by_cases hij : i = j
    · subst hij
      rw [update_self]
      exact ⟨hk, hnew, hl⟩
    · rw [update_of_ne hij]
      exact ⟨hk, hc, hl⟩
  · have hset : Ledger.counted { a with
        calls := update a.calls j { a.calls j with pc := submitted (a.calls j).kind }
        count := a.count + 1 } = insert j a.counted := by
      ext i
      simp only [Ledger.counted, Finset.mem_filter, Finset.mem_range, Finset.mem_insert]
      by_cases hij : i = j
      · subst hij
        simp [hlt, hnew, hopen]
      · simp [hij]
    have hnot : j ∉ a.counted := by
      intro hj
      have := (Finset.mem_filter.mp hj).2.1
      rw [hpc] at this
      cases this
    rw [hset, Finset.card_insert_of_notMem hnot, h.count]
    rfl

theorem Sound.sub (h : Sound a) (hp : Placed a)
    (hd : a.held d = some (j, true)) (hcounted : (a.calls j).pc.counted = true) :
    Sound { a with
      calls := update a.calls j { a.calls j with stage := .settled }
      held := update a.held d none
      count := a.count - 1 } := by
  have hstage : (a.calls j).stage = .handled := (hp.place j).held d true hd
  have hlt : j < a.next :=
    hp.lt_next (born_of_begun ((hp.place j).begun (by rw [hstage]; simp)))
  constructor <;> dsimp only
  · intro i hi
    by_cases hij : i = j
    · subst hij
      rw [update_self]
      exact hcounted
    · rw [update_of_ne hij] at hi ⊢
      exact h.settled i hi
  · intro i g hk hl
    by_cases hij : i = j
    · subst hij
      rw [update_self] at hk hl
      have := (h.locked i g hk hl).2
      rw [hstage] at this
      cases this
    · rw [update_of_ne hij] at hk hl ⊢
      exact h.locked i g hk hl
  · intro g i hg
    obtain ⟨hk, hc, hl⟩ := h.armed g i hg
    by_cases hij : i = j
    · subst hij
      rw [hstage] at hl
      cases hl
    · rw [update_of_ne hij]
      exact ⟨hk, hc, hl⟩
  · have hset : Ledger.counted { a with
        calls := update a.calls j { a.calls j with stage := .settled }
        held := update a.held d none
        count := a.count - 1 } = a.counted.erase j := by
      ext i
      simp only [Ledger.counted, Finset.mem_filter, Finset.mem_range, Finset.mem_erase]
      by_cases hij : i = j
      · subst hij
        simp
      · simp [hij]
    have hmem : j ∈ a.counted := by
      simp [Ledger.counted, hlt, hcounted, hstage]
    rw [hset, Finset.card_erase_of_mem hmem, h.count]
    have : 0 < a.counted.card := Finset.card_pos.mpr ⟨j, hmem⟩
    omega

theorem Sound.arm (h : Sound a) {g : ℕ} (hpc : (a.calls j).pc = .arm)
    (hk : (a.calls j).kind = .multishot g) :
    Sound { a with
      calls := update a.calls j { a.calls j with pc := .release true }
      armed := update a.armed g (some j) } := by
  have hsame : Sound { a with
      calls := update a.calls j { a.calls j with pc := .release true } } :=
    h.change rfl rfl rfl (by rw [hpc]; rfl) (fun _ => by rw [hpc]; rfl) Iff.rfl rfl rfl rfl rfl
  refine ⟨hsame.settled, hsame.locked, ?_, hsame.count⟩
  intro g' i hi
  dsimp only at hi ⊢
  by_cases hg : g' = g
  · subst hg
    rw [update_self] at hi
    cases hi
    rw [update_self]
    exact ⟨hk, rfl, (h.locked j g' hk (by rw [hpc]; rfl)).2⟩
  · rw [update_of_ne hg] at hi
    exact hsame.armed g' i hi

theorem Sound.release (h : Sound a) {g : ℕ} {ok : Bool}
    (hpc : (a.calls j).pc = .release ok) (hk : (a.calls j).kind = .multishot g) :
    Sound { a with
      calls := update a.calls j { a.calls j with pc := .returned ok }
      handleLock := update a.handleLock g none } := by
  have hsame : Sound { a with
      calls := update a.calls j { a.calls j with pc := .returned ok } } :=
    h.change rfl rfl rfl (by rw [hpc]; cases ok <;> rfl) (fun hl => by cases hl) Iff.rfl rfl rfl
      rfl rfl
  refine ⟨hsame.settled, ?_, hsame.armed, hsame.count⟩
  intro i g' hki hl
  -- another call that holds the lock of this handle would be this one
  have hother : g' ≠ g := by
    rintro rfl
    have hij : i ≠ j := by
      rintro rfl
      dsimp only at hl
      rw [update_self] at hl
      cases hl
    dsimp only at hki hl
    rw [update_of_ne hij] at hki hl
    have hi := (h.locked i g' hki hl).1
    rw [(h.locked j g' hk (by rw [hpc]; rfl)).1] at hi
    exact hij (Option.some.inj hi).symm
  dsimp only
  rw [update_of_ne hother]
  exact hsame.locked i g' hki hl

/-- A drain has handled a completion whose call holds no lock and no handle. -/
theorem Sound.handled (h : Sound a) (hp : Placed a)
    (hd : a.held d = some (j, false)) {armed : ℕ → Option ℕ}
    (hlocked : ∀ g, (a.calls j).kind = .multishot g → (a.calls j).pc.locked ≠ true)
    (harmed : ∀ g i, armed g = some i → a.armed g = some i ∧ i ≠ j) :
    Sound { a with
      calls := update a.calls j { a.calls j with stage := .handled }
      held := update a.held d (some (j, true))
      armed := armed } := by
  have hstage : (a.calls j).stage = .taken := (hp.place j).held d false hd
  constructor <;> dsimp only
  · intro i hi
    by_cases hij : i = j
    · subst hij
      rw [update_self] at hi
      cases hi
    · rw [update_of_ne hij] at hi ⊢
      exact h.settled i hi
  · intro i g hk hl
    by_cases hij : i = j
    · subst hij
      rw [update_self] at hk hl
      exact absurd hl (hlocked g hk)
    · rw [update_of_ne hij] at hk hl ⊢
      exact h.locked i g hk hl
  · intro g i hg
    obtain ⟨hold, hij⟩ := harmed g i hg
    rw [update_of_ne hij]
    exact h.armed g i hold
  · rw [h.count]
    congr 2
    ext i
    simp only [Ledger.counted, Finset.mem_filter, Finset.mem_range]
    by_cases hij : i = j
    · subst hij
      simp [hstage]
    · simp [hij]

theorem Sound.handle (h : Sound a) (hp : Placed a)
    (hd : a.held d = some (j, false)) (hk : (a.calls j).kind.many = false) :
    Sound { a with
      calls := update a.calls j { a.calls j with stage := .handled }
      held := update a.held d (some (j, true)) } := by
  refine h.handled hp hd ?_ ?_
  · intro g hg
    rw [hg] at hk
    cases hk
  · intro g i hg
    refine ⟨hg, ?_⟩
    rintro rfl
    rw [(h.armed g i hg).1] at hk
    cases hk

/-- `ms_on_cqe` has the lock of the handle, so the call that submitted it is done. -/
theorem Sound.handleMany (h : Sound a) (hp : Placed a) {g : ℕ}
    (hd : a.held d = some (j, false)) (hk : (a.calls j).kind = .multishot g)
    (hfree : a.handleLock g = none) :
    Sound { a with
      calls := update a.calls j { a.calls j with stage := .handled }
      held := update a.held d (some (j, true))
      armed := update a.armed g none } := by
  refine h.handled hp hd ?_ ?_
  · intro g' hg hl
    rw [hk] at hg
    cases hg
    rw [(h.locked j g hk hl).1] at hfree
    cases hfree
  · intro g' i hg
    rw [update_apply] at hg
    split at hg
    · cases hg
    · rename_i hne
      refine ⟨hg, ?_⟩
      rintro rfl
      have hki := (h.armed g' i hg).1
      rw [hk] at hki
      exact hne (Kind.multishot.inj hki).symm

/-- A new call. `lock` is what becomes of the locks of the handles. -/
theorem Sound.submit (h : Sound a) (hp : Placed a) (r : RingName) (k : Kind)
    {lock : ℕ → Option ℕ} (hown : ∀ g, k = .multishot g → lock g = some a.next)
    (hother : ∀ g i, a.handleLock g = some i → lock g = some i) :
    Sound { a with
      calls := update a.calls a.next ⟨r, k, .acquire, .fresh, .inflight, false, false⟩
      next := a.next + 1
      handleLock := lock } := by
  have hunborn := hp.unborn a.next (Nat.le_refl _)
  constructor <;> dsimp only
  · intro i hi
    by_cases hin : i = a.next
    · subst hin
      rw [update_self] at hi
      cases hi
    · rw [update_of_ne hin] at hi ⊢
      exact h.settled i hi
  · intro i g hk hl
    by_cases hin : i = a.next
    · subst hin
      rw [update_self] at hk ⊢
      exact ⟨hown g hk, rfl⟩
    · rw [update_of_ne hin] at hk hl ⊢
      obtain ⟨hlock, hlate⟩ := h.locked i g hk hl
      exact ⟨hother g i hlock, hlate⟩
  · intro g i hg
    obtain ⟨hk, hc, hl⟩ := h.armed g i hg
    have hin : i ≠ a.next := by
      rintro rfl
      rw [hunborn] at hc
      cases hc
    rw [update_of_ne hin]
    exact ⟨hk, hc, hl⟩
  · rw [h.count]
    congr 2
    ext i
    simp only [Ledger.counted, Finset.mem_filter, Finset.mem_range]
    by_cases hin : i = a.next
    · subst hin
      simp [Pc.counted]
    · simp only [update_of_ne hin]
      exact and_congr_left fun _ => by omega

theorem Sound.move (h : Sound a) (hp : Placed a) (hm : Move a b) : Sound b := by
  cases hm with
  | frame f hf =>
    refine h.keep rfl (fun i => (hf i).kind) (fun i => (hf i).counted) (fun i => (hf i).locked)
      ?_ ?_ rfl rfl rfl <;> intro i <;> dsimp only <;> rw [(hf i).stage]
  | write j hpc =>
    have hfresh := (hp.place j).before (by rw [hpc]; rfl)
    exact h.change rfl rfl rfl (by rw [hpc]; rfl) (fun _ => by rw [hpc]; rfl)
      (by rw [hfresh]; simp) (by rw [hfresh]; rfl) rfl rfl rfl
  | takes r i rest hsq =>
    have hstage := ((hp.place i).pending r (by rw [hsq]; simp)).1
    exact h.change rfl rfl rfl rfl id (by rw [hstage]; simp) (by rw [hstage]; rfl) rfl rfl rfl
  | shrink r =>
    exact h.keep rfl (fun _ => rfl) (fun _ => rfl) (fun _ => id) (fun _ => Iff.rfl)
      (fun _ => rfl) rfl rfl rfl
  | add j hpc => exact h.add hp hpc
  | arm j g hpc hk => exact h.arm hpc hk
  | release j g ok hpc hk => exact h.release hpc hk
  | submit r k hk =>
    refine h.submit hp r k ?_ (fun _ _ hg => hg)
    rintro g rfl
    cases hk
  | submitMany r g hfree =>
    refine h.submit hp r (.multishot g) ?_ ?_
    · rintro g' hg
      cases hg
      exact update_self _ _ _
    · intro g' i hg
      rw [update_of_ne]
      · exact hg
      · rintro rfl
        rw [hfree] at hg
        cases hg
  | more j hstage =>
    exact h.keep rfl (fun _ => rfl) (fun _ => rfl) (fun _ => id) (fun _ => Iff.rfl)
      (fun _ => rfl) rfl rfl rfl
  | last j hstage =>
    exact h.change rfl rfl rfl rfl id (by rw [hstage]; simp) (by rw [hstage]; rfl) rfl rfl rfl
  | skip r c rest hcq hmore =>
    exact h.keep rfl (fun _ => rfl) (fun _ => rfl) (fun _ => id) (fun _ => Iff.rfl)
      (fun _ => rfl) rfl rfl rfl
  | take d r c rest hcq hlast =>
    obtain ⟨j, more⟩ := c
    obtain rfl : more = false := hlast
    have hstage := ((hp.place j).posted r (by rw [hcq]; simp)).1
    exact h.change rfl rfl rfl rfl id (by rw [hstage]; simp) (by rw [hstage]; rfl) rfl rfl rfl
  | handle d j hd hk => exact h.handle hp hd hk
  | handleMany d j g hd hk hfree => exact h.handleMany hp hd hk hfree
  | sub d j hd hcounted => exact h.sub hp hd hcounted

/-! ## The steps on the ledger -/

abbrev Moves := Relation.ReflTransGen Move

theorem Like.same {c' : Call} (hring : c'.ring = c.ring) (hkind : c'.kind = c.kind)
    (hstage : c'.stage = c.stage) (hpc : c'.pc = c.pc) : Like c c' :=
  ⟨hring, hkind, hstage, by rw [hpc], by rw [hpc]; exact id, by rw [hpc]; exact id,
    by rw [hpc]; exact id⟩

theorem Move.call (h : Like (a.calls j) c) :
    Move a { a with calls := update a.calls j c } := by
  apply Move.frame
  intro i
  by_cases hi : i = j
  · subst hi
    rw [update_self]
    exact h
  · rw [update_of_ne hi]
    exact ⟨rfl, rfl, rfl, rfl, id, id, id⟩

theorem ledger_turn (s : State) (d : ℕ) (p : Drainer) :
    (s.turn d p).ledger =
      { s.ledger with held := update s.ledger.held d p.holds } := by
  unfold State.turn State.ledger
  congr 1
  exact Function.comp_update Drainer.holds s.drainers d p

theorem ledger_turn_same {p : Drainer}
    (h : p.holds = (s.drainers d).holds) : (s.turn d p).ledger = s.ledger := by
  have hheld : update s.ledger.held d (s.drainers d).holds = s.ledger.held :=
    update_eq_self d s.ledger.held
  rw [ledger_turn, h, hheld]

/-- The steps of a call from `q` to `p` that the ledger does not depend on. -/
def Pc.quiet (q p : Pc) : Bool :=
  p.counted == q.counted && (!p.before || q.before) && (!p.locked || q.locked) &&
    q != .unborn

theorem Like.goto {c' : Call} {q p : Pc} (hq : c.pc = q) (hp : c'.pc = p)
    (hquiet : q.quiet p = true) (hring : c'.ring = c.ring) (hkind : c'.kind = c.kind)
    (hstage : c'.stage = c.stage) : Like c c' := by
  subst hq hp
  simp only [Pc.quiet, Bool.and_eq_true, beq_iff_eq, bne_iff_ne, Bool.or_eq_true,
    Bool.not_eq_true'] at hquiet
  obtain ⟨⟨⟨hcounted, hbefore⟩, hlocked⟩, hborn⟩ := hquiet
  refine ⟨hring, hkind, hstage, hcounted, ?_, ?_, fun hu => absurd hu hborn⟩
  · intro hb
    rcases hbefore with hn | hn
    · rw [hn] at hb
      cases hb
    · exact hn
  · intro hl
    rcases hlocked with hn | hn
    · rw [hn] at hl
      cases hl
    · exact hn

theorem callStep_move (h : callStep entries s j = some t) :
    Move s.ledger t.ledger := by
  unfold callStep at h
  dsimp only at h
  split at h
  case h_1 hpc =>
    obtain ⟨-, h⟩ := Option.ite_none_right_eq_some.mp h
    cases h
    exact Move.call (Like.goto hpc rfl rfl rfl rfl rfl)
  case h_2 hpc =>
    obtain ⟨-, h⟩ := Option.ite_none_right_eq_some.mp h
    cases h
    exact Move.write j hpc
  case h_3 ok hpc =>
    cases h
    refine Move.call (Like.goto hpc rfl ?_ rfl rfl rfl)
    cases ok <;> cases (s.calls j).kind <;> rfl
  case h_4 hpc =>
    split at h <;> cases h
    exact Move.call (Like.goto hpc rfl rfl rfl rfl rfl)
  case h_5 hpc =>
    split at h <;> cases h <;> exact Move.add j hpc
  case h_6 hpc =>
    split at h <;> cases h
    rename_i g hk
    exact Move.arm j g hpc hk
  case h_7 ok hpc =>
    split at h <;> cases h
    rename_i g hk
    exact Move.release j g ok hpc hk
  case h_8 hpc =>
    split at h <;> cases h <;> exact Move.call (Like.goto hpc rfl rfl rfl rfl rfl)
  case h_9 hpc =>
    obtain ⟨-, h⟩ := Option.ite_none_right_eq_some.mp h
    cases h
    exact Move.call (Like.goto hpc rfl rfl rfl rfl rfl)
  case h_10 hpc =>
    cases h
    refine Move.call (Like.goto hpc rfl ?_ rfl rfl rfl)
    split <;> rfl
  all_goals cases h

theorem enterStep_moves {ok : Bool} (h : enterStep s j ok = some t) :
    Moves s.ledger t.ledger := by
  unfold enterStep at h
  obtain ⟨hpc, h⟩ := Option.ite_none_right_eq_some.mp h
  split at h
  · -- the kernel takes the oldest SQE
    split at h
    · cases h
    · rename_i r i rest hsq
      cases h
      refine Relation.ReflTransGen.head (Move.takes (s.calls j).ring i rest hsq) ?_
      have hsame : ((s.mark i .inflight).calls j).pc = .enter := by
        change (update s.calls i _ j).pc = _
        rw [update_apply]
        split
        · rename_i hji
          rw [← hji]
          exact hpc
        · exact hpc
      refine Relation.ReflTransGen.single (Move.call (Like.goto hsame rfl ?_ rfl rfl rfl))
      split <;> rfl
  · cases h
    exact .single (Move.call (Like.goto hpc rfl rfl rfl rfl rfl))
  · -- the hub ring puts its tail back
    rename_i g _ _
    cases h
    refine Relation.ReflTransGen.head (Move.shrink (.hub g)) ?_
    refine Relation.ReflTransGen.single (Move.call (Like.goto hpc rfl ?_ rfl rfl rfl))
    cases (s.calls j).kind <;> rfl

theorem submitStep_move {r : RingName} {k : Kind}
    (h : submitStep s r k = some t) : Move s.ledger t.ledger := by
  unfold submitStep at h
  dsimp only at h
  split at h
  · obtain ⟨⟨-, hfree, -⟩, h⟩ := Option.ite_none_right_eq_some.mp h
    cases h
    exact Move.submitMany r _ hfree
  · rename_i hk
    cases h
    refine Move.submit r k ?_
    cases k with
    | multishot g => exact absurd rfl (hk g)
    | single => rfl
    | cancel => rfl

theorem postStep_move {more : Bool} (h : postStep s j more = some t) :
    Move s.ledger t.ledger := by
  unfold postStep at h
  obtain ⟨⟨hstage, -⟩, h⟩ := Option.ite_none_right_eq_some.mp h
  cases h
  cases more with
  | false => exact Move.last j hstage
  | true => exact Move.more j hstage

theorem quiet_turn {p : Drainer} (h : p.holds = (s.drainers d).holds)
    (ht : t.ledger = (s.turn d p).ledger) : Moves s.ledger t.ledger := by
  rw [ht, ledger_turn_same h]

theorem holds_down (r : RingName) (j : ℕ) : (drainStep.down r j).holds = some (j, true) := by
  cases r <;> rfl

theorem drainStep_moves (hordered : ordered s (.drainer d) = true)
    (h : drainStep s d = some t) : Moves s.ledger t.ledger := by
  unfold drainStep at h
  split at h
  case h_1 => cases h
  case h_2 hd =>
    split at h <;> cases h
    · exact quiet_turn (d := d) (p := .idle) (by rw [hd]; rfl) rfl
    · exact quiet_turn (d := d) (p := .walk .global) (by rw [hd]; rfl) rfl
  case h_3 r hd =>
    split at h
    · cases h
      refine quiet_turn (d := d) ?_ rfl
      rw [hd]
      split <;> rfl
    · rename_i c rest hcq
      cases hmore : c.more with
      | true =>
        simp only [hmore, if_true, Option.some.injEq] at h
        subst h
        refine Relation.ReflTransGen.head (Move.skip r c rest hcq hmore) ?_
        refine quiet_turn (s := { s with cq := update s.cq r rest }) (d := d)
          (p := .process r c false) ?_ rfl
        simp [Drainer.holds, hmore, hd]
      | false =>
        simp only [hmore, Bool.false_eq_true, if_false, Option.some.injEq] at h
        subst h
        have hholds : (Drainer.process r c false).holds = some (c.op, false) := by
          simp [Drainer.holds, hmore]
        change Moves s.ledger (State.turn { s.mark c.op .taken with
          cq := update s.cq r rest } d (.process r c false)).ledger
        rw [ledger_turn, hholds]
        exact .single (Move.take d r c rest hcq hmore)
  case h_4 r c published hd =>
    have hheld : c.more = false → s.ledger.held d = some (c.op, false) := by
      intro hmore
      simp [State.ledger, hd, Drainer.holds, hmore]
    dsimp only at h
    split at h
    · -- a single-shot op
      rename_i hk hmore
      split at h <;> cases h
      · let o := { s.calls c.op with
          wait := Wait.done
          woken := (s.calls c.op).woken || (s.calls c.op).wait = Wait.parked }
        have hset : s.set c.op { o with stage := .handled } =
            (s.set c.op o).mark c.op .handled := by
          simp [State.set, State.mark]
        refine Relation.ReflTransGen.head (Move.call (j := c.op) (c := o)
          (Like.same rfl rfl rfl rfl)) ?_
        change Moves (s.set c.op o).ledger
          (State.turn (s.set c.op { o with stage := .handled }) d (drainStep.down r c.op)).ledger
        rw [hset, ledger_turn, holds_down]
        refine .single (Move.handle d c.op (hheld hmore) ?_)
        simp [State.set, State.ledger, o, hk, Kind.many]
      · refine Relation.ReflTransGen.head (Move.call (j := c.op)
          (c := { s.calls c.op with result := true }) (Like.same rfl rfl rfl rfl)) ?_
        exact quiet_turn (s := s.set c.op { s.calls c.op with result := true }) (d := d)
          (p := .process r c true) (by rw [State.set, hd]; rfl) rfl
    · rename_i hk hmore
      cases h
      rw [ledger_turn, holds_down]
      exact .single (Move.handle d c.op (hheld hmore) (by change (s.calls c.op).kind.many = _; rw [hk]; rfl))
    · rename_i g hk hmore
      obtain ⟨hfree, h⟩ := Option.ite_none_right_eq_some.mp h
      cases h
      change Moves s.ledger (State.turn { s.mark c.op .handled with
        armed := update s.armed g none } d (drainStep.down r c.op)).ledger
      rw [ledger_turn, holds_down]
      exact .single (Move.handleMany d c.op g (hheld hmore) hk hfree)
    · rename_i g hk hmore
      obtain ⟨-, h⟩ := Option.ite_none_right_eq_some.mp h
      cases h
      exact quiet_turn (d := d) (p := .walk r) (by rw [hd]; simp [Drainer.holds, hmore]) rfl
    · cases h
  case h_5 g j hd =>
    cases h
    exact quiet_turn (d := d) (p := .sub (.hub g) j) (by rw [hd]; rfl) rfl
  case h_6 r j hd =>
    cases h
    have hcounted : (s.calls j).pc.counted = true := by
      simpa only [ordered, hd] using hordered
    have hheld : s.ledger.held d = some (j, true) := by
      simp [State.ledger, hd, Drainer.holds]
    change Moves s.ledger (State.turn { s.mark j .settled with count := s.count - 1 } d
      (.walk r)).ledger
    rw [ledger_turn]
    exact .single (Move.sub d j hheld hcounted)
  case h_7 hd =>
    cases h
    exact quiet_turn (d := d) (p := .recheck) (by rw [hd]; rfl) rfl
  case h_8 hd =>
    cases h
    refine quiet_turn (d := d) ?_ rfl
    rw [hd]
    split <;> rfl

theorem step_moves {x : Action} (hordered : ordered s x = true)
    (h : step entries s x = some t) : Moves s.ledger t.ledger := by
  cases x with
  | submit r k => exact .single (submitStep_move h)
  | call j => exact .single (callStep_move entries h)
  | enter j ok => exact enterStep_moves h
  | post j more => exact .single (postStep_move h)
  | signal j =>
    obtain ⟨-, h⟩ := Option.ite_none_right_eq_some.mp h
    cases h
    exact .single (Move.call (Like.same rfl rfl rfl rfl))
  | drain d r =>
    obtain ⟨hd, h⟩ := Option.ite_none_right_eq_some.mp h
    cases h
    refine quiet_turn (d := d) ?_ rfl
    rw [hd]
    split <;> rfl
  | drainer d => exact drainStep_moves hordered h

theorem moves_sound (hm : Moves a b) (h : Placed a ∧ Sound a) :
    Placed b ∧ Sound b := by
  induction hm with
  | refl => exact h
  | tail _ hm ih => exact ⟨ih.1.move hm, ih.2.move ih.1 hm⟩

theorem init_sound : Placed init.ledger ∧ Sound init.ledger := by
  refine ⟨⟨fun _ _ => rfl, fun j => Place.nowhere (fun _ => rfl) (fun _ => rfl) (fun _ => rfl) ?_⟩,
    ?_⟩
  · intro d x hd
    cases hd
  · refine ⟨?_, ?_, ?_, rfl⟩
    · intro j hj
      cases hj
    · intro j g hk
      cases hk
    · intro g j hg
      cases hg

/-- The runs in which no completion is counted down before its submission is counted up. -/
def orderedSystem : System State Action :=
  (system entries).restrict fun s x => ordered s x = true

theorem reachable_inv (h : Reachable (orderedSystem entries) s) :
    Placed s.ledger ∧ Sound s.ledger := by
  refine Reachable.invariant (P := fun s => Placed s.ledger ∧ Sound s.ledger) ?_ ?_ h
  · rintro s rfl
    exact init_sound
  · intro s x t _ hs hstep
    obtain ⟨hordered, hstep⟩ := System.restrict_step.mp hstep
    exact moves_sound (step_moves entries hordered hstep) hs

/-- The parked fibers and the submissions that hold handles armed are all counted, and
none of them twice. -/
theorem Sound.covers (h : Sound s.ledger) (hp : Placed s.ledger) : Covers s := by
  have hcount : s.count = (s.ledger.counted.card : ℤ) := h.count
  refine ⟨?_, by rw [hcount]; exact Int.natCast_nonneg _⟩
  intro P H hP hH
  have hdisj : Disjoint P (H.image fun g => (s.armed g).getD 0) := by
    rw [Finset.disjoint_left]
    intro j hj hj'
    obtain ⟨g, hg, hgj⟩ := Finset.mem_image.mp hj'
    obtain ⟨i, hi⟩ := Option.ne_none_iff_exists'.mp (hH g hg)
    rw [hi, Option.getD_some] at hgj
    subst hgj
    have hk : (s.calls i).kind = .multishot g := (h.armed g i hi).1
    rw [(hP i hj).1] at hk
    cases hk
  have hinj : Set.InjOn (fun g => (s.armed g).getD 0) H := by
    intro g hg g' hg' heq
    obtain ⟨i, hi⟩ := Option.ne_none_iff_exists'.mp (hH g hg)
    obtain ⟨i', hi'⟩ := Option.ne_none_iff_exists'.mp (hH g' hg')
    dsimp only at heq
    rw [hi, hi', Option.getD_some, Option.getD_some] at heq
    subst heq
    have hk : (s.calls i).kind = .multishot g := (h.armed g i hi).1
    have hk' : (s.calls i).kind = .multishot g' := (h.armed g' i hi').1
    rw [hk] at hk'
    exact Kind.multishot.inj hk'
  have hsub : P ∪ (H.image fun g => (s.armed g).getD 0) ⊆ s.ledger.counted := by
    intro j hj
    have hmem : (s.calls j).pc.counted = true ∧ (s.calls j).stage ≠ .settled := by
      rcases Finset.mem_union.mp hj with hj | hj
      · obtain ⟨-, hpc, hstage⟩ := hP j hj
        exact ⟨by rw [hpc]; rfl, hstage⟩
      · obtain ⟨g, hg, hgj⟩ := Finset.mem_image.mp hj
        obtain ⟨i, hi⟩ := Option.ne_none_iff_exists'.mp (hH g hg)
        rw [hi, Option.getD_some] at hgj
        subst hgj
        obtain ⟨-, hc, hl⟩ := h.armed g i hi
        refine ⟨hc, ?_⟩
        intro hs
        change (s.calls i).stage.late = false at hl
        rw [hs] at hl
        cases hl
    have hborn : (s.calls j).pc ≠ .unborn := by
      intro hu
      rw [hu] at hmem
      cases hmem.1
    exact Finset.mem_filter.mpr ⟨Finset.mem_range.mpr (hp.lt_next hborn), hmem⟩
  have hcard : P.card + H.card ≤ s.ledger.counted.card := by
    have := Finset.card_le_card hsub
    rwa [Finset.card_union_of_disjoint hdisj, Finset.card_image_of_injOn hinj] at this
  rw [hcount]
  omega

/-- In every run, with any number of threads, rings and failures of the kernel, in which a
drain counts a completion down only after its submission has been counted up, the count
never hides a waiting fiber or an armed handle and is never negative. -/
theorem inflight_covers {s : State} (h : Reachable (orderedSystem entries) s) : Covers s :=
  (reachable_inv entries h).2.covers (reachable_inv entries h).1

def twoDeep : RingName → ℕ := fun _ => 2

/-- A fiber parks on the ring of hub 0. -/
def parkOnHub : List Action :=
  [.submit (.hub 0) .single, .call 0, .call 0, .enter 0 true, .call 0, .call 0, .call 0]

/-- Beside it handle 3 is armed, and a cancel comes and goes on the global ring. -/
def armAndCancel : List Action :=
  parkOnHub ++
    [Action.submit .global (.multishot 3), .call 1, .call 1, .enter 1 true, .call 1, .call 1, .call 1,
      .call 1, .submit .global .cancel, .call 2, .call 2, .enter 2 true, .call 2, .call 2,
      .post 2 false, .drain 0 .global, .drainer 0, .drainer 0, .drainer 0, .drainer 0]

theorem inflight_covers_armed :
    ∃ s, (orderedSystem twoDeep).run init armAndCancel = some s ∧ s.count = 2 ∧ s.Waits 0 ∧
      s.armed 3 = some 1 ∧ Covers s := by
  have hrun : ((orderedSystem twoDeep).run init armAndCancel).map
      (fun s => (s.count, s.armed 3, (s.calls 0).kind, (s.calls 0).pc, (s.calls 0).stage)) =
        some (2, some 1, .single, .parked, .inflight) := by
    decide +kernel
  obtain ⟨s, hs, hfacts⟩ := Option.map_eq_some_iff.mp hrun
  simp only [Prod.mk.injEq] at hfacts
  obtain ⟨hcount, harmed, hkind, hpc, hstage⟩ := hfacts
  have hwaits : s.Waits 0 := ⟨hkind, hpc, by rw [hstage]; decide⟩
  exact ⟨s, hs, hcount, hwaits, harmed, inflight_covers twoDeep (reachable_of_run _ _ rfl hs)⟩

/-- Beside it the op of another fiber completes, and a drain counts it down before its
submitter has counted it up. -/
def earlyDrain : List Action :=
  parkOnHub ++
    [Action.submit (.hub 1) .single, .call 1, .call 1, .enter 1 true, .post 1 false,
      .drain 0 (.hub 1), .drainer 0, .drainer 0, .drainer 0, .drainer 0, .drainer 0]

/-- The count is 0 while a fiber is parked on an operation that is in flight. -/
theorem inflight_hides_fiber :
    ¬ ∀ s, Reachable (system twoDeep) s → Covers s := by
  intro hall
  obtain ⟨s, hs, hcount, hwaits⟩ :
      ∃ s, (system twoDeep).run init earlyDrain = some s ∧ s.count = 0 ∧ s.Waits 0 :=
    ⟨_, rfl, rfl, ⟨rfl, rfl, by decide⟩⟩
  have hcovers := hall s (reachable_of_run _ _ rfl hs)
  have := hcovers.1 {0} ∅ (by simpa using hwaits) (by simp)
  rw [hcount] at this
  simp at this

end Stackweave.IoUring.Inflight
