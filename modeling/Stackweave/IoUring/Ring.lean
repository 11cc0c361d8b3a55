import Mathlib.Data.Int.Notation
import Mathlib.Data.List.Nodup
import Mathlib.Tactic.Common
import Stackweave.Transition

/-!
# Single-shot operations on the hub rings (`io_uring_l_ring.c.inc`)

Any number of fibers in `runloom_iouring_ring_do`, with the op record on the stack
of the call, against the drains of the completion queues,
`runloom_iouring_cancel_g` from any thread, signals, and the cancel mailbox of
each hub. Each access to a record, to `g->iouring_op`, to the head of a queue and
to a mailbox is one step.

The drain that `ring_do` makes itself is one of the drains. A fiber is resumed
when somebody has woken it; a resumed fiber may be on any hub, so which branch a
signalled call takes is left open.
-/

namespace Stackweave.IoUring.Ring

open Transition Function

inductive Wait
  | inflight
  | parked
  | done
  deriving DecidableEq

/-- What a `ring_do` call does next. -/
inductive Pc
  | unborn
  | submit
  | loadWait
  | commit
  | direct
  | publish
  | link
  | park
  | asleep
  | awake
  | check
  | retract
  | unlink
  | clear
  | leave
  | returned (r : ℤ)
  deriving DecidableEq

/-- The stack frame of a call: the op record (`g`, `hub`, `result`, `wait`; its ring is
that of the hub), the flag of its signal waiter and the two locals. -/
structure Frame where
  g : ℕ
  hub : ℕ
  result : Option ℤ
  wait : Wait
  pc : Pc
  signaled : Bool
  cancelled : Bool
  deposited : Bool

/-- What a thread in `runloom_iouring_ring_drain`, `runloom_iouring_cancel_g` or
`runloom_iouring_signal_wake` does next, with what it has read. -/
inductive Party
  | drain (h : ℕ)
  | claim (h i j : ℕ) (r : ℤ)
  | readType (h j : ℕ) (r : ℤ)
  | storeResult (h j : ℕ) (r : ℤ)
  | readHub (h j : ℕ)
  | exchange (h j : ℕ)
  | wakeHub (h j : ℕ)
  | wakeG (h j : ℕ)
  | wake (h f : ℕ)
  | loadOp (f : ℕ)
  | testG (f j : ℕ)
  | testWait (j : ℕ)
  | testRing (j : ℕ)
  | loadHub (j : ℕ)
  | deposit (h j : ℕ)
  | signal (f : ℕ)
  | done

/-- The drain of `iouring_cancel_op` at the top of the loop of `runloom_hub_main`. -/
inductive Hub
  | idle
  | peeked
  | readRing (j : ℕ)
  | readWait (j : ℕ)
  | submit (j : ℕ)

/-- Calls and parties are numbered as they start. `cur` is the call that a fiber is
in, `slot` its `iouring_op`, `kernel` the submitted operations without a completion,
`cq` and `head` the completions of a ring. History: whether somebody has used a
record after its call returned. -/
structure State where
  frames : ℕ → Frame
  next : ℕ
  cur : ℕ → Option ℕ
  slot : ℕ → Option ℕ
  woken : ℕ → Bool
  kernel : ℕ → Bool
  cq : ℕ → List (ℕ × ℤ)
  head : ℕ → ℕ
  party : ℕ → Party
  parties : ℕ
  hub : ℕ → Hub
  mailbox : ℕ → Option ℕ
  stale : Bool

def blank : Frame := ⟨0, 0, none, .inflight, .unborn, false, false, false⟩

def init : State :=
  { frames := fun _ => blank, next := 0, cur := fun _ => none, slot := fun _ => none
    woken := fun _ => false, kernel := fun _ => false, cq := fun _ => [], head := fun _ => 0
    party := fun _ => .done, parties := 0, hub := fun _ => .idle, mailbox := fun _ => none
    stale := false }

/-- `step` is the only way on for a call; in a signalled call it is the branch of a
fiber that is at home, and `away` the other one. -/
inductive Action
  | call (f h : ℕ)
  | refuse (j : ℕ)
  | step (j : ℕ)
  | away (j : ℕ)
  | resume (j : ℕ)
  | post (j : ℕ) (r : ℤ)
  | drain (h : ℕ)
  | cancel (f : ℕ)
  | signal (j : ℕ)
  | party (p : ℕ)
  | hub (h : ℕ)

def State.set (s : State) (j : ℕ) (F : Frame) : State :=
  { s with frames := Function.update s.frames j F }

def State.goto (s : State) (j : ℕ) (q : Pc) : State :=
  s.set j { s.frames j with pc := q }

def State.act (s : State) (p : ℕ) (q : Party) : State :=
  { s with party := Function.update s.party p q }

def State.turn (s : State) (h : ℕ) (q : Hub) : State :=
  { s with hub := Function.update s.hub h q }

/-- A new thread of work. -/
def State.spawn (s : State) (q : Party) : State :=
  { s.act s.parties q with parties := s.parties + 1 }

def Pc.over : Pc → Bool
  | .returned _ => true
  | _ => false

/-- Somebody else reads or writes a field of the record. -/
def State.touch (s : State) (j : ℕ) : State :=
  { s with stale := s.stale || (s.frames j).pc.over }

/-- What `ring_do` returns for a result. -/
def answer : Option ℤ → ℤ
  | some r => if r < 0 then -1 else r
  | none => -1

/-- The call returns to its fiber. -/
def State.finish (s : State) (j : ℕ) (r : ℤ) : State :=
  { s.goto j (.returned r) with cur := Function.update s.cur (s.frames j).g none }

/-- The statements of `runloom_iouring_ring_do`. -/
def advance (s : State) (j : ℕ) : Option State :=
  let F := s.frames j
  match F.pc with
  | .submit => some { s.goto j .loadWait with kernel := Function.update s.kernel j true }
  | .loadWait => some (s.goto j (if F.wait = .done then .direct else .commit))
  | .commit =>
    some (if F.wait = .inflight then s.set j { F with wait := .parked, pc := .publish }
      else s.goto j .direct)
  | .direct => some (s.finish j (answer F.result))
  | .publish => some { s.goto j .link with slot := Function.update s.slot F.g (some j) }
  | .link => some (s.goto j .park)
  | .park => some (s.goto j .asleep)
  | .awake =>
    some (if F.signaled && !F.cancelled then s.set j { F with cancelled := true, pc := .check }
      else s.goto j .check)
  | .check =>
    some (s.goto j (if F.result = none then .park else if F.deposited then .retract else .unlink))
  | .retract =>
    some { s.goto j .unlink with
      mailbox :=
        if s.mailbox F.hub = some j then Function.update s.mailbox F.hub none else s.mailbox }
  | .unlink => some (s.goto j .clear)
  | .clear => some { s.goto j .leave with slot := Function.update s.slot F.g none }
  | .leave => some (s.finish j (answer F.result))
  | _ => none

/-- The branch of a signalled call that is not on the hub of its ring. -/
def away (s : State) (j : ℕ) : Option State :=
  let F := s.frames j
  if F.pc = .awake ∧ F.signaled = true ∧ F.cancelled = false then
    some (if s.mailbox F.hub = none then
        { s.set j { F with cancelled := true, deposited := true, pc := .check } with
          mailbox := Function.update s.mailbox F.hub (some j) }
      else s.goto j .check)
  else none

/-- The statements of `ring_drain`, `cancel_g` and `signal_wake`. -/
def partyStep (s : State) (p : ℕ) : Option State :=
  match s.party p with
  | .drain h =>
    match (s.cq h)[s.head h]? with
    | none => some (s.act p .done)
    | some (j, r) => some (s.act p (.claim h (s.head h) j r))
  | .claim h i j r =>
    if s.head h = i then
      some { s.act p (.readType h j r) with head := Function.update s.head h (i + 1) }
    else some (s.act p (.drain h))
  | .readType h j r => some ((s.touch j).act p (.storeResult h j r))
  | .storeResult h j r =>
    some (((s.touch j).set j { s.frames j with result := some r }).act p (.readHub h j))
  | .readHub h j => some ((s.touch j).act p (.exchange h j))
  | .exchange h j =>
    some (((s.touch j).set j { s.frames j with wait := .done }).act p
      (if (s.frames j).wait = .parked then .wakeHub h j else .drain h))
  | .wakeHub h j => some ((s.touch j).act p (.wakeG h j))
  | .wakeG h j => some ((s.touch j).act p (.wake h (s.frames j).g))
  | .wake h f => some { s.act p (.drain h) with woken := Function.update s.woken f true }
  | .loadOp f =>
    match s.slot f with
    | none => some (s.act p .done)
    | some j => some (s.act p (.testG f j))
  | .testG f j => some ((s.touch j).act p (if (s.frames j).g = f then .testWait j else .done))
  | .testWait j =>
    some ((s.touch j).act p (if (s.frames j).wait = .parked then .testRing j else .done))
  | .testRing j => some ((s.touch j).act p (.loadHub j))
  | .loadHub j => some ((s.touch j).act p (.deposit (s.frames j).hub j))
  | .deposit h j =>
    some { s.act p .done with
      mailbox := if s.mailbox h = none then Function.update s.mailbox h (some j) else s.mailbox }
  | .signal f => some { s.act p .done with woken := Function.update s.woken f true }
  | .done => none

def hubStep (s : State) (h : ℕ) : Option State :=
  match s.hub h with
  | .idle => if s.mailbox h = none then none else some (s.turn h .peeked)
  | .peeked =>
    match s.mailbox h with
    | none => some (s.turn h .idle)
    | some j => some { s.turn h (.readRing j) with mailbox := Function.update s.mailbox h none }
  | .readRing j => some ((s.touch j).turn h (.readWait j))
  | .readWait j =>
    some ((s.touch j).turn h (if (s.frames j).wait = .parked then .submit j else .idle))
  | .submit j => some ((s.touch j).turn h .idle)

/-- The signal waiter of the call is on the list. -/
def Pc.linked : Pc → Bool
  | .park | .asleep | .awake | .check | .retract | .unlink => true
  | _ => false

@[grind =]
def step (s : State) : Action → Option State
  | .call f h =>
    if s.cur f = none then
      some { s.set s.next { blank with g := f, hub := h, pc := .submit } with
        cur := Function.update s.cur f (some s.next), next := s.next + 1 }
    else none
  | .refuse j => if (s.frames j).pc = .submit then some (s.finish j (-1)) else none
  | .step j => advance s j
  | .away j => away s j
  | .resume j =>
    let F := s.frames j
    if F.pc = .asleep ∧ s.woken F.g = true then
      some { s.goto j .awake with woken := Function.update s.woken F.g false }
    else none
  | .post j r =>
    if s.kernel j then
      some { s with
        kernel := Function.update s.kernel j false
        cq := Function.update s.cq (s.frames j).hub (s.cq (s.frames j).hub ++ [(j, r)]) }
    else none
  | .drain h => some (s.spawn (.drain h))
  | .cancel f => some (s.spawn (.loadOp f))
  | .signal j =>
    let F := s.frames j
    if F.pc.linked ∧ F.signaled = false then
      some ((s.set j { F with signaled := true }).spawn (.signal F.g))
    else none
  | .party p => partyStep s p
  | .hub h => hubStep s h

def system : System State Action where
  init s := s = init
  step := step

/-- The record whose fields the party still reads or writes, or whose address it
still deposits. -/
def Party.has : Party → Option ℕ
  | .readType _ j _ | .storeResult _ j _ | .readHub _ j | .exchange _ j | .wakeHub _ j
  | .wakeG _ j | .testG _ j | .testWait j | .testRing j | .loadHub j | .deposit _ j => some j
  | _ => none

def Hub.has : Hub → Option ℕ
  | .readRing j | .readWait j | .submit j => some j
  | _ => none

/-- Somebody else has the address of the record in hand, or it is in a mailbox. -/
def held (s : State) (j : ℕ) : Bool :=
  (List.range s.parties).any (fun p => (s.party p).has == some j) ||
    (s.hub (s.frames j).hub).has == some j || s.mailbox (s.frames j).hub == some j

/-- A call withdraws its record while somebody has it. -/
def hasty (s : State) : Action → Bool
  | .step j => (s.frames j).pc == .clear && held s j
  | _ => false

/-- The runs in which a call withdraws its record only when nobody has it. -/
def careful : System State Action :=
  system.restrict fun s a => hasty s a = false

/-! ## Who completes an operation -/

/-- Who has an operation: nobody, the kernel, a completion queue, or the party that
has claimed the completion, before and after the exchange on `wait`. -/
inductive Stage
  | out
  | kernel
  | posted
  | held (p : ℕ)
  | waking (p : ℕ)
  | finished

/-- The result is stored by now, or about to be. -/
@[grind =]
def Stage.claimed : Stage → Bool
  | .held _ | .waking _ | .finished => true
  | _ => false

/-- The drainer has made its exchange. -/
@[grind =]
def Stage.done : Stage → Bool
  | .waking _ | .finished => true
  | _ => false

/-- The call has committed to parking and its record is not withdrawn. -/
def Pc.zone : Pc → Bool
  | .publish | .link | .park | .asleep | .awake | .check | .retract | .unlink | .clear => true
  | _ => false

/-- The call has seen its result, or it has not waited for one. -/
def Pc.past : Pc → Bool
  | .retract | .unlink | .clear => true
  | _ => false

/-- The call has nothing left to wait for. -/
def Pc.ends : Pc → Bool
  | .direct | .leave | .returned _ => true
  | _ => false

/-- The record that a drain has claimed, before the exchange. -/
@[grind =]
def Party.before : Party → Option ℕ
  | .readType _ j _ | .storeResult _ j _ | .readHub _ j | .exchange _ j => some j
  | _ => none

@[grind =]
def Party.after : Party → Option ℕ
  | .wakeHub _ j | .wakeG _ j => some j
  | _ => none

/-- The record that a `cancel_g` has in hand. -/
def Party.cancels : Party → Option ℕ
  | .testG _ j | .testWait j | .testRing j | .loadHub j | .deposit _ j => some j
  | _ => none

/-- What a drain has read is in the queue. -/
def Party.right (cq : ℕ → List (ℕ × ℤ)) : Party → Prop
  | .claim h i j r => (cq h)[i]? = some (j, r)
  | _ => True

variable {q : Party} {j p r : ℕ} {s t : State} {st : ℕ → Stage} {F : Frame} {v : Stage}

theorem Party.right_mono {cq cq' : ℕ → List (ℕ × ℤ)} (h : q.right cq)
    (hcq : ∀ r (i : ℕ) x, (cq r)[i]? = some x → (cq' r)[i]? = some x) : q.right cq' := by
  unfold Party.right at h ⊢
  split
  case h_1 => exact hcq _ _ _ h
  case h_2 => trivial

/-- The completions from `head` on belong to different operations, which have `P`. -/
def Queued (cq : List (ℕ × ℤ)) (head : ℕ) (P : ℕ → Prop) : Prop :=
  head ≤ cq.length ∧ ((cq.drop head).map Prod.fst).Nodup ∧
    ∀ k ∈ (cq.drop head).map Prod.fst, P k

theorem Queued.mono {cq : List (ℕ × ℤ)} {head : ℕ} {P Q : ℕ → Prop} (h : Queued cq head P)
    (hpq : ∀ k, P k → Q k) : Queued cq head Q :=
  ⟨h.1, h.2.1, fun k hk => hpq k (h.2.2 k hk)⟩

theorem Queued.append {cq : List (ℕ × ℤ)} {head : ℕ} {r : ℤ} {P Q : ℕ → Prop}
    (h : Queued cq head P) (hj : ¬ P j) (hpq : ∀ k, P k → Q k) (hq : Q j) :
    Queued (cq ++ [(j, r)]) head Q := by
  obtain ⟨hle, hnd, hall⟩ := h
  have hdrop : (cq ++ [(j, r)]).drop head = cq.drop head ++ [(j, r)] :=
    List.drop_append_of_le_length hle
  refine ⟨by rw [List.length_append]; omega, ?_, ?_⟩
  · rw [hdrop, List.map_append, List.nodup_append]
    refine ⟨hnd, by simp, ?_⟩
    intro a ha b hb hab
    simp only [List.map_cons, List.map_nil, List.mem_singleton] at hb
    rw [hab, hb] at ha
    exact hj (hall j ha)
  · intro k hk
    rw [hdrop, List.map_append, List.mem_append] at hk
    rcases hk with hk | hk
    · exact hpq k (hall k hk)
    · simp only [List.map_cons, List.map_nil, List.mem_singleton] at hk
      rw [hk]
      exact hq

/-- The first completion is claimed. -/
theorem Queued.pop {cq : List (ℕ × ℤ)} {head : ℕ} {r : ℤ} {P : ℕ → Prop}
    (h : Queued cq head P) (hj : cq[head]? = some (j, r)) :
    P j ∧ Queued cq (head + 1) (fun k => P k ∧ k ≠ j) := by
  obtain ⟨hle, hnd, hall⟩ := h
  obtain ⟨hlt, hget⟩ := List.getElem?_eq_some_iff.mp hj
  have hdrop : cq.drop head = (j, r) :: cq.drop (head + 1) := by
    rw [List.drop_eq_getElem_cons hlt, hget]
  rw [hdrop, List.map_cons] at hnd hall
  obtain ⟨hnot, hnd⟩ := List.nodup_cons.mp hnd
  refine ⟨hall j List.mem_cons_self, by omega, hnd, fun k hk => ?_⟩
  refine ⟨hall k (List.mem_cons_of_mem _ hk), ?_⟩
  rintro rfl
  exact hnot hk

structure Staged (s : State) (st : ℕ → Stage) : Prop where
  fresh : ∀ j, s.next ≤ j → (s.frames j).pc = .unborn ∧ st j = .out
  young : ∀ p, s.parties ≤ p → s.party p = .done
  early : ∀ j, (s.frames j).pc = .submit → st j = .out
  kernel : ∀ j, s.kernel j = true ↔ st j = .kernel
  queue : ∀ r, Queued (s.cq r) (s.head r) fun j => st j = .posted ∧ (s.frames j).hub = r
  right : ∀ p, (s.party p).right s.cq
  before : ∀ p j, (s.party p).before = some j ↔ st j = .held p
  after : ∀ p j, (s.party p).after = some j ↔ st j = .waking p
  wait : ∀ j, (s.frames j).wait = .done ↔ (st j).done = true
  result : ∀ j, (s.frames j).result ≠ none → (st j).claimed = true
  parked : ∀ j, (s.frames j).wait = .parked → (s.frames j).pc.zone = true
  waking : ∀ p j, st j = .waking p → (s.frames j).pc.zone = true
  past : ∀ j, (s.frames j).pc.past = true → (s.frames j).result ≠ none
  ends : ∀ j, (s.frames j).pc.ends = true → st j = .finished ∨ st j = .out

/-- A step of call `j` itself that leaves the completion of its operation alone. -/
theorem Staged.move (h : Staged s st)
    (hframes : t.frames = update s.frames j F) (hnext : t.next = s.next)
    (hkernel : t.kernel = s.kernel) (hcq : t.cq = s.cq) (hhead : t.head = s.head)
    (hparty : t.party = s.party) (hparties : t.parties = s.parties)
    (hborn : (s.frames j).pc ≠ .unborn) (hhub : F.hub = (s.frames j).hub)
    (hres : F.result = (s.frames j).result) (hsubmit : F.pc ≠ .submit)
    (hwait : F.wait = .done ↔ (st j).done = true) (hparked : F.wait = .parked → F.pc.zone = true)
    (hwaking : ∀ p, st j = .waking p → F.pc.zone = true)
    (hpast : F.pc.past = true → F.result ≠ none)
    (hends : F.pc.ends = true → st j = .finished ∨ st j = .out) : Staged t st := by
  have hself : t.frames j = F := by rw [hframes, update_self]
  have hother : ∀ k, k ≠ j → t.frames k = s.frames k := by
    intro k hk
    rw [hframes, update_of_ne hk]
  have hhubs : ∀ k, (t.frames k).hub = (s.frames k).hub := by
    intro k
    by_cases hk : k = j
    · rw [hk, hself, hhub]
    · rw [hother k hk]
  constructor
  case fresh =>
    intro k hk
    rw [hnext] at hk
    have hkj : k ≠ j := fun e => hborn (e ▸ (h.fresh k hk).1)
    rw [hother k hkj]
    exact h.fresh k hk
  case young => rw [hparties, hparty]; exact h.young
  case early =>
    intro k hk
    by_cases hkj : k = j
    · rw [hkj, hself] at hk
      exact absurd hk hsubmit
    · rw [hother k hkj] at hk
      exact h.early k hk
  case kernel => rw [hkernel]; exact h.kernel
  case queue =>
    intro r
    rw [hcq, hhead]
    simp only [hhubs]
    exact h.queue r
  case right => rw [hparty, hcq]; exact h.right
  case before => rw [hparty]; exact h.before
  case after => rw [hparty]; exact h.after
  case wait =>
    intro k
    by_cases hkj : k = j
    · rw [hkj, hself]
      exact hwait
    · rw [hother k hkj]
      exact h.wait k
  case result =>
    intro k
    by_cases hkj : k = j
    · rw [hkj, hself, hres]
      exact h.result j
    · rw [hother k hkj]
      exact h.result k
  case parked =>
    intro k
    by_cases hkj : k = j
    · rw [hkj, hself]
      exact hparked
    · rw [hother k hkj]
      exact h.parked k
  case waking =>
    intro p k hk
    by_cases hkj : k = j
    · rw [hkj] at hk ⊢
      rw [hself]
      exact hwaking p hk
    · rw [hother k hkj]
      exact h.waking p k hk
  case past =>
    intro k
    by_cases hkj : k = j
    · rw [hkj, hself]
      exact hpast
    · rw [hother k hkj]
      exact h.past k
  case ends =>
    intro k
    by_cases hkj : k = j
    · rw [hkj, hself]
      exact hends
    · rw [hother k hkj]
      exact h.ends k

/-- A step of a party that has no record in hand and takes none. -/
theorem Staged.walk (h : Staged s st)
    (hparty : t.party = update s.party p q) (hframes : t.frames = s.frames)
    (hnext : t.next = s.next) (hkernel : t.kernel = s.kernel) (hcq : t.cq = s.cq)
    (hhead : t.head = s.head) (hparties : s.parties ≤ t.parties) (hp : p < t.parties)
    (hright : q.right s.cq) (hbefore : q.before = (s.party p).before)
    (hafter : q.after = (s.party p).after) : Staged t st := by
  have hother : ∀ k, k ≠ p → t.party k = s.party k := by
    intro k hk
    rw [hparty, update_of_ne hk]
  have hself : t.party p = q := by rw [hparty, update_self]
  constructor
  case fresh => rw [hnext, hframes]; exact h.fresh
  case young =>
    intro k hk
    rw [hother k (by omega)]
    exact h.young k (by omega)
  case early => rw [hframes]; exact h.early
  case kernel => rw [hkernel]; exact h.kernel
  case queue => rw [hcq, hhead, hframes]; exact h.queue
  case right =>
    intro k
    rw [hcq]
    by_cases hkp : k = p
    · rw [hkp, hself]
      exact hright
    · rw [hother k hkp]
      exact h.right k
  case before =>
    intro k j
    rw [← h.before k j]
    by_cases hkp : k = p
    · rw [hkp, hself, hbefore]
    · rw [hother k hkp]
  case after =>
    intro k j
    rw [← h.after k j]
    by_cases hkp : k = p
    · rw [hkp, hself, hafter]
    · rw [hother k hkp]
  case wait => rw [hframes]; exact h.wait
  case result => rw [hframes]; exact h.result
  case parked => rw [hframes]; exact h.parked
  case waking => rw [hframes]; exact h.waking
  case past => rw [hframes]; exact h.past
  case ends => rw [hframes]; exact h.ends

/-- The operation `j` passes to stage `v`, by a step of party `p`. -/
theorem Staged.pass (h : Staged s st)
    (hframes : t.frames = update s.frames j F)
    (hparty : t.party = update s.party p q) (hnext : t.next = s.next)
    (hparties : t.parties = s.parties) (hp : p < s.parties)
    (hkernel : ∀ k, t.kernel k = true ↔ update st j v k = .kernel)
    (hqueue : ∀ r, Queued (t.cq r) (t.head r) fun k =>
      update st j v k = .posted ∧ (s.frames k).hub = r)
    (hcq : ∀ r (i : ℕ) x, (s.cq r)[i]? = some x → (t.cq r)[i]? = some x)
    (hborn : st j ≠ .out) (hhub : F.hub = (s.frames j).hub) (hpc : F.pc = (s.frames j).pc)
    (hright : q.right t.cq)
    (hothers : ∀ p', p' ≠ p → (v = .held p' ↔ st j = .held p') ∧ (v = .waking p' ↔ st j = .waking p'))
    (hbefore : ∀ k, q.before = some k ↔ k = j ∧ v = .held p)
    (hafter : ∀ k, q.after = some k ↔ k = j ∧ v = .waking p)
    (hhadB : ∀ k, (s.party p).before = some k → k = j)
    (hhadA : ∀ k, (s.party p).after = some k → k = j)
    (hwait : F.wait = .done ↔ v.done = true) (hresult : F.result ≠ none → v.claimed = true)
    (hparked : F.wait = .parked → F.pc.zone = true)
    (hwaking : ∀ p', v = .waking p' → F.pc.zone = true)
    (hpast : F.pc.past = true → F.result ≠ none)
    (hends : F.pc.ends = true → v = .finished) : Staged t (update st j v) := by
  have hself : t.frames j = F := by rw [hframes, update_self]
  have hother : ∀ k, k ≠ j → t.frames k = s.frames k := by
    intro k hk
    rw [hframes, update_of_ne hk]
  have hhubs : ∀ k, (t.frames k).hub = (s.frames k).hub := by
    intro k
    by_cases hk : k = j
    · rw [hk, hself, hhub]
    · rw [hother k hk]
  have hpartyO : ∀ k, k ≠ p → t.party k = s.party k := by
    intro k hk
    rw [hparty, update_of_ne hk]
  have hpartyS : t.party p = q := by rw [hparty, update_self]
  constructor
  case fresh =>
    intro k hk
    rw [hnext] at hk
    have hkj : k ≠ j := fun e => hborn (e ▸ (h.fresh k hk).2)
    rw [hother k hkj, update_of_ne hkj]
    exact h.fresh k hk
  case young =>
    intro k hk
    rw [hparties] at hk
    rw [hpartyO k (by omega)]
    exact h.young k hk
  case early =>
    intro k hk
    by_cases hkj : k = j
    · rw [hkj, hself, hpc] at hk
      exact absurd (h.early j hk) hborn
    · rw [hother k hkj] at hk
      rw [update_of_ne hkj]
      exact h.early k hk
  case kernel => exact hkernel
  case queue =>
    intro r
    simp only [hhubs]
    exact hqueue r
  case right =>
    intro k
    by_cases hkp : k = p
    · rw [hkp, hpartyS]
      exact hright
    · rw [hpartyO k hkp]
      exact Party.right_mono (h.right k) hcq
  case before =>
    intro k m
    by_cases hkp : k = p
    · rw [hkp, hpartyS, hbefore m]
      by_cases hm : m = j
      · simp [hm]
      · rw [update_of_ne hm, ← h.before p m]
        exact iff_of_false (fun hc => hm hc.1) (fun hc => hm (hhadB m hc))
    · rw [hpartyO k hkp, h.before k m]
      by_cases hm : m = j
      · rw [hm, update_self]
        exact (hothers k hkp).1.symm
      · rw [update_of_ne hm]
  case after =>
    intro k m
    by_cases hkp : k = p
    · rw [hkp, hpartyS, hafter m]
      by_cases hm : m = j
      · simp [hm]
      · rw [update_of_ne hm, ← h.after p m]
        exact iff_of_false (fun hc => hm hc.1) (fun hc => hm (hhadA m hc))
    · rw [hpartyO k hkp, h.after k m]
      by_cases hm : m = j
      · rw [hm, update_self]
        exact (hothers k hkp).2.symm
      · rw [update_of_ne hm]
  case wait =>
    intro k
    by_cases hkj : k = j
    · rw [hkj, hself, update_self]
      exact hwait
    · rw [hother k hkj, update_of_ne hkj]
      exact h.wait k
  case result =>
    intro k
    by_cases hkj : k = j
    · rw [hkj, hself, update_self]
      exact hresult
    · rw [hother k hkj, update_of_ne hkj]
      exact h.result k
  case parked =>
    intro k
    by_cases hkj : k = j
    · rw [hkj, hself]
      exact hparked
    · rw [hother k hkj]
      exact h.parked k
  case waking =>
    intro p' k hk
    by_cases hkj : k = j
    · rw [hkj, update_self] at hk
      rw [hkj, hself]
      exact hwaking p' hk
    · rw [update_of_ne hkj] at hk
      rw [hother k hkj]
      exact h.waking p' k hk
  case past =>
    intro k
    by_cases hkj : k = j
    · rw [hkj, hself]
      exact hpast
    · rw [hother k hkj]
      exact h.past k
  case ends =>
    intro k
    by_cases hkj : k = j
    · rw [hkj, hself, update_self]
      exact fun hk => .inl (hends hk)
    · rw [hother k hkj, update_of_ne hkj]
      exact h.ends k

def Stage.idle : Stage → Bool
  | .out | .kernel | .posted => true
  | _ => false

theorem Stage.idle_ne (h : v.idle = true) :
    v.done = false ∧ v.claimed = false ∧ (∀ p, v ≠ .held p) ∧ (∀ p, v ≠ .waking p) ∧
      v ≠ .finished := by
  cases v <;> simp_all [Stage.idle, Stage.done, Stage.claimed]

theorem Staged.lt_next (h : Staged s st)
    (hj : (s.frames j).pc ≠ .unborn ∨ st j ≠ .out) : j < s.next := by
  by_contra hlt
  obtain ⟨hpc, hst⟩ := h.fresh j (by omega)
  rcases hj with hj | hj
  · exact hj hpc
  · exact hj hst

/-- The operation `j` is submitted, or the kernel posts its completion. -/
theorem Staged.feed (h : Staged s st)
    (hframes : t.frames = update s.frames j F) (hparty : t.party = s.party)
    (hnext : t.next = s.next) (hparties : t.parties = s.parties)
    (hkernel : ∀ k, t.kernel k = true ↔ update st j v k = .kernel)
    (hqueue : ∀ r, Queued (t.cq r) (t.head r) fun k =>
      update st j v k = .posted ∧ (s.frames k).hub = r)
    (hcq : ∀ r (i : ℕ) x, (s.cq r)[i]? = some x → (t.cq r)[i]? = some x)
    (hborn : j < s.next) (hold : (st j).idle = true) (hnew : v.idle = true)
    (hhub : F.hub = (s.frames j).hub) (hres : F.result = (s.frames j).result)
    (hwait : F.wait = (s.frames j).wait) (hsubmit : F.pc ≠ .submit)
    (hzone : F.pc.zone = (s.frames j).pc.zone) (hpast : F.pc.past = (s.frames j).pc.past)
    (hends : F.pc.ends = false) : Staged t (update st j v) := by
  obtain ⟨hdone, hclaimed, hheld, hwaking, -⟩ := Stage.idle_ne hold
  obtain ⟨hdone', hclaimed', hheld', hwaking', -⟩ := Stage.idle_ne hnew
  have hself : t.frames j = F := by rw [hframes, update_self]
  have hother : ∀ k, k ≠ j → t.frames k = s.frames k := by
    intro k hk
    rw [hframes, update_of_ne hk]
  have hhubs : ∀ k, (t.frames k).hub = (s.frames k).hub := by
    intro k
    by_cases hk : k = j
    · rw [hk, hself, hhub]
    · rw [hother k hk]
  constructor
  case fresh =>
    intro k hk
    rw [hnext] at hk
    have hkj : k ≠ j := by omega
    rw [hother k hkj, update_of_ne hkj]
    exact h.fresh k hk
  case young => rw [hparties, hparty]; exact h.young
  case early =>
    intro k hk
    by_cases hkj : k = j
    · rw [hkj, hself] at hk
      exact absurd hk hsubmit
    · rw [hother k hkj] at hk
      rw [update_of_ne hkj]
      exact h.early k hk
  case kernel => exact hkernel
  case queue =>
    intro r
    simp only [hhubs]
    exact hqueue r
  case right =>
    intro k
    rw [hparty]
    exact Party.right_mono (h.right k) hcq
  case before =>
    intro p k
    rw [hparty, h.before p k]
    by_cases hkj : k = j
    · rw [hkj, update_self]
      exact iff_of_false (hheld p) (hheld' p)
    · rw [update_of_ne hkj]
  case after =>
    intro p k
    rw [hparty, h.after p k]
    by_cases hkj : k = j
    · rw [hkj, update_self]
      exact iff_of_false (hwaking p) (hwaking' p)
    · rw [update_of_ne hkj]
  case wait =>
    intro k
    by_cases hkj : k = j
    · rw [hkj, hself, update_self, hwait, h.wait j, hdone, hdone']
    · rw [hother k hkj, update_of_ne hkj]
      exact h.wait k
  case result =>
    intro k
    by_cases hkj : k = j
    · rw [hkj, hself, hres]
      intro hne
      rw [h.result j hne] at hclaimed
      cases hclaimed
    · rw [hother k hkj, update_of_ne hkj]
      exact h.result k
  case parked =>
    intro k
    by_cases hkj : k = j
    · rw [hkj, hself, hwait, hzone]
      exact h.parked j
    · rw [hother k hkj]
      exact h.parked k
  case waking =>
    intro p k hk
    by_cases hkj : k = j
    · rw [hkj, update_self] at hk
      exact absurd hk (hwaking' p)
    · rw [update_of_ne hkj] at hk
      rw [hother k hkj]
      exact h.waking p k hk
  case past =>
    intro k
    by_cases hkj : k = j
    · rw [hkj, hself, hpast, hres]
      exact h.past j
    · rw [hother k hkj]
      exact h.past k
  case ends =>
    intro k
    by_cases hkj : k = j
    · rw [hkj, hself, hends]
      rintro ⟨⟩
    · rw [hother k hkj, update_of_ne hkj]
      exact h.ends k

/-- A new call. -/
theorem Staged.call (h : Staged s st) {f : ℕ}
    (hframes : t.frames =
      update s.frames s.next { blank with g := f, hub := r, pc := .submit })
    (hnext : t.next = s.next + 1) (hparty : t.party = s.party) (hparties : t.parties = s.parties)
    (hkernel : t.kernel = s.kernel) (hcq : t.cq = s.cq) (hhead : t.head = s.head) :
    Staged t st := by
  have hout : st s.next = .out := (h.fresh _ (Nat.le_refl _)).2
  have hself : t.frames s.next = { blank with g := f, hub := r, pc := .submit } := by
    rw [hframes, update_self]
  have hother : ∀ k, st k ≠ .out → t.frames k = s.frames k := by
    intro k hk
    have hkn : k ≠ s.next := by
      rintro rfl
      exact hk hout
    rw [hframes, update_of_ne hkn]
  have hcases : ∀ k, k = s.next ∨ t.frames k = s.frames k := by
    intro k
    by_cases hk : k = s.next
    · exact .inl hk
    · right
      rw [hframes, update_of_ne hk]
  constructor
  case fresh =>
    intro k hk
    rw [hnext] at hk
    rw [hframes, update_of_ne (by omega)]
    exact h.fresh k (by omega)
  case young => rw [hparties, hparty]; exact h.young
  case early =>
    intro k hk
    rcases hcases k with hkn | hkf
    · rw [hkn]
      exact hout
    · rw [hkf] at hk
      exact h.early k hk
  case kernel => rw [hkernel]; exact h.kernel
  case queue =>
    intro q
    rw [hcq, hhead]
    apply (h.queue q).mono
    intro k hk
    rw [hother k (by simp [hk.1])]
    exact hk
  case right => rw [hparty, hcq]; exact h.right
  case before => rw [hparty]; exact h.before
  case after => rw [hparty]; exact h.after
  case wait =>
    intro k
    rcases hcases k with hkn | hkf
    · rw [hkn, hself, hout]
      simp [blank, Stage.done]
    · rw [hkf]
      exact h.wait k
  case result =>
    intro k
    rcases hcases k with hkn | hkf
    · rw [hkn, hself]
      simp [blank]
    · rw [hkf]
      exact h.result k
  case parked =>
    intro k
    rcases hcases k with hkn | hkf
    · rw [hkn, hself]
      simp [blank]
    · rw [hkf]
      exact h.parked k
  case waking =>
    intro p k hk
    rw [hother k (by simp [hk])]
    exact h.waking p k hk
  case past =>
    intro k
    rcases hcases k with hkn | hkf
    · rw [hkn, hself]
      rintro ⟨⟩
    · rw [hkf]
      exact h.past k
  case ends =>
    intro k
    rcases hcases k with hkn | hkf
    · rw [hkn, hself]
      rintro ⟨⟩
    · rw [hkf]
      exact h.ends k

theorem Staged.kernel_update (h : Staged s st)
    (hst : st j ≠ .kernel) (hv : v ≠ .kernel) (k : ℕ) :
    s.kernel k = true ↔ update st j v k = .kernel := by
  rw [h.kernel k]
  by_cases hkj : k = j
  · rw [hkj, update_self]
    exact iff_of_false hst hv
  · rw [update_of_ne hkj]

theorem Staged.queue_update (h : Staged s st)
    (hst : st j ≠ .posted) (r : ℕ) :
    Queued (s.cq r) (s.head r) fun k =>
      update st j v k = .posted ∧ (s.frames k).hub = r := by
  apply (h.queue r).mono
  intro k hk
  have hkj : k ≠ j := by
    rintro rfl
    exact hst hk.1
  rw [update_of_ne hkj]
  exact hk

/-! ## Who else has a record -/

structure Zoned (s : State) : Prop where
  slot : ∀ f j, s.slot f = some j → (s.frames j).g = f ∧ (s.frames j).pc.zone = true
  mailbox : ∀ r j, s.mailbox r = some j → (s.frames j).hub = r ∧ (s.frames j).pc.zone = true
  hub : ∀ r j, (s.hub r).has = some j → (s.frames j).hub = r ∧ (s.frames j).pc.zone = true
  cancels : ∀ p j, (s.party p).cancels = some j → (s.frames j).pc.zone = true
  deposit : ∀ p r j, s.party p = .deposit r j → (s.frames j).hub = r
  stale : s.stale = false

/-- A step of call `j` that keeps its record in place. -/
theorem Zoned.move (h : Zoned s)
    (hframes : t.frames = update s.frames j F) (hg : F.g = (s.frames j).g)
    (hhub : F.hub = (s.frames j).hub)
    (hzone : (s.frames j).pc.zone = true → F.pc.zone = true)
    (hhubs : t.hub = s.hub) (hparty : t.party = s.party) (hstale : t.stale = s.stale)
    (hslot : ∀ f k, t.slot f = some k → s.slot f = some k ∨ k = j ∧ F.g = f ∧ F.pc.zone = true)
    (hmail : ∀ r k, t.mailbox r = some k →
      s.mailbox r = some k ∨ k = j ∧ F.hub = r ∧ F.pc.zone = true) : Zoned t := by
  have hself : t.frames j = F := by rw [hframes, update_self]
  have hother : ∀ k, k ≠ j → t.frames k = s.frames k := by
    intro k hk
    rw [hframes, update_of_ne hk]
  have hsame : ∀ k, (t.frames k).g = (s.frames k).g ∧ (t.frames k).hub = (s.frames k).hub ∧
      ((s.frames k).pc.zone = true → (t.frames k).pc.zone = true) := by
    intro k
    by_cases hk : k = j
    · rw [hk, hself]
      exact ⟨hg, hhub, hzone⟩
    · rw [hother k hk]
      exact ⟨rfl, rfl, id⟩
  constructor
  case slot =>
    intro f k hk
    rcases hslot f k hk with hs | ⟨rfl, hf, hz⟩
    · exact ⟨(hsame k).1.trans (h.slot f k hs).1, (hsame k).2.2 (h.slot f k hs).2⟩
    · rw [hself]
      exact ⟨hf, hz⟩
  case mailbox =>
    intro r k hk
    rcases hmail r k hk with hs | ⟨rfl, hf, hz⟩
    · exact ⟨(hsame k).2.1.trans (h.mailbox r k hs).1, (hsame k).2.2 (h.mailbox r k hs).2⟩
    · rw [hself]
      exact ⟨hf, hz⟩
  case hub =>
    intro r k hk
    rw [hhubs] at hk
    exact ⟨(hsame k).2.1.trans (h.hub r k hk).1, (hsame k).2.2 (h.hub r k hk).2⟩
  case cancels =>
    intro p k hk
    rw [hparty] at hk
    exact (hsame k).2.2 (h.cancels p k hk)
  case deposit =>
    intro p r k hk
    rw [hparty] at hk
    exact (hsame k).2.1.trans (h.deposit p r k hk)
  case stale => exact hstale.trans h.stale

/-- A step of a party that leaves every call where it is. -/
theorem Zoned.act (h : Zoned s)
    (hparty : t.party = update s.party p q)
    (hframes : ∀ k, (t.frames k).g = (s.frames k).g ∧ (t.frames k).hub = (s.frames k).hub ∧
      (t.frames k).pc = (s.frames k).pc)
    (hslot : t.slot = s.slot) (hhub : t.hub = s.hub) (hstale : t.stale = s.stale)
    (hmail : ∀ r k, t.mailbox r = some k →
      s.mailbox r = some k ∨ (s.frames k).hub = r ∧ (s.frames k).pc.zone = true)
    (hcancels : ∀ k, q.cancels = some k → (s.frames k).pc.zone = true)
    (hdeposit : ∀ r k, q = .deposit r k → (s.frames k).hub = r) : Zoned t := by
  have hself : t.party p = q := by rw [hparty, update_self]
  have hother : ∀ k, k ≠ p → t.party k = s.party k := by
    intro k hk
    rw [hparty, update_of_ne hk]
  constructor
  case slot =>
    intro f k hk
    rw [hslot] at hk
    rw [(hframes k).1, (hframes k).2.2]
    exact h.slot f k hk
  case mailbox =>
    intro r k hk
    rw [(hframes k).2.1, (hframes k).2.2]
    rcases hmail r k hk with hs | hz
    · exact h.mailbox r k hs
    · exact hz
  case hub =>
    intro r k hk
    rw [hhub] at hk
    rw [(hframes k).2.1, (hframes k).2.2]
    exact h.hub r k hk
  case cancels =>
    intro m k hk
    rw [(hframes k).2.2]
    by_cases hmp : m = p
    · rw [hmp, hself] at hk
      exact hcancels k hk
    · rw [hother m hmp] at hk
      exact h.cancels m k hk
  case deposit =>
    intro m r k hk
    rw [(hframes k).2.1]
    by_cases hmp : m = p
    · rw [hmp, hself] at hk
      exact hdeposit r k hk
    · rw [hother m hmp] at hk
      exact h.deposit m r k hk
  case stale => exact hstale.trans h.stale

/-- A step of a hub. -/
theorem Zoned.turn (h : Zoned s) {q : Hub}
    (hhub : t.hub = update s.hub r q) (hframes : t.frames = s.frames)
    (hslot : t.slot = s.slot) (hparty : t.party = s.party) (hstale : t.stale = s.stale)
    (hmail : ∀ r k, t.mailbox r = some k → s.mailbox r = some k)
    (hq : ∀ k, q.has = some k → (s.frames k).hub = r ∧ (s.frames k).pc.zone = true) : Zoned t := by
  constructor
  case slot => rw [hslot, hframes]; exact h.slot
  case mailbox =>
    intro m k hk
    rw [hframes]
    exact h.mailbox m k (hmail m k hk)
  case hub =>
    intro m k hk
    rw [hframes]
    rw [hhub] at hk
    by_cases hm : m = r
    · rw [hm, update_self] at hk
      rw [hm]
      exact hq k hk
    · rw [update_of_ne hm] at hk
      exact h.hub m k hk
  case cancels => rw [hparty, hframes]; exact h.cancels
  case deposit => rw [hparty, hframes]; exact h.deposit
  case stale => exact hstale.trans h.stale

/-- A new call: nobody has the address of its record yet. -/
theorem Zoned.call (h : Zoned s)
    (hframes : t.frames = update s.frames s.next F)
    (hfresh : (s.frames s.next).pc = .unborn) (hslot : t.slot = s.slot)
    (hmail : t.mailbox = s.mailbox) (hhub : t.hub = s.hub) (hparty : t.party = s.party)
    (hstale : t.stale = s.stale) : Zoned t := by
  have hother : ∀ k, (s.frames k).pc.zone = true → t.frames k = s.frames k := by
    intro k hk
    have hkn : k ≠ s.next := by
      rintro rfl
      rw [hfresh] at hk
      cases hk
    rw [hframes, update_of_ne hkn]
  constructor
  case slot =>
    intro f k hk
    rw [hslot] at hk
    rw [hother k (h.slot f k hk).2]
    exact h.slot f k hk
  case mailbox =>
    intro r k hk
    rw [hmail] at hk
    rw [hother k (h.mailbox r k hk).2]
    exact h.mailbox r k hk
  case hub =>
    intro r k hk
    rw [hhub] at hk
    rw [hother k (h.hub r k hk).2]
    exact h.hub r k hk
  case cancels =>
    intro p k hk
    rw [hparty] at hk
    rw [hother k (h.cancels p k hk)]
    exact h.cancels p k hk
  case deposit =>
    intro p r k hk
    rw [hparty] at hk
    rw [hother k (h.cancels p k (by rw [hk]; rfl))]
    exact h.deposit p r k hk
  case stale => exact hstale.trans h.stale

/-! ## The steps of a call -/

theorem Pc.not_over_of_zone {q : Pc} (h : q.zone = true) : q.over = false := by
  cases q <;> first | rfl | cases h

theorem Pc.not_over_of_ends {q : Pc} (h : q.ends = false) : q.over = false := by
  cases q <;> first | rfl | cases h

/-- An access to the record of a call that has not returned. -/
theorem State.touch_eq (h : (s.frames j).pc.over = false) : s.touch j = s := by
  unfold State.touch
  rw [h, Bool.or_false]

/-- The invariant, with the stages of the operations. -/
structure Safe (s : State) (st : ℕ → Stage) : Prop where
  staged : Staged s st
  zoned : Zoned s

/-- A step of a call that changes neither its record nor where it can be found. -/
theorem Safe.move (h : Safe s st)
    (hframes : t.frames = update s.frames j F) (hnext : t.next = s.next)
    (hkernel : t.kernel = s.kernel) (hcq : t.cq = s.cq) (hhead : t.head = s.head)
    (hparty : t.party = s.party) (hparties : t.parties = s.parties) (hhubs : t.hub = s.hub)
    (hstale : t.stale = s.stale) (hborn : (s.frames j).pc ≠ .unborn)
    (hg : F.g = (s.frames j).g) (hhub : F.hub = (s.frames j).hub)
    (hres : F.result = (s.frames j).result) (hwait : F.wait = (s.frames j).wait)
    (hsubmit : F.pc ≠ .submit) (hzone : (s.frames j).pc.zone = true → F.pc.zone = true)
    (hpast : F.pc.past = true → F.result ≠ none)
    (hends : F.pc.ends = true → st j = .finished ∨ st j = .out)
    (hslot : ∀ f k, t.slot f = some k → s.slot f = some k ∨ k = j ∧ F.g = f ∧ F.pc.zone = true)
    (hmail : ∀ r k, t.mailbox r = some k →
      s.mailbox r = some k ∨ k = j ∧ F.hub = r ∧ F.pc.zone = true) : Safe t st :=
  { staged := h.staged.move hframes hnext hkernel hcq hhead hparty hparties hborn hhub hres hsubmit
      (by rw [hwait]; exact h.staged.wait j)
      (by rw [hwait]; exact fun hp => hzone (h.staged.parked j hp))
      (fun p hp => hzone (h.staged.waking p j hp)) hpast hends
    zoned := h.zoned.move hframes hg hhub hzone hhubs hparty hstale hslot hmail }

/-- The call goes on, with nothing else changed. -/
theorem Safe.goto (h : Safe s st) {q : Pc}
    (hborn : (s.frames j).pc ≠ .unborn) (hsubmit : q ≠ .submit)
    (hzone : (s.frames j).pc.zone = true → q.zone = true)
    (hpast : q.past = true → (s.frames j).result ≠ none)
    (hends : q.ends = true → st j = .finished ∨ st j = .out) : Safe (s.goto j q) st :=
  h.move rfl rfl rfl rfl rfl rfl rfl rfl rfl hborn rfl rfl rfl rfl hsubmit hzone hpast hends
    (fun _ _ hk => .inl hk) (fun _ _ hk => .inl hk)

theorem Safe.finish (h : Safe s st) {r : ℤ}
    (hborn : (s.frames j).pc ≠ .unborn) (hzone : (s.frames j).pc.zone = false)
    (hends : st j = .finished ∨ st j = .out) : Safe (s.finish j r) st :=
  h.move rfl rfl rfl rfl rfl rfl rfl rfl rfl hborn rfl rfl rfl rfl (by rintro ⟨⟩)
    (fun hz => absurd (hz.symm.trans hzone) (by rintro ⟨⟩)) (by rintro ⟨⟩) (fun _ => hends)
    (fun _ _ hk => .inl hk) (fun _ _ hk => .inl hk)

/-- The exchange is made and the call was not parked: nobody has the operation. -/
theorem Safe.finished (h : Safe s st)
    (hzone : (s.frames j).pc.zone = false) (hwait : (s.frames j).wait = .done) :
    st j = .finished := by
  have hdone := (h.staged.wait j).mp hwait
  cases hst : st j with
  | waking p =>
    rw [h.staged.waking p j hst] at hzone
    cases hzone
  | finished => rfl
  | out => rw [hst] at hdone; cases hdone
  | kernel => rw [hst] at hdone; cases hdone
  | posted => rw [hst] at hdone; cases hdone
  | held p => rw [hst] at hdone; cases hdone

theorem Safe.submit (h : Safe s st)
    (hpc : (s.frames j).pc = .submit) :
    Safe { s.goto j .loadWait with kernel := update s.kernel j true }
      (update st j .kernel) := by
  have hout : st j = .out := h.staged.early j hpc
  constructor
  case zoned =>
    exact h.zoned.move rfl rfl rfl (by rw [hpc]; rintro ⟨⟩) rfl rfl rfl
      (fun _ _ hk => .inl hk) (fun _ _ hk => .inl hk)
  case staged =>
    refine h.staged.feed (F := { s.frames j with pc := .loadWait }) (v := .kernel)
      rfl rfl rfl rfl ?_ ?_ (fun _ _ _ hk => hk) (h.staged.lt_next (.inl (by simp [hpc])))
      (by rw [hout]; rfl) rfl rfl rfl rfl (by rintro ⟨⟩) (by rw [hpc]; rfl) (by rw [hpc]; rfl) rfl
    · intro k
      by_cases hk : k = j
      · simp [hk]
      · simp only [update_of_ne hk]
        exact h.staged.kernel k
    · exact h.staged.queue_update (by simp [hout])

theorem Safe.commit (h : Safe s st)
    (hpc : (s.frames j).pc = .commit) (hwait : (s.frames j).wait = .inflight) :
    Safe (s.set j { s.frames j with wait := .parked, pc := .publish }) st := by
  have hdone : (st j).done = false := by
    rw [← Bool.not_eq_true, ← h.staged.wait j, hwait]
    rintro ⟨⟩
  constructor
  case zoned =>
    exact h.zoned.move rfl rfl rfl (fun _ => rfl) rfl rfl rfl (fun _ _ hk => .inl hk)
      (fun _ _ hk => .inl hk)
  case staged =>
    exact h.staged.move rfl rfl rfl rfl rfl rfl rfl (by simp [hpc]) rfl rfl (by rintro ⟨⟩)
      (by simp [hdone]) (fun _ => rfl) (fun _ _ => rfl) (by rintro ⟨⟩) (by rintro ⟨⟩)

/-- Nobody has the record that a call withdraws. -/
theorem held_eq_false (h : held s j = false)
    (hyoung : ∀ p, s.parties ≤ p → s.party p = .done) :
    (∀ p, (s.party p).has ≠ some j) ∧ (s.hub (s.frames j).hub).has ≠ some j ∧
      s.mailbox (s.frames j).hub ≠ some j := by
  simp only [held, Bool.or_eq_false_iff, List.any_eq_false, List.mem_range, beq_iff_eq,
    beq_eq_false_iff_ne] at h
  obtain ⟨⟨hparty, hhub⟩, hmail⟩ := h
  refine ⟨fun p => ?_, hhub, hmail⟩
  by_cases hp : p < s.parties
  · exact hparty p hp
  · rw [hyoung p (by omega)]
    rintro ⟨⟩

theorem Party.has_of_before (h : q.before = some j) : q.has = some j := by
  cases q <;> first | exact h | cases h

theorem Party.has_of_after (h : q.after = some j) : q.has = some j := by
  cases q <;> first | exact h | cases h

theorem Party.has_of_cancels (h : q.cancels = some j) : q.has = some j := by
  cases q <;> first | exact h | cases h

theorem Safe.clear (h : Safe s st)
    (hpc : (s.frames j).pc = .clear) (hheld : held s j = false) :
    Safe { s.goto j .leave with slot := update s.slot (s.frames j).g none } st := by
  obtain ⟨hparty, hhub, hmail⟩ := held_eq_false hheld h.staged.young
  have hfin : st j = .finished := by
    have hres := h.staged.result j (h.staged.past j (by rw [hpc]; rfl))
    cases hst : st j with
    | finished => rfl
    | held p => exact absurd (Party.has_of_before ((h.staged.before p j).mpr hst)) (hparty p)
    | waking p => exact absurd (Party.has_of_after ((h.staged.after p j).mpr hst)) (hparty p)
    | out => rw [hst] at hres; cases hres
    | kernel => rw [hst] at hres; cases hres
    | posted => rw [hst] at hres; cases hres
  constructor
  case staged =>
    have hwait : (s.frames j).wait = .done := (h.staged.wait j).mpr (by rw [hfin]; rfl)
    exact h.staged.move rfl rfl rfl rfl rfl rfl rfl (by simp [hpc]) rfl rfl (by rintro ⟨⟩)
      (h.staged.wait j) (by simp [hwait]) (by simp [hfin]) (by rintro ⟨⟩) (fun _ => .inl hfin)
  case zoned =>
    have hother : ∀ k, k ≠ j → (s.goto j .leave).frames k = s.frames k := by
      intro k hk
      exact update_of_ne hk _ _
    constructor
    case slot =>
      intro f k hk
      have hf : f ≠ (s.frames j).g := by
        rintro rfl
        simp at hk
      simp only [update_of_ne hf] at hk
      have hkj : k ≠ j := by
        rintro rfl
        exact hf (h.zoned.slot f k hk).1.symm
      dsimp only
      rw [hother k hkj]
      exact h.zoned.slot f k hk
    case mailbox =>
      intro r k hk
      have hkj : k ≠ j := by
        rintro rfl
        obtain ⟨hr, -⟩ := h.zoned.mailbox r k hk
        rw [hr] at hmail
        exact hmail hk
      dsimp only
      rw [hother k hkj]
      exact h.zoned.mailbox r k hk
    case hub =>
      intro r k hk
      have hkj : k ≠ j := by
        rintro rfl
        obtain ⟨hr, -⟩ := h.zoned.hub r k hk
        rw [hr] at hhub
        exact hhub hk
      dsimp only
      rw [hother k hkj]
      exact h.zoned.hub r k hk
    case cancels =>
      intro p k hk
      have hkj : k ≠ j := by
        rintro rfl
        exact hparty p (Party.has_of_cancels hk)
      dsimp only
      rw [hother k hkj]
      exact h.zoned.cancels p k hk
    case deposit =>
      intro p r k hk
      have hkj : k ≠ j := by
        rintro rfl
        have hk' : s.party p = .deposit r k := hk
        exact hparty p (by rw [hk']; rfl)
      dsimp only
      rw [hother k hkj]
      exact h.zoned.deposit p r k hk
    case stale => exact h.zoned.stale

theorem Safe.advance (h : Safe s st)
    (hok : (s.frames j).pc = .clear → held s j = false) (hs : advance s j = some t) :
    ∃ st', Safe t st' := by
  have hends := h.staged.ends j
  have hpast := h.staged.past j
  dsimp only [Ring.advance] at hs
  split at hs
  case h_1 hpc =>
    cases hs
    exact ⟨_, h.submit hpc⟩
  case h_2 hpc =>
    have hzone : (s.frames j).pc.zone = false := by rw [hpc]; rfl
    cases hs
    split
    case isTrue hwait =>
      exact ⟨st, h.goto (by simp [hpc]) (by rintro ⟨⟩) (by simp [hzone]) (by rintro ⟨⟩)
        (fun _ => .inl (h.finished hzone hwait))⟩
    case isFalse => exact ⟨st, h.goto (by simp [hpc]) (by rintro ⟨⟩) (by simp [hzone]) (by rintro ⟨⟩) (by rintro ⟨⟩)⟩
  case h_3 hpc =>
    have hzone : (s.frames j).pc.zone = false := by rw [hpc]; rfl
    cases hs
    split
    case isTrue hwait => exact ⟨st, h.commit hpc hwait⟩
    case isFalse hwait =>
      have hdone : (s.frames j).wait = .done := by
        cases hw : (s.frames j).wait with
        | inflight => exact absurd hw hwait
        | parked =>
          rw [h.staged.parked j hw] at hzone
          cases hzone
        | done => rfl
      exact ⟨st, h.goto (by simp [hpc]) (by rintro ⟨⟩) (by simp [hzone]) (by rintro ⟨⟩)
        (fun _ => .inl (h.finished hzone hdone))⟩
  case h_4 hpc =>
    cases hs
    exact ⟨st, h.finish (by simp [hpc]) (by rw [hpc]; rfl) (hends (by rw [hpc]; rfl))⟩
  case h_5 hpc =>
    cases hs
    refine ⟨st, h.move rfl rfl rfl rfl rfl rfl rfl rfl rfl (by simp [hpc]) rfl rfl rfl rfl (by rintro ⟨⟩)
      (fun _ => rfl) (by rintro ⟨⟩) (by rintro ⟨⟩) (fun f k hk => ?_) (fun _ _ hk => .inl hk)⟩
    by_cases hf : f = (s.frames j).g
    · rw [hf] at hk ⊢
      simp only [update_self, Option.some.injEq] at hk
      exact .inr ⟨hk.symm, rfl, rfl⟩
    · simp only [update_of_ne hf] at hk
      exact .inl hk
  case h_6 hpc =>
    cases hs
    exact ⟨st, h.goto (by simp [hpc]) (by rintro ⟨⟩) (fun _ => rfl) (by rintro ⟨⟩) (by rintro ⟨⟩)⟩
  case h_7 hpc =>
    cases hs
    exact ⟨st, h.goto (by simp [hpc]) (by rintro ⟨⟩) (fun _ => rfl) (by rintro ⟨⟩) (by rintro ⟨⟩)⟩
  case h_8 hpc =>
    cases hs
    split
    · exact ⟨st, h.move rfl rfl rfl rfl rfl rfl rfl rfl rfl (by simp [hpc]) rfl rfl rfl rfl (by rintro ⟨⟩)
        (fun _ => rfl) (by rintro ⟨⟩) (by rintro ⟨⟩) (fun _ _ hk => .inl hk) (fun _ _ hk => .inl hk)⟩
    · exact ⟨st, h.goto (by simp [hpc]) (by rintro ⟨⟩) (fun _ => rfl) (by rintro ⟨⟩) (by rintro ⟨⟩)⟩
  case h_9 hpc =>
    cases hs
    split
    case isTrue => exact ⟨st, h.goto (by simp [hpc]) (by rintro ⟨⟩) (fun _ => rfl) (by rintro ⟨⟩) (by rintro ⟨⟩)⟩
    case isFalse hres =>
      split
      · exact ⟨st, h.goto (by simp [hpc]) (by rintro ⟨⟩) (fun _ => rfl) (fun _ => hres) (by rintro ⟨⟩)⟩
      · exact ⟨st, h.goto (by simp [hpc]) (by rintro ⟨⟩) (fun _ => rfl) (fun _ => hres) (by rintro ⟨⟩)⟩
  case h_10 hpc =>
    cases hs
    refine ⟨st, h.move rfl rfl rfl rfl rfl rfl rfl rfl rfl (by simp [hpc]) rfl rfl rfl rfl (by rintro ⟨⟩)
      (fun _ => rfl) (fun _ => hpast (by rw [hpc]; rfl)) (by rintro ⟨⟩) (fun _ _ hk => .inl hk)
      (fun r k hk => ?_)⟩
    dsimp only at hk
    split at hk
    · by_cases hr : r = (s.frames j).hub
      · rw [hr, update_self] at hk
        cases hk
      · rw [update_of_ne hr] at hk
        exact .inl hk
    · exact .inl hk
  case h_11 hpc =>
    cases hs
    exact ⟨st, h.goto (by simp [hpc]) (by rintro ⟨⟩) (fun _ => rfl) (fun _ => hpast (by rw [hpc]; rfl)) (by rintro ⟨⟩)⟩
  case h_12 hpc =>
    cases hs
    exact ⟨st, h.clear hpc (hok hpc)⟩
  case h_13 hpc =>
    cases hs
    exact ⟨st, h.finish (by simp [hpc]) (by rw [hpc]; rfl) (hends (by rw [hpc]; rfl))⟩
  case h_14 => cases hs

theorem Safe.away (h : Safe s st)
    (hs : away s j = some t) : Safe t st := by
  dsimp only [Ring.away] at hs
  split at hs
  case isTrue hpc =>
    obtain ⟨hpc, -, -⟩ := hpc
    cases hs
    split
    · refine h.move rfl rfl rfl rfl rfl rfl rfl rfl rfl (by simp [hpc]) rfl rfl rfl rfl (by rintro ⟨⟩)
        (fun _ => rfl) (by rintro ⟨⟩) (by rintro ⟨⟩) (fun _ _ hk => .inl hk) (fun r k hk => ?_)
      by_cases hr : r = (s.frames j).hub
      · rw [hr] at hk ⊢
        simp only [update_self, Option.some.injEq] at hk
        exact .inr ⟨hk.symm, rfl, rfl⟩
      · simp only [update_of_ne hr] at hk
        exact .inl hk
    · exact h.goto (by simp [hpc]) (by rintro ⟨⟩) (fun _ => rfl) (by rintro ⟨⟩) (by rintro ⟨⟩)
  case isFalse => cases hs

theorem Safe.post (h : Safe s st) {r : ℤ}
    (hk : s.kernel j = true) :
    Safe { s with
      kernel := update s.kernel j false
      cq := update s.cq (s.frames j).hub (s.cq (s.frames j).hub ++ [(j, r)]) }
      (update st j .posted) := by
  have hst : st j = .kernel := (h.staged.kernel j).mp hk
  have hsubmit : (s.frames j).pc ≠ .submit := by
    intro hu
    rw [h.staged.early j hu] at hst
    cases hst
  have hends : (s.frames j).pc.ends = false := by
    rw [← Bool.not_eq_true]
    intro he
    rcases h.staged.ends j he with hf | hf
    · rw [hst] at hf
      cases hf
    · rw [hst] at hf
      cases hf
  constructor
  case zoned =>
    exact { slot := h.zoned.slot, mailbox := h.zoned.mailbox, hub := h.zoned.hub
            cancels := h.zoned.cancels, deposit := h.zoned.deposit, stale := h.zoned.stale }
  case staged =>
    refine h.staged.feed (F := s.frames j) (v := .posted) (update_eq_self j s.frames).symm
      rfl rfl rfl ?_ ?_ ?_ (h.staged.lt_next (.inr (by simp [hst]))) (by rw [hst]; rfl) rfl rfl rfl
      rfl hsubmit rfl rfl hends
    · intro k
      by_cases hkj : k = j
      · simp [hkj]
      · simp only [update_of_ne hkj]
        exact h.staged.kernel k
    · intro q
      have hmono : ∀ k, st k = .posted ∧ (s.frames k).hub = q →
          update st j .posted k = .posted ∧ (s.frames k).hub = q := by
        intro k hkq
        by_cases hkj : k = j
        · rw [hkj, update_self]
          exact ⟨rfl, hkj ▸ hkq.2⟩
        · rw [update_of_ne hkj]
          exact hkq
      by_cases hq : q = (s.frames j).hub
      · subst hq
        simp only [update_self]
        exact (h.staged.queue _).append (by simp [hst]) hmono ⟨update_self .., rfl⟩
      · simp only [update_of_ne hq]
        exact (h.staged.queue q).mono hmono
    · intro q i x hx
      by_cases hq : q = (s.frames j).hub
      · subst hq
        simp only [update_self]
        have hlt : i < (s.cq (s.frames j).hub).length := (List.getElem?_eq_some_iff.mp hx).1
        rw [List.getElem?_append_left hlt]
        exact hx
      · simp only [update_of_ne hq]
        exact hx

/-! ## The steps of the others -/

/-- Before the exchange the call has not returned. -/
theorem Safe.live_before (h : Safe s st)
    (hp : (s.party p).before = some j) : st j = .held p ∧ (s.frames j).pc.over = false := by
  have hst := (h.staged.before p j).mp hp
  refine ⟨hst, Pc.not_over_of_ends ?_⟩
  rw [← Bool.not_eq_true]
  intro he
  rcases h.staged.ends j he with hf | hf
  · rw [hst] at hf
    cases hf
  · rw [hst] at hf
    cases hf

theorem Safe.live_after (h : Safe s st)
    (hp : (s.party p).after = some j) : st j = .waking p ∧ (s.frames j).pc.over = false := by
  have hst := (h.staged.after p j).mp hp
  exact ⟨hst, Pc.not_over_of_zone (h.staged.waking p j hst)⟩

theorem Safe.lt_parties (h : Safe s st)
    (hp : s.party p ≠ .done) : p < s.parties := by
  by_contra hlt
  exact hp (h.staged.young p (by omega))

/-- A party goes on with what it has in hand, or lets go of it. -/
theorem Safe.act (h : Safe s st)
    (hparty : t.party = update s.party p q) (hframes : t.frames = s.frames)
    (hnext : t.next = s.next) (hkernel : t.kernel = s.kernel) (hcq : t.cq = s.cq)
    (hhead : t.head = s.head) (hparties : s.parties ≤ t.parties) (hp : p < t.parties)
    (hslot : t.slot = s.slot) (hhub : t.hub = s.hub) (hstale : t.stale = s.stale)
    (hmail : ∀ r k, t.mailbox r = some k →
      s.mailbox r = some k ∨ (s.frames k).hub = r ∧ (s.frames k).pc.zone = true)
    (hright : q.right s.cq) (hbefore : q.before = (s.party p).before)
    (hafter : q.after = (s.party p).after)
    (hcancels : ∀ k, q.cancels = some k → (s.frames k).pc.zone = true)
    (hdeposit : ∀ r k, q = .deposit r k → (s.frames k).hub = r) : Safe t st :=
  { staged := h.staged.walk hparty hframes hnext hkernel hcq hhead hparties hp hright hbefore hafter
    zoned := h.zoned.act hparty (fun k => by rw [hframes]; exact ⟨rfl, rfl, rfl⟩) hslot hhub hstale
      hmail hcancels hdeposit }

/-- The same, with nothing else changed. -/
theorem Safe.go (h : Safe s st)
    (hp : s.party p ≠ .done) (hright : q.right s.cq) (hbefore : q.before = (s.party p).before)
    (hafter : q.after = (s.party p).after)
    (hcancels : ∀ k, q.cancels = some k → (s.frames k).pc.zone = true)
    (hdeposit : ∀ r k, q = .deposit r k → (s.frames k).hub = r) : Safe (s.act p q) st :=
  h.act rfl rfl rfl rfl rfl rfl (Nat.le_refl _) (h.lt_parties hp) rfl rfl rfl (fun _ _ hk => .inl hk)
    hright hbefore hafter hcancels hdeposit

/-- A claim of the first completion of a queue. -/
theorem Safe.claim (h : Safe s st) {x : ℤ}
    (hpc : s.party p = .claim r (s.head r) j x) :
    Safe { s.act p (.readType r j x) with head := update s.head r (s.head r + 1) }
      (update st j (.held p)) := by
  have hentry : (s.cq r)[s.head r]? = some (j, x) := by
    have hright := h.staged.right p
    rw [hpc] at hright
    exact hright
  obtain ⟨⟨hst, hhub⟩, hpop⟩ := (h.staged.queue r).pop hentry
  have hnd : (s.frames j).wait ≠ .done := by
    rw [Ne, h.staged.wait j, hst]
    rintro ⟨⟩
  constructor
  case zoned =>
    exact h.zoned.act rfl (fun k => ⟨rfl, rfl, rfl⟩) rfl rfl rfl (fun _ _ hk => .inl hk) (by rintro _ ⟨⟩) (by rintro _ _ ⟨⟩)
  case staged =>
    refine h.staged.pass (F := s.frames j) (v := .held p) (update_eq_self j s.frames).symm
      rfl rfl rfl (h.lt_parties (by simp [hpc]))
      (h.staged.kernel_update (by simp [hst]) (by rintro ⟨⟩)) ?_ (fun _ _ _ hx => hx) (by simp [hst]) rfl rfl
      trivial ?_ ?_ ?_ ?_ ?_ ?_ (fun _ => rfl) (h.staged.parked j) (by rintro _ ⟨⟩) (h.staged.past j) ?_
    · intro q
      by_cases hq : q = r
      · subst hq
        simp only [update_self]
        apply hpop.mono
        intro k hk
        rw [update_of_ne hk.2]
        exact hk.1
      · simp only [update_of_ne hq]
        apply (h.staged.queue q).mono
        intro k hk
        have hkj : k ≠ j := by
          rintro rfl
          exact hq (hk.2.symm.trans hhub)
        rw [update_of_ne hkj]
        exact hk
    · intro p' hp'
      simp [hst, Ne.symm hp']
    · intro k
      simp [Party.before, eq_comm]
    · intro k
      simp [Party.after]
    · simp [hpc, Party.before]
    · simp [hpc, Party.after]
    · exact iff_of_false hnd (by rintro ⟨⟩)
    · intro he
      rcases h.staged.ends j he with hf | hf
      · rw [hst] at hf
        cases hf
      · rw [hst] at hf
        cases hf

/-- A drain goes on with the operation that it has claimed. -/
theorem Safe.serve (h : Safe s st)
    (hst : st j = .held p ∨ st j = .waking p)
    (hframes : t.frames = update s.frames j F)
    (hparty : t.party = update s.party p q) (hnext : t.next = s.next)
    (hparties : t.parties = s.parties) (hkernel : t.kernel = s.kernel) (hcq : t.cq = s.cq)
    (hhead : t.head = s.head) (hslot : t.slot = s.slot) (hmail : t.mailbox = s.mailbox)
    (hhubs : t.hub = s.hub) (hstale : t.stale = s.stale)
    (hg : F.g = (s.frames j).g) (hhub : F.hub = (s.frames j).hub) (hpc : F.pc = (s.frames j).pc)
    (hp : p < s.parties) (hcancels : q.cancels = none) (hright : q.right s.cq)
    (hv : v = .held p ∨ v = .waking p ∨ v = .finished)
    (hbefore : ∀ k, q.before = some k ↔ k = j ∧ v = .held p)
    (hafter : ∀ k, q.after = some k ↔ k = j ∧ v = .waking p)
    (hhadB : ∀ k, (s.party p).before = some k → k = j)
    (hhadA : ∀ k, (s.party p).after = some k → k = j)
    (hwait : F.wait = .done ↔ v.done = true)
    (hparked : F.wait = .parked → F.pc.zone = true)
    (hwaking : v = .waking p → F.pc.zone = true)
    (hres : (s.frames j).result ≠ none → F.result ≠ none) :
    Safe t (update st j v) := by
  have hne : st j ≠ .out ∧ st j ≠ .kernel ∧ st j ≠ .posted ∧ st j ≠ .finished := by
    rcases hst with hst | hst <;> simp [hst]
  have hvne : v ≠ .kernel ∧ v.claimed = true ∧ ∀ p', p' ≠ p → v ≠ .held p' ∧ v ≠ .waking p' := by
    rcases hv with rfl | rfl | rfl <;> simp [Stage.claimed, eq_comm]
  constructor
  case zoned =>
    refine h.zoned.act hparty (fun k => ?_) hslot hhubs hstale (fun _ _ hk => .inl (hmail ▸ hk)) ?_ ?_
    · rw [hframes]
      by_cases hkj : k = j
      · rw [hkj, update_self]
        exact ⟨hg, hhub, hpc⟩
      · rw [update_of_ne hkj]
        exact ⟨rfl, rfl, rfl⟩
    · simp [hcancels]
    · rintro r k rfl
      cases hcancels
  case staged =>
    refine h.staged.pass hframes hparty hnext hparties hp ?_ ?_ ?_ hne.1 hhub hpc ?_ ?_ hbefore
      hafter hhadB hhadA hwait (fun _ => hvne.2.1) hparked ?_ ?_ ?_
    · rw [hkernel]
      exact h.staged.kernel_update hne.2.1 hvne.1
    · rw [hcq, hhead]
      exact h.staged.queue_update hne.2.2.1
    · rw [hcq]
      exact fun _ _ _ hx => hx
    · rw [hcq]
      exact hright
    · intro p' hp'
      have hold : st j ≠ .held p' ∧ st j ≠ .waking p' := by
        rcases hst with hst | hst <;> simp [hst, Ne.symm hp']
      exact ⟨iff_of_false (hvne.2.2 p' hp').1 hold.1, iff_of_false (hvne.2.2 p' hp').2 hold.2⟩
    · intro p' hp'
      by_cases hpp : p' = p
      · exact hwaking (hpp ▸ hp')
      · exact absurd hp' (hvne.2.2 p' hpp).2
    · intro hpast
      rw [hpc] at hpast
      exact hres (h.staged.past j hpast)
    · intro he
      rw [hpc] at he
      rcases h.staged.ends j he with hf | hf
      · exact absurd hf hne.2.2.2
      · exact absurd hf hne.1

theorem Safe.partyStep (h : Safe s st)
    (hs : partyStep s p = some t) : ∃ st', Safe t st' := by
  dsimp only [Ring.partyStep] at hs
  split at hs
  case h_1 r hpc =>
    split at hs
    case h_1 =>
      cases hs
      exact ⟨st, h.go (by simp [hpc]) trivial (by rw [hpc]; rfl) (by rw [hpc]; rfl) (by rintro _ ⟨⟩) (by rintro _ _ ⟨⟩)⟩
    case h_2 j x hentry =>
      cases hs
      exact ⟨st, h.go (by simp [hpc]) hentry (by rw [hpc]; rfl) (by rw [hpc]; rfl) (by rintro _ ⟨⟩) (by rintro _ _ ⟨⟩)⟩
  case h_2 r i j x hpc =>
    split at hs
    case isTrue hi =>
      cases hs
      subst hi
      exact ⟨_, h.claim hpc⟩
    case isFalse =>
      cases hs
      exact ⟨st, h.go (by simp [hpc]) trivial (by rw [hpc]; rfl) (by rw [hpc]; rfl) (by rintro _ ⟨⟩) (by rintro _ _ ⟨⟩)⟩
  case h_3 r j x hpc =>
    obtain ⟨-, hlive⟩ := h.live_before (p := p) (j := j) (by rw [hpc]; rfl)
    rw [State.touch_eq hlive] at hs
    cases hs
    exact ⟨st, h.go (by simp [hpc]) trivial (by rw [hpc]; rfl) (by rw [hpc]; rfl) (by rintro _ ⟨⟩) (by rintro _ _ ⟨⟩)⟩
  case h_4 r j x hpc =>
    obtain ⟨hst, hlive⟩ := h.live_before (p := p) (j := j) (by rw [hpc]; rfl)
    have hwait := h.staged.wait j
    rw [hst] at hwait
    rw [State.touch_eq hlive] at hs
    cases hs
    exact ⟨_, h.serve (v := .held p) (.inl hst) rfl rfl rfl rfl rfl rfl rfl rfl rfl rfl rfl rfl rfl rfl
      (h.lt_parties (by simp [hpc])) rfl trivial (.inl rfl) (by simp [Party.before, eq_comm])
      (by simp [Party.after]) (by simp [hpc, Party.before, eq_comm]) (by simp [hpc, Party.after])
      hwait (h.staged.parked j) (by rintro ⟨⟩) (fun _ => (by rintro ⟨⟩))⟩
  case h_5 r j hpc =>
    obtain ⟨-, hlive⟩ := h.live_before (p := p) (j := j) (by rw [hpc]; rfl)
    rw [State.touch_eq hlive] at hs
    cases hs
    exact ⟨st, h.go (by simp [hpc]) trivial (by rw [hpc]; rfl) (by rw [hpc]; rfl) (by rintro _ ⟨⟩) (by rintro _ _ ⟨⟩)⟩
  case h_6 r j hpc =>
    obtain ⟨hst, hlive⟩ := h.live_before (p := p) (j := j) (by rw [hpc]; rfl)
    rw [State.touch_eq hlive] at hs
    cases hs
    split
    case isTrue hw =>
      -- the call has committed to parking: the drain will wake it
      exact ⟨_, h.serve (v := .waking p) (.inl hst) rfl rfl rfl rfl rfl rfl rfl rfl rfl rfl rfl rfl rfl
        rfl (h.lt_parties (by simp [hpc])) rfl trivial (.inr (.inl rfl)) (by simp [Party.before])
        (by simp [Party.after, eq_comm]) (by simp [hpc, Party.before, eq_comm])
        (by simp [hpc, Party.after]) (by simp [Stage.done]) (by rintro ⟨⟩) (fun _ => h.staged.parked j hw)
        (fun hr => hr)⟩
    case isFalse hw =>
      exact ⟨_, h.serve (v := .finished) (.inl hst) rfl rfl rfl rfl rfl rfl rfl rfl rfl rfl rfl rfl rfl
        rfl (h.lt_parties (by simp [hpc])) rfl trivial (.inr (.inr rfl)) (by simp [Party.before])
        (by simp [Party.after]) (by simp [hpc, Party.before, eq_comm]) (by simp [hpc, Party.after])
        (by simp [Stage.done]) (by rintro ⟨⟩) (by rintro ⟨⟩) (fun hr => hr)⟩
  case h_7 r j hpc =>
    obtain ⟨-, hlive⟩ := h.live_after (p := p) (j := j) (by rw [hpc]; rfl)
    rw [State.touch_eq hlive] at hs
    cases hs
    exact ⟨st, h.go (by simp [hpc]) trivial (by rw [hpc]; rfl) (by rw [hpc]; rfl) (by rintro _ ⟨⟩) (by rintro _ _ ⟨⟩)⟩
  case h_8 r j hpc =>
    obtain ⟨hst, hlive⟩ := h.live_after (p := p) (j := j) (by rw [hpc]; rfl)
    have hwait : (s.frames j).wait = .done := (h.staged.wait j).mpr (by rw [hst]; rfl)
    rw [State.touch_eq hlive] at hs
    cases hs
    exact ⟨_, h.serve (F := s.frames j) (v := .finished) (.inr hst)
      (update_eq_self j s.frames).symm rfl rfl rfl rfl rfl rfl rfl rfl rfl rfl rfl rfl rfl
      (h.lt_parties (by simp [hpc])) rfl trivial (.inr (.inr rfl)) (by simp [Party.before])
      (by simp [Party.after]) (by simp [hpc, Party.before]) (by simp [hpc, Party.after, eq_comm])
      (by simp [hwait, Stage.done]) (h.staged.parked j) (by rintro ⟨⟩) (fun hr => hr)⟩
  case h_9 r f hpc =>
    cases hs
    exact ⟨st, h.act rfl rfl rfl rfl rfl rfl (Nat.le_refl _) (h.lt_parties (by simp [hpc])) rfl rfl
      rfl (fun _ _ hk => .inl hk) trivial (by rw [hpc]; rfl) (by rw [hpc]; rfl) (by rintro _ ⟨⟩) (by rintro _ _ ⟨⟩)⟩
  case h_10 f hpc =>
    split at hs
    case h_1 =>
      cases hs
      exact ⟨st, h.go (by simp [hpc]) trivial (by rw [hpc]; rfl) (by rw [hpc]; rfl) (by rintro _ ⟨⟩) (by rintro _ _ ⟨⟩)⟩
    case h_2 j hslot =>
      cases hs
      refine ⟨st, h.go (by simp [hpc]) trivial (by rw [hpc]; rfl) (by rw [hpc]; rfl) ?_ (by rintro _ _ ⟨⟩)⟩
      rintro k ⟨⟩
      exact (h.zoned.slot f _ hslot).2
  case h_11 f j hpc =>
    have hzone := h.zoned.cancels p j (by rw [hpc]; rfl)
    rw [State.touch_eq (Pc.not_over_of_zone hzone)] at hs
    cases hs
    split
    · refine ⟨st, h.go (by simp [hpc]) trivial (by rw [hpc]; rfl) (by rw [hpc]; rfl) ?_ (by rintro _ _ ⟨⟩)⟩
      rintro k ⟨⟩
      exact hzone
    · exact ⟨st, h.go (by simp [hpc]) trivial (by rw [hpc]; rfl) (by rw [hpc]; rfl) (by rintro _ ⟨⟩) (by rintro _ _ ⟨⟩)⟩
  case h_12 j hpc =>
    have hzone := h.zoned.cancels p j (by rw [hpc]; rfl)
    rw [State.touch_eq (Pc.not_over_of_zone hzone)] at hs
    cases hs
    split
    · refine ⟨st, h.go (by simp [hpc]) trivial (by rw [hpc]; rfl) (by rw [hpc]; rfl) ?_ (by rintro _ _ ⟨⟩)⟩
      rintro k ⟨⟩
      exact hzone
    · exact ⟨st, h.go (by simp [hpc]) trivial (by rw [hpc]; rfl) (by rw [hpc]; rfl) (by rintro _ ⟨⟩) (by rintro _ _ ⟨⟩)⟩
  case h_13 j hpc =>
    have hzone := h.zoned.cancels p j (by rw [hpc]; rfl)
    rw [State.touch_eq (Pc.not_over_of_zone hzone)] at hs
    cases hs
    refine ⟨st, h.go (by simp [hpc]) trivial (by rw [hpc]; rfl) (by rw [hpc]; rfl) ?_ (by rintro _ _ ⟨⟩)⟩
    rintro k ⟨⟩
    exact hzone
  case h_14 j hpc =>
    have hzone := h.zoned.cancels p j (by rw [hpc]; rfl)
    rw [State.touch_eq (Pc.not_over_of_zone hzone)] at hs
    cases hs
    refine ⟨st, h.go (by simp [hpc]) trivial (by rw [hpc]; rfl) (by rw [hpc]; rfl) ?_ ?_⟩
    · rintro k ⟨⟩
      exact hzone
    · rintro r k ⟨⟩
      rfl
  case h_15 r j hpc =>
    have hzone := h.zoned.cancels p j (by rw [hpc]; rfl)
    have hhub := h.zoned.deposit p r j hpc
    cases hs
    refine ⟨st, h.act rfl rfl rfl rfl rfl rfl (Nat.le_refl _) (h.lt_parties (by simp [hpc])) rfl rfl
      rfl (fun q k hk => ?_) trivial (by rw [hpc]; rfl) (by rw [hpc]; rfl) (by rintro _ ⟨⟩) (by rintro _ _ ⟨⟩)⟩
    dsimp only at hk
    split at hk
    · by_cases hq : q = r
      · rw [hq, update_self, Option.some.injEq] at hk
        rw [hq, ← hk]
        exact .inr ⟨hhub, hzone⟩
      · rw [update_of_ne hq] at hk
        exact .inl hk
    · exact .inl hk
  case h_16 f hpc =>
    cases hs
    exact ⟨st, h.act rfl rfl rfl rfl rfl rfl (Nat.le_refl _) (h.lt_parties (by simp [hpc])) rfl rfl
      rfl (fun _ _ hk => .inl hk) trivial (by rw [hpc]; rfl) (by rw [hpc]; rfl) (by rintro _ ⟨⟩) (by rintro _ _ ⟨⟩)⟩
  case h_17 => cases hs

theorem Safe.turn (h : Safe s st) {q : Hub}
    (hhub : t.hub = update s.hub r q) (hframes : t.frames = s.frames)
    (hnext : t.next = s.next) (hkernel : t.kernel = s.kernel) (hcq : t.cq = s.cq)
    (hhead : t.head = s.head) (hparty : t.party = s.party) (hparties : t.parties = s.parties)
    (hslot : t.slot = s.slot) (hstale : t.stale = s.stale)
    (hmail : ∀ r k, t.mailbox r = some k → s.mailbox r = some k)
    (hq : ∀ k, q.has = some k → (s.frames k).hub = r ∧ (s.frames k).pc.zone = true) :
    Safe t st := by
  constructor
  case zoned => exact h.zoned.turn hhub hframes hslot hparty hstale hmail hq
  case staged =>
    constructor
    case fresh => rw [hnext, hframes]; exact h.staged.fresh
    case young => rw [hparties, hparty]; exact h.staged.young
    case early => rw [hframes]; exact h.staged.early
    case kernel => rw [hkernel]; exact h.staged.kernel
    case queue => rw [hcq, hhead, hframes]; exact h.staged.queue
    case right => rw [hparty, hcq]; exact h.staged.right
    case before => rw [hparty]; exact h.staged.before
    case after => rw [hparty]; exact h.staged.after
    case wait => rw [hframes]; exact h.staged.wait
    case result => rw [hframes]; exact h.staged.result
    case parked => rw [hframes]; exact h.staged.parked
    case waking => rw [hframes]; exact h.staged.waking
    case past => rw [hframes]; exact h.staged.past
    case ends => rw [hframes]; exact h.staged.ends

theorem Safe.hubStep (h : Safe s st)
    (hs : hubStep s r = some t) : Safe t st := by
  have hhas := h.zoned.hub r
  dsimp only [Ring.hubStep] at hs
  split at hs
  case h_1 hpc =>
    split at hs
    · cases hs
    · cases hs
      exact h.turn rfl rfl rfl rfl rfl rfl rfl rfl rfl rfl (fun _ _ hk => hk) (by rintro _ ⟨⟩)
  case h_2 hpc =>
    split at hs
    case h_1 =>
      cases hs
      exact h.turn rfl rfl rfl rfl rfl rfl rfl rfl rfl rfl (fun _ _ hk => hk) (by rintro _ ⟨⟩)
    case h_2 j hmail =>
      cases hs
      refine h.turn rfl rfl rfl rfl rfl rfl rfl rfl rfl rfl (fun q k hk => ?_) ?_
      · by_cases hq : q = r
        · rw [hq] at hk
          simp at hk
        · simp only [update_of_ne hq] at hk
          exact hk
      · rintro k ⟨⟩
        exact h.zoned.mailbox r _ hmail
  case h_3 j hpc =>
    have hj := hhas j (by rw [hpc]; rfl)
    rw [State.touch_eq (Pc.not_over_of_zone hj.2)] at hs
    cases hs
    refine h.turn rfl rfl rfl rfl rfl rfl rfl rfl rfl rfl (fun _ _ hk => hk) ?_
    rintro k ⟨⟩
    exact hj
  case h_4 j hpc =>
    have hj := hhas j (by rw [hpc]; rfl)
    rw [State.touch_eq (Pc.not_over_of_zone hj.2)] at hs
    cases hs
    split
    · refine h.turn rfl rfl rfl rfl rfl rfl rfl rfl rfl rfl (fun _ _ hk => hk) ?_
      rintro k ⟨⟩
      exact hj
    · exact h.turn rfl rfl rfl rfl rfl rfl rfl rfl rfl rfl (fun _ _ hk => hk) (by rintro _ ⟨⟩)
  case h_5 j hpc =>
    have hj := hhas j (by rw [hpc]; rfl)
    rw [State.touch_eq (Pc.not_over_of_zone hj.2)] at hs
    cases hs
    exact h.turn rfl rfl rfl rfl rfl rfl rfl rfl rfl rfl (fun _ _ hk => hk) (by rintro _ ⟨⟩)

/-! ## Whole runs -/

theorem safe_init : Safe init fun _ => .out := by
  constructor
  case zoned =>
    exact { slot := (by rintro _ _ ⟨⟩), mailbox := (by rintro _ _ ⟨⟩), hub := (by rintro _ _ ⟨⟩), cancels := (by rintro _ _ ⟨⟩), deposit := by rintro _ _ _ ⟨⟩
            stale := rfl }
  case staged =>
    exact
      { fresh := fun _ _ => ⟨rfl, rfl⟩
        young := fun _ _ => rfl
        early := fun _ _ => rfl
        kernel := fun _ => by simp [init]
        queue := fun _ => ⟨Nat.le_refl _, List.nodup_nil, by rintro _ ⟨⟩⟩
        right := fun _ => trivial
        before := fun _ _ => by simp [init, Party.before]
        after := fun _ _ => by simp [init, Party.after]
        wait := fun _ => by simp [init, blank, Stage.done]
        result := fun _ hr => absurd rfl hr
        parked := by rintro _ ⟨⟩
        waking := by rintro _ _ ⟨⟩
        past := by rintro _ ⟨⟩
        ends := (by rintro _ ⟨⟩) }

/-- A new party has nothing in hand. -/
theorem Safe.spawn (h : Safe s st) (hright : q.right s.cq)
    (hbefore : q.before = none) (hafter : q.after = none) (hcancels : q.cancels = none) :
    Safe (s.spawn q) st := by
  have hdone : s.party s.parties = .done := h.staged.young _ (Nat.le_refl _)
  refine h.act rfl rfl rfl rfl rfl rfl (Nat.le_succ _) (Nat.lt_succ_self _) rfl rfl rfl
    (fun _ _ hk => .inl hk) hright (by rw [hdone, hbefore]; rfl) (by rw [hdone, hafter]; rfl)
    (by simp [hcancels]) ?_
  rintro r k rfl
  cases hcancels

theorem Pc.zone_of_linked {q : Pc} (h : q.linked = true) : q.zone = true := by
  cases q <;> first | rfl | cases h

theorem Safe.next {a : Action} (h : Safe s st)
    (hok : hasty s a = false) (hs : step s a = some t) : ∃ st', Safe t st' := by
  cases a with
  | call f r =>
    dsimp only [step] at hs
    split at hs
    · cases hs
      have hfresh := (h.staged.fresh s.next (Nat.le_refl _)).1
      exact ⟨st, h.staged.call rfl rfl rfl rfl rfl rfl rfl, h.zoned.call rfl hfresh rfl rfl rfl rfl rfl⟩
    · cases hs
  | refuse j =>
    dsimp only [step] at hs
    split at hs
    case isTrue hpc =>
      cases hs
      exact ⟨st, h.finish (by simp [hpc]) (by rw [hpc]; rfl) (.inr (h.staged.early j hpc))⟩
    case isFalse => cases hs
  | step j =>
    refine h.advance (fun hpc => ?_) hs
    simpa [hasty, hpc] using hok
  | away j => exact ⟨st, h.away hs⟩
  | resume j =>
    dsimp only [step] at hs
    split at hs
    case isTrue hpc =>
      cases hs
      exact ⟨st, h.move rfl rfl rfl rfl rfl rfl rfl rfl rfl (by simp [hpc.1]) rfl rfl rfl rfl (by rintro ⟨⟩)
        (fun _ => rfl) (by rintro ⟨⟩) (by rintro ⟨⟩) (fun _ _ hk => .inl hk) (fun _ _ hk => .inl hk)⟩
    case isFalse => cases hs
  | post j r =>
    dsimp only [step] at hs
    split at hs
    case isTrue hk =>
      cases hs
      exact ⟨_, h.post hk⟩
    case isFalse => cases hs
  | drain r =>
    cases hs
    exact ⟨st, h.spawn trivial rfl rfl rfl⟩
  | cancel f =>
    cases hs
    exact ⟨st, h.spawn trivial rfl rfl rfl⟩
  | signal j =>
    dsimp only [step] at hs
    split at hs
    case isTrue hpc =>
      cases hs
      have hzone := Pc.zone_of_linked hpc.1
      have hm : Safe (s.set j { s.frames j with signaled := true }) st :=
        h.move rfl rfl rfl rfl rfl rfl rfl rfl rfl (fun hu => by rw [hu] at hzone; cases hzone)
          rfl rfl rfl rfl (fun hu => by rw [hu] at hzone; cases hzone) id (h.staged.past j)
          (h.staged.ends j) (fun _ _ hk => .inl hk) (fun _ _ hk => .inl hk)
      exact ⟨st, hm.spawn trivial rfl rfl rfl⟩
    case isFalse => cases hs
  | party p => exact h.partyStep hs
  | hub r => exact ⟨st, h.hubStep hs⟩

theorem careful_safe (hr : Reachable careful s) : ∃ st, Safe s st := by
  apply Reachable.invariant (P := fun s => ∃ st, Safe s st) ?_ ?_ hr
  · intro s hs
    cases hs
    exact ⟨_, safe_init⟩
  · rintro s a t _ ⟨st, h⟩ hs
    obtain ⟨hok, hs⟩ := System.restrict_step.mp hs
    exact h.next hok hs

/-- No record has been used after its call returned, and no mailbox holds such a record. -/
def Unused (s : State) : Prop :=
  s.stale = false ∧ ∀ r j, s.mailbox r = some j → (s.frames j).pc.over = false

theorem careful_unused {s : State} (hr : Reachable careful s) : Unused s := by
  obtain ⟨st, h⟩ := careful_safe hr
  constructor
  · exact h.zoned.stale
  · intro r j hm
    exact Pc.not_over_of_zone (h.zoned.mailbox r j hm).2

/-- A parked `ring_do` up to its sleep. -/
def parkRun : List Action :=
  .call 0 0 :: List.replicate 6 (.step 0)

/-- A foreign `cancel_g` reaches a parked call through the mailbox of its hub; the
operation completes as cancelled and the call returns. -/
theorem careful_unused_cancelled :
    ∃ s, Reachable careful s ∧ (s.frames 0).pc = .returned (-1) ∧ s.mailbox 0 = none ∧
      Unused s := by
  have hr : ∃ s, Reachable careful s ∧ (s.frames 0).pc = .returned (-1) ∧ s.mailbox 0 = none :=
    ⟨_, reachable_of_run careful
      (.flatten [parkRun, [.cancel 0], .replicate 6 (.party 0), .replicate 5 (.hub 0),
        [.post 0 (-125), .drain 0], .replicate 10 (.party 1), [.resume 0], .replicate 5 (.step 0)])
      rfl rfl, rfl, rfl⟩
  obtain ⟨s, hr, h0, hm⟩ := hr
  exact ⟨s, hr, h0, hm, careful_unused hr⟩

/-- The operation completes on its own while two `cancel_g` calls have its address: one
reads the record after `ring_do` returned, and the other leaves it in the mailbox. -/
theorem cancel_outlivesFrame :
    ∃ s, Reachable system s ∧ (s.frames 0).pc = .returned 7 ∧ s.mailbox 0 = some 0 ∧
      s.stale = true ∧ ¬ Unused s := by
  have hr : ∃ s, Reachable system s ∧ (s.frames 0).pc = .returned 7 ∧ s.mailbox 0 = some 0 ∧
      s.stale = true :=
    ⟨_, reachable_of_run system
      (.flatten [parkRun, [.cancel 0], .replicate 5 (.party 0), [.cancel 0, .party 1, .post 0 7,
        .drain 0], .replicate 10 (.party 2), [.resume 0], .replicate 5 (.step 0), [.party 0,
        .party 1]])
      rfl rfl, rfl, rfl, rfl⟩
  obtain ⟨s, hr, h0, hm, hst⟩ := hr
  exact ⟨s, hr, h0, hm, hst, fun h => absurd (hst.symm.trans h.1) (by rintro ⟨⟩)⟩

end Stackweave.IoUring.Ring
