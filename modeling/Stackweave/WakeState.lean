import Mathlib.Data.List.Nodup
import Mathlib.Logic.Function.Basic
import Mathlib.Tactic.Common
import Stackweave.Transition

/-!
# The wake state of a fiber (`mn_sched_mn_api.c.inc`, `mn_sched_hub_main.c.inc`)

One g under any number of threads: `runloom_mn_wake_g` calls, timer claims and resumes of
`runloom_hub_main`, and sweepers. Each access to `wake_state` is a step and so is each push,
each pop, and each change of the reference count.

The parks of the g are numbered: while it runs, `park` is the number of the park that its
resume ends with, afterwards of the park it is in. A wake is directed at a park, and a resume
that a wake was directed at does not end in a completion or a yield.
-/

namespace Stackweave.WakeState

open Transition

/-- `RUNLOOM_WS_*`. -/
inductive Ws
  | parked
  | queued
  | running
  | runningWoken
  | sweeping
  | sweepingWoken
  deriving DecidableEq

/-- A wake is pending already. -/
@[grind =]
def Ws.pending : Ws → Bool
  | .queued | .runningWoken | .sweepingWoken => true
  | _ => false

@[grind =]
def Ws.runs : Ws → Bool
  | .running | .runningWoken => true
  | _ => false

/-- What `runloom_mn_wake_g` makes of a state in which no wake is pending. -/
@[grind =]
def Ws.woken : Ws → Ws
  | .parked => .queued
  | .running => .runningWoken
  | .sweeping => .sweepingWoken
  | ws => ws

/-- The queues: some hub's deque, the global run-queue, some hub's yield queue, and the ready
ring, which only its hub pops. -/
inductive Place
  | deque
  | runq
  | yieldq
  | ring (h : ℕ)
  deriving DecidableEq

/-- A ready ring is popped by its hub only. -/
def Place.reach (i : ℕ) : Place → Bool
  | .ring h => h == i
  | _ => true

/-- Where a thread stands. `p` is the park that a wake or a timer is directed at, `st` what it
last read. `fr` is `from_runq`; `ref`, `old` and `r` name queue refs. -/
inductive Pc
  | idle
  /-- `runloom_mn_wake_g` -/
  | called (p : ℕ)
  | waking (p : ℕ) (st : Ws)
  /-- after the edge into QUEUED: the incref and the push -/
  | increfs (fr : Bool) (old : Option ℕ)
  | pushing (r : ℕ) (fr : Bool) (old : Option ℕ)
  /-- the timer claim -/
  | timing (p : ℕ) (elsewhere : Bool) (st : Ws)
  /-- `runloom_mn_requeue_local` -/
  | requeues
  /-- between `runloom_mn_sweep_try_claim` and `runloom_mn_sweep_claim_release` -/
  | sweeping
  /-- the CAS of the release has failed -/
  | sweepWoken
  /-- the hub has an entry that is not from the global run-queue -/
  | popped (ref : Option ℕ)
  | claiming (ref : Option ℕ)
  | claimed (fr : Bool) (ref : Option ℕ)
  /-- `selfQueued`: a preempted g has pushed itself onto the ring -/
  | running (fr : Bool) (ref : Option ℕ) (selfQueued : Bool)
  /-- parked off-queue, and the CAS to PARKED has failed -/
  | parkWoken (fr : Bool) (ref : Option ℕ)
  /-- to drop the old queue ref, and then to requeue the g or not -/
  | dropping (ref : Option ℕ) (requeue : Bool)
  deriving DecidableEq

/-- An entry is a place; that it was pushed by a wake, and with which queue ref, is history, as
are `park` and all after it. `stray` counts the drops of a queue ref that was not taken. -/
structure State where
  ws : Ws
  entries : List (Place × Option ℕ)
  done : Bool
  pc : ℕ → Pc
  park : ℕ
  issued : ℕ → Bool
  answered : ℕ → Bool
  remembered : ℕ → Bool
  enqueued : ℕ → ℕ
  taken : ℕ
  drops : ℕ → ℕ
  stray : ℕ
  misses : ℕ

/-- A fresh g, submitted. -/
def start (pl : Place) : State :=
  { ws := .running, entries := [(pl, none)], done := false, pc := fun _ => .idle, park := 0
    issued := fun _ => false, answered := fun _ => false, remembered := fun _ => false
    enqueued := fun _ => 0, taken := 0, drops := fun _ => 0, stray := 0, misses := 0 }

def State.goto (s : State) (i : ℕ) (q : Pc) : State :=
  { s with pc := Function.update s.pc i q }

/-- A wake that is directed at `p` returns, or will return without a further look. -/
def State.answer (s : State) (p : ℕ) : State :=
  { s with answered := Function.update s.answered p true }

def State.issue (s : State) (p : ℕ) : State :=
  { s with issued := Function.update s.issued p true }

/-- RUNNING or SWEEPING to its woken form. -/
def State.remember (s : State) : State :=
  { s with ws := s.ws.woken, remembered := Function.update s.remembered s.park true }

/-- The park is over. -/
def State.unpark (s : State) : State :=
  { s with ws := .running, park := s.park + 1 }

/-- The decref of a queue ref. -/
def State.drop (s : State) : Option ℕ → State
  | some r => { s with drops := Function.update s.drops r (s.drops r + 1) }
  | none => { s with stray := s.stray + 1 }

variable {s : State} {fr requeue : Bool} {ref : Option ℕ}

theorem drop_pc (r : Option ℕ) : (s.drop r).pc = s.pc := by cases r <;> rfl

theorem drop_entries (r : Option ℕ) : (s.drop r).entries = s.entries := by
  cases r <;> rfl

theorem drop_ws (r : Option ℕ) : (s.drop r).ws = s.ws := by cases r <;> rfl

theorem drop_done (r : Option ℕ) : (s.drop r).done = s.done := by cases r <;> rfl

/-- `if (from_runq) runloom_g_decref(g)`, and what comes then. -/
def Pc.after (fr : Bool) (ref : Option ℕ) (requeue : Bool) : Pc :=
  if fr then .dropping ref requeue else if requeue then .requeues else .idle

/-- The loop of `runloom_mn_wake_g` with the state that it has read last. -/
def State.reread (s : State) (i p : ℕ) : State :=
  if s.ws.pending then (s.answer p).goto i .idle else s.goto i (.waking p s.ws)

/-- The loop of the timer claim, after a CAS that failed. -/
def State.retime (s : State) (i p : ℕ) (elsewhere : Bool) : State :=
  if s.ws = .parked ∨ s.ws = .sweeping then s.goto i (.timing p elsewhere s.ws)
  else (s.answer p).goto i .idle

/-- The next access of a thread; a push goes to `pl`. -/
def advance (s : State) (i : ℕ) (pl : Place) : Option State :=
  match s.pc i with
  | .idle | .running _ _ _ => none
  | .called p => some (s.reread i p)
  | .waking p st =>
    if s.ws = st then
      if st = .parked then some (({ s with ws := .queued }.answer p).goto i (.increfs false none))
      else some ((s.remember.answer p).goto i .idle)
    else some (s.reread i p)
  | .increfs fr old => some ({ s with taken := s.taken + 1 }.goto i (.pushing s.taken fr old))
  | .pushing r fr old =>
    if pl = .deque ∨ pl = .runq then
      some ({ s with
        entries := (pl, some r) :: s.entries
        enqueued := Function.update s.enqueued s.park (s.enqueued s.park + 1) }.goto i
          (.after fr old false))
    else none
  | .timing p elsewhere st =>
    if s.ws = st then
      if st = .parked then
        if elsewhere then some (({ s with ws := .queued }.answer p).goto i (.increfs false none))
        else some ((s.unpark.answer p).goto i .requeues)
      else some ((s.remember.answer p).goto i .idle)
    else some (s.retime i p elsewhere)
  | .requeues =>
    if pl = .yieldq ∨ pl = .ring i then
      some ({ s with entries := (pl, none) :: s.entries }.goto i .idle)
    else none
  | .sweeping =>
    if s.ws = .sweeping then some ({ s with ws := .parked }.goto i .idle)
    else some (s.goto i .sweepWoken)
  | .sweepWoken => some ({ s with ws := .queued }.goto i (.increfs false none))
  | .popped ref =>
    if s.ws = .queued then some (s.goto i (.claiming ref))
    else some (s.goto i (.claimed false ref))
  | .claiming ref =>
    if s.ws = .queued then some (s.unpark.goto i (.claimed true ref))
    else some (({ s with misses := s.misses + 1 }.drop ref).goto i .idle)
  | .claimed fr ref =>
    if s.done then
      if fr then some (({ s with ws := .parked }.drop ref).goto i .idle)
      else some (s.goto i .idle)
    else some (s.goto i (.running fr ref false))
  | .parkWoken fr ref => some ({ s with ws := .queued }.goto i (.increfs fr ref))
  | .dropping ref requeue => some ((s.drop ref).goto i (if requeue then .requeues else .idle))

inductive Action
  /-- a call of `runloom_mn_wake_g` -/
  | call (i p : ℕ)
  /-- a timer of a park that the g is in, or was in -/
  | timer (i p : ℕ) (elsewhere : Bool)
  | sweep (i : ℕ)
  | pop (i : ℕ) (pl : Place)
  | advance (i : ℕ) (pl : Place)
  | preempt (i : ℕ)
  /-- how a resume ends -/
  | finish (i : ℕ)
  | park (i : ℕ)
  | yield (i : ℕ)

@[grind =]
def step (s : State) : Action → Option State
  | .call i p =>
    if s.pc i = .idle ∧ p ≤ s.park ∧ s.done = false then some ((s.issue p).goto i (.called p))
    else none
  | .timer i p elsewhere =>
    if s.pc i = .idle ∧ s.done = false ∧ (p < s.park ∨ p = s.park ∧ s.ws.runs = false) then
      some ((s.issue p).goto i (.timing p elsewhere .parked))
    else none
  | .sweep i =>
    if s.pc i = .idle ∧ s.ws = .parked then some ({ s with ws := .sweeping }.goto i .sweeping)
    else none
  | .pop i pl =>
    match s.entries.find? (fun e => e.1 = pl) with
    | some e =>
      if s.pc i = .idle ∧ pl.reach i = true then
        some ({ s with entries := s.entries.erase e }.goto i
          (if pl = Place.runq then .claiming e.2 else .popped e.2))
      else none
    | none => none
  | .advance i pl => advance s i pl
  | .preempt i =>
    match s.pc i with
    | .running fr ref false =>
      some ({ s with entries := (.ring i, none) :: s.entries }.goto i (.running fr ref true))
    | _ => none
  | .finish i =>
    match s.pc i with
    | .running fr ref false =>
      if s.issued s.park then none
      else some ({ s with done := true }.goto i (.after fr ref false))
    | _ => none
  | .park i =>
    match s.pc i with
    | .running fr ref false =>
      if s.ws = .running then some ({ s with ws := .parked }.goto i (.after fr ref false))
      else some (s.goto i (.parkWoken fr ref))
    | _ => none
  | .yield i =>
    match s.pc i with
    | .running fr ref selfQueued =>
      if s.issued s.park then none
      else some ({ s with
        ws := .running, remembered := Function.update s.remembered s.park false }.goto i
          (.after fr ref (!selfQueued)))
    | _ => none

def system : System State Action where
  init s := ∃ pl, pl ≠ .runq ∧ s = start pl
  step := step

/-! ## What is to hold -/

/-- Between the edge into QUEUED and the end of the push. -/
@[grind =]
def Pc.enqueues : Pc → Bool
  | .increfs _ _ | .pushing _ _ _ => true
  | _ => false

/-- Between the pop of a woken entry and the claim. -/
@[grind =]
def Pc.claims : Pc → Bool
  | .popped ref => ref.isSome
  | .claiming _ => true
  | _ => false

/-- Between the claim and the release. -/
@[grind =]
def Pc.resumes : Pc → Bool
  | .claimed _ _ | .running _ _ _ | .parkWoken _ _ => true
  | _ => false

/-- The queue refs that a thread is to pass on or to drop. -/
@[grind =]
def Pc.refs : Pc → List ℕ
  | .increfs _ old => old.toList
  | .pushing r _ old => r :: old.toList
  | .popped ref | .claiming ref | .claimed _ ref | .running _ ref _ | .parkWoken _ ref
  | .dropping ref _ => ref.toList
  | _ => []

/-- An entry that a wake has pushed, onto a deque or the global run-queue. -/
def State.WokenEntry (s : State) : Prop :=
  ∃ pl r, (pl, some r) ∈ s.entries ∧ (pl = .deque ∨ pl = .runq)

/-- The ref is with an entry. -/
def State.Stored (s : State) (r : ℕ) : Prop :=
  ∃ pl, (pl, some r) ∈ s.entries

structure Sound (s : State) : Prop where
  entries : s.entries.length ≤ 1
  woken : s.WokenEntry ↔ s.ws = .queued ∧ (∀ i, (s.pc i).enqueues = false) ∧
    ∀ i, (s.pc i).claims = false
  resumes : ∀ i j, (s.pc i).resumes = true → (s.pc j).resumes = true → i = j
  misses : s.misses = 0
  /-- a wake that has returned is pending, or its park is over -/
  kept : ∀ p, s.answered p = true → p < s.park ∨ p = s.park ∧ s.ws.pending = true
  /-- one enqueue for all the wakes of a park -/
  once : ∀ p, s.enqueued p ≤ 1
  /-- a wake that found RUNNING or SWEEPING has its enqueue before the park is over -/
  remembered : ∀ p, s.remembered p = true →
    p < s.park ∧ s.enqueued p = 1 ∨ p = s.park ∧ s.ws.pending = true
  /-- a queue ref is dropped once, by the one that has it -/
  dropped : ∀ r, s.drops r ≤ 1 ∧ (r < s.taken ∧ s.drops r = 0 ↔ s.Stored r ∨ ∃ i, r ∈ (s.pc i).refs)
  single : ∀ r i, r ∈ (s.pc i).refs → ¬ s.Stored r ∧ ∀ j, r ∈ (s.pc j).refs → j = i
  stray : s.stray = 0

/-! ## One owner -/

/-- Who is to move the g on: nobody, whoever pops its entry, or a thread. -/
inductive Owner
  | nobody
  | entry (pl : Place) (ref : Option ℕ)
  | thread (i : ℕ)

@[grind =]
def Pc.owns : Pc → Bool
  | .idle | .called _ | .waking _ _ | .timing _ _ _ => false
  | .dropping _ requeue => requeue
  | _ => true

/-- The states that an owner may find. -/
@[grind =]
def Pc.admits : Pc → Ws → Bool
  | .increfs _ _, ws | .pushing _ _ _, ws | .claiming _, ws => ws == .queued
  | .popped ref, ws => if ref.isSome then ws == .queued else ws.runs
  | .claimed _ _, ws | .running _ _ _, ws | .requeues, ws | .dropping _ _, ws => ws.runs
  | .parkWoken _ _, ws => ws == .runningWoken
  | .sweeping, ws => ws == .sweeping || ws == .sweepingWoken
  | .sweepWoken, ws => ws == .sweepingWoken
  | _, _ => false

/-- A preempted g is on the ring of its hub while it still runs. -/
def Pc.ringed (i : ℕ) : Pc → List (Place × Option ℕ)
  | .running _ _ true => [(.ring i, none)]
  | _ => []

/-- `n` is the number of enqueues in the present park. -/
@[grind =]
def Owner.Holds (ws : Ws) (entries : List (Place × Option ℕ)) (done : Bool) (pc : ℕ → Pc) (n : ℕ) :
    Owner → Prop
  | .nobody => entries = [] ∧ n = 0 ∧ (done = false ∧ ws = .parked ∨ done = true ∧ ws.runs = true)
  | .entry pl ref =>
    entries = [(pl, ref)] ∧ n = ref.isSome.toNat ∧ done = false ∧
      if ref.isSome then ws = .queued ∧ (pl = .deque ∨ pl = .runq)
      else ws.runs = true ∧ pl ≠ .runq
  | .thread i =>
    entries = (pc i).ringed i ∧ n = (pc i).claims.toNat ∧ done = false ∧
      (pc i).owns = true ∧ (pc i).admits ws = true

structure Own (ws : Ws) (entries : List (Place × Option ℕ)) (done : Bool) (pc : ℕ → Pc) (n : ℕ)
    (o : Owner) : Prop where
  holds : o.Holds ws entries done pc n
  sole : ∀ i, (pc i).owns = true → o = .thread i

section Own

variable {ws : Ws} {entries : List (Place × Option ℕ)} {done : Bool} {pc : ℕ → Pc} {n : ℕ}
  {o : Owner} {i : ℕ} {q : Pc}

theorem Own.thread (h : Own ws entries done pc n o) (hi : (pc i).owns = true) :
    entries = (pc i).ringed i ∧ n = (pc i).claims.toNat ∧ done = false ∧ (pc i).owns = true ∧
      (pc i).admits ws = true := by
  have ho := h.sole i hi
  subst ho
  exact h.holds

/-- No other thread is an owner when this one moves. -/
theorem Own.others (h : Own ws entries done pc n o) (ho : ∀ j, j ≠ i → o ≠ .thread j) :
    ∀ j, j ≠ i → (pc j).owns = false := by
  intro j hj
  by_contra hown
  exact ho j hj (h.sole j (by simpa using hown))

theorem Own.alone (h : Own ws entries done pc n o) (hi : (pc i).owns = true) :
    ∀ j, j ≠ i → (pc j).owns = false := by
  refine h.others fun j hj => ?_
  rw [h.sole i hi]
  rintro ⟨rfl⟩
  exact hj rfl

theorem sole_update {o' : Owner} (hothers : ∀ j, j ≠ i → (pc j).owns = false)
    (hq : q.owns = true → o' = .thread i) :
    ∀ j, (Function.update pc i q j).owns = true → o' = .thread j := by
  intro j hj
  by_cases hji : j = i
  · subst hji
    rw [Function.update_self] at hj
    exact hq hj
  · rw [Function.update_of_ne hji, hothers j hji] at hj
    cases hj

/-- A thread that is not the owner goes elsewhere. -/
theorem Own.aside (h : Own ws entries done pc n o) (hi : (pc i).owns = false)
    (hq : q.owns = false) : Own ws entries done (Function.update pc i q) n o := by
  constructor
  case holds =>
    cases o with
    | nobody => exact h.holds
    | entry pl ref => exact h.holds
    | thread j =>
      have hji : j ≠ i := by
        rintro rfl
        exact absurd (hi.symm.trans h.holds.2.2.2.1) (by rintro ⟨⟩)
      simp only [Owner.Holds, Function.update_of_ne hji]
      exact h.holds
  case sole =>
    intro j hj
    by_cases hji : j = i
    · subst hji
      rw [Function.update_self, hq] at hj
      cases hj
    · rw [Function.update_of_ne hji] at hj
      exact h.sole j hj

theorem Pc.admits_woken (hws : ws = .running ∨ ws = .sweeping) (h : q.admits ws = true) :
    q.admits ws.woken = true := by
  rcases hws with rfl | rfl <;> cases q <;> simp_all [Pc.admits, Ws.woken, Ws.runs]

/-- A wake is remembered: whoever owns the g goes on. -/
theorem Own.mark (h : Own ws entries done pc n o) (hws : ws = .running ∨ ws = .sweeping) :
    Own ws.woken entries done pc n o := by
  refine ⟨?_, h.sole⟩
  cases o with
  | nobody =>
    obtain ⟨hent, hn, hx⟩ := h.holds
    refine ⟨hent, hn, ?_⟩
    rcases hws with rfl | rfl
    · exact .inr ⟨(hx.resolve_left (by rintro ⟨_, ⟨⟩⟩)).1, rfl⟩
    · exact absurd (hx.resolve_left (by rintro ⟨_, ⟨⟩⟩)).2 (by rintro ⟨⟩)
  | entry pl ref =>
    obtain ⟨hent, hn, hd, hx⟩ := h.holds
    refine ⟨hent, hn, hd, ?_⟩
    cases ref with
    | none =>
      rcases hws with rfl | rfl
      · exact ⟨rfl, hx.2⟩
      · exact absurd hx.1 (by rintro ⟨⟩)
    | some r => rcases hws with rfl | rfl <;> exact absurd hx.1 (by rintro ⟨⟩)
  | thread j =>
    obtain ⟨hent, hn, hd, hown, hadm⟩ := h.holds
    exact ⟨hent, hn, hd, hown, Pc.admits_woken hws hadm⟩

/-- A parked g has no owner. -/
theorem Own.parked (h : Own .parked entries done pc n o) :
    o = .nobody ∧ entries = [] ∧ n = 0 ∧ done = false := by
  cases o with
  | nobody =>
    obtain ⟨hent, hn, hx⟩ := h.holds
    exact ⟨rfl, hent, hn, (hx.resolve_right fun hx => absurd hx.2 (by rintro ⟨⟩)).1⟩
  | entry pl ref =>
    obtain ⟨-, -, -, hx⟩ := h.holds
    cases ref with
    | none => exact absurd hx.1 (by rintro ⟨⟩)
    | some r => exact absurd hx.1 (by rintro ⟨⟩)
  | thread j =>
    obtain ⟨-, -, -, -, hadm⟩ := h.holds
    revert hadm
    cases pc j <;> simp [Pc.admits, Ws.runs]

/-- A thread becomes the owner of a parked g. -/
theorem Own.take (h : Own .parked entries done pc n o) (hq : q.owns = true)
    (hadm : q.admits ws = true) (hring : q.ringed i = []) (hclaims : q.claims = false) :
    Own ws entries done (Function.update pc i q) 0 (.thread i) := by
  obtain ⟨rfl, hent, -, hd⟩ := h.parked
  constructor
  case holds =>
    simp only [Owner.Holds, Function.update_self, hring, hclaims]
    exact ⟨hent, rfl, hd, hq, hadm⟩
  case sole => exact sole_update (h.others fun _ _ => (by rintro ⟨⟩)) fun _ => rfl

/-- The owner goes on. -/
theorem Own.move {ws' : Ws} {n' : ℕ} (h : Own ws entries done pc n o) (hi : (pc i).owns = true)
    (hq : q.owns = true) (hadm : q.admits ws' = true) (hring : q.ringed i = (pc i).ringed i)
    (hn : n' = q.claims.toNat) : Own ws' entries done (Function.update pc i q) n' (.thread i) := by
  obtain ⟨hent, -, hd, -⟩ := h.thread hi
  constructor
  case holds =>
    simp only [Owner.Holds, Function.update_self, hring]
    exact ⟨hent, hn, hd, hq, hadm⟩
  case sole => exact sole_update (h.alone hi) fun _ => rfl

/-- The owner lets the g go, parked or completed, and may have a ref left to drop. -/
theorem Own.leave {ws' : Ws} {done' : Bool} (h : Own ws entries done pc n o)
    (hi : (pc i).owns = true) (hring : (pc i).ringed i = []) (hclaims : (pc i).claims = false)
    (hq : q.owns = false)
    (hend : done' = false ∧ ws' = .parked ∨ done' = true ∧ ws'.runs = true) :
    Own ws' entries done' (Function.update pc i q) n .nobody := by
  obtain ⟨hent, hn, -⟩ := h.thread hi
  constructor
  case holds => exact ⟨hent.trans hring, by rw [hn, hclaims]; rfl, hend⟩
  case sole => exact sole_update (h.alone hi) fun hx => absurd (hq.symm.trans hx) (by rintro ⟨⟩)

/-- The owner pushes an entry. -/
theorem Own.push {ws' : Ws} {n' : ℕ} {pl : Place} {ref : Option ℕ}
    (h : Own ws entries done pc n o) (hi : (pc i).owns = true)
    (hring : (pc i).ringed i = []) (hq : q.owns = false) (hn : n' = ref.isSome.toNat)
    (hend : if ref.isSome then ws' = .queued ∧ (pl = .deque ∨ pl = .runq)
      else ws'.runs = true ∧ pl ≠ .runq) :
    Own ws' ((pl, ref) :: entries) done (Function.update pc i q) n' (.entry pl ref) := by
  obtain ⟨hent, -, hd, -⟩ := h.thread hi
  constructor
  case holds => exact ⟨by rw [hent, hring], hn, hd, hend⟩
  case sole => exact sole_update (h.alone hi) fun hx => absurd (hq.symm.trans hx) (by rintro ⟨⟩)

/-- A hub takes the entry, and nobody else has the g. -/
theorem Own.pop {e : Place × Option ℕ} (h : Own ws entries done pc n o) (hi : pc i = .idle)
    (he : e ∈ entries) (hreach : e.1.reach i = true) :
    entries = [e] ∧ (e.1 = Place.runq → e.2.isSome = true) ∧ Own ws [] done
      (Function.update pc i (if e.1 = Place.runq then .claiming e.2 else .popped e.2)) n
      (.thread i) := by
  obtain ⟨pl, ref⟩ := e
  have hentry : o = .entry pl ref := by
    cases o with
    | nobody =>
      rw [h.holds.1] at he
      cases he
    | entry pl' ref' =>
      rw [h.holds.1, List.mem_singleton] at he
      cases he
      rfl
    | thread j =>
      -- a preempted g is on the ring of the hub that it still runs on
      rw [h.holds.1] at he
      unfold Pc.ringed at he
      split at he
      case h_1 hj =>
        rw [List.mem_singleton] at he
        cases he
        have hji : j = i := by simpa [Place.reach] using hreach
        rw [hji, hi] at hj
        cases hj
      case h_2 => cases he
  subst hentry
  obtain ⟨hent, hn, hd, hx⟩ := h.holds
  refine ⟨hent, ?_, ?_, sole_update (h.others fun _ _ => (by rintro ⟨⟩)) fun _ => rfl⟩
  · intro hpl
    cases ref with
    | none => exact absurd hpl hx.2
    | some r => rfl
  · simp only [Owner.Holds, Function.update_self]
    cases ref with
    | none =>
      rw [if_neg hx.2]
      exact ⟨rfl, hn, hd, rfl, hx.1⟩
    | some r =>
      obtain ⟨hws, -⟩ := hx
      split
      · exact ⟨rfl, hn, hd, rfl, by rw [hws]; rfl⟩
      · exact ⟨rfl, hn, hd, rfl, by rw [hws]; rfl⟩

end Own

def State.Owned (s : State) (o : Owner) : Prop :=
  Own s.ws s.entries s.done s.pc (s.enqueued s.park) o

/-- What a thread has read fits its loop, and `from_runq` says whether it has a queue ref. -/
@[grind =]
def Pc.tidy : Pc → Bool
  | .waking _ st => !st.pending
  | .timing _ _ st => st == .parked || st == .sweeping
  | .increfs fr old | .pushing _ fr old => fr == old.isSome
  | .claiming ref | .dropping ref _ => ref.isSome
  | .claimed fr ref | .running fr ref _ | .parkWoken fr ref => fr == ref.isSome
  | _ => true

theorem Pc.after_owns (fr : Bool) (ref : Option ℕ) (requeue : Bool) :
    (Pc.after fr ref requeue).owns = requeue := by
  cases fr <;> cases requeue <;> rfl

theorem Pc.after_claims (fr : Bool) (ref : Option ℕ) (requeue : Bool) :
    (Pc.after fr ref requeue).claims = false := by
  cases fr <;> cases requeue <;> rfl

theorem Pc.after_ringed (fr : Bool) (ref : Option ℕ) (requeue : Bool) (i : ℕ) :
    (Pc.after fr ref requeue).ringed i = [] := by
  cases fr <;> cases requeue <;> rfl

theorem Pc.after_admits {ws : Ws} (hq : requeue = true)
    (hws : ws.runs = true) : (Pc.after fr ref requeue).admits ws = true := by
  subst hq
  cases fr <;> exact hws

/-! ## The wakes -/

/-- A wake is directed at a park that was announced, a timer at a park that the g came to. -/
@[grind =]
def Pc.Directed (issued : ℕ → Bool) (park : ℕ) (ws : Ws) : Pc → Prop
  | .called p | .waking p _ => issued p = true
  | .timing p _ _ => issued p = true ∧ (p < park ∨ p = park ∧ ws.runs = false)
  | _ => True

structure Hist (ws : Ws) (park : ℕ) (issued answered remembered : ℕ → Bool) (enqueued : ℕ → ℕ)
    (pc : ℕ → Pc) : Prop where
  beyond : ∀ p, park < p → issued p = false ∧ remembered p = false ∧ enqueued p = 0
  past : ∀ p, p < park → enqueued p ≤ 1 ∧ (remembered p = true → enqueued p = 1)
  present : remembered park = true → ws.pending = true
  answered : ∀ p, answered p = true →
    issued p = true ∧ (p < park ∨ p = park ∧ ws.pending = true)
  directed : ∀ i, (pc i).Directed issued park ws

section Hist

variable {ws : Ws} {park : ℕ} {issued answered remembered : ℕ → Bool} {enqueued : ℕ → ℕ}
  {pc : ℕ → Pc} {i p : ℕ} {q : Pc}

theorem Hist.goto (h : Hist ws park issued answered remembered enqueued pc)
    (hq : q.Directed issued park ws) :
    Hist ws park issued answered remembered enqueued (Function.update pc i q) := by
  refine ⟨h.beyond, h.past, h.present, h.answered, fun j => ?_⟩
  by_cases hji : j = i
  · subst hji
    rwa [Function.update_self]
  · rw [Function.update_of_ne hji]
    exact h.directed j

theorem Hist.answer (h : Hist ws park issued answered remembered enqueued pc)
    (hp : issued p = true) (hx : p < park ∨ p = park ∧ ws.pending = true) :
    Hist ws park issued (Function.update answered p true) remembered enqueued pc := by
  refine ⟨h.beyond, h.past, h.present, fun p' hp' => ?_, h.directed⟩
  by_cases he : p' = p
  · subst he
    exact ⟨hp, hx⟩
  · rw [Function.update_of_ne he] at hp'
    exact h.answered p' hp'

/-- A wake that is issued is directed at no later park. -/
theorem Hist.le (h : Hist ws park issued answered remembered enqueued pc)
    (hp : issued p = true) : p ≤ park := by
  by_contra hlt
  exact absurd (hp.symm.trans (h.beyond p (Nat.not_le.mp hlt)).1) (by rintro ⟨⟩)

/-- With a wake pending every wake so far may return. -/
theorem Hist.answer_pending (h : Hist ws park issued answered remembered enqueued pc)
    (hp : issued p = true) (hws : ws.pending = true) :
    Hist ws park issued (Function.update answered p true) remembered enqueued pc := by
  refine h.answer hp ?_
  rcases Nat.lt_or_eq_of_le (h.le hp) with hlt | heq
  · exact .inl hlt
  · exact .inr ⟨heq, hws⟩

theorem Hist.issue (h : Hist ws park issued answered remembered enqueued pc) (hp : p ≤ park) :
    Hist ws park (Function.update issued p true) answered remembered enqueued pc := by
  have hmono : ∀ p', issued p' = true → Function.update issued p true p' = true := by
    intro p' hp'
    by_cases he : p' = p
    · subst he
      exact Function.update_self ..
    · rwa [Function.update_of_ne he]
  refine ⟨fun p' hlt => ?_, h.past, h.present, fun p' hp' => ?_, fun j => ?_⟩
  · rw [Function.update_of_ne (by omega)]
    exact h.beyond p' hlt
  · exact ⟨hmono p' (h.answered p' hp').1, (h.answered p' hp').2⟩
  · have hj := h.directed j
    revert hj
    cases pc j <;> simp only [Pc.Directed, imp_self]
    · exact hmono _
    · exact hmono _
    · exact fun ⟨hi, hx⟩ => ⟨hmono _ hi, hx⟩

/-- The edge PARKED to SWEEPING. -/
theorem Hist.sweep (h : Hist .parked park issued answered remembered enqueued pc) :
    Hist .sweeping park issued answered remembered enqueued pc := by
  refine ⟨h.beyond, h.past, h.present, h.answered, fun j => ?_⟩
  have hj := h.directed j
  revert hj
  cases pc j <;> exact id

/-- Every edge into QUEUED. -/
theorem Hist.queue (h : Hist ws park issued answered remembered enqueued pc) :
    Hist .queued park issued answered remembered enqueued pc := by
  refine ⟨h.beyond, h.past, fun _ => rfl, fun p hp => ?_, fun j => ?_⟩
  · obtain ⟨hi, hx⟩ := h.answered p hp
    exact ⟨hi, hx.imp_right fun hx => ⟨hx.1, rfl⟩⟩
  · have hj := h.directed j
    revert hj
    cases pc j <;> simp only [Pc.Directed, imp_self]
    exact fun ⟨hi, hx⟩ => ⟨hi, hx.imp_right fun hx => ⟨hx.1, rfl⟩⟩

theorem Hist.remember (h : Hist ws park issued answered remembered enqueued pc)
    (hws : ws = .running ∨ ws = .sweeping) :
    Hist ws.woken park issued answered (Function.update remembered park true) enqueued pc := by
  have hpending : ws.woken.pending = true := by rcases hws with rfl | rfl <;> rfl
  have hruns : ws.woken.runs = ws.runs := by rcases hws with rfl | rfl <;> rfl
  refine ⟨fun p hp => ?_, fun p hp => ?_, fun _ => hpending, fun p hp => ?_, fun j => ?_⟩
  · rw [Function.update_of_ne (by omega)]
    exact h.beyond p hp
  · rw [Function.update_of_ne (by omega)]
    exact h.past p hp
  · obtain ⟨hi, hx⟩ := h.answered p hp
    exact ⟨hi, hx.imp_right fun hx => ⟨hx.1, hpending⟩⟩
  · have hj := h.directed j
    revert hj
    cases pc j <;> simp only [Pc.Directed, imp_self, hruns]

/-- The park is over, after its enqueue if a wake was remembered in it. -/
theorem Hist.unpark (h : Hist ws park issued answered remembered enqueued pc)
    (hpast : enqueued park ≤ 1 ∧ (remembered park = true → enqueued park = 1)) :
    Hist .running (park + 1) issued answered remembered enqueued pc := by
  refine ⟨fun p hp => h.beyond p (by omega), fun p hp => ?_, fun hx => ?_, fun p hp => ?_,
    fun j => ?_⟩
  · rcases Nat.lt_or_eq_of_le (Nat.lt_succ_iff.mp hp) with hlt | rfl
    · exact h.past p hlt
    · exact hpast
  · exact absurd ((h.beyond (park + 1) (Nat.lt_succ_self park)).2.1.symm.trans hx) (by rintro ⟨⟩)
  · obtain ⟨hi, hx⟩ := h.answered p hp
    exact ⟨hi, .inl (by omega)⟩
  · have hj := h.directed j
    revert hj
    cases pc j <;> simp only [Pc.Directed, imp_self]
    exact fun ⟨hi, hx⟩ => ⟨hi, .inl (by omega)⟩

/-- A release with no wake pending. -/
theorem Hist.settle (h : Hist ws park issued answered remembered enqueued pc)
    (hws : ws.pending = false) : Hist .parked park issued answered remembered enqueued pc := by
  refine ⟨h.beyond, h.past, fun hx => ?_, fun p hp => ?_, fun j => ?_⟩
  · exact absurd (hws.symm.trans (h.present hx)) (by rintro ⟨⟩)
  · obtain ⟨hi, hx⟩ := h.answered p hp
    exact ⟨hi, .inl (hx.resolve_right fun hx => absurd (hws.symm.trans hx.2) (by rintro ⟨⟩))⟩
  · have hj := h.directed j
    revert hj
    cases pc j <;> simp only [Pc.Directed, imp_self]
    exact fun ⟨hi, hx⟩ => ⟨hi, hx.imp_right fun hx => ⟨hx.1, rfl⟩⟩

theorem Hist.push {n : ℕ} (h : Hist ws park issued answered remembered enqueued pc) :
    Hist ws park issued answered remembered (Function.update enqueued park n) pc := by
  refine ⟨fun p hp => ?_, fun p hp => ?_, h.present, h.answered, h.directed⟩
  · rw [Function.update_of_ne (by omega)]
    exact h.beyond p hp
  · rw [Function.update_of_ne (by omega)]
    exact h.past p hp

/-- A yield forgets a wake, but none was directed at the park to come. -/
theorem Hist.yield (h : Hist ws park issued answered remembered enqueued pc)
    (hruns : ws.runs = true) (hissued : issued park = false) :
    Hist .running park issued answered (Function.update remembered park false) enqueued pc := by
  refine ⟨fun p hp => ?_, fun p hp => ?_, fun hx => ?_, fun p hp => ?_, fun j => ?_⟩
  · rw [Function.update_of_ne (by omega)]
    exact h.beyond p hp
  · rw [Function.update_of_ne (by omega)]
    exact h.past p hp
  · rw [Function.update_self] at hx
    cases hx
  · obtain ⟨hi, hx⟩ := h.answered p hp
    refine ⟨hi, .inl (hx.resolve_right fun hx => ?_)⟩
    rw [hx.1, hissued] at hi
    cases hi
  · have hj := h.directed j
    revert hj
    cases pc j <;> simp only [Pc.Directed, imp_self]
    exact fun ⟨hi, hx⟩ =>
      ⟨hi, .inl (hx.resolve_right fun hx => absurd (hruns.symm.trans hx.2) (by rintro ⟨⟩))⟩

end Hist

/-! ## The queue refs -/

/-- Where a queue ref is. -/
inductive Holder
  | fresh
  | thread (i : ℕ)
  | stored
  | gone
  deriving DecidableEq

structure Refs (taken : ℕ) (drops : ℕ → ℕ) (entries : List (Place × Option ℕ)) (pc : ℕ → Pc)
    (w : ℕ → Holder) : Prop where
  fresh : ∀ r, w r = .fresh ↔ taken ≤ r
  thread : ∀ r i, w r = .thread i ↔ r ∈ (pc i).refs
  stored : ∀ r, w r = .stored ↔ ∃ pl, (pl, some r) ∈ entries
  gone : ∀ r, drops r = if w r = .gone then 1 else 0
  nodup : ∀ i, (pc i).refs.Nodup

section Refs

variable {taken : ℕ} {drops : ℕ → ℕ} {entries : List (Place × Option ℕ)} {pc : ℕ → Pc}
  {w : ℕ → Holder} {i r : ℕ} {q : Pc} {pl : Place}

/-- A thread goes on with the refs it has. -/
theorem Refs.goto (h : Refs taken drops entries pc w) (hq : q.refs = (pc i).refs) :
    Refs taken drops entries (Function.update pc i q) w := by
  have hrefs : ∀ j, (Function.update pc i q j).refs = (pc j).refs := by
    intro j
    by_cases hji : j = i
    · subst hji
      rw [Function.update_self, hq]
    · rw [Function.update_of_ne hji]
  refine ⟨h.fresh, fun r j => ?_, h.stored, h.gone, fun j => ?_⟩
  · rw [hrefs]
    exact h.thread r j
  · rw [hrefs]
    exact h.nodup j

/-- The ref `r` goes from where it was to `x`, in the hands of thread `i`. -/
theorem Refs.update {taken' : ℕ} {drops' : ℕ → ℕ} {entries' : List (Place × Option ℕ)} {x : Holder}
    (h : Refs taken drops entries pc w)
    (hx : ∀ j, w r = .thread j ∨ x = .thread j → j = i)
    (hfresh : ∀ r', r' ≠ r → (taken' ≤ r' ↔ taken ≤ r')) (hself : x = .fresh ↔ taken' ≤ r)
    (hrefs : ∀ r', r' ≠ r → (r' ∈ q.refs ↔ r' ∈ (pc i).refs)) (hq : r ∈ q.refs ↔ x = .thread i)
    (hentries : ∀ r' pl, r' ≠ r → ((pl, some r') ∈ entries' ↔ (pl, some r') ∈ entries))
    (hstored : x = .stored ↔ ∃ pl, (pl, some r) ∈ entries')
    (hdrops : ∀ r', r' ≠ r → drops' r' = drops r') (hgone : drops' r = if x = .gone then 1 else 0)
    (hnodup : q.refs.Nodup) :
    Refs taken' drops' entries' (Function.update pc i q) (Function.update w r x) := by
  constructor
  case fresh =>
    intro r'
    by_cases hr : r' = r
    · subst hr
      rw [Function.update_self, hself]
    · rw [Function.update_of_ne hr, h.fresh, hfresh r' hr]
  case thread =>
    intro r' j
    by_cases hji : j = i
    · subst hji
      rw [Function.update_self]
      by_cases hr : r' = r
      · subst hr
        rw [Function.update_self, hq]
      · rw [Function.update_of_ne hr, h.thread, hrefs r' hr]
    · rw [Function.update_of_ne hji]
      by_cases hr : r' = r
      · subst hr
        rw [Function.update_self, ← h.thread]
        exact ⟨fun hxj => absurd (hx j (.inr hxj)) hji, fun hwj => absurd (hx j (.inl hwj)) hji⟩
      · rw [Function.update_of_ne hr, h.thread]
  case stored =>
    intro r'
    by_cases hr : r' = r
    · subst hr
      rw [Function.update_self, hstored]
    · rw [Function.update_of_ne hr, h.stored]
      exact exists_congr fun pl => (hentries r' pl hr).symm
  case gone =>
    intro r'
    by_cases hr : r' = r
    · subst hr
      rw [Function.update_self, hgone]
    · rw [Function.update_of_ne hr, hdrops r' hr, h.gone]
  case nodup =>
    intro j
    by_cases hji : j = i
    · subst hji
      rwa [Function.update_self]
    · rw [Function.update_of_ne hji]
      exact h.nodup j

theorem Refs.incref {fr : Bool} {old : Option ℕ} (h : Refs taken drops entries pc w)
    (hi : pc i = .increfs fr old) :
    Refs (taken + 1) drops entries (Function.update pc i (.pushing taken fr old))
      (Function.update w taken (.thread i)) := by
  have hw : w taken = .fresh := (h.fresh taken).mpr (Nat.le_refl taken)
  have hrefs : (pc i).refs = old.toList := by rw [hi]; rfl
  have hnot : taken ∉ old.toList := by
    rw [← hrefs, ← h.thread, hw]
    rintro ⟨⟩
  have hnodup : old.toList.Nodup := by
    rw [← hrefs]
    exact h.nodup i
  refine h.update (fun j hj => ?_) (fun r' hr => by omega) ?_ (fun r' hr => ?_) ?_
    (fun _ _ _ => Iff.rfl) ?_ (fun _ _ => rfl) ?_ (List.nodup_cons.mpr ⟨hnot, hnodup⟩)
  · rcases hj with hj | hj
    · exact absurd (hw.symm.trans hj) (by rintro ⟨⟩)
    · cases hj
      rfl
  · exact ⟨by rintro ⟨⟩, fun hx => absurd hx (by omega)⟩
  · rw [hrefs]
    exact List.mem_cons.trans (or_iff_right hr)
  · exact ⟨fun _ => rfl, fun _ => List.mem_cons_self⟩
  · rw [← h.stored, hw]
    exact ⟨by rintro ⟨⟩, by rintro ⟨⟩⟩
  · rw [h.gone, hw]
    rfl

theorem Refs.push {fr : Bool} {old : Option ℕ} (h : Refs taken drops entries pc w)
    (hi : pc i = .pushing r fr old) (hq : q.refs = old.toList) :
    Refs taken drops ((pl, some r) :: entries) (Function.update pc i q)
      (Function.update w r .stored) := by
  have hrefs : (pc i).refs = r :: old.toList := by rw [hi]; rfl
  have hw : w r = .thread i := (h.thread r i).mpr (by rw [hrefs]; exact List.mem_cons_self)
  obtain ⟨hnot, hnodup⟩ : r ∉ old.toList ∧ old.toList.Nodup := by
    have hn := h.nodup i
    rw [hrefs] at hn
    exact List.nodup_cons.mp hn
  refine h.update (fun j hj => ?_) (fun _ _ => Iff.rfl) ?_ (fun r' hr => ?_) ?_
    (fun r' pl' hr => ?_) ?_ (fun _ _ => rfl) ?_ (by rwa [hq])
  · rcases hj with hj | hj
    · rw [hw] at hj
      cases hj
      rfl
    · cases hj
  · rw [← h.fresh, hw]
    exact ⟨by rintro ⟨⟩, by rintro ⟨⟩⟩
  · rw [hq, hrefs]
    exact (List.mem_cons.trans (or_iff_right hr)).symm
  · rw [hq]
    exact ⟨fun hx => absurd hx hnot, by rintro ⟨⟩⟩
  · refine List.mem_cons.trans (or_iff_right fun he => hr ?_)
    cases he
    rfl
  · exact ⟨fun _ => ⟨pl, List.mem_cons_self⟩, fun _ => rfl⟩
  · rw [h.gone, hw]
    rfl

/-- Entries that carry no ref come and go. -/
theorem Refs.of_entries {entries' : List (Place × Option ℕ)} (h : Refs taken drops entries pc w)
    (he : ∀ pl r, (pl, some r) ∈ entries' ↔ (pl, some r) ∈ entries) :
    Refs taken drops entries' pc w := by
  refine ⟨h.fresh, h.thread, fun r => ?_, h.gone, h.nodup⟩
  rw [h.stored]
  exact exists_congr fun pl => (he pl r).symm

theorem Refs.pop {ref : Option ℕ} (h : Refs taken drops [(pl, ref)] pc w) (hi : (pc i).refs = [])
    (hq : q.refs = ref.toList) : ∃ w', Refs taken drops [] (Function.update pc i q) w' := by
  cases ref with
  | none =>
    refine ⟨w, Refs.goto (h.of_entries fun pl' r' => ?_) (hq.trans hi.symm)⟩
    simp
  | some r =>
    have hw : w r = .stored := (h.stored r).mpr ⟨pl, List.mem_singleton_self _⟩
    have hq : q.refs = [r] := hq
    refine ⟨Function.update w r (.thread i), h.update (fun j hj => ?_)
      (fun _ _ => Iff.rfl) ?_ (fun r' hr => ?_) ?_ (fun r' pl' hr => ?_) ?_ (fun _ _ => rfl) ?_ ?_⟩
    · rcases hj with hj | hj
      · exact absurd (hw.symm.trans hj) (by rintro ⟨⟩)
      · cases hj
        rfl
    · rw [← h.fresh, hw]
      exact ⟨by rintro ⟨⟩, by rintro ⟨⟩⟩
    · rw [hq, hi]
      simp [hr]
    · rw [hq]
      exact ⟨fun _ => rfl, fun _ => List.mem_singleton_self r⟩
    · simp [hr]
    · exact ⟨by rintro ⟨⟩, by rintro ⟨_, ⟨⟩⟩⟩
    · rw [h.gone, hw]
      rfl
    · rw [hq]
      exact List.nodup_singleton r

theorem Refs.drop {requeue : Bool} (h : Refs taken drops entries pc w)
    (hi : pc i = .dropping (some r) requeue) (hq : q.refs = []) :
    Refs taken (Function.update drops r (drops r + 1)) entries (Function.update pc i q)
      (Function.update w r .gone) := by
  have hrefs : (pc i).refs = [r] := by rw [hi]; rfl
  have hw : w r = .thread i := (h.thread r i).mpr (by rw [hrefs]; exact List.mem_singleton_self r)
  refine h.update (fun j hj => ?_) (fun _ _ => Iff.rfl) ?_ (fun r' hr => ?_) ?_
    (fun _ _ _ => Iff.rfl) ?_ (fun r' hr => Function.update_of_ne hr _ _) ?_ ?_
  · rcases hj with hj | hj
    · rw [hw] at hj
      cases hj
      rfl
    · cases hj
  · rw [← h.fresh, hw]
    exact ⟨by rintro ⟨⟩, by rintro ⟨⟩⟩
  · rw [hq, hrefs]
    simp [hr]
  · rw [hq]
    exact ⟨by rintro ⟨⟩, by rintro ⟨⟩⟩
  · rw [← h.stored, hw]
    exact ⟨by rintro ⟨⟩, by rintro ⟨⟩⟩
  · rw [Function.update_self, h.gone, hw]
    rfl
  · rw [hq]
    exact List.nodup_nil

end Refs

/-! ## A step -/

structure Inv (s : State) (o : Owner) (w : ℕ → Holder) : Prop where
  own : s.Owned o
  tidy : ∀ i, (s.pc i).tidy = true
  hist : Hist s.ws s.park s.issued s.answered s.remembered s.enqueued s.pc
  refs : Refs s.taken s.drops s.entries s.pc w
  clean : s.misses = 0 ∧ s.stray = 0

theorem inv_start {pl : Place} (hpl : pl ≠ .runq) :
    Inv (start pl) (.entry pl none) fun _ => .fresh where
  own := ⟨⟨rfl, rfl, rfl, rfl, hpl⟩, by rintro _ ⟨⟩⟩
  tidy _ := rfl
  hist := ⟨fun _ _ => ⟨rfl, rfl, rfl⟩, by rintro _ ⟨⟩, by rintro ⟨⟩, by rintro _ ⟨⟩, fun _ => trivial⟩
  refs :=
    ⟨fun r => ⟨fun _ => Nat.zero_le r, fun _ => rfl⟩, fun _ _ => ⟨by rintro ⟨⟩, by rintro ⟨⟩⟩,
      fun r => ⟨by rintro ⟨⟩, fun ⟨pl', hx⟩ => by simp [start] at hx⟩, fun _ => rfl,
      fun _ => List.nodup_nil⟩
  clean := ⟨rfl, rfl⟩

theorem tidy_update {pc : ℕ → Pc} {i : ℕ} {q : Pc} (h : ∀ j, (pc j).tidy = true)
    (hq : q.tidy = true) : ∀ j, (Function.update pc i q j).tidy = true := by
  intro j
  by_cases hji : j = i
  · subst hji
    rwa [Function.update_self]
  · rw [Function.update_of_ne hji]
    exact h j

theorem Pc.after_tidy (h : (fr == ref.isSome) = true) :
    (Pc.after fr ref requeue).tidy = true := by
  cases fr <;> cases requeue <;> cases ref <;> simp_all [Pc.after, Pc.tidy]

theorem Pc.after_refs (h : (fr == ref.isSome) = true) :
    (Pc.after fr ref requeue).refs = ref.toList := by
  cases fr <;> cases requeue <;> cases ref <;> simp_all [Pc.after, Pc.refs]

theorem Pc.after_directed {issued : ℕ → Bool} {park : ℕ}
    {ws : Ws} : (Pc.after fr ref requeue).Directed issued park ws := by
  cases fr <;> cases requeue <;> trivial

section Step

variable {s t : State} {o : Owner} {w : ℕ → Holder} {i p : ℕ}

variable {q : Pc} {ref : Option ℕ} {fr : Bool} {pl : Place}

/-- The owner has an admissible state before it, and no wake was enqueued unless it claims. -/
theorem Inv.owner (h : Inv s o w) (hi : s.pc i = q) (hown : q.owns = true) :
    s.entries = q.ringed i ∧ s.enqueued s.park = q.claims.toNat ∧ s.done = false ∧
      q.admits s.ws = true := by
  subst hi
  obtain ⟨hent, hn, hd, -, hadm⟩ := h.own.thread hown
  exact ⟨hent, hn, hd, hadm⟩

/-- The owner goes on in the same park. -/
theorem Inv.move {q' : Pc} {ws : Ws} (h : Inv s o w) (hi : s.pc i = q) (hown : q.owns = true)
    (hown' : q'.owns = true) (hadm : q'.admits ws = true) (hring : q'.ringed i = q.ringed i)
    (hclaims : q'.claims = q.claims) (htidy : q'.tidy = true) (hrefs : q'.refs = q.refs)
    (hdir : q'.Directed s.issued s.park ws)
    (hist : Hist ws s.park s.issued s.answered s.remembered s.enqueued s.pc) :
    Inv (State.goto { s with ws := ws } i q') (.thread i) w := by
  obtain ⟨-, hn, -⟩ := h.owner hi hown
  subst hi
  refine ⟨?_, tidy_update h.tidy htidy, hist.goto hdir, h.refs.goto hrefs, h.clean⟩
  refine h.own.move hown hown' hadm hring ?_
  rw [hclaims]
  exact hn

theorem reread_inv (h : Inv s o w) (hown : (s.pc i).owns = false) (hrefs : (s.pc i).refs = [])
    (hp : s.issued p = true) : Inv (s.reread i p) o w := by
  unfold State.reread
  split
  case isTrue hws =>
    exact ⟨h.own.aside hown rfl, tidy_update h.tidy rfl, (h.hist.answer_pending hp hws).goto trivial,
      h.refs.goto hrefs.symm, h.clean⟩
  case isFalse hws =>
    have hws : (Pc.waking p s.ws).tidy = true := by simpa [Pc.tidy] using hws
    exact ⟨h.own.aside hown rfl, tidy_update h.tidy hws, h.hist.goto hp, h.refs.goto hrefs.symm,
      h.clean⟩

/-- A timer whose CAS has failed: the park is over, or it looks again. -/
theorem retime_inv {elsewhere : Bool} {st : Ws} (h : Inv s o w)
    (hi : s.pc i = .timing p elsewhere st) : Inv (s.retime i p elsewhere) o w := by
  have hown : (s.pc i).owns = false := by rw [hi]; rfl
  have hrefs : (s.pc i).refs = [] := by rw [hi]; rfl
  have hdir := h.hist.directed i
  rw [hi] at hdir
  unfold State.retime
  split
  case isTrue hws =>
    have hws : (Pc.timing p elsewhere s.ws).tidy = true := by simpa [Pc.tidy] using hws
    exact ⟨h.own.aside hown rfl, tidy_update h.tidy hws, h.hist.goto hdir, h.refs.goto hrefs.symm,
      h.clean⟩
  case isFalse hws =>
    have hx : p < s.park ∨ p = s.park ∧ s.ws.pending = true := by
      refine hdir.2.imp_right fun ⟨hp, hruns⟩ => ⟨hp, ?_⟩
      cases hst : s.ws <;> simp_all [Ws.pending, Ws.runs]
    exact ⟨h.own.aside hown rfl, tidy_update h.tidy rfl, (h.hist.answer hdir.1 hx).goto trivial,
      h.refs.goto hrefs.symm, h.clean⟩

/-- A thread takes the g out of PARKED, in the same park. -/
theorem Inv.take {ws : Ws} (h : Inv s o w) (hws : s.ws = .parked) (hown : q.owns = true)
    (hadm : q.admits ws = true) (hring : q.ringed i = []) (hclaims : q.claims = false) :
    Own ws s.entries s.done (Function.update s.pc i q) (s.enqueued s.park) (.thread i) := by
  have hs := h.own
  unfold State.Owned at hs
  rw [hws] at hs
  have ht : Own ws s.entries s.done (Function.update s.pc i q) 0 (.thread i) :=
    hs.take hown hadm hring hclaims
  rwa [← hs.parked.2.2.1] at ht

/-- A wake, or a timer of a pinned g, takes the edge PARKED to QUEUED. -/
theorem enqueue_inv (h : Inv s o w) (hrefs : (s.pc i).refs = []) (hp : s.issued p = true)
    (hws : s.ws = .parked) :
    Inv ((State.answer { s with ws := .queued } p).goto i (.increfs false none)) (.thread i) w := by
  have hist : Hist .queued s.park s.issued (Function.update s.answered p true) s.remembered
      s.enqueued s.pc := h.hist.queue.answer_pending hp rfl
  exact ⟨h.take hws rfl rfl rfl rfl, tidy_update h.tidy rfl, hist.goto trivial,
    h.refs.goto hrefs.symm, h.clean⟩

theorem sweep_inv (h : Inv s o w) (hi : s.pc i = .idle) (hws : s.ws = .parked) :
    Inv (State.goto { s with ws := .sweeping } i .sweeping) (.thread i) w := by
  have hist := h.hist
  rw [hws] at hist
  exact ⟨h.take hws rfl rfl rfl rfl, tidy_update h.tidy rfl, hist.sweep.goto trivial,
    h.refs.goto (by rw [hi]; rfl), h.clean⟩

/-- A wake finds RUNNING or SWEEPING. -/
theorem remember_inv (h : Inv s o w) (hown : (s.pc i).owns = false) (hrefs : (s.pc i).refs = [])
    (hp : s.issued p = true) (hws : s.ws = .running ∨ s.ws = .sweeping) :
    Inv ((s.remember.answer p).goto i .idle) o w := by
  have hpending : s.ws.woken.pending = true := by
    rcases hws with hws | hws <;> rw [hws] <;> rfl
  exact ⟨(h.own.mark hws).aside hown rfl, tidy_update h.tidy rfl,
    ((h.hist.remember hws).answer_pending hp hpending).goto trivial, h.refs.goto hrefs.symm, h.clean⟩

/-- The timer claim: the g goes from PARKED to RUNNING. -/
theorem timerClaim_inv {elsewhere : Bool} (h : Inv s o w)
    (hi : s.pc i = .timing p elsewhere .parked) (hws : s.ws = .parked) :
    Inv ((s.unpark.answer p).goto i .requeues) (.thread i) w := by
  have hrefs : (s.pc i).refs = [] := by rw [hi]; rfl
  have hdir := h.hist.directed i
  rw [hi] at hdir
  have hown := h.own
  unfold State.Owned at hown
  rw [hws] at hown
  have hzero := hown.parked.2.2.1
  have hist : Hist .running (s.park + 1) s.issued (Function.update s.answered p true) s.remembered
      s.enqueued s.pc := by
    refine Hist.answer (h.hist.unpark ⟨by omega, fun hx => ?_⟩) hdir.1 (.inl ?_)
    · have hpending := h.hist.present hx
      rw [hws] at hpending
      cases hpending
    · have hle := h.hist.le hdir.1
      omega
  refine ⟨?_, tidy_update h.tidy rfl, hist.goto trivial, h.refs.goto hrefs.symm, h.clean⟩
  have ht : Own .running s.entries s.done (Function.update s.pc i .requeues) 0 (.thread i) :=
    hown.take rfl rfl rfl rfl
  rw [← (h.hist.beyond (s.park + 1) (Nat.lt_succ_self _)).2.2] at ht
  exact ht

/-- The claim of a hub, which does not fail. -/
theorem claim_inv (h : Inv s o w) (hi : s.pc i = .claiming ref) :
    s.ws = .queued ∧ Inv (s.unpark.goto i (.claimed true ref)) (.thread i) w := by
  obtain ⟨-, hn, -, hadm⟩ := h.owner hi rfl
  have htidy := h.tidy i
  rw [hi] at htidy
  have hq : (Pc.claimed true ref).tidy = true := by simpa [Pc.tidy] using htidy
  have hone : s.enqueued s.park = 1 := hn
  refine ⟨by simpa [Pc.admits] using hadm, ?_, tidy_update h.tidy hq,
    (h.hist.unpark ⟨by omega, fun _ => hone⟩).goto trivial, h.refs.goto (by rw [hi]; rfl), h.clean⟩
  refine h.own.move (by rw [hi]; rfl) rfl rfl (by rw [hi]; rfl) ?_
  exact (h.hist.beyond (s.park + 1) (Nat.lt_succ_self _)).2.2

theorem incref_inv {old : Option ℕ} (h : Inv s o w) (hi : s.pc i = .increfs fr old) :
    Inv (State.goto { s with taken := s.taken + 1 } i (.pushing s.taken fr old)) (.thread i)
      (Function.update w s.taken (.thread i)) := by
  obtain ⟨-, hn, -, hadm⟩ := h.owner hi rfl
  have htidy := h.tidy i
  rw [hi] at htidy
  refine ⟨?_, tidy_update h.tidy htidy, h.hist.goto trivial, h.refs.incref hi, h.clean⟩
  exact h.own.move (by rw [hi]; rfl) rfl hadm (by rw [hi]; rfl) hn

theorem push_inv {r : ℕ} {old : Option ℕ} (h : Inv s o w)
    (hi : s.pc i = .pushing r fr old) (hpl : pl = .deque ∨ pl = .runq) :
    Inv (State.goto { s with
      entries := (pl, some r) :: s.entries
      enqueued := Function.update s.enqueued s.park (s.enqueued s.park + 1) } i
        (.after fr old false)) (.entry pl (some r)) (Function.update w r .stored) := by
  obtain ⟨-, hn, -, hadm⟩ := h.owner hi rfl
  have hws : s.ws = .queued := by simpa [Pc.admits] using hadm
  have htidy := h.tidy i
  rw [hi] at htidy
  refine ⟨?_, tidy_update h.tidy (Pc.after_tidy htidy), h.hist.push.goto Pc.after_directed,
    h.refs.push hi (Pc.after_refs htidy), h.clean⟩
  refine h.own.push (by rw [hi]; rfl) (by rw [hi]; rfl) (Pc.after_owns fr old false) ?_ ⟨hws, hpl⟩
  change Function.update s.enqueued s.park (s.enqueued s.park + 1) s.park = 1
  rw [Function.update_self, hn]
  rfl

theorem requeue_inv (h : Inv s o w) (hi : s.pc i = .requeues)
    (hpl : pl = .yieldq ∨ pl = .ring i) :
    Inv (State.goto { s with entries := (pl, none) :: s.entries } i .idle) (.entry pl none) w := by
  obtain ⟨-, hn, -, hadm⟩ := h.owner hi rfl
  have hrunq : pl ≠ .runq := by rcases hpl with rfl | rfl <;> rintro ⟨⟩
  have hrefs : Refs s.taken s.drops ((pl, none) :: s.entries) s.pc w :=
    h.refs.of_entries fun _ _ => by simp
  refine ⟨?_, tidy_update h.tidy rfl, h.hist.goto trivial, hrefs.goto (by rw [hi]; rfl), h.clean⟩
  exact h.own.push (by rw [hi]; rfl) (by rw [hi]; rfl) rfl hn ⟨hadm, hrunq⟩

theorem drop_inv {requeue : Bool} (h : Inv s o w)
    (hi : s.pc i = .dropping ref requeue) :
    ∃ w', Inv ((s.drop ref).goto i (if requeue then .requeues else .idle)) o w' := by
  have htidy := h.tidy i
  rw [hi] at htidy
  cases ref with
  | none => cases htidy
  | some r =>
    have hq : (if requeue then Pc.requeues else Pc.idle).refs = [] := by cases requeue <;> rfl
    refine ⟨_, ?_, tidy_update h.tidy (by cases requeue <;> rfl),
      h.hist.goto (by cases requeue <;> trivial), h.refs.drop hi hq, h.clean⟩
    cases requeue with
    | false => exact h.own.aside (by rw [hi]; rfl) rfl
    | true =>
      have hown : (s.pc i).owns = true := by rw [hi]; rfl
      obtain ⟨-, hn, -, hadm⟩ := h.owner hi rfl
      have ho := h.own.sole i hown
      subst ho
      exact h.own.move hown rfl hadm (by rw [hi]; rfl) hn

/-- The owner ends its ownership with the g parked, or completed. -/
theorem leave_inv {q' : Pc} {ws : Ws} {done : Bool} (h : Inv s o w) (hi : s.pc i = q)
    (hown : q.owns = true) (hring : q.ringed i = []) (hclaims : q.claims = false)
    (hown' : q'.owns = false) (htidy : q'.tidy = true) (hrefs : q'.refs = q.refs)
    (hdir : q'.Directed s.issued s.park ws)
    (hend : done = false ∧ ws = .parked ∨ done = true ∧ ws.runs = true)
    (hist : Hist ws s.park s.issued s.answered s.remembered s.enqueued s.pc) :
    Inv (State.goto { s with ws := ws, done := done } i q') .nobody w := by
  subst hi
  exact ⟨h.own.leave hown hring hclaims hown' hend, tidy_update h.tidy htidy, hist.goto hdir,
    h.refs.goto hrefs, h.clean⟩

/-- What a hub makes of an entry that is not from the global run-queue. -/
theorem look_inv (h : Inv s o w) (hi : s.pc i = .popped ref) :
    (s.ws = .queued → Inv (s.goto i (.claiming ref)) (.thread i) w) ∧
      (s.ws ≠ .queued → Inv (s.goto i (.claimed false ref)) (.thread i) w) := by
  obtain ⟨-, -, -, hadm⟩ := h.owner hi rfl
  cases ref with
  | none =>
    have hruns : s.ws.runs = true := hadm
    refine ⟨fun hws => ?_, fun _ => ?_⟩
    · rw [hws] at hruns
      cases hruns
    · exact h.move hi rfl rfl hadm rfl rfl rfl rfl trivial h.hist
  | some r =>
    have hqueued : s.ws = .queued := by simpa [Pc.admits] using hadm
    refine ⟨fun _ => ?_, fun hws => absurd hqueued hws⟩
    exact h.move hi rfl rfl hadm rfl rfl rfl rfl trivial h.hist

theorem advance_inv (h : Inv s o w) (hs : advance s i pl = some t) :
    ∃ o' w', Inv t o' w' := by
  have htidy := h.tidy i
  have hdir := h.hist.directed i
  cases hi : s.pc i with
  | idle =>
    simp only [advance, hi] at hs
    cases hs
  | running fr ref selfQueued =>
    simp only [advance, hi] at hs
    cases hs
  | called p =>
    rw [hi] at hdir
    simp only [advance, hi] at hs
    cases hs
    exact ⟨o, w, reread_inv h (by rw [hi]; rfl) (by rw [hi]; rfl) hdir⟩
  | waking p st =>
    rw [hi] at hdir htidy
    simp only [advance, hi] at hs
    split at hs
    case isTrue hws =>
      split at hs
      case isTrue hst =>
        cases hs
        exact ⟨_, w, enqueue_inv h (by rw [hi]; rfl) hdir (hws.trans hst)⟩
      case isFalse hst =>
        cases hs
        refine ⟨o, w, remember_inv h (by rw [hi]; rfl) (by rw [hi]; rfl) hdir ?_⟩
        rw [hws]
        cases st <;> simp_all [Pc.tidy, Ws.pending]
    case isFalse =>
      cases hs
      exact ⟨o, w, reread_inv h (by rw [hi]; rfl) (by rw [hi]; rfl) hdir⟩
  | increfs fr old =>
    simp only [advance, hi] at hs
    cases hs
    exact ⟨_, _, incref_inv h hi⟩
  | pushing r fr old =>
    simp only [advance, hi] at hs
    split at hs
    case isTrue hpl =>
      cases hs
      exact ⟨_, _, push_inv h hi hpl⟩
    case isFalse => cases hs
  | timing p elsewhere st =>
    rw [hi] at hdir htidy
    simp only [advance, hi] at hs
    split at hs
    case isTrue hws =>
      split at hs
      case isTrue hst =>
        subst hst
        split at hs
        case isTrue =>
          cases hs
          exact ⟨_, w, enqueue_inv h (by rw [hi]; rfl) hdir.1 hws⟩
        case isFalse =>
          cases hs
          exact ⟨_, w, timerClaim_inv h hi hws⟩
      case isFalse hst =>
        cases hs
        refine ⟨o, w, remember_inv h (by rw [hi]; rfl) (by rw [hi]; rfl) hdir.1 ?_⟩
        rw [hws]
        cases st <;> simp_all [Pc.tidy]
    case isFalse =>
      cases hs
      exact ⟨o, w, retime_inv h hi⟩
  | requeues =>
    simp only [advance, hi] at hs
    split at hs
    case isTrue hpl =>
      cases hs
      exact ⟨_, w, requeue_inv h hi hpl⟩
    case isFalse => cases hs
  | sweeping =>
    obtain ⟨-, -, hd, hadm⟩ := h.owner hi rfl
    simp only [advance, hi] at hs
    split at hs
    case isTrue hws =>
      cases hs
      have ht : Inv (State.goto { s with ws := .parked, done := s.done } i .idle) .nobody w :=
        leave_inv h hi rfl rfl rfl rfl rfl rfl trivial (.inl ⟨hd, rfl⟩)
          (h.hist.settle (by rw [hws]; rfl))
      exact ⟨_, w, ht⟩
    case isFalse hws =>
      cases hs
      have hq : Pc.sweepWoken.admits s.ws = true := by simpa [Pc.admits, hws] using hadm
      exact ⟨_, w, h.move hi rfl rfl hq rfl rfl rfl rfl trivial h.hist⟩
  | sweepWoken =>
    simp only [advance, hi] at hs
    cases hs
    exact ⟨_, w, h.move hi rfl rfl rfl rfl rfl rfl rfl trivial h.hist.queue⟩
  | popped ref =>
    obtain ⟨hq, hnq⟩ := look_inv h hi
    simp only [advance, hi] at hs
    split at hs
    case isTrue hws =>
      cases hs
      exact ⟨_, w, hq hws⟩
    case isFalse hws =>
      cases hs
      exact ⟨_, w, hnq hws⟩
  | claiming ref =>
    obtain ⟨hws, ht⟩ := claim_inv h hi
    simp only [advance, hi] at hs
    rw [if_pos hws] at hs
    cases hs
    exact ⟨_, w, ht⟩
  | claimed fr ref =>
    obtain ⟨-, -, hd, hadm⟩ := h.owner hi rfl
    rw [hi] at htidy
    simp only [advance, hi] at hs
    rw [if_neg (by simp [hd])] at hs
    cases hs
    exact ⟨_, w, h.move hi rfl rfl hadm rfl rfl htidy rfl trivial h.hist⟩
  | parkWoken fr ref =>
    rw [hi] at htidy
    simp only [advance, hi] at hs
    cases hs
    exact ⟨_, w, h.move hi rfl rfl rfl rfl rfl htidy rfl trivial h.hist.queue⟩
  | dropping ref requeue =>
    simp only [advance, hi] at hs
    cases hs
    exact ⟨o, drop_inv h hi⟩

theorem pop_inv (h : Inv s o w) (hs : step s (.pop i pl) = some t) :
    ∃ o' w', Inv t o' w' := by
  simp only [step] at hs
  split at hs
  case h_1 e he =>
    split at hs
    case isTrue hidle =>
      cases hs
      have hpl : e.1 = pl := by simpa using List.find?_some he
      subst hpl
      obtain ⟨hent, hrunq, hown⟩ := h.own.pop hidle.1 (List.mem_of_find?_eq_some he) hidle.2
      have hrest : s.entries.erase e = [] := by simp [hent]
      have hrefs := h.refs
      rw [hent] at hrefs
      obtain ⟨w', hw⟩ : ∃ w', Refs s.taken s.drops [] (Function.update s.pc i
          (if e.1 = Place.runq then .claiming e.2 else .popped e.2)) w' :=
        hrefs.pop (by rw [hidle.1]; rfl) (by split <;> rfl)
      rw [← hrest] at hown hw
      refine ⟨_, w', hown, tidy_update h.tidy ?_, h.hist.goto ?_, hw, h.clean⟩
      · split
        case isTrue hq => exact hrunq hq
        case isFalse => rfl
      · split <;> trivial
    case isFalse => cases hs
  case h_2 => cases hs

theorem preempt_inv (h : Inv s o w)
    (hi : s.pc i = .running fr ref false) :
    Inv (State.goto { s with entries := (.ring i, none) :: s.entries } i (.running fr ref true))
      (.thread i) w := by
  obtain ⟨hent, hn, hd, hadm⟩ := h.owner hi rfl
  have hown : (s.pc i).owns = true := by rw [hi]; rfl
  have htidy := h.tidy i
  rw [hi] at htidy
  have hrefs : Refs s.taken s.drops ((.ring i, none) :: s.entries) s.pc w :=
    h.refs.of_entries fun _ _ => by simp
  refine ⟨⟨?_, sole_update (h.own.alone hown) fun _ => rfl⟩, tidy_update h.tidy htidy,
    h.hist.goto trivial, hrefs.goto (by rw [hi]; rfl), h.clean⟩
  simp only [State.goto, Owner.Holds, Function.update_self]
  exact ⟨by rw [hent]; rfl, hn, hd, rfl, hadm⟩

/-- A yield: the hub is to requeue the g, or the g is on the ring already. -/
theorem yield_inv {selfQueued : Bool} (h : Inv s o w)
    (hi : s.pc i = .running fr ref selfQueued) (hissued : s.issued s.park = false) :
    ∃ o', Inv (State.goto { s with
      ws := .running, remembered := Function.update s.remembered s.park false } i
        (.after fr ref (!selfQueued))) o' w := by
  obtain ⟨hent, hn, hd, hadm⟩ := h.owner hi rfl
  have hown : (s.pc i).owns = true := by rw [hi]; rfl
  have htidy := h.tidy i
  rw [hi] at htidy
  have hruns : s.ws.runs = true := hadm
  have hrefs : (Pc.after fr ref (!selfQueued)).refs = (s.pc i).refs := by
    rw [hi, Pc.after_refs htidy]
    rfl
  have hrest : ∀ o', Own .running s.entries s.done
      (Function.update s.pc i (.after fr ref (!selfQueued))) (s.enqueued s.park) o' →
      Inv (State.goto { s with
        ws := .running, remembered := Function.update s.remembered s.park false } i
          (.after fr ref (!selfQueued))) o' w := fun o' ho =>
    ⟨ho, tidy_update h.tidy (Pc.after_tidy htidy),
      (h.hist.yield hruns hissued).goto Pc.after_directed, h.refs.goto hrefs, h.clean⟩
  cases selfQueued with
  | false =>
    refine ⟨_, hrest (.thread i) (h.own.move hown (Pc.after_owns fr ref true)
      (Pc.after_admits rfl rfl) ?_ ?_)⟩
    · rw [hi, Bool.not_false, Pc.after_ringed]
      rfl
    · rw [Bool.not_false, Pc.after_claims]
      exact hn
  | true =>
    refine ⟨_, hrest (.entry (.ring i) none) ⟨⟨hent, hn, hd, rfl, by rintro ⟨⟩⟩, ?_⟩⟩
    refine sole_update (h.own.alone hown) fun hx => ?_
    exact absurd ((Pc.after_owns fr ref false).symm.trans hx) (by rintro ⟨⟩)

theorem step_inv {a : Action} (h : Inv s o w) (hs : step s a = some t) :
    ∃ o' w', Inv t o' w' := by
  cases a with
  | call i p =>
    simp only [step] at hs
    split at hs
    case isFalse => cases hs
    case isTrue hi =>
      cases hs
      have hist := h.hist.issue hi.2.1
      refine ⟨o, w, h.own.aside (by rw [hi.1]; rfl) rfl, tidy_update h.tidy rfl, hist.goto ?_,
        h.refs.goto (by rw [hi.1]; rfl), h.clean⟩
      exact Function.update_self ..
  | timer i p elsewhere =>
    simp only [step] at hs
    split at hs
    case isFalse => cases hs
    case isTrue hi =>
      cases hs
      have hle : p ≤ s.park := hi.2.2.elim Nat.le_of_lt fun hx => Nat.le_of_eq hx.1
      have hist := h.hist.issue hle
      refine ⟨o, w, h.own.aside (by rw [hi.1]; rfl) rfl, tidy_update h.tidy rfl, hist.goto ?_,
        h.refs.goto (by rw [hi.1]; rfl), h.clean⟩
      exact ⟨Function.update_self .., hi.2.2⟩
  | sweep i =>
    simp only [step] at hs
    split at hs
    case isFalse => cases hs
    case isTrue hi =>
      cases hs
      exact ⟨_, w, sweep_inv h hi.1 hi.2⟩
  | pop i pl => exact pop_inv h hs
  | advance i pl => exact advance_inv h hs
  | preempt i =>
    simp only [step] at hs
    split at hs
    case h_1 fr ref hi =>
      cases hs
      exact ⟨_, w, preempt_inv h hi⟩
    case h_2 => cases hs
  | finish i =>
    simp only [step] at hs
    split at hs
    case h_1 fr ref hi =>
      obtain ⟨-, -, -, hadm⟩ := h.owner hi rfl
      have htidy := h.tidy i
      rw [hi] at htidy
      split at hs
      case isTrue => cases hs
      case isFalse =>
        cases hs
        exact ⟨_, w, leave_inv h hi rfl rfl rfl (Pc.after_owns fr ref false) (Pc.after_tidy htidy)
          (Pc.after_refs htidy) Pc.after_directed (.inr ⟨rfl, hadm⟩) h.hist⟩
    case h_2 => cases hs
  | park i =>
    simp only [step] at hs
    split at hs
    case h_1 fr ref hi =>
      obtain ⟨-, -, hd, hadm⟩ := h.owner hi rfl
      have htidy := h.tidy i
      rw [hi] at htidy
      split at hs
      case isTrue hws =>
        cases hs
        exact ⟨_, w, leave_inv h hi rfl rfl rfl (Pc.after_owns fr ref false) (Pc.after_tidy htidy)
          (Pc.after_refs htidy) Pc.after_directed (.inl ⟨hd, rfl⟩)
          (h.hist.settle (by rw [hws]; rfl))⟩
      case isFalse hws =>
        cases hs
        have hq : (Pc.parkWoken fr ref).admits s.ws = true := by
          cases hx : s.ws <;> simp_all [Pc.admits, Ws.runs]
        exact ⟨_, w, h.move hi rfl rfl hq rfl rfl htidy rfl trivial h.hist⟩
    case h_2 => cases hs
  | yield i =>
    simp only [step] at hs
    split at hs
    case h_1 fr ref selfQueued hi =>
      split at hs
      case isTrue => cases hs
      case isFalse hissued =>
        cases hs
        obtain ⟨o', ht⟩ := yield_inv h hi (by simpa using hissued)
        exact ⟨o', w, ht⟩
    case h_2 => cases hs

end Step

theorem reachable_inv (hr : Reachable system s) : ∃ o w, Inv s o w := by
  refine Reachable.invariant (P := fun s => ∃ o w, Inv s o w) ?_ ?_ hr
  · rintro s ⟨pl, hpl, rfl⟩
    exact ⟨_, _, inv_start hpl⟩
  · rintro s a t - ⟨o, w, h⟩ hs
    exact step_inv h hs

section Sound

variable {s : State} {o : Owner} {w : ℕ → Holder}

variable {q : Pc}

theorem Pc.owns_of_enqueues (h : q.enqueues = true) : q.owns = true := by
  cases q <;> simp_all [Pc.enqueues, Pc.owns]

theorem Pc.owns_of_claims (h : q.claims = true) : q.owns = true := by
  cases q <;> simp_all [Pc.claims, Pc.owns]

theorem Pc.owns_of_resumes (h : q.resumes = true) : q.owns = true := by
  cases q <;> simp_all [Pc.resumes, Pc.owns]

/-- The owners of a QUEUED g that are threads. -/
theorem Pc.of_admits_queued (h : q.admits .queued = true) :
    q.enqueues = true ∨ q.claims = true := by
  cases q with
  | popped ref => cases ref <;> simp_all [Pc.admits, Pc.claims, Ws.runs]
  | _ => simp_all [Pc.admits, Pc.enqueues, Pc.claims, Ws.runs]

theorem Inv.entries_le (h : Inv s o w) : s.entries.length ≤ 1 := by
  cases o with
  | nobody => simp [h.own.holds.1]
  | entry pl ref => simp [h.own.holds.1]
  | thread i =>
    rw [h.own.holds.1]
    unfold Pc.ringed
    split <;> simp

/-- A woken entry is the owner. -/
theorem Inv.owner_of_mem {pl : Place} {r : ℕ} (h : Inv s o w) (he : (pl, some r) ∈ s.entries) :
    o = .entry pl (some r) := by
  cases o with
  | nobody =>
    rw [h.own.holds.1] at he
    cases he
  | entry pl' ref =>
    rw [h.own.holds.1, List.mem_singleton] at he
    cases he
    rfl
  | thread i =>
    rw [h.own.holds.1] at he
    unfold Pc.ringed at he
    split at he
    · simp at he
    · cases he

theorem Inv.woken (h : Inv s o w) :
    s.WokenEntry ↔ s.ws = .queued ∧ (∀ i, (s.pc i).enqueues = false) ∧
      ∀ i, (s.pc i).claims = false := by
  constructor
  · rintro ⟨pl, r, he, -⟩
    have ho := h.owner_of_mem he
    subst ho
    have hnone : ∀ i, (s.pc i).owns = false := by
      intro i
      by_contra hown
      exact absurd (h.own.sole i (by simpa using hown)) (by rintro ⟨⟩)
    refine ⟨h.own.holds.2.2.2.1, fun i => ?_, fun i => ?_⟩
    · by_contra hx
      exact absurd ((hnone i).symm.trans (Pc.owns_of_enqueues (by simpa using hx))) (by rintro ⟨⟩)
    · by_contra hx
      exact absurd ((hnone i).symm.trans (Pc.owns_of_claims (by simpa using hx))) (by rintro ⟨⟩)
  · rintro ⟨hws, henq, hclaims⟩
    cases o with
    | nobody =>
      obtain ⟨-, -, hx⟩ := h.own.holds
      rw [hws] at hx
      rcases hx with ⟨-, hx⟩ | ⟨-, hx⟩ <;> cases hx
    | entry pl ref =>
      obtain ⟨hent, -, -, hx⟩ := h.own.holds
      cases ref with
      | none =>
        have hruns := hx.1
        rw [hws] at hruns
        cases hruns
      | some r => exact ⟨pl, r, by rw [hent]; exact List.mem_singleton_self _, hx.2⟩
    | thread i =>
      obtain ⟨-, -, -, -, hadm⟩ := h.own.holds
      rw [hws] at hadm
      rcases Pc.of_admits_queued hadm with hx | hx
      · exact absurd ((henq i).symm.trans hx) (by rintro ⟨⟩)
      · exact absurd ((hclaims i).symm.trans hx) (by rintro ⟨⟩)

theorem Inv.once (h : Inv s o w) (p : ℕ) : s.enqueued p ≤ 1 := by
  rcases Nat.lt_trichotomy p s.park with hlt | rfl | hgt
  · exact (h.hist.past p hlt).1
  · cases o with
    | nobody => simp [h.own.holds.2.1]
    | entry pl ref =>
      rw [h.own.holds.2.1]
      exact Bool.toNat_le _
    | thread i =>
      rw [h.own.holds.2.1]
      exact Bool.toNat_le _
  · simp [(h.hist.beyond p hgt).2.2]

theorem Inv.remembered (h : Inv s o w) {p : ℕ} (hp : s.remembered p = true) :
    p < s.park ∧ s.enqueued p = 1 ∨ p = s.park ∧ s.ws.pending = true := by
  rcases Nat.lt_trichotomy p s.park with hlt | rfl | hgt
  · exact .inl ⟨hlt, (h.hist.past p hlt).2 hp⟩
  · exact .inr ⟨rfl, h.hist.present hp⟩
  · exact absurd ((h.hist.beyond p hgt).2.1.symm.trans hp) (by rintro ⟨⟩)

theorem Inv.dropped (h : Inv s o w) (r : ℕ) :
    s.drops r ≤ 1 ∧ (r < s.taken ∧ s.drops r = 0 ↔ s.Stored r ∨ ∃ i, r ∈ (s.pc i).refs) := by
  have hfresh : r < s.taken ↔ w r ≠ .fresh := by
    rw [Ne, h.refs.fresh]
    omega
  have hstored : s.Stored r ↔ w r = .stored := (h.refs.stored r).symm
  have hthread : (∃ i, r ∈ (s.pc i).refs) ↔ ∃ i, w r = .thread i :=
    exists_congr fun i => (h.refs.thread r i).symm
  rw [h.refs.gone, hfresh, hstored, hthread]
  cases w r <;> simp

theorem Inv.single (h : Inv s o w) {r i : ℕ} (hr : r ∈ (s.pc i).refs) :
    ¬ s.Stored r ∧ ∀ j, r ∈ (s.pc j).refs → j = i := by
  have hw := (h.refs.thread r i).mpr hr
  refine ⟨fun hx => ?_, fun j hj => ?_⟩
  · exact absurd (hw.symm.trans ((h.refs.stored r).mpr hx)) (by rintro ⟨⟩)
  · have hj := (h.refs.thread r j).mpr hj
    rw [hw] at hj
    cases hj
    rfl

end Sound

/-- In every run the g has at most one entry and one resumer, each wake of a park is kept until
the park is over and leads to one enqueue, claims do not fail, and every queue ref is with its
entry, its enqueuer or its hub until it is dropped, once. -/
theorem reachable_wakeState {s : State} (hr : Reachable system s) : Sound s := by
  obtain ⟨o, w, h⟩ := reachable_inv hr
  constructor
  case entries => exact h.entries_le
  case woken => exact h.woken
  case resumes =>
    intro i j hi hj
    have ho := (h.own.sole i (Pc.owns_of_resumes hi)).symm.trans
      (h.own.sole j (Pc.owns_of_resumes hj))
    cases ho
    rfl
  case misses => exact h.clean.1
  case kept => exact fun p hp => (h.hist.answered p hp).2
  case once => exact h.once
  case remembered => exact fun p hp => h.remembered hp
  case dropped => exact h.dropped
  case single => exact fun r i hr => h.single hr
  case stray => exact h.clean.2

/-- A wake finds the fresh g running, so its hub enqueues the g at the release and claims it
again; a second wake of the same park finds it QUEUED. -/
theorem reachable_wakeState_running :
    ∃ s, Reachable system s ∧ s.ws = .running ∧ s.pc 0 = .claimed true (some 0) ∧
      s.enqueued 0 = 1 ∧ s.remembered 0 = true ∧ s.park = 1 ∧ Sound s := by
  have hr : Reachable system _ := reachable_of_run system
    [.pop 0 .deque, .advance 0 .deque, .advance 0 .deque, .call 1 0, .advance 1 .deque,
      .advance 1 .deque, .park 0, .advance 0 .deque, .advance 0 .deque, .call 1 0,
      .advance 1 .deque, .advance 0 .deque, .pop 0 .deque, .advance 0 .deque, .advance 0 .deque]
    ⟨.deque, by rintro ⟨⟩, rfl⟩ rfl
  exact ⟨_, hr, rfl, rfl, rfl, rfl, rfl, reachable_wakeState hr⟩

/-- A hub has popped the woken entry of a g and has not yet claimed it: the g is QUEUED, its
enqueuer is done, and it has no entry. -/
theorem popped_without_entry :
    ¬ ∀ s, Reachable system s →
      (s.WokenEntry ↔ s.ws = .queued ∧ ∀ i, (s.pc i).enqueues = false) := by
  intro h
  have hr : Reachable system _ := reachable_of_run system
    [.pop 0 .deque, .advance 0 .deque, .advance 0 .deque, .park 0, .call 1 0, .advance 1 .deque,
      .advance 1 .deque, .advance 1 .deque, .advance 1 .deque, .pop 0 .deque]
    ⟨.deque, by rintro ⟨⟩, rfl⟩ rfl
  obtain ⟨pl, r, he, -⟩ := (h _ hr).mpr ⟨rfl, fun i => by rcases i with _ | _ | i <;> rfl⟩
  exact absurd he List.not_mem_nil

end Stackweave.WakeState
