import Mathlib.Data.Int.Order.Basic
import Stackweave.Sched.Slab
import Stackweave.Transition

/-!
# Spawns that fail (`spawn_common`, `runloom_mn_fiber_core`, `runloom_g_decref`)

Any number of calls, each a spawn or the last decref of a g. What a call takes and gives back is
read off the shared counters at each of its steps. A finalizer may move a call to another thread,
so the thread of a step is a choice, as are the failures.
-/

namespace Stackweave.Spawn

open Transition Function

/-- The fields of a `runloom_g_t` that a spawn takes something for. `nest` is the scheduler that
counts it in `nest_live`; `published` is history. -/
structure G where
  refs : ℤ
  callable : Option ℕ
  coro : Bool
  tstate : Bool
  limitCounted : Bool
  nest : Option ℕ
  published : Bool

/-- As the slab hands it out. -/
def blank : G :=
  { refs := 0, callable := none, coro := false, tstate := false, limitCounted := false
    nest := none, published := false }

/-- The submission list of a hub, and the ready ring of a scheduler. -/
inductive Queue
  | sub (h : ℕ)
  | ready (q : ℕ)
  deriving DecidableEq

/-- `callables` are the references to each callable that spawns and gs hold; `coroCount`,
`stackCount` and `tstateCount` are those in use. -/
structure Mem where
  max : ℤ
  live : ℤ
  counter : ℕ
  slab : Slab.State
  g : ℕ → G
  callables : ℕ → ℤ
  nestLive : ℕ → ℤ
  coroCount : ℤ
  stackCount : ℤ
  tstateCount : ℤ
  pending : ℕ → ℤ
  queue : Queue → List ℕ

/-- What a call may take. -/
inductive Res
  | slot
  | struct
  | callable (c : ℕ)
  | nest (q : ℕ)
  | coro
  | stack
  | tstate
  | pending (h : ℕ)
  | queued (q : Queue) (g : ℕ)
  deriving DecidableEq

@[grind =]
def Mem.obs (m : Mem) : Res → ℤ
  | .slot => m.live
  | .struct => m.slab.handed - m.slab.returned
  | .callable c => m.callables c
  | .nest q => m.nestLive q
  | .coro => m.coroCount
  | .stack => m.stackCount
  | .tstate => m.tstateCount
  | .pending h => m.pending h
  | .queued q g => (m.queue q).count g

/-- `spawn_common` on the scheduler `q`, and `runloom_mn_fiber_core` with the hub it has picked; a
C entry has no callable. -/
inductive Request
  | common (q : ℕ) (isNest : Bool) (c : ℕ)
  | core (h : ℕ) (c : Option ℕ)
  deriving DecidableEq

def Request.callable : Request → Option ℕ
  | .common _ _ c => some c
  | .core _ c => c

/-- Where a spawn fails. -/
inductive Point
  | notRunning
  | admission
  | struct
  | coro
  | tstate
  deriving DecidableEq

/-- What an unwinding has to give back, each if the g has it. -/
inductive Undo
  | callable
  | slot
  | nest
  | stack
  | tstate
  deriving DecidableEq

inductive Pc
  | idle
  | admits (sp : Request)
  /-- the counter is over the limit -/
  | backsOut
  | allocs (sp : Request) (counted : Bool)
  /-- there is no struct -/
  | releases (counted : Bool)
  | fills (sp : Request) (g : ℕ)
  | nests (sp : Request) (g : ℕ)
  /-- in `runloom_coro_new` -/
  | creates (sp : Request) (g : ℕ)
  | acquires (sp : Request) (g : ℕ)
  | threads (h g : ℕ)
  /-- the error paths; the struct goes last -/
  | unwinds (g : ℕ) (todo : List Undo) (p : Point)
  | pends (h g : ℕ)
  | submits (h g : ℕ)
  | pushes (q g : ℕ)
  /-- `PyCapsule_New` -/
  | wraps (g : ℕ)
  | failed (p : Point)
  | spawned (g : ℕ)
  /-- the g is queued, and the caller has a MemoryError for the capsule -/
  | unwrapped (g : ℕ)
  /-- the last `runloom_g_decref` -/
  | frees (g : ℕ) (todo : List Undo)
  | freed
  deriving DecidableEq

/-- The call has returned. -/
def Pc.over : Pc → Bool
  | .idle | .failed _ | .spawned _ | .unwrapped _ | .freed => true
  | _ => false

/-- The thread a step is on, and what fails in it. -/
structure Choice where
  thread : ℕ
  fails : Bool
  oom : Bool

namespace Mem

variable (m : Mem)

def setG (g : ℕ) (v : G) : Mem := { m with g := Function.update m.g g v }

/-- `Py_INCREF` and `Py_DECREF` of a callable. -/
def refCallable (c : ℕ) (d : ℤ) : Mem :=
  { m with callables := Function.update m.callables c (m.callables c + d) }

def refNest (q : ℕ) (d : ℤ) : Mem :=
  { m with nestLive := Function.update m.nestLive q (m.nestLive q + d) }

def push (q : Queue) (g : ℕ) : Mem :=
  { m with queue := Function.update m.queue q (m.queue q ++ [g]) }

/-- A g is on a queue for others to find. -/
def publish (q : Queue) (g : ℕ) : Mem :=
  (m.push q g).setG g { m.g g with published := true }

@[grind =]
def undo (g : ℕ) : Undo → Mem
  | .callable =>
    match (m.g g).callable with
    | some c => (m.refCallable c (-1)).setG g { m.g g with callable := none }
    | none => m
  | .slot =>
    if (m.g g).limitCounted then
      { m with live := m.live - 1 }.setG g { m.g g with limitCounted := false }
    else m
  | .nest =>
    match (m.g g).nest with
    | some q => (m.refNest q (-1)).setG g { m.g g with nest := none }
    | none => m
  | .stack =>
    if (m.g g).coro then
      { m with coroCount := m.coroCount - 1, stackCount := m.stackCount - 1 }.setG g
        { m.g g with coro := false }
    else m
  | .tstate =>
    if (m.g g).tstate then
      { m with tstateCount := m.tstateCount - 1 }.setG g { m.g g with tstate := false }
    else m

end Mem

/-- The next step of a call. -/
@[grind =]
def advance (cfg : Slab.Config) (m : Mem) (ch : Choice) : Pc → Option (Mem × Pc)
  | .idle | .failed _ | .spawned _ | .unwrapped _ | .freed => none
  | .admits sp =>
    if m.max ≤ 0 then some (m, .allocs sp false)
    else if m.max < m.live + 1 then some ({ m with live := m.live + 1 }, .backsOut)
    else some ({ m with live := m.live + 1 }, .allocs sp true)
  | .backsOut => some ({ m with live := m.live - 1 }, .failed .admission)
  | .allocs sp counted =>
    match m.slab.alloc cfg ch.thread ch.fails ch.oom with
    | some (slab, g) =>
      some ({ m with slab := slab }.setG g { blank with limitCounted := counted }, .fills sp g)
    | none => some (m, .releases counted)
  | .releases counted =>
    some (if counted then { m with live := m.live - 1 } else m, .failed .struct)
  | .fills sp g =>
    match sp.callable with
    | some c =>
      some ((m.refCallable c 1).setG g { m.g g with callable := some c, refs := 1 }, .nests sp g)
    | none => some (m.setG g { m.g g with refs := 1 }, .nests sp g)
  | .nests sp g =>
    match sp with
    | .common q true _ =>
      some ((m.refNest q 1).setG g { m.g g with nest := some q }, .creates sp g)
    | _ => some (m, .creates sp g)
  | .creates sp g =>
    if ch.fails then
      match sp with
      | .common _ _ _ => some (m, .unwinds g [.callable, .slot, .nest] .coro)
      | .core _ _ => some (m, .unwinds g [.callable, .slot] .coro)
    else some ({ m with coroCount := m.coroCount + 1 }, .acquires sp g)
  | .acquires sp g =>
    if ch.fails then
      match sp with
      | .common _ _ _ =>
        some ({ m with coroCount := m.coroCount - 1 }, .unwinds g [.callable, .slot, .nest] .coro)
      | .core _ _ =>
        some ({ m with coroCount := m.coroCount - 1 }, .unwinds g [.callable, .slot] .coro)
    else
      match sp with
      | .common q _ _ =>
        some ({ m with stackCount := m.stackCount + 1 }.setG g { m.g g with coro := true },
          .pushes q g)
      | .core h _ =>
        some ({ m with stackCount := m.stackCount + 1 }.setG g { m.g g with coro := true },
          .threads h g)
  | .threads h g =>
    if ch.fails then some (m, .unwinds g [.stack, .callable, .slot] .tstate)
    else
      some ({ m with tstateCount := m.tstateCount + 1 }.setG g { m.g g with tstate := true },
        .pends h g)
  | .unwinds g (u :: todo) p => some (m.undo g u, .unwinds g todo p)
  | .unwinds g [] p => some ({ m with slab := m.slab.free cfg ch.thread g }, .failed p)
  | .pends h g =>
    some ({ m with pending := Function.update m.pending h (m.pending h + 1) }, .submits h g)
  | .submits h g => some (m.publish (.sub h) g, .spawned g)
  | .pushes q g => some (m.publish (.ready q) g, .wraps g)
  | .wraps g => some (m, if ch.fails then .unwrapped g else .spawned g)
  | .frees g (u :: todo) => some (m.undo g u, .frees g todo)
  | .frees g [] => some ({ m with slab := m.slab.free cfg ch.thread g }, .freed)

/-- What happens to the gs that are published, and to the slabs. -/
inductive Event
  | setMax (n : ℤ)
  | incref (g : ℕ)
  | decref (g : ℕ)
  /-- the fiber has returned; `runloom_g_entry` drops its callable -/
  | finish (g : ℕ)
  /-- `runloom_g_nest_uncount` -/
  | uncount (g : ℕ)
  | complete (h : ℕ)
  | steal (victim thief : ℕ)
  | take (q : Queue)
  | put (q : Queue) (g : ℕ)
  | threadFlush (t : ℕ)
  | reclaim (t : ℕ)

/-- Somebody has a reference to it. -/
def G.shared (v : G) : Bool := v.published && decide (0 < v.refs)

@[grind =]
def happen (m : Mem) : Event → Option Mem
  | .setMax n => some { m with max := if n < 0 then 0 else n }
  | .incref g =>
    if (m.g g).shared then some (m.setG g { m.g g with refs := (m.g g).refs + 1 }) else none
  | .decref g =>
    if (m.g g).shared ∧ 1 < (m.g g).refs then
      some (m.setG g { m.g g with refs := (m.g g).refs - 1 })
    else none
  | .finish g => if (m.g g).shared then some (m.undo g .callable) else none
  | .uncount g => if (m.g g).shared then some (m.undo g .nest) else none
  | .complete h => some { m with pending := Function.update m.pending h (m.pending h - 1) }
  | .steal victim thief =>
    let m := { m with pending := Function.update m.pending thief (m.pending thief + 1) }
    some { m with pending := Function.update m.pending victim (m.pending victim - 1) }
  | .take q => some { m with queue := Function.update m.queue q (m.queue q).tail }
  | .put q g => if (m.g g).shared then some (m.push q g) else none
  | .threadFlush t => some { m with slab := m.slab.threadFlush t }
  | .reclaim t => some { m with slab := m.slab.reclaim t }

/-- `took` and `gave` are what the steps of a call have added to the counters and subtracted. -/
structure State where
  mem : Mem
  pc : ℕ → Pc
  took : ℕ → Res → ℕ
  gave : ℕ → Res → ℕ

def start : State :=
  { mem :=
      { max := 0, live := 0, counter := 0, slab := Slab.empty, g := fun _ => blank
        callables := fun _ => 0, nestLive := fun _ => 0, coroCount := 0, stackCount := 0
        tstateCount := 0, pending := fun _ => 0, queue := fun _ => [] }
    pc := fun _ => .idle, took := fun _ _ => 0, gave := fun _ _ => 0 }

/-- Which hub a spawn goes to. -/
inductive Placement
  | forced (h : ℕ)
  | random (r : ℕ)
  | next

def Placement.hub (hubs counter : ℕ) : Placement → ℕ
  | .forced h => if h < hubs then h else counter % hubs
  | .random r => if 1 < hubs then r % hubs else counter % hubs
  | .next => counter % hubs

inductive Action
  | common (k q : ℕ) (isNest : Bool) (c : ℕ)
  | core (k : ℕ) (pl : Placement) (c : Option ℕ)
  /-- the last decref -/
  | release (k g : ℕ)
  | advance (k : ℕ) (ch : Choice)
  | event (e : Event)

structure Config where
  slab : Slab.Config
  hubs : ℕ

def State.set (s : State) (k : ℕ) (m : Mem) (q : Pc) (took gave : Res → ℕ) : State :=
  { mem := m, pc := Function.update s.pc k q, took := Function.update s.took k took
    gave := Function.update s.gave k gave }

/-- A call begins with an empty account. -/
def State.enter (s : State) (k : ℕ) (m : Mem) (q : Pc) : State :=
  s.set k m q (fun _ => 0) fun _ => 0

/-- The steps of a call are entered in its account. -/
def State.book (s : State) (k : ℕ) (m : Mem) (q : Pc) : State :=
  s.set k m q (fun r => s.took k r + (m.obs r - s.mem.obs r).toNat)
    fun r => s.gave k r + (s.mem.obs r - m.obs r).toNat

@[grind =]
def step (cfg : Config) (s : State) : Action → Option State
  | .common k q isNest c =>
    if (s.pc k).over then some (s.enter k s.mem (.admits (.common q isNest c))) else none
  | .core k pl c =>
    if (s.pc k).over then
      if cfg.hubs = 0 then some (s.enter k s.mem (.failed .notRunning))
      else
        some (s.enter k { s.mem with counter := s.mem.counter + 1 }
          (.admits (.core (pl.hub cfg.hubs s.mem.counter) c)))
    else none
  | .release k g =>
    if (s.pc k).over ∧ (s.mem.g g).shared ∧ (s.mem.g g).refs = 1 then
      some (s.enter k (s.mem.setG g { s.mem.g g with refs := 0 })
        (.frees g [.nest, .tstate, .stack, .callable, .slot]))
    else none
  | .advance k ch => (advance cfg.slab s.mem ch (s.pc k)).map fun r => s.book k r.1 r.2
  | .event e => (happen s.mem e).map fun m => { s with mem := m }

def system (cfg : Config) : System State Action where
  init s := s = start
  step := step cfg

/-! ## What is to hold -/

/-- The struct that a call has to itself. -/
@[grind =]
def Pc.owns : Pc → Option ℕ
  | .fills _ g | .nests _ g | .creates _ g | .acquires _ g | .threads _ g | .unwinds g _ _
  | .pends _ g | .submits _ g | .pushes _ g | .frees g _ => some g
  | _ => none

/-- A g struct is live while it is spawned, referenced, or torn down. -/
def State.Live (s : State) (g : ℕ) : Prop :=
  (s.mem.g g).shared = true ∨ ∃ k, (s.pc k).owns = some g

/-- Pending and the run queues. -/
def Res.published : Res → Bool
  | .pending _ | .queued _ _ => true
  | _ => false

/-! ## The accounts -/

/-- What the owner of a struct has with it. -/
@[grind =]
def G.held (v : G) : Res → ℕ
  | .slot => v.limitCounted.toNat
  | .struct => 1
  | .callable c => if v.callable = some c then 1 else 0
  | .nest q => if v.nest = some q then 1 else 0
  | .coro | .stack => v.coro.toNat
  | .tstate => v.tstate.toNat
  | .pending _ | .queued _ _ => 0

/-- What a spawn would have to give back if it failed here. -/
@[grind =]
def owed (m : Mem) : Pc → Res → ℕ
  | .backsOut, r => if r = .slot then 1 else 0
  | .allocs _ counted, r | .releases counted, r => if r = .slot then counted.toNat else 0
  | .fills _ g, r | .nests _ g, r | .creates _ g, r | .threads _ g, r | .unwinds g _ _, r =>
    (m.g g).held r
  | .acquires _ g, r => (m.g g).held r + if r = .coro then 1 else 0
  | _, _ => 0

/-- Nothing has been given back yet. -/
def Pc.takes : Pc → Bool
  | .admits _ | .backsOut | .allocs _ _ | .releases _ | .fills _ _ | .nests _ _ | .creates _ _
  | .acquires _ _ | .threads _ _ => true
  | _ => false

def Pc.balances : Pc → Bool
  | .unwinds _ _ _ | .failed _ => true
  | q => q.takes

structure Account (m : Mem) (q : Pc) (took gave : Res → ℕ) : Prop where
  balance : q.balances = true →
    ∀ r, took r = gave r + owed m q r ∧ took r ≤ 1 ∧ (r.published = true → took r = 0)
  takes : q.takes = true → ∀ r, gave r = 0

section Account

variable {m m' : Mem} {q q' : Pc} {took gave : Res → ℕ}

theorem held_le_one (v : G) (r : Res) : v.held r ≤ 1 := by
  cases r <;> simp only [G.held] <;> first | exact Bool.toNat_le _ | (split <;> simp) | simp

theorem owed_le_one (hq : ∀ sp g, q ≠ .acquires sp g) (r : Res) : owed m q r ≤ 1 := by
  cases q <;> simp only [owed] <;> first
    | exact held_le_one _ r
    | exact absurd rfl (hq _ _)
    | (split <;> first | exact Bool.toNat_le _ | simp)
    | simp

theorem owed_published {r : Res} (hr : r.published = true) : owed m q r = 0 := by
  cases r with
  | pending h => cases q <;> rfl
  | queued q' g => cases q <;> rfl
  | _ => cases hr

theorem Pc.balances_of_takes (hq : q.takes = true) : q.balances = true := by
  cases q <;> first | rfl | cases hq

theorem account_take (h : Account m q took gave) (hq : q.takes = true)
    (hobs : ∀ r, m'.obs r - m.obs r = (owed m' q' r : ℤ) - owed m q r)
    (hle : ∀ r, owed m q r ≤ owed m' q' r) (hone : ∀ r, owed m' q' r ≤ 1) :
    Account m' q' (fun r => took r + (m'.obs r - m.obs r).toNat)
      fun r => gave r + (m.obs r - m'.obs r).toNat := by
  have hbal := Pc.balances_of_takes hq
  have hgave : ∀ r, gave r + (m.obs r - m'.obs r).toNat = 0 := by
    intro r
    have := h.takes hq r
    have := hobs r
    have := hle r
    omega
  have htook : ∀ r, took r + (m'.obs r - m.obs r).toNat = owed m' q' r := by
    intro r
    have := h.takes hq r
    have := (h.balance hbal r).1
    have := hobs r
    have := hle r
    omega
  constructor
  case balance =>
    intro _ r
    simp only [hgave, htook]
    exact ⟨(Nat.zero_add _).symm, hone r, owed_published⟩
  case takes => exact fun _ => hgave

theorem account_give (h : Account m q took gave) (hq : q.balances = true) (hq' : q'.takes = false)
    (hobs : ∀ r, m'.obs r - m.obs r = (owed m' q' r : ℤ) - owed m q r)
    (hle : ∀ r, owed m' q' r ≤ owed m q r) :
    Account m' q' (fun r => took r + (m'.obs r - m.obs r).toNat)
      fun r => gave r + (m.obs r - m'.obs r).toNat := by
  have htook : ∀ r, took r + (m'.obs r - m.obs r).toNat = took r := by
    intro r
    have := hobs r
    have := hle r
    omega
  constructor
  case balance =>
    intro _ r
    obtain ⟨hbal, hone, hpub⟩ := h.balance hq r
    simp only [htook]
    refine ⟨?_, hone, hpub⟩
    have := hobs r
    have := hle r
    omega
  case takes => exact fun hx => absurd (hq'.symm.trans hx) (by rintro ⟨⟩)

theorem account_off (hq : q.balances = false) : Account m q took gave where
  balance h := absurd (hq.symm.trans h) (by rintro ⟨⟩)
  takes h := absurd (hq.symm.trans (Pc.balances_of_takes h)) (by rintro ⟨⟩)

/-- An account depends on the struct of its call only. -/
theorem owed_congr (hg : ∀ g, q.owns = some g → m'.g g = m.g g) : owed m' q = owed m q := by
  cases q <;> first | rfl | (funext r; simp only [owed, hg _ rfl])

theorem Account.congr (h : Account m q took gave) (hg : ∀ g, q.owns = some g → m'.g g = m.g g) :
    Account m' q took gave := by
  refine ⟨fun hq r => ?_, h.takes⟩
  rw [owed_congr hg]
  exact h.balance hq r

end Account

/-! ## The struct of a call -/

@[grind =]
def G.has (v : G) : Undo → Bool
  | .callable => v.callable.isSome
  | .slot => v.limitCounted
  | .nest => v.nest.isSome
  | .stack => v.coro
  | .tstate => v.tstate

/-- What is not yet in the struct of a spawn, and what is not there any more. -/
@[grind =]
def Pc.Lacks (v : G) : Pc → Undo → Prop
  | .fills _ _, u => u ≠ .slot → v.has u = false
  | .nests _ _, u => u ≠ .slot → u ≠ .callable → v.has u = false
  | .creates sp _, u | .acquires sp _, u =>
    u ≠ .slot → u ≠ .callable → (u = .nest → ∃ h c, sp = .core h c) → v.has u = false
  | .threads _ _, u => u = .nest ∨ u = .tstate → v.has u = false
  | .unwinds _ todo _, u => u ∉ todo → v.has u = false
  | _, _ => True

/-- Nobody else can have a reference to the struct of a call. -/
@[grind =]
def Pc.Hides (v : G) : Pc → Prop
  | .frees _ _ => v.refs ≤ 0
  | .fills _ _ => v.published = false
  | _ => v.published = false ∧ v.refs = 1

structure Inv (s : State) : Prop where
  sole : ∀ j k g, (s.pc j).owns = some g → (s.pc k).owns = some g → j = k
  slab : Slab.Sound s.mem.slab {g | s.Live g}
  hides : ∀ k g, (s.pc k).owns = some g → (s.pc k).Hides (s.mem.g g)
  lacks : ∀ k g, (s.pc k).owns = some g → ∀ u, (s.pc k).Lacks (s.mem.g g) u
  account : ∀ k, Account s.mem (s.pc k) (s.took k) (s.gave k)

theorem inv_start : Inv start where
  sole _ _ _ h := by cases h
  slab := by
    have hnone : {g | start.Live g} = ∅ := by
      ext g
      simp [State.Live, start, blank, G.shared, Pc.owns]
    rw [hnone]
    exact Slab.sound_empty
  hides _ _ h := by cases h
  lacks _ _ h := by cases h
  account _ := account_off rfl

theorem Pc.Hides.unshared {v : G} {q : Pc} (h : q.Hides v) : v.shared = false := by
  cases q with
  | frees g todo =>
    have : v.refs ≤ 0 := h
    simp [G.shared]
    omega
  | fills sp g =>
    have hpub : v.published = false := h
    simp [G.shared, hpub]
  | _ =>
    have hpub : v.published = false := h.1
    simp [G.shared, hpub]

section Undo

variable {m : Mem} {g g' : ℕ} {u : Undo}

theorem undo_g (hne : g' ≠ g) : (m.undo g u).g g' = m.g g' := by
  cases u <;> simp only [Mem.undo] <;> split <;>
    simp [Mem.setG, Mem.refCallable, Mem.refNest, update_of_ne hne]

theorem undo_slab : (m.undo g u).slab = m.slab := by
  cases u <;> simp only [Mem.undo] <;> split <;> rfl

theorem undo_hides : ((m.undo g u).g g).published = (m.g g).published ∧
    ((m.undo g u).g g).refs = (m.g g).refs := by
  cases u <;> simp only [Mem.undo] <;> split <;> simp [Mem.setG, Mem.refCallable, Mem.refNest]

theorem undo_has {u' : Undo} (h : u' = u ∨ (m.g g).has u' = false) :
    ((m.undo g u).g g).has u' = false := by
  cases u <;> simp only [Mem.undo] <;> split <;> cases u' <;>
    simp_all [Mem.setG, Mem.refCallable, Mem.refNest, G.has]

/-- The counters follow what the struct loses. -/
theorem undo_obs (r : Res) : (m.undo g u).obs r - m.obs r =
    (((m.undo g u).g g).held r : ℤ) - (m.g g).held r := by
  cases u with
  | callable =>
    simp only [Mem.undo]
    split
    · next c hc =>
      cases r with
      | callable c' =>
        by_cases hcc : c' = c
        · subst hcc
          simp [Mem.obs, Mem.setG, Mem.refCallable, G.held, hc]
        · simp [Mem.obs, Mem.setG, Mem.refCallable, G.held, hc, hcc, Ne.symm hcc]
      | _ => simp [Mem.obs, Mem.setG, Mem.refCallable, G.held]
    · simp
  | nest =>
    simp only [Mem.undo]
    split
    · next q hq =>
      cases r with
      | nest q' =>
        by_cases hqq : q' = q
        · subst hqq
          simp [Mem.obs, Mem.setG, Mem.refNest, G.held, hq]
        · simp [Mem.obs, Mem.setG, Mem.refNest, G.held, hq, hqq, Ne.symm hqq]
      | _ => simp [Mem.obs, Mem.setG, Mem.refNest, G.held]
    · simp
  | slot =>
    simp only [Mem.undo]
    split
    · next hc => cases r <;> simp [Mem.obs, Mem.setG, G.held, hc]
    · simp
  | stack =>
    simp only [Mem.undo]
    split
    · next hc => cases r <;> simp [Mem.obs, Mem.setG, G.held, hc]
    · simp
  | tstate =>
    simp only [Mem.undo]
    split
    · next hc => cases r <;> simp [Mem.obs, Mem.setG, G.held, hc]
    · simp

theorem undo_le (r : Res) : ((m.undo g u).g g).held r ≤ (m.g g).held r := by
  cases u <;> simp only [Mem.undo] <;> split <;> cases r <;>
    simp_all [Mem.setG, Mem.refCallable, Mem.refNest, G.held]

end Undo

section Step

variable {s : State} {k g : ℕ} {m : Mem} {q : Pc} {took gave : Res → ℕ}

theorem Inv.other {j : ℕ} (h : Inv s) (hj : j ≠ k) (hown : (s.pc k).owns = some g) {g' : ℕ}
    (hg' : (s.pc j).owns = some g') : g' ≠ g := by
  rintro rfl
  exact hj (h.sole j k g' hg' hown)

/-- A call moves on with the struct it has. -/
theorem Inv.keep (h : Inv s) (hown : q.owns = (s.pc k).owns) (hslab : m.slab = s.mem.slab)
    (hg : ∀ g, (s.pc k).owns ≠ some g → m.g g = s.mem.g g)
    (hhides : ∀ g, q.owns = some g → q.Hides (m.g g))
    (hlacks : ∀ g, q.owns = some g → ∀ u, q.Lacks (m.g g) u) (hacct : Account m q took gave) :
    Inv (s.set k m q took gave) := by
  have howns : ∀ j, ((s.set k m q took gave).pc j).owns = (s.pc j).owns := by
    intro j
    simp only [State.set]
    by_cases hj : j = k
    · rw [hj, update_self, hown]
    · rw [update_of_ne hj]
  have hother : ∀ j, j ≠ k → ∀ g, (s.pc j).owns = some g → m.g g = s.mem.g g :=
    fun j hj g hx => hg g fun hy => hj (h.sole j k g hx hy)
  constructor
  case sole =>
    intro i j g hi hj
    exact h.sole i j g ((howns i).symm.trans hi) ((howns j).symm.trans hj)
  case slab =>
    have hlive : {g | (s.set k m q took gave).Live g} = {g | s.Live g} := by
      ext g
      simp only [Set.mem_ofPred_eq, State.Live, howns]
      by_cases hx : (s.pc k).owns = some g
      · exact ⟨fun _ => .inr ⟨k, hx⟩, fun _ => .inr ⟨k, hx⟩⟩
      · simp only [State.set, hg g hx]
    rw [hlive]
    exact hslab ▸ h.slab
  case hides =>
    intro j g hj
    by_cases hjk : j = k
    · subst hjk
      simp only [State.set, update_self] at hj ⊢
      exact hhides g hj
    · simp only [State.set, update_of_ne hjk] at hj ⊢
      rw [hother j hjk g hj]
      exact h.hides j g hj
  case lacks =>
    intro j g hj
    by_cases hjk : j = k
    · subst hjk
      simp only [State.set, update_self] at hj ⊢
      exact hlacks g hj
    · simp only [State.set, update_of_ne hjk] at hj ⊢
      rw [hother j hjk g hj]
      exact h.lacks j g hj
  case account =>
    intro j
    by_cases hjk : j = k
    · subst hjk
      simp only [State.set, update_self]
      exact hacct
    · simp only [State.set, update_of_ne hjk]
      exact (h.account j).congr fun g hx => hother j hjk g hx

theorem Pc.owns_of_over (hq : q.over = true) : q.owns = none := by
  cases q <;> first | rfl | cases hq

/-- The steps that take or drop a struct: a call that has none gets `g`, which nobody had. -/
theorem Inv.gain (h : Inv s) (hnone : (s.pc k).owns = none) (hown : q.owns = some g)
    (hfree : ∀ j, (s.pc j).owns ≠ some g) (hg : ∀ g', g' ≠ g → m.g g' = s.mem.g g')
    (hslab : Slab.Sound m.slab (insert g {g | s.Live g})) (hhides : q.Hides (m.g g))
    (hlacks : ∀ u, q.Lacks (m.g g) u) (hacct : Account m q took gave) :
    Inv (s.set k m q took gave) := by
  have howns : ∀ j g', ((s.set k m q took gave).pc j).owns = some g' ↔
      j = k ∧ g' = g ∨ (s.pc j).owns = some g' := by
    intro j g'
    by_cases hj : j = k
    · subst hj
      simp [State.set, hown, hnone, eq_comm]
    · simp [State.set, hj]
  have hother : ∀ j g', (s.pc j).owns = some g' → m.g g' = s.mem.g g' := by
    intro j g' hj
    refine hg g' ?_
    rintro rfl
    exact hfree j hj
  constructor
  case sole =>
    intro i j g' hi hj
    rcases (howns i g').mp hi with ⟨rfl, rfl⟩ | hi
    · rcases (howns j g').mp hj with ⟨rfl, -⟩ | hj
      · rfl
      · exact absurd hj (hfree j)
    · rcases (howns j g').mp hj with ⟨-, rfl⟩ | hj
      · exact absurd hi (hfree i)
      · exact h.sole i j g' hi hj
  case slab =>
    have hlive : {g | (s.set k m q took gave).Live g} = insert g {g | s.Live g} := by
      ext g'
      simp only [Set.mem_ofPred_eq, Set.mem_insert_iff, State.Live, howns]
      by_cases hgg : g' = g
      · subst hgg
        exact ⟨fun _ => .inl rfl, fun _ => .inr ⟨k, .inl ⟨rfl, rfl⟩⟩⟩
      · simp [State.set, hg g' hgg, hgg]
    rw [hlive]
    exact hslab
  case hides =>
    intro j g' hj
    by_cases hjk : j = k
    · subst hjk
      obtain rfl : g' = g := by
        simp only [State.set, update_self, hown, Option.some.injEq] at hj
        exact hj.symm
      simpa [State.set] using hhides
    · simp only [State.set, update_of_ne hjk] at hj ⊢
      rw [hother j g' hj]
      exact h.hides j g' hj
  case lacks =>
    intro j g' hj u
    by_cases hjk : j = k
    · subst hjk
      obtain rfl : g' = g := by
        simp only [State.set, update_self, hown, Option.some.injEq] at hj
        exact hj.symm
      simpa [State.set] using hlacks u
    · simp only [State.set, update_of_ne hjk] at hj ⊢
      rw [hother j g' hj]
      exact h.lacks j g' hj u
  case account =>
    intro j
    by_cases hjk : j = k
    · subst hjk
      simpa [State.set] using hacct
    · simp only [State.set, update_of_ne hjk]
      exact (h.account j).congr fun g' hx => hother j g' hx

/-- A call lets go of its struct. -/
theorem Inv.lose (h : Inv s) (hown : (s.pc k).owns = some g) (hnone : q.owns = none)
    (hg : ∀ g', g' ≠ g → m.g g' = s.mem.g g')
    (hslab : Slab.Sound m.slab (if (m.g g).shared then {g | s.Live g} else {g | s.Live g} \ {g}))
    (hacct : Account m q took gave) : Inv (s.set k m q took gave) := by
  have howns : ∀ j g', ((s.set k m q took gave).pc j).owns = some g' ↔
      j ≠ k ∧ (s.pc j).owns = some g' := by
    intro j g'
    by_cases hj : j = k
    · subst hj
      simp [State.set, hnone]
    · simp [State.set, hj]
  have hother : ∀ j g', j ≠ k → (s.pc j).owns = some g' → m.g g' = s.mem.g g' :=
    fun j g' hj hx => hg g' (h.other hj hown hx)
  constructor
  case sole =>
    intro i j g' hi hj
    exact h.sole i j g' ((howns i g').mp hi).2 ((howns j g').mp hj).2
  case slab =>
    have hlive : {g | (s.set k m q took gave).Live g} =
        if (m.g g).shared then {g | s.Live g} else {g | s.Live g} \ {g} := by
      ext g'
      by_cases hgg : g' = g
      · subst hgg
        have halone : ¬ ∃ j, j ≠ k ∧ (s.pc j).owns = some g' :=
          fun ⟨j, hj, hx⟩ => hj (h.sole j k g' hx hown)
        have hwas : s.Live g' := .inr ⟨k, hown⟩
        cases hsh : (m.g g').shared with
        | true =>
          simp only [Set.mem_ofPred_eq, State.Live, if_true]
          exact ⟨fun _ => hwas, fun _ => .inl hsh⟩
        | false =>
          simp only [Bool.false_eq_true, if_false, Set.mem_ofPred_eq, State.Live, howns,
            Set.mem_sdiff, Set.mem_singleton_iff, not_true, and_false, iff_false, not_or]
          exact ⟨by simp [State.set, hsh], halone⟩
      · have hsame : (s.set k m q took gave).Live g' ↔ s.Live g' := by
          simp only [State.Live, howns]
          refine or_congr (by simp [State.set, hg g' hgg]) ⟨?_, ?_⟩
          · exact fun ⟨j, _, hx⟩ => ⟨j, hx⟩
          · rintro ⟨j, hx⟩
            refine ⟨j, ?_, hx⟩
            rintro rfl
            exact hgg (Option.some.inj (hx.symm.trans hown))
        split <;> simp [hsame, hgg]
    rw [hlive]
    exact hslab
  case hides =>
    intro j g' hj
    obtain ⟨hjk, hx⟩ := (howns j g').mp hj
    simp only [State.set, update_of_ne hjk]
    rw [hother j g' hjk hx]
    exact h.hides j g' hx
  case lacks =>
    intro j g' hj
    obtain ⟨hjk, hx⟩ := (howns j g').mp hj
    simp only [State.set, update_of_ne hjk]
    rw [hother j g' hjk hx]
    exact h.lacks j g' hx
  case account =>
    intro j
    by_cases hjk : j = k
    · subst hjk
      simpa [State.set] using hacct
    · simp only [State.set, update_of_ne hjk]
      exact (h.account j).congr fun g' hx => hother j g' hjk hx

/-- What happens outside the calls leaves their structs alone. -/
theorem Inv.happens (h : Inv s) (hslab : ∀ out, Slab.Sound s.mem.slab out → Slab.Sound m.slab out)
    (hg : ∀ g, (s.mem.g g).shared = false → m.g g = s.mem.g g)
    (hshared : ∀ g, (m.g g).shared = (s.mem.g g).shared) : Inv { s with mem := m } := by
  have hother : ∀ j g, (s.pc j).owns = some g → m.g g = s.mem.g g :=
    fun j g hx => hg g (h.hides j g hx).unshared
  constructor
  case sole => exact h.sole
  case slab =>
    have hlive : {g | State.Live { s with mem := m } g} = {g | s.Live g} := by
      ext g
      simp only [Set.mem_ofPred_eq, State.Live, hshared]
    rw [hlive]
    exact hslab _ h.slab
  case hides =>
    intro j g hj
    simp only [hother j g hj]
    exact h.hides j g hj
  case lacks =>
    intro j g hj
    simp only [hother j g hj]
    exact h.lacks j g hj
  case account => exact fun j => (h.account j).congr fun g hx => hother j g hx

end Step

section Advance

variable {cfg : Slab.Config} {s : State} {k : ℕ} {ch : Choice} {m : Mem} {q : Pc}

/-- A spawn that has no struct yet, or has found none. -/
theorem Inv.without (h : Inv s) (hslab : m.slab = s.mem.slab) (hg : m.g = s.mem.g)
    (hown : (s.pc k).owns = none) (hown' : q.owns = none)
    (hacct : Account m q (fun r => s.took k r + (m.obs r - s.mem.obs r).toNat)
      fun r => s.gave k r + (s.mem.obs r - m.obs r).toNat) : Inv (s.book k m q) := by
  refine h.keep (hown'.trans hown.symm) hslab (fun g _ => by rw [hg]) ?_ ?_ hacct
  · exact fun g hx => absurd (hown'.symm.trans hx) (by rintro ⟨⟩)
  · exact fun g hx => absurd (hown'.symm.trans hx) (by rintro ⟨⟩)

variable {sp : Request} {g : ℕ}

theorem admits_inv (h : Inv s) (hpc : s.pc k = .admits sp)
    (hs : advance cfg s.mem ch (.admits sp) = some (m, q)) : Inv (s.book k m q) := by
  have hacct := h.account k
  have hown : (s.pc k).owns = none := by rw [hpc]; rfl
  rw [hpc] at hacct
  simp only [advance] at hs
  split at hs
  · cases hs
    refine h.without rfl rfl hown rfl (account_take hacct rfl ?_ ?_ (owed_le_one (by rintro _ _ ⟨⟩)))
    · intro r
      simp [owed]
    · exact fun r => Nat.zero_le _
  · split at hs
    · cases hs
      refine h.without rfl rfl hown rfl (account_take hacct rfl ?_ ?_ (owed_le_one (by rintro _ _ ⟨⟩)))
      · intro r
        cases r <;> simp [owed, Mem.obs]
      · exact fun r => Nat.zero_le _
    · cases hs
      refine h.without rfl rfl hown rfl (account_take hacct rfl ?_ ?_ (owed_le_one (by rintro _ _ ⟨⟩)))
      · intro r
        cases r <;> simp [owed, Mem.obs]
      · exact fun r => Nat.zero_le _

theorem backsOut_inv (h : Inv s) (hpc : s.pc k = .backsOut) :
    Inv (s.book k { s.mem with live := s.mem.live - 1 } (.failed .admission)) := by
  have hacct := h.account k
  have hown : (s.pc k).owns = none := by rw [hpc]; rfl
  rw [hpc] at hacct
  refine h.without rfl rfl hown rfl (account_give hacct rfl rfl ?_ ?_)
  · intro r
    cases r <;> simp [owed, Mem.obs]
  · exact fun r => Nat.zero_le _

theorem releases_inv {counted : Bool} (h : Inv s) (hpc : s.pc k = .releases counted) :
    Inv (s.book k (if counted then { s.mem with live := s.mem.live - 1 } else s.mem)
      (.failed .struct)) := by
  have hacct := h.account k
  have hown : (s.pc k).owns = none := by rw [hpc]; rfl
  rw [hpc] at hacct
  refine h.without (by split <;> rfl) (by split <;> rfl) hown rfl
    (account_give hacct rfl rfl ?_ ?_)
  · intro r
    cases counted <;> cases r <;> simp [owed, Mem.obs]
  · exact fun r => Nat.zero_le _

theorem allocs_inv {counted : Bool} (h : Inv s) (hpc : s.pc k = .allocs sp counted)
    (hs : advance cfg s.mem ch (.allocs sp counted) = some (m, q)) : Inv (s.book k m q) := by
  have hacct := h.account k
  have hown : (s.pc k).owns = none := by rw [hpc]; rfl
  rw [hpc] at hacct
  simp only [advance] at hs
  split at hs
  · next slab g halloc =>
    cases hs
    obtain ⟨hnot, hsound⟩ := h.slab.alloc halloc
    obtain ⟨hhanded, hreturned⟩ := Slab.alloc_count halloc
    refine h.gain hown rfl ?_ ?_ hsound ?_ ?_ (account_take hacct rfl ?_ ?_ (owed_le_one (by rintro _ _ ⟨⟩)))
    · exact fun j hj => hnot (.inr ⟨j, hj⟩)
    · exact fun g' hg' => update_of_ne hg' ..
    · simp [Pc.Hides, Mem.setG, blank]
    · intro u
      cases u <;> simp [Pc.Lacks, Mem.setG, blank, G.has]
    · intro r
      cases r <;> simp [owed, Mem.obs, Mem.setG, G.held, blank, hhanded, hreturned]
    · intro r
      cases r <;> simp [owed, Mem.setG, G.held, blank]
  · cases hs
    refine h.without rfl rfl hown rfl (account_take hacct rfl ?_ ?_ (owed_le_one (by rintro _ _ ⟨⟩)))
    · intro r
      simp [owed]
    · exact fun r => le_rfl

/-- A spawn goes on with its struct. -/
theorem Inv.with {v : G} (h : Inv s) (hslab : m.slab = s.mem.slab)
    (hg : m.g = update s.mem.g g v) (hown : (s.pc k).owns = some g)
    (hown' : q.owns = some g) (hhides : q.Hides v) (hlacks : ∀ u, q.Lacks v u)
    (hacct : Account m q (fun r => s.took k r + (m.obs r - s.mem.obs r).toNat)
      fun r => s.gave k r + (s.mem.obs r - m.obs r).toNat) : Inv (s.book k m q) := by
  have hv : m.g g = v := by rw [hg, update_self]
  refine h.keep (hown'.trans hown.symm) hslab ?_ ?_ ?_ hacct
  · intro g' hne
    rw [hg, update_of_ne]
    rintro rfl
    exact hne hown
  · intro g' hx
    obtain rfl := Option.some.inj (hx.symm.trans hown')
    rw [hv]
    exact hhides
  · intro g' hx
    obtain rfl := Option.some.inj (hx.symm.trans hown')
    rw [hv]
    exact hlacks

theorem fills_inv (h : Inv s) (hpc : s.pc k = .fills sp g)
    (hs : advance cfg s.mem ch (.fills sp g) = some (m, q)) : Inv (s.book k m q) := by
  have hown : (s.pc k).owns = some g := by rw [hpc]; rfl
  have hacct := h.account k
  have hhides := h.hides k g hown
  have hlacks := h.lacks k g hown
  rw [hpc] at hacct hhides hlacks
  have hnone : (s.mem.g g).callable = none := by
    simpa [Pc.Lacks, G.has] using hlacks .callable
  have hrest : ∀ u, u ≠ .slot → u ≠ .callable → (s.mem.g g).has u = false :=
    fun u hu _ => hlacks u hu
  simp only [advance] at hs
  split at hs
  · next c hc =>
    cases hs
    refine h.with (v := { s.mem.g g with callable := some c, refs := 1 }) rfl rfl hown rfl
      ⟨hhides, rfl⟩ ?_ (account_take hacct rfl ?_ ?_ (owed_le_one (by rintro _ _ ⟨⟩)))
    · intro u hu hu'
      cases u <;> first | exact absurd rfl hu | exact absurd rfl hu' | exact hrest _ hu hu'
    · intro r
      cases r with
      | callable c' =>
        by_cases hcc : c' = c
        · subst hcc
          simp [owed, Mem.obs, Mem.setG, Mem.refCallable, G.held, hnone]
        · simp [owed, Mem.obs, Mem.setG, Mem.refCallable, G.held, hnone, hcc, Ne.symm hcc]
      | _ => simp [owed, Mem.obs, Mem.setG, Mem.refCallable, G.held]
    · intro r
      cases r <;> simp [owed, Mem.setG, Mem.refCallable, G.held, hnone]
  · cases hs
    refine h.with (v := { s.mem.g g with refs := 1 }) rfl rfl hown rfl ⟨hhides, rfl⟩ ?_
      (account_take hacct rfl ?_ ?_ (owed_le_one (by rintro _ _ ⟨⟩)))
    · intro u hu hu'
      cases u <;> first | exact absurd rfl hu | exact absurd rfl hu' | exact hrest _ hu hu'
    · intro r
      cases r <;> simp [owed, Mem.obs, Mem.setG, G.held]
    · intro r
      cases r <;> simp [owed, Mem.setG, G.held]

theorem nests_inv (h : Inv s) (hpc : s.pc k = .nests sp g)
    (hs : advance cfg s.mem ch (.nests sp g) = some (m, q)) : Inv (s.book k m q) := by
  have hown : (s.pc k).owns = some g := by rw [hpc]; rfl
  have hacct := h.account k
  have hhides := h.hides k g hown
  have hlacks := h.lacks k g hown
  rw [hpc] at hacct hhides hlacks
  have hnone : (s.mem.g g).nest = none := by simpa [Pc.Lacks, G.has] using hlacks .nest
  simp only [advance] at hs
  split at hs
  · next n c =>
    cases hs
    refine h.with (v := { s.mem.g g with nest := some n }) rfl rfl hown rfl hhides ?_
      (account_take hacct rfl ?_ ?_ (owed_le_one (by rintro _ _ ⟨⟩)))
    · intro u hu hu' hnest
      cases u with
      | nest =>
        obtain ⟨h', c', hx⟩ := hnest rfl
        cases hx
      | slot => exact absurd rfl hu
      | callable => exact absurd rfl hu'
      | stack => exact hlacks .stack hu hu'
      | tstate => exact hlacks .tstate hu hu'
    · intro r
      cases r with
      | nest n' =>
        by_cases hnn : n' = n
        · subst hnn
          simp [owed, Mem.obs, Mem.setG, Mem.refNest, G.held, hnone]
        · simp [owed, Mem.obs, Mem.setG, Mem.refNest, G.held, hnone, hnn, Ne.symm hnn]
      | _ => simp [owed, Mem.obs, Mem.setG, Mem.refNest, G.held]
    · intro r
      cases r <;> simp [owed, Mem.setG, Mem.refNest, G.held, hnone]
  · cases hs
    refine h.with (v := s.mem.g g) rfl (update_eq_self g _).symm hown rfl hhides
      (fun u hu hu' _ => hlacks u hu hu') (account_take hacct rfl ?_ ?_ (owed_le_one (by rintro _ _ ⟨⟩)))
    · intro r
      simp [owed]
    · exact fun r => le_rfl

/-- An error path begins; what it is not to give back was not taken. -/
theorem unwind_inv {todo : List Undo} {p : Point} (h : Inv s)
    (hslab : m.slab = s.mem.slab) (hg : m.g = s.mem.g) (hown : (s.pc k).owns = some g)
    (hbal : (s.pc k).balances = true) (hhides : (Pc.unwinds g todo p).Hides (s.mem.g g))
    (hlacks : ∀ u, u ∉ todo → (s.mem.g g).has u = false)
    (hobs : ∀ r, m.obs r - s.mem.obs r = ((s.mem.g g).held r : ℤ) - owed s.mem (s.pc k) r)
    (hle : ∀ r, (s.mem.g g).held r ≤ owed s.mem (s.pc k) r) :
    Inv (s.book k m (.unwinds g todo p)) := by
  refine h.with (v := s.mem.g g) hslab (by rw [hg, update_eq_self]) hown rfl hhides hlacks
    (account_give (h.account k) hbal rfl ?_ ?_)
  · intro r
    simp only [owed, hg]
    exact hobs r
  · intro r
    simp only [owed, hg]
    exact hle r

theorem creates_inv (h : Inv s) (hpc : s.pc k = .creates sp g)
    (hs : advance cfg s.mem ch (.creates sp g) = some (m, q)) : Inv (s.book k m q) := by
  have hown : (s.pc k).owns = some g := by rw [hpc]; rfl
  have hbal : (s.pc k).balances = true := by rw [hpc]; rfl
  have howed : ∀ r, owed s.mem (s.pc k) r = (s.mem.g g).held r := by
    intro r
    rw [hpc]
    rfl
  have hacct := h.account k
  have hhides := h.hides k g hown
  have hlacks := h.lacks k g hown
  rw [hpc] at hacct hhides hlacks
  simp only [advance] at hs
  split at hs
  · split at hs
    · cases hs
      refine unwind_inv h rfl rfl hown hbal hhides (fun u hu => ?_) (fun r => by simp [howed])
        fun r => (howed r).ge
      refine hlacks u ?_ ?_ ?_
      · rintro rfl
        simp at hu
      · rintro rfl
        simp at hu
      · rintro rfl
        simp at hu
    · next h' c =>
      cases hs
      refine unwind_inv h rfl rfl hown hbal hhides (fun u hu => ?_) (fun r => by simp [howed])
        fun r => (howed r).ge
      refine hlacks u ?_ ?_ fun _ => ⟨h', c, rfl⟩
      · rintro rfl
        simp at hu
      · rintro rfl
        simp at hu
  · cases hs
    have hcoro : (s.mem.g g).coro = false := hlacks .stack (by rintro ⟨⟩) (by rintro ⟨⟩) (by rintro ⟨⟩)
    refine h.with (v := s.mem.g g) rfl (update_eq_self g _).symm hown rfl hhides hlacks
      (account_take hacct rfl ?_ ?_ ?_)
    · intro r
      cases r <;> simp [owed, Mem.obs]
    · exact fun r => Nat.le_add_right _ _
    · intro r
      cases r with
      | coro => simp [owed, G.held, hcoro]
      | _ => simpa [owed] using held_le_one (s.mem.g g) _

theorem acquires_inv (h : Inv s) (hpc : s.pc k = .acquires sp g)
    (hs : advance cfg s.mem ch (.acquires sp g) = some (m, q)) : Inv (s.book k m q) := by
  have hown : (s.pc k).owns = some g := by rw [hpc]; rfl
  have hbal : (s.pc k).balances = true := by rw [hpc]; rfl
  have howed : ∀ r, owed s.mem (s.pc k) r =
      (s.mem.g g).held r + if r = .coro then 1 else 0 := by
    intro r
    rw [hpc]
    rfl
  have hacct := h.account k
  have hhides := h.hides k g hown
  have hlacks := h.lacks k g hown
  rw [hpc] at hacct hhides hlacks
  have hcoro : (s.mem.g g).coro = false := hlacks .stack (by rintro ⟨⟩) (by rintro ⟨⟩) (by rintro ⟨⟩)
  simp only [advance] at hs
  split at hs
  · have hobs : ∀ r, Mem.obs { s.mem with coroCount := s.mem.coroCount - 1 } r - s.mem.obs r =
        ((s.mem.g g).held r : ℤ) - owed s.mem (s.pc k) r := by
      intro r
      rw [howed]
      cases r <;> simp [Mem.obs]
    have hle : ∀ r, (s.mem.g g).held r ≤ owed s.mem (s.pc k) r := by
      intro r
      rw [howed]
      exact Nat.le_add_right _ _
    split at hs
    · cases hs
      refine unwind_inv h rfl rfl hown hbal hhides (fun u hu => ?_) hobs hle
      refine hlacks u ?_ ?_ ?_
      · rintro rfl
        simp at hu
      · rintro rfl
        simp at hu
      · rintro rfl
        simp at hu
    · next h' c =>
      cases hs
      refine unwind_inv h rfl rfl hown hbal hhides (fun u hu => ?_) hobs hle
      refine hlacks u ?_ ?_ fun _ => ⟨h', c, rfl⟩
      · rintro rfl
        simp at hu
      · rintro rfl
        simp at hu
  · split at hs
    · cases hs
      exact h.with (v := { s.mem.g g with coro := true }) rfl rfl hown rfl hhides
        (fun _ => trivial) (account_off rfl)
    · next h' c =>
      cases hs
      refine h.with (v := { s.mem.g g with coro := true }) rfl rfl hown rfl hhides ?_
        (account_take hacct rfl ?_ ?_ (owed_le_one (by rintro _ _ ⟨⟩)))
      · rintro u (rfl | rfl)
        · exact hlacks .nest (by rintro ⟨⟩) (by rintro ⟨⟩) fun _ => ⟨h', c, rfl⟩
        · exact hlacks .tstate (by rintro ⟨⟩) (by rintro ⟨⟩) (by rintro ⟨⟩)
      · intro r
        cases r <;> simp [owed, Mem.obs, Mem.setG, G.held, hcoro]
      · intro r
        cases r <;> simp [owed, Mem.setG, G.held, hcoro]

theorem threads_inv {h' : ℕ} (h : Inv s) (hpc : s.pc k = .threads h' g)
    (hs : advance cfg s.mem ch (.threads h' g) = some (m, q)) : Inv (s.book k m q) := by
  have hown : (s.pc k).owns = some g := by rw [hpc]; rfl
  have hbal : (s.pc k).balances = true := by rw [hpc]; rfl
  have howed : ∀ r, owed s.mem (s.pc k) r = (s.mem.g g).held r := by
    intro r
    rw [hpc]
    rfl
  have hhides := h.hides k g hown
  have hlacks := h.lacks k g hown
  rw [hpc] at hhides hlacks
  simp only [advance] at hs
  split at hs
  · cases hs
    refine unwind_inv h rfl rfl hown hbal hhides (fun u hu => hlacks u ?_)
      (fun r => by simp [howed]) fun r => (howed r).ge
    cases u <;> simp at hu ⊢
  · cases hs
    exact h.with (v := { s.mem.g g with tstate := true }) rfl rfl hown rfl hhides
      (fun _ => trivial) (account_off rfl)

/-- A release of the error paths, or of the last decref. -/
theorem undo_inv {u : Undo} (h : Inv s) (hown : (s.pc k).owns = some g)
    (hown' : q.owns = some g) (hhides : q.Hides ((s.mem.undo g u).g g))
    (hlacks : ∀ u', q.Lacks ((s.mem.undo g u).g g) u')
    (hacct : Account (s.mem.undo g u) q
      (fun r => s.took k r + ((s.mem.undo g u).obs r - s.mem.obs r).toNat)
      fun r => s.gave k r + (s.mem.obs r - (s.mem.undo g u).obs r).toNat) :
    Inv (s.book k (s.mem.undo g u) q) := by
  refine h.with undo_slab ?_ hown hown' hhides hlacks hacct
  funext g'
  by_cases hg : g' = g
  · rw [hg, update_self]
  · rw [update_of_ne hg, undo_g hg]

theorem unwinds_inv {u : Undo} {todo : List Undo} {p : Point} (h : Inv s)
    (hpc : s.pc k = .unwinds g (u :: todo) p) :
    Inv (s.book k (s.mem.undo g u) (.unwinds g todo p)) := by
  have hown : (s.pc k).owns = some g := by rw [hpc]; rfl
  have hacct := h.account k
  have hhides := h.hides k g hown
  have hlacks := h.lacks k g hown
  rw [hpc] at hacct hhides hlacks
  obtain ⟨hpub, hrefs⟩ := undo_hides (m := s.mem) (g := g) (u := u)
  refine undo_inv h hown rfl ⟨hpub.trans hhides.1, hrefs.trans hhides.2⟩ ?_
    (account_give hacct rfl rfl undo_obs undo_le)
  intro u' hu'
  refine undo_has ?_
  by_cases hx : u' = u
  · exact .inl hx
  · exact .inr (hlacks u' fun hm => (List.mem_cons.mp hm).elim hx hu')

/-- The struct of a call goes back to the slab. -/
theorem slabFree_inv {t : ℕ} (h : Inv s) (hown : (s.pc k).owns = some g) (hown' : q.owns = none)
    (hacct : Account { s.mem with slab := s.mem.slab.free cfg t g } q
      (fun r => s.took k r +
        (Mem.obs { s.mem with slab := s.mem.slab.free cfg t g } r - s.mem.obs r).toNat)
      fun r => s.gave k r +
        (s.mem.obs r - Mem.obs { s.mem with slab := s.mem.slab.free cfg t g } r).toNat) :
    Inv (s.book k { s.mem with slab := s.mem.slab.free cfg t g } q) := by
  have hunshared := (h.hides k g hown).unshared
  refine h.lose hown hown' (fun _ _ => rfl) ?_ hacct
  simp only [hunshared, Bool.false_eq_true, if_false]
  exact h.slab.free (.inr ⟨k, hown⟩)

theorem unwound_inv {t : ℕ} {p : Point} (h : Inv s) (hpc : s.pc k = .unwinds g [] p) :
    Inv (s.book k { s.mem with slab := s.mem.slab.free cfg t g } (.failed p)) := by
  have hown : (s.pc k).owns = some g := by rw [hpc]; rfl
  have hacct := h.account k
  have hlacks := h.lacks k g hown
  rw [hpc] at hacct hlacks
  have hheld : ∀ r, (s.mem.g g).held r = if r = .struct then 1 else 0 := by
    have hcallable := hlacks .callable List.not_mem_nil
    have hslot := hlacks .slot List.not_mem_nil
    have hnest := hlacks .nest List.not_mem_nil
    have hstack := hlacks .stack List.not_mem_nil
    have htstate := hlacks .tstate List.not_mem_nil
    simp only [G.has, Option.isSome_eq_false_iff, Option.isNone_iff_eq_none] at *
    intro r
    cases r <;> simp [G.held, hcallable, hslot, hnest, hstack, htstate]
  obtain ⟨hhanded, hreturned⟩ := Slab.free_count (c := cfg) (s := s.mem.slab) (t := t) (g := g)
  refine slabFree_inv h hown rfl (account_give hacct rfl rfl ?_ ?_)
  · intro r
    simp only [owed, hheld]
    cases r <;> simp [Mem.obs, hhanded, hreturned]
  · exact fun r => Nat.zero_le _

/-- A g is put where others find it. -/
theorem publish_inv {qu : Queue} (h : Inv s) (hown : (s.pc k).owns = some g)
    (hrefs : (s.mem.g g).refs = 1) (hown' : q.owns = none) (hbal : q.balances = false) :
    Inv (s.book k (s.mem.publish qu g) q) := by
  have hshared : ((s.mem.publish qu g).g g).shared = true := by
    simp [Mem.publish, Mem.push, Mem.setG, G.shared, hrefs]
  refine h.lose hown hown' ?_ ?_ (account_off hbal)
  · exact fun g' hg' => update_of_ne hg' ..
  · rw [if_pos hshared]
    exact h.slab

theorem advance_inv (h : Inv s) (hs : advance cfg s.mem ch (s.pc k) = some (m, q)) :
    Inv (s.book k m q) := by
  cases hpc : s.pc k with
  | idle => simp [hpc, advance] at hs
  | failed p => simp [hpc, advance] at hs
  | spawned g => simp [hpc, advance] at hs
  | unwrapped g => simp [hpc, advance] at hs
  | freed => simp [hpc, advance] at hs
  | admits sp => exact admits_inv h hpc (hpc ▸ hs)
  | backsOut =>
    simp only [hpc, advance] at hs
    cases hs
    exact backsOut_inv h hpc
  | allocs sp counted => exact allocs_inv h hpc (hpc ▸ hs)
  | releases counted =>
    simp only [hpc, advance] at hs
    cases hs
    exact releases_inv h hpc
  | fills sp g => exact fills_inv h hpc (hpc ▸ hs)
  | nests sp g => exact nests_inv h hpc (hpc ▸ hs)
  | creates sp g => exact creates_inv h hpc (hpc ▸ hs)
  | acquires sp g => exact acquires_inv h hpc (hpc ▸ hs)
  | threads h' g => exact threads_inv h hpc (hpc ▸ hs)
  | unwinds g todo p =>
    cases todo with
    | nil =>
      simp only [hpc, advance] at hs
      cases hs
      exact unwound_inv h hpc
    | cons u todo =>
      simp only [hpc, advance] at hs
      cases hs
      exact unwinds_inv h hpc
  | pends h' g =>
    have hown : (s.pc k).owns = some g := by rw [hpc]; rfl
    have hhides := h.hides k g hown
    simp only [hpc, advance] at hs hhides
    cases hs
    exact h.with (v := s.mem.g g) rfl (update_eq_self g _).symm hown rfl hhides
      (fun _ => trivial) (account_off rfl)
  | submits h' g =>
    have hown : (s.pc k).owns = some g := by rw [hpc]; rfl
    have hhides := h.hides k g hown
    simp only [hpc, advance] at hs hhides
    cases hs
    exact publish_inv h hown hhides.2 rfl rfl
  | pushes qu g =>
    have hown : (s.pc k).owns = some g := by rw [hpc]; rfl
    have hhides := h.hides k g hown
    simp only [hpc, advance] at hs hhides
    cases hs
    exact publish_inv h hown hhides.2 rfl rfl
  | wraps g =>
    have hown : (s.pc k).owns = none := by rw [hpc]; rfl
    simp only [hpc, advance] at hs
    cases hs
    refine h.without rfl rfl hown ?_ (account_off ?_)
    · split <;> rfl
    · split <;> rfl
  | frees g todo =>
    have hown : (s.pc k).owns = some g := by rw [hpc]; rfl
    have hhides := h.hides k g hown
    rw [hpc] at hhides
    cases todo with
    | nil =>
      simp only [hpc, advance] at hs
      cases hs
      exact slabFree_inv h hown rfl (account_off rfl)
    | cons u todo =>
      simp only [hpc, advance] at hs
      cases hs
      exact undo_inv h hown rfl (undo_hides.2.trans_le hhides) (fun _ => trivial)
        (account_off rfl)

end Advance

section Happen

variable {s : State} {k g : ℕ} {m : Mem}

/-- A published struct changes and stays referenced. -/
theorem Inv.setShared {v : G} (h : Inv s) (hslab : m.slab = s.mem.slab)
    (hg : m.g = update s.mem.g g v) (hshared : (s.mem.g g).shared = true)
    (hv : v.shared = true) : Inv { s with mem := m } := by
  refine h.happens (fun out ho => by rwa [hslab]) ?_ ?_
  · intro g' hg'
    rw [hg, update_of_ne]
    rintro rfl
    exact absurd (hg'.symm.trans hshared) (by rintro ⟨⟩)
  · intro g'
    by_cases hgg : g' = g
    · rw [hg, hgg, update_self, hv, hshared]
    · rw [hg, update_of_ne hgg]

theorem undo_shared {u : Undo} (h : Inv s) (hshared : (s.mem.g g).shared = true) :
    Inv { s with mem := s.mem.undo g u } := by
  obtain ⟨hpub, hrefs⟩ := undo_hides (m := s.mem) (g := g) (u := u)
  refine h.setShared undo_slab (g := g) (v := (s.mem.undo g u).g g) ?_ hshared ?_
  · funext g'
    by_cases hg : g' = g
    · rw [hg, update_self]
    · rw [update_of_ne hg, undo_g hg]
  · simpa [G.shared, hpub, hrefs] using hshared

theorem happen_inv {e : Event} (h : Inv s) (hs : happen s.mem e = some m) :
    Inv { s with mem := m } := by
  have hsame : m.slab = s.mem.slab → m.g = s.mem.g → Inv { s with mem := m } :=
    fun hslab hg => h.happens (fun out ho => by rwa [hslab]) (fun g _ => by rw [hg])
      fun g => by rw [hg]
  cases e with
  | setMax n =>
    cases hs
    exact hsame rfl rfl
  | incref g =>
    simp only [happen] at hs
    split at hs
    · next hc =>
      cases hs
      refine h.setShared rfl rfl hc ?_
      simp only [G.shared, Bool.and_eq_true, decide_eq_true_eq] at hc ⊢
      exact ⟨hc.1, by omega⟩
    · cases hs
  | decref g =>
    simp only [happen] at hs
    split at hs
    · next hc =>
      cases hs
      refine h.setShared rfl rfl hc.1 ?_
      simp only [G.shared, Bool.and_eq_true, decide_eq_true_eq] at hc ⊢
      exact ⟨hc.1.1, by omega⟩
    · cases hs
  | finish g =>
    simp only [happen] at hs
    split at hs
    · next hc =>
      cases hs
      exact undo_shared h hc
    · cases hs
  | uncount g =>
    simp only [happen] at hs
    split at hs
    · next hc =>
      cases hs
      exact undo_shared h hc
    · cases hs
  | complete h' =>
    cases hs
    exact hsame rfl rfl
  | steal victim thief =>
    cases hs
    exact hsame rfl rfl
  | take qu =>
    cases hs
    exact hsame rfl rfl
  | put qu g =>
    simp only [happen] at hs
    split at hs
    · cases hs
      exact hsame rfl rfl
    · cases hs
  | threadFlush t =>
    cases hs
    exact h.happens (fun out ho => ho.threadFlush) (fun _ _ => rfl) fun _ => rfl
  | reclaim t =>
    cases hs
    exact h.happens (fun out ho => ho.reclaim) (fun _ _ => rfl) fun _ => rfl

/-- A spawn begins, or is turned away at once. -/
theorem enter_inv {q : Pc} (h : Inv s) (hover : (s.pc k).over = true) (hslab : m.slab = s.mem.slab)
    (hg : m.g = s.mem.g) (hown : q.owns = none) (howed : ∀ r, owed m q r = 0) :
    Inv (s.enter k m q) := by
  refine h.keep (hown.trans (Pc.owns_of_over hover).symm) hslab (fun g _ => by rw [hg]) ?_ ?_ ?_
  · exact fun g hx => absurd (hown.symm.trans hx) (by rintro ⟨⟩)
  · exact fun g hx => absurd (hown.symm.trans hx) (by rintro ⟨⟩)
  · exact ⟨fun _ r => ⟨by rw [howed], Nat.zero_le _, fun _ => rfl⟩, fun _ _ => rfl⟩

/-- The last reference is dropped, and the struct is that of the call. -/
theorem release_inv {todo : List Undo} (h : Inv s) (hover : (s.pc k).over = true)
    (hshared : (s.mem.g g).shared = true) :
    Inv (s.enter k (s.mem.setG g { s.mem.g g with refs := 0 }) (.frees g todo)) := by
  have hlive : g ∈ {g | s.Live g} := Or.inl hshared
  refine h.gain (Pc.owns_of_over hover) rfl ?_ ?_ ?_ ?_ (fun _ => trivial) (account_off rfl)
  · intro j hj
    exact absurd ((h.hides j g hj).unshared.symm.trans hshared) (by rintro ⟨⟩)
  · exact fun g' hg' => update_of_ne hg' ..
  · rw [Set.insert_eq_of_mem hlive]
    exact h.slab
  · simp [Pc.Hides, Mem.setG]

theorem step_inv {cfg : Config} {a : Action} {t : State} (h : Inv s)
    (hs : step cfg s a = some t) : Inv t := by
  cases a with
  | common k qu isNest c =>
    simp only [step] at hs
    split at hs
    · next hover =>
      cases hs
      exact enter_inv h hover rfl rfl rfl fun _ => rfl
    · cases hs
  | core k pl c =>
    simp only [step] at hs
    split at hs
    · next hover =>
      split at hs
      · cases hs
        exact enter_inv h hover rfl rfl rfl fun _ => rfl
      · cases hs
        exact enter_inv h hover rfl rfl rfl fun _ => rfl
    · cases hs
  | release k g =>
    simp only [step] at hs
    split at hs
    · next hc =>
      cases hs
      exact release_inv h hc.1 hc.2.1
    · cases hs
  | advance k ch =>
    obtain ⟨⟨m, q⟩, hadv, rfl⟩ := Option.map_eq_some_iff.mp hs
    exact advance_inv h hadv
  | event e =>
    obtain ⟨m, hm, rfl⟩ := Option.map_eq_some_iff.mp hs
    exact happen_inv h hm

end Happen

theorem reachable_inv {cfg : Config} {s : State} (hr : Reachable (system cfg) s) : Inv s := by
  refine Reachable.invariant (P := Inv) ?_ ?_ hr
  · rintro s rfl
    exact inv_start
  · exact fun s a t _ h hs => step_inv h hs

/-- In every run a spawn that has failed has given back each thing it took, once, and has not
touched pending or a run queue; the structs handed out and not returned are the live ones. -/
theorem spawn_failure_atomic {cfg : Config} {s : State} (hr : Reachable (system cfg) s) :
    (∀ k p, s.pc k = .failed p → ∀ r,
      s.gave k r = s.took k r ∧ s.took k r ≤ 1 ∧ (r.published = true → s.took k r = 0)) ∧
    s.mem.slab.handed = s.mem.slab.returned + {g | s.Live g}.ncard := by
  have h := reachable_inv hr
  refine ⟨fun k p hpc r => ?_, h.slab.count⟩
  have hacct := h.account k
  rw [hpc] at hacct
  obtain ⟨hbal, hone, hpub⟩ := hacct.balance rfl r
  exact ⟨hbal.symm, hone, hpub⟩

/-- With one slot, a spawn finds no thread state when it has all the rest, and another one is
turned away meanwhile. -/
theorem spawn_failure_atomic_tstate :
    ∃ s, Reachable (system ⟨⟨4096, 256⟩, 2⟩) s ∧ s.pc 0 = .failed .tstate ∧
      s.pc 1 = .failed .admission ∧ s.took 0 .stack = 1 ∧ s.gave 0 .stack = 1 ∧
      s.took 1 .slot = 1 ∧ s.gave 1 .slot = 1 ∧
      s.mem.slab.handed = s.mem.slab.returned + {g | s.Live g}.ncard := by
  have hrun : ((system ⟨⟨4096, 256⟩, 2⟩).run start
      ([Action.event (.setMax 1), .core 0 .next (some 7), .advance 0 ⟨0, false, false⟩,
        .common 1 0 true 8, .advance 1 ⟨1, false, false⟩, .advance 1 ⟨1, false, false⟩] ++
        List.replicate 5 (Action.advance 0 ⟨0, false, false⟩) ++ [Action.advance 0 ⟨0, true, false⟩] ++
        List.replicate 4 (Action.advance 0 ⟨0, false, false⟩))).map (fun s =>
          (s.pc 0, s.pc 1, s.took 0 .stack, s.took 1 .slot)) =
      some (.failed .tstate, .failed .admission, 1, 1) := by decide +kernel
  obtain ⟨s, hs, hobs⟩ := Option.map_eq_some_iff.mp hrun
  simp only [Prod.mk.injEq] at hobs
  obtain ⟨h0, h1, htook0, htook1⟩ := hobs
  have hr : Reachable (system ⟨⟨4096, 256⟩, 2⟩) s := reachable_of_run _ _ rfl hs
  obtain ⟨hfailed, hcount⟩ := spawn_failure_atomic hr
  refine ⟨s, hr, h0, h1, htook0, ?_, htook1, ?_, hcount⟩
  · exact (hfailed 0 _ h0 .stack).1.trans htook0
  · exact (hfailed 1 _ h1 .slot).1.trans htook1

end Stackweave.Spawn
