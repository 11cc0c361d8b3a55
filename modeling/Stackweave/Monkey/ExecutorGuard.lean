import Stackweave.Monkey.Executor

/-!
# The lock of the executor (`monkey/executors.py`, `monkey/events.py`)

`_guard` is a lock of the operating system: whoever finds it taken blocks the thread of its hub, with
every fiber that is to run there. The executor as in `Monkey.Executor`, with the blocks under
`_guard` and the sections under the guards of the two events taken apart, and with the hubs that
the fibers run on. A fiber that finds the guard of an event taken yields.

* `guard_holder_runs`: when the holder of `_guard` is never suspended.
* `holder_yields`: a run in which it is.
-/

namespace Stackweave.Monkey.ExecutorGuard

open Transition Function
open Executor (Config Future)

/-- Whose code a fiber runs: that of the program, or the initializer or the callable of the task
`k`. -/
inductive Code
  | user
  | initializer (k : ℕ)
  | callable (k : ℕ)
  deriving DecidableEq

/-- The `with self._guard` blocks. -/
inductive Block
  | submit (c : Code)
  | shutdown (c : Code) (wait cancelFutures : Bool)
  | init (k : ℕ)
  | broken (k : ℕ)
  | taskDone (k : ℕ)
  deriving DecidableEq

inductive Ev
  | idle
  | initDone
  deriving DecidableEq

/-- What is done under the guard of an event: one of the sections of `wait`, or all of `clear`, or
the start of `set`. -/
inductive Section
  | set
  | clear
  | wait
  deriving DecidableEq

/-- Where a fiber stands in an operation of an event. -/
inductive Spot
  /-- at the call of `wait` -/
  | call
  /-- at the `try_lock` in `_glock` -/
  | lock (a : Section)
  | locked (a : Section)
  | unlock
  /-- outside of the guard -/
  | outside
  deriving DecidableEq

/-- What a fiber does next. -/
inductive Pc
  | unborn
  | code (c : Code)
  /-- `submit`: the two reads, and behind its block the spawn -/
  | submit (c : Code)
  | submitBroken (c : Code)
  | spawning (c : Code) (k : ℕ)
  /-- `shutdown`: the futures left to cancel -/
  | cancelling (c : Code) (ks : List ℕ) (wait : Bool)
  /-- the task of the future `k` -/
  | start (k : ℕ)
  | acquiring (k : ℕ)
  | notify (k : ℕ)
  | enter (k : ℕ)
  | checkBroken (k : ℕ)
  | resolve (k : ℕ)
  | release (k : ℕ)
  | releasing (k : ℕ)
  | ended (k : ℕ)
  /-- at the head of a block, in it, and at its end, with what follows -/
  | acquire (b : Block)
  | body (b : Block)
  | exit (q : Pc)
  /-- in an operation of an event, with what follows -/
  | event (e : Ev) (p : Spot) (q : Pc)
  deriving DecidableEq

structure Shared where
  shutdown : Bool
  broken : Bool
  initStarted : Bool
  pending : List ℕ
  fut : ℕ → Future
  next : ℕ
  sem : Semaphore.State
  events : Ev → Event.State
  /-- who has the lock of the executor and those of the events -/
  guard : Option ℕ
  locks : Ev → Option ℕ

/-- Where a fiber is: on a hub, in the queue of a hub, or parked. -/
inductive Place
  | running (h : ℕ)
  | ready (h : ℕ)
  | parked
  deriving DecidableEq

structure State extends Shared where
  pc : ℕ → Pc
  place : ℕ → Place

def Shared.setFut (x : Shared) (k : ℕ) (st : Future) : Shared :=
  { x with fut := Function.update x.fut k st }

def Shared.setEvent (x : Shared) (e : Ev) (v : Event.State) : Shared :=
  { x with events := Function.update x.events e v }

def Shared.setLock (x : Shared) (e : Ev) (o : Option ℕ) : Shared :=
  { x with locks := Function.update x.locks e o }

/-- `Future.cancel` -/
def Shared.cancel (x : Shared) (k : ℕ) : Shared :=
  match x.fut k with
  | .pending => x.setFut k .cancelled
  | _ => x

variable (cfg : Config)

/-- A block, up to the operation of an event in it. -/
@[grind =]
def blockStep (x : Shared) : Block → Shared × Pc
  | .submit c =>
    if x.shutdown then (x, .exit (.code c))
    else if x.broken then (x, .exit (.code c))
    else
      ({ x with
        pending := x.pending ++ [x.next], next := x.next + 1
        fut := Function.update x.fut x.next .pending },
        .event .idle (.lock .clear) (.exit (.spawning c x.next)))
  | .shutdown c wait cancelFutures =>
    ({ x with shutdown := true },
      .exit (.cancelling c (if cancelFutures then x.pending else []) wait))
  | .init k =>
    if x.broken then (x, .exit (.resolve k))
    else if (x.events .initDone).flag then (x, .exit (.code (.callable k)))
    else if x.initStarted then (x, .exit (.event .initDone .call (.checkBroken k)))
    else ({ x with initStarted := true }, .exit (.code (.initializer k)))
  | .broken k => ({ x with broken := true }, .exit (.event .initDone (.lock .set) (.resolve k)))
  | .taskDone k =>
    let x := { x with pending := x.pending.erase k }
    if x.pending = [] then (x, .event .idle (.lock .set) (.exit (.ended k)))
    else (x, .exit (.ended k))

/-- What the section does to the event. -/
def sectionStep (v : Event.State) (f : ℕ) : Section → Option Event.State
  | .set => Event.step cfg.n v (.set f)
  | .clear => Event.step cfg.n v (.clear f)
  | .wait => Event.fiberStep v f

/-- The next step of an operation of the event `e`. -/
@[grind =]
def eventStep (x : Shared) (f : ℕ) (e : Ev) (q : Pc) : Spot → Option (Shared × Pc)
  | .call =>
    (Event.step cfg.n (x.events e) (.wait f false)).map fun v =>
      (x.setEvent e v, .event e .outside q)
  | .lock a =>
    match x.locks e with
    | none => some (x.setLock e (some f), .event e (.locked a) q)
    | some _ => some (x, .event e (.lock a) q)
  | .locked a =>
    (sectionStep cfg (x.events e) f a).map fun v => (x.setEvent e v, .event e .unlock q)
  | .unlock => some (x.setLock e none, .event e .outside q)
  | .outside =>
    match (x.events e).pc f with
    | .idle | .returned _ _ => some (x, q)
    | .enrolling _ _ | .enrollAgain _ _ | .leaving _ _ => some (x, .event e (.lock .wait) q)
    | _ => (Event.fiberStep (x.events e) f).map fun v => (x.setEvent e v, .event e .outside q)

/-- The next step of a fiber outside of the code that the executor was given. -/
@[grind =]
def fiberStep (x : Shared) (f : ℕ) : Pc → Option (Shared × Pc)
  | .unborn | .code _ | .spawning _ _ | .cancelling _ (_ :: _) _ | .ended _ => none
  | .submit c => some (x, if x.shutdown then .code c else .submitBroken c)
  | .submitBroken c => some (x, if x.broken then .code c else .acquire (.submit c))
  | .cancelling c [] wait => some (x, if wait then .event .idle .call (.code c) else .code c)
  | .start k =>
    (Semaphore.step x.sem (.acquire f true false true)).map fun m =>
      ({ x with sem := m }, .acquiring k)
  | .acquiring k =>
    match x.sem.pc f with
    | .returned _ => some (x, .notify k)
    | _ => (Semaphore.callerStep x.sem f).map fun m => ({ x with sem := m }, .acquiring k)
  | .notify k =>
    match x.fut k with
    | .pending => some (x.setFut k .running, .enter k)
    | .cancelled => some (x.setFut k .notified, .release k)
    | _ => some (x, .release k)
  | .enter k =>
    if cfg.hasInit = false then some (x, .code (.callable k))
    else if (x.events .initDone).flag then some (x, .checkBroken k)
    else some (x, .acquire (.init k))
  | .checkBroken k => some (x, if x.broken then .resolve k else .code (.callable k))
  | .resolve k =>
    match x.fut k with
    | .pending | .running => some (x.setFut k .finished, .release k)
    | _ => some (x, .release k)
  | .release k =>
    (Semaphore.step x.sem (.release f 1)).map fun m => ({ x with sem := m }, .releasing k)
  | .releasing k =>
    match x.sem.pc f with
    | .returned _ => some (x, .acquire (.taskDone k))
    | _ => (Semaphore.callerStep x.sem f).map fun m => ({ x with sem := m }, .releasing k)
  -- the thread blocks while somebody has the lock
  | .acquire b => if x.guard = none then some ({ x with guard := some f }, .body b) else none
  | .body b => some (blockStep x b)
  | .exit q => some ({ x with guard := none }, q)
  | .event e p q => eventStep cfg x f e q p

inductive Action
  | submit (f : ℕ)
  | cancel (f k : ℕ)
  | shutdown (f : ℕ) (wait cancelFutures : Bool)
  /-- the loop of `shutdown` takes the futures in any order -/
  | cancelNext (f k : ℕ)
  | spawn (f g h : ℕ)
  | spawnFails (f : ℕ)
  | fiber (f : ℕ)
  /-- the initializer or the callable returns or raises -/
  | ends (f : ℕ) (ok : Bool)
  /-- the code that is not the executor's yields -/
  | yield (f : ℕ)
  /-- a park returns, because the fiber was woken or for no reason -/
  | unpark (f h : ℕ) (woken : Bool)
  | schedule (f h : ℕ)

/-- The fiber is in code of the user, in the semaphore, in a future or in the spawn. -/
@[grind =]
def Pc.foreign : Pc → Bool
  | .code _ | .spawning _ _ | .cancelling _ _ _ | .start _ | .acquiring _ | .notify _ | .resolve _
  | .release _ | .releasing _ => true
  | _ => false

/-- The fiber is at the `try_lock` of an event whose guard is taken. -/
def Shared.contended (x : Shared) : Pc → Bool
  | .event e (.lock _) _ => (x.locks e).isSome
  | _ => false

/-- The fiber has parked or ended. -/
@[grind =]
def Shared.off (x : Shared) (f : ℕ) : Pc → Bool
  | .event e .outside _ =>
    match (x.events e).pc f with
    | .parked _ _ => true
    | _ => false
  | .acquiring _ =>
    match x.sem.pc f with
    | .parked _ _ => true
    | _ => false
  | .ended _ => true
  | _ => false

namespace State

variable (s : State) (f : ℕ)

def runs : Bool :=
  match s.place f with
  | .running _ => true
  | _ => false

/-- The hub has a fiber. -/
def busy (h : ℕ) : Bool := (List.range cfg.n).any fun g => s.place g == .running h

def goto (r : Shared × Pc) : State := { r.1 with pc := Function.update s.pc f r.2, place := s.place }

def move (p : Place) : State := { s with place := Function.update s.place f p }

/-- What becomes of the fiber of the hub `h` after its step. -/
def after (h : ℕ) (r : Shared × Pc) : Place :=
  if s.contended (s.pc f) then .ready h else if r.1.off f r.2 then .parked else .running h

end State

/-- The park of a fiber returns. -/
def unparked (x : Shared) (f : ℕ) (woken : Bool) : Pc → Option Shared
  | .event e .outside _ =>
    (Event.step cfg.n (x.events e) (if woken then .resume f else .spurious f)).map (x.setEvent e)
  | .acquiring _ =>
    (Semaphore.step x.sem (if woken then .resume f else .spurious f)).map fun m =>
      { x with sem := m }
  | _ => none

variable (hubs : ℕ)

@[grind =]
def step (s : State) : Action → Option State
  | .submit f =>
    match s.runs f, s.pc f with
    | true, .code c => some (s.goto f (s.toShared, .submit c))
    | _, _ => none
  | .cancel f k =>
    match s.runs f, s.pc f with
    | true, .code c => if k < s.next then some (s.goto f (s.cancel k, .code c)) else none
    | _, _ => none
  | .shutdown f wait cancelFutures =>
    match s.runs f, s.pc f with
    | true, .code c => some (s.goto f (s.toShared, .acquire (.shutdown c wait cancelFutures)))
    | _, _ => none
  | .cancelNext f k =>
    match s.runs f, s.pc f with
    | true, .cancelling c ks wait =>
      if k ∈ ks then some (s.goto f (s.cancel k, .cancelling c (ks.erase k) wait)) else none
    | _, _ => none
  | .spawn f g h =>
    match s.runs f, s.pc f with
    | true, .spawning c k =>
      if g < cfg.n ∧ s.pc g = .unborn ∧ h < hubs then
        some (((s.goto f (s.toShared, .code c)).goto g (s.toShared, .start k)).move g (.ready h))
      else none
    | _, _ => none
  | .spawnFails f =>
    match s.runs f, s.pc f with
    | true, .spawning c _ => some (s.goto f (s.toShared, .code c))
    | _, _ => none
  | .fiber f =>
    match s.place f with
    | .running h =>
      (fiberStep cfg s.toShared f (s.pc f)).map fun r => (s.goto f r).move f (s.after f h r)
    | _ => none
  | .ends f ok =>
    match s.runs f, s.pc f with
    | true, .code (.initializer k) =>
      some (s.goto f (s.toShared,
        if ok then .event .initDone (.lock .set) (.code (.callable k)) else .acquire (.broken k)))
    | true, .code (.callable k) => some (s.goto f (s.toShared, .resolve k))
    | _, _ => none
  | .yield f =>
    match s.place f with
    | .running h => if (s.pc f).foreign then some (s.move f (.ready h)) else none
    | _ => none
  | .unpark f h woken =>
    if s.place f = .parked ∧ h < hubs then
      (unparked cfg s.toShared f woken (s.pc f)).map fun x => (s.goto f (x, s.pc f)).move f (.ready h)
    else none
  | .schedule f h =>
    match s.place f with
    | .ready _ => if h < hubs ∧ s.busy cfg h = false then some (s.move f (.running h)) else none
    | _ => none

/-- `__init__`, with the fibers that exist, each in the queue of a hub. -/
def start (home : ℕ → Option ℕ) : State where
  shutdown := false
  broken := false
  initStarted := false
  pending := []
  fut _ := .pending
  next := 0
  sem := Semaphore.init cfg.maxWorkers false
  events e := { Event.init with flag := e == .idle }
  guard := none
  locks _ := none
  pc f := if f < cfg.n ∧ (home f).isSome then .code .user else .unborn
  place f := if f < cfg.n then (home f).elim .parked .ready else .parked

def system : System State Action where
  init s := ∃ home : ℕ → Option ℕ, (∀ f, ∀ h ∈ home f, h < hubs) ∧ s = start cfg home
  step := step cfg hubs

/-! ## What it promises -/

/-- The holder of `_guard` runs. So no hub blocks on `_guard` while the holder is in its queue. -/
structure Safe (s : State) : Prop where
  running : ∀ f, s.guard = some f → ∃ h, s.place f = .running h
  unblocked : ∀ f g b h, s.place f = .running h → s.pc f = .acquire b → s.guard = some g →
    s.place g ≠ .ready h

/-- The holder of `_guard` does not find the guard of an event taken. -/
def Calm (s : State) : Action → Prop
  | .fiber f => ¬(s.guard = some f ∧ s.contended (s.pc f) = true)
  | _ => True

instance (s : State) (a : Action) : Decidable (Calm s a) := by
  cases a <;> unfold Calm <;> infer_instance

/-! ## Who has which lock -/

/-- The fiber holds `_guard`. -/
@[grind =]
def Pc.holds : Pc → Bool
  | .body _ | .exit _ => true
  | .event _ _ q => q.holds
  | _ => false

/-- The fiber holds the guard of the event. -/
@[grind =]
def Pc.locks (e : Ev) : Pc → Bool
  | .event d (.locked _) _ | .event d .unlock _ => d == e
  | _ => false

def Pc.isEvent : Pc → Bool
  | .event _ _ _ => true
  | _ => false

/-- A block is not left into another one, nor an operation of an event into one. -/
def Pc.Fits : Pc → Prop
  | .exit q => q.holds = false ∧ (∀ e, q.locks e = false) ∧ q.Fits
  | .event _ _ q => q.isEvent = false ∧ q.Fits
  | _ => True

/-- The fibers of `b` are the owner. -/
def Owns (o : Option ℕ) (b : ℕ → Bool) : Prop := ∀ f, o = some f ↔ b f = true

/-- What a step of the fiber `f` does to a lock. -/
inductive Passes (f : ℕ) (o o' : Option ℕ) (b b' : Bool) : Prop
  | keep (h : o' = o) (hb : b' = b)
  | take (h : o = none) (h' : o' = some f) (hb : b' = true)
  | drop (hb : b = true) (h' : o' = none) (hb' : b' = false)

theorem Owns.passes {o o' : Option ℕ} {b b' : ℕ → Bool} {f : ℕ} (h : Owns o b)
    (hp : Passes f o o' (b f) (b' f)) (hb : ∀ g, g ≠ f → b' g = b g) : Owns o' b' := by
  intro g
  by_cases hg : g = f
  · subst hg
    cases hp with
    | keep ho hb => rw [ho, hb, h g]
    | take ho ho' hb => simp [ho', hb]
    | drop hb ho' hb' => simp [ho', hb']
  · rw [hb g hg]
    cases hp with
    | keep ho _ => rw [ho, h g]
    | take ho ho' _ =>
      rw [ho', ← h g, ho]
      simp [Ne.symm hg]
    | drop hf ho' _ =>
      rw [ho', ← h g, (h f).mpr hf]
      simp [Ne.symm hg]

/-- In a `wait`. -/
@[grind =]
def inWait : Event.Pc → Bool
  | .idle | .returned _ _ | .collecting _ _ | .waking _ => false
  | _ => true

/-- Under `_guard` an event is set or cleared and not waited for. -/
def Sets (x : Shared) (f : ℕ) : Pc → Prop
  | .event _ .call q | .event _ (.lock .wait) q | .event _ (.locked .wait) q => q.holds = false
  | .event e .unlock q | .event e .outside q =>
    q.holds = true → inWait ((x.events e).pc f) = false
  | _ => True

/-- What a step of a fiber from `q` to `q'` comes to for the others. -/
structure Moves (x x' : Shared) (f : ℕ) (q q' : Pc) : Prop where
  fits : q'.Fits
  sets : Sets x' f q'
  guard : Passes f x.guard x'.guard q.holds q'.holds
  locks : ∀ e, Passes f (x.locks e) (x'.locks e) (q.locks e) (q'.locks e)
  others : ∀ e g, g ≠ f → (x'.events e).pc g = (x.events e).pc g

variable {cfg hubs} {s t : State} {x x' : Shared} {f : ℕ} {q q' : Pc}

/-- A step outside of the blocks and of the events. -/
theorem Moves.plain (hq : q.holds = false ∧ q.isEvent = false) (hfits : q'.Fits)
    (hq' : q'.holds = false) (hlocks : ∀ e, q'.locks e = false) (hsets : Sets x' f q')
    (hguard : x'.guard = x.guard) (hl : x'.locks = x.locks) (he : x'.events = x.events) :
    Moves x x' f q q' where
  fits := hfits
  sets := hsets
  guard := .keep hguard (hq'.trans hq.1.symm)
  locks e := by
    have hnot : q.locks e = false := by
      cases q with
      | event => cases hq.2
      | _ => rfl
    exact .keep (by rw [hl]) ((hlocks e).trans hnot.symm)
  others e g _ := by rw [he]

variable {e : Ev} {v : Event.State} {a : Action}

theorem Pc.locks_of_not_event (h : q.isEvent = false) : q.locks e = false := by
  cases q with
  | event => cases h
  | _ => rfl

theorem sets_of_not_event (h : q.isEvent = false) : Sets x f q := by
  cases q with
  | event => cases h
  | _ => trivial

theorem sets_of_not_holds (h : q.holds = false) : Sets x f q := by
  cases q with
  | event e p q =>
    cases p with
    | call => exact h
    | lock a | locked a => cases a <;> trivial
    | unlock | outside => exact fun hq => absurd (h.symm.trans hq) (by rintro ⟨⟩)
  | _ => trivial

/-! ## The steps in an event -/

/-- A step of the fiber in the event moves no other one. -/
theorem event_others {w : Event.State} (h : Event.fiberStep v f = some w) :
    ∀ g, g ≠ f → w.pc g = v.pc g := by
  intro g hg
  unfold Event.fiberStep at h
  repeat' split at h
  all_goals
    cases h
    try exact update_of_ne hg _ _

/-- The rest of a `set` does not wait. -/
theorem event_sets {w : Event.State} (h : Event.fiberStep v f = some w)
    (hv : inWait (v.pc f) = false) : inWait (w.pc f) = false := by
  unfold Event.fiberStep at h
  split at h
  any_goals
    rename_i hpc
    rw [hpc] at hv
    cases hv
  all_goals cases h
  all_goals simp [Event.State.goto, inWait]

/-- A section moves no other fiber, and under `_guard` it is not one of `wait`. -/
theorem sectionStep_spec {w : Event.State} {a : Section} (h : sectionStep cfg v f a = some w) :
    (∀ g, g ≠ f → w.pc g = v.pc g) ∧ (a ≠ .wait → inWait (w.pc f) = false) := by
  cases a with
  | wait => exact ⟨event_others h, fun hne => absurd rfl hne⟩
  | clear =>
    obtain ⟨-, h⟩ := Option.ite_none_right_eq_some.mp h
    cases h
    refine ⟨fun g hg => update_of_ne hg _ _, fun _ => ?_⟩
    simp [Event.State.goto, inWait]
  | set =>
    obtain ⟨-, h⟩ := Option.ite_none_right_eq_some.mp h
    split at h
    · cases h
      refine ⟨fun g hg => update_of_ne hg _ _, fun _ => ?_⟩
      simp [Event.State.goto, inWait]
    · cases h
      refine ⟨fun g hg => update_of_ne hg _ _, fun _ => ?_⟩
      simp [Event.State.goto, inWait]

theorem setEvent_others
    (h : ∀ g, g ≠ f → v.pc g = (x.events e).pc g) (d : Ev) (g : ℕ) (hg : g ≠ f) :
    ((x.setEvent e v).events d).pc g = (x.events d).pc g := by
  by_cases hd : d = e
  · subst hd
    simp only [Shared.setEvent, update_self]
    exact h g hg
  · simp only [Shared.setEvent, update_of_ne hd]

/-- A step within an operation that changes nothing but the event. -/
theorem Moves.event {p p' : Spot} (hq : (Pc.event e p q).Fits)
    (hv : ∀ g, g ≠ f → v.pc g = (x.events e).pc g) (hsets : Sets (x.setEvent e v) f (.event e p' q))
    (hlocks : ∀ d, (Pc.event e p' q).locks d = (Pc.event e p q).locks d) :
    Moves x (x.setEvent e v) f (.event e p q) (.event e p' q) where
  fits := hq
  sets := hsets
  guard := .keep rfl rfl
  locks d := .keep rfl (hlocks d)
  others := setEvent_others hv

theorem setEvent_self : (x.setEvent e v).events e = v :=
  update_self _ _ _

theorem eventStep_moves {p : Spot} (hq : (Pc.event e p q).Fits)
    (hs : Sets x f (.event e p q)) (h : eventStep cfg x f e q p = some (x', q')) :
    Moves x x' f (.event e p q) q' := by
  cases p with
  | call =>
    obtain ⟨v, hv, h⟩ := Option.map_eq_some_iff.mp h
    obtain ⟨-, hv⟩ := Option.ite_none_right_eq_some.mp hv
    cases h
    cases hv
    refine .event hq (fun g hg => update_of_ne hg _ _) ?_ fun _ => rfl
    exact fun hold => absurd (hs.symm.trans hold) (by rintro ⟨⟩)
  | lock a =>
    simp only [eventStep] at h
    cases hl : x.locks e with
    | some g =>
      rw [hl] at h
      cases h
      exact ⟨hq, hs, .keep rfl rfl, fun _ => .keep rfl rfl, fun _ _ _ => rfl⟩
    | none =>
      rw [hl] at h
      cases h
      refine ⟨hq, ?_, .keep rfl rfl, fun d => ?_, fun _ _ _ => rfl⟩
      · cases a <;> exact hs
      · by_cases hd : d = e
        · subst hd
          exact .take hl (update_self _ _ _) (by simp [Pc.locks])
        · exact .keep (update_of_ne hd _ _) (by simp [Pc.locks, Ne.symm hd])
  | locked a =>
    obtain ⟨v, hv, h⟩ := Option.map_eq_some_iff.mp h
    cases h
    obtain ⟨hothers, hwait⟩ := sectionStep_spec hv
    refine .event hq hothers (fun hold => ?_) fun _ => rfl
    rw [setEvent_self]
    refine hwait fun ha => ?_
    subst ha
    exact absurd (hs.symm.trans hold) (by rintro ⟨⟩)
  | unlock =>
    cases h
    refine ⟨hq, hs, .keep rfl rfl, fun d => ?_, fun _ _ _ => rfl⟩
    by_cases hd : d = e
    · subst hd
      exact .drop (by simp [Pc.locks]) (update_self _ _ _) rfl
    · exact .keep (update_of_ne hd _ _) (by simp [Pc.locks, Ne.symm hd])
  | outside =>
    -- the operation is over, its fiber has to take the guard, or it goes on without
    have hover : Moves x x f (.event e .outside q) q :=
      ⟨hq.2, sets_of_not_event hq.1, .keep rfl rfl,
        fun _ => .keep rfl (Pc.locks_of_not_event hq.1), fun _ _ _ => rfl⟩
    have hlock (hw : inWait ((x.events e).pc f) = true) :
        Moves x x f (.event e .outside q) (.event e (.lock .wait) q) := by
      refine ⟨hq, ?_, .keep rfl rfl, fun _ => .keep rfl rfl, fun _ _ _ => rfl⟩
      change q.holds = false
      by_contra hold
      rw [hs (by simpa using hold)] at hw
      cases hw
    have hgo {v : Event.State} (hv : Event.fiberStep (x.events e) f = some v) :
        Moves x (x.setEvent e v) f (.event e .outside q) (.event e .outside q) := by
      refine .event hq (event_others hv) (fun hold => ?_) fun _ => rfl
      rw [setEvent_self]
      exact event_sets hv (hs hold)
    simp only [eventStep] at h
    split at h
    · cases h
      exact hover
    · cases h
      exact hover
    · rename_i hpc
      cases h
      exact hlock (by rw [hpc]; rfl)
    · rename_i hpc
      cases h
      exact hlock (by rw [hpc]; rfl)
    · rename_i hpc
      cases h
      exact hlock (by rw [hpc]; rfl)
    · obtain ⟨v, hv, h⟩ := Option.map_eq_some_iff.mp h
      cases h
      exact hgo hv

/-- A block ends at its `exit` or calls an event, and changes no lock. -/
theorem blockStep_moves (x : Shared) (f : ℕ) (b : Block) :
    Moves x (blockStep x b).1 f (.body b) (blockStep x b).2 := by
  have hexit {y : Shared} (hg : y.guard = x.guard) (hl : y.locks = x.locks)
      (he : y.events = x.events) (q : Pc) (hq : q.holds = false) (hq' : ∀ e, q.locks e = false)
      (hfits : q.Fits) : Moves x y f (.body b) (.exit q) :=
    ⟨⟨hq, hq', hfits⟩, trivial, .keep hg rfl, fun e => .keep (by rw [hl]) rfl,
      fun e g _ => by rw [he]⟩
  have hevent {y : Shared} (hg : y.guard = x.guard) (hl : y.locks = x.locks)
      (he : y.events = x.events) (a : Section) (q : Pc) (ha : a ≠ .wait) (hq : q.holds = false)
      (hq' : ∀ e, q.locks e = false) (hfits : q.Fits) :
      Moves x y f (.body b) (.event .idle (.lock a) (.exit q)) := by
    refine ⟨⟨rfl, hq, hq', hfits⟩, ?_, .keep hg rfl, fun e => .keep (by rw [hl]) rfl,
      fun e g _ => by rw [he]⟩
    cases a <;> trivial
  cases b with
  | submit c =>
    simp only [blockStep]
    split
    · exact hexit rfl rfl rfl _ rfl (fun _ => rfl) trivial
    · split
      · exact hexit rfl rfl rfl _ rfl (fun _ => rfl) trivial
      · exact hevent (y := { x with
          pending := x.pending ++ [x.next], next := x.next + 1
          fut := update x.fut x.next .pending })
          rfl rfl rfl .clear (.spawning c x.next) (by rintro ⟨⟩) rfl (fun _ => rfl) trivial
  | shutdown c wait cancelFutures =>
    exact hexit (y := { x with shutdown := true }) rfl rfl rfl
      (.cancelling c (if cancelFutures then x.pending else []) wait) rfl (fun _ => rfl) trivial
  | init k =>
    simp only [blockStep]
    split
    · exact hexit rfl rfl rfl _ rfl (fun _ => rfl) trivial
    · split
      · exact hexit rfl rfl rfl _ rfl (fun _ => rfl) trivial
      · split
        · exact hexit rfl rfl rfl (.event .initDone .call (.checkBroken k)) rfl (fun _ => rfl)
            ⟨rfl, trivial⟩
        · exact hexit (y := { x with initStarted := true }) rfl rfl rfl (.code (.initializer k)) rfl
            (fun _ => rfl) trivial
  | broken k =>
    exact hexit (y := { x with broken := true }) rfl rfl rfl
      (.event .initDone (.lock .set) (.resolve k)) rfl (fun _ => rfl) ⟨rfl, trivial⟩
  | taskDone k =>
    simp only [blockStep]
    split
    · exact hevent (y := { x with pending := x.pending.erase k }) rfl rfl rfl .set (.ended k) (by rintro ⟨⟩)
        rfl (fun _ => rfl) trivial
    · exact hexit (y := { x with pending := x.pending.erase k }) rfl rfl rfl (.ended k) rfl
        (fun _ => rfl) trivial

theorem fiberStep_moves (hq : q.Fits) (hs : Sets x f q) (h : fiberStep cfg x f q = some (x', q')) :
    Moves x x' f q q' := by
  have hplain (hq : q.holds = false ∧ q.isEvent = false) {y : Shared} {r : Pc}
      (hr : r.holds = false ∧ r.isEvent = false) (hfits : r.Fits) (hg : y.guard = x.guard)
      (hl : y.locks = x.locks) (he : y.events = x.events) : Moves x y f q r :=
    .plain hq hfits hr.1 (fun _ => Pc.locks_of_not_event hr.2) (sets_of_not_event hr.2) hg hl he
  cases q with
  | unborn | code | spawning | ended => cases h
  | submit c =>
    cases h
    split <;> exact hplain ⟨rfl, rfl⟩ ⟨rfl, rfl⟩ trivial rfl rfl rfl
  | submitBroken c =>
    cases h
    split <;> exact hplain ⟨rfl, rfl⟩ ⟨rfl, rfl⟩ trivial rfl rfl rfl
  | cancelling c ks wait =>
    cases ks with
    | cons k ks => cases h
    | nil =>
      cases h
      split
      · exact .plain ⟨rfl, rfl⟩ ⟨rfl, trivial⟩ rfl (fun _ => rfl) rfl rfl rfl rfl
      · exact hplain ⟨rfl, rfl⟩ ⟨rfl, rfl⟩ trivial rfl rfl rfl
  | start k | release k =>
    obtain ⟨m, -, h⟩ := Option.map_eq_some_iff.mp h
    cases h
    exact hplain ⟨rfl, rfl⟩ ⟨rfl, rfl⟩ trivial rfl rfl rfl
  | acquiring k | releasing k =>
    simp only [fiberStep] at h
    split at h
    · cases h
      exact hplain ⟨rfl, rfl⟩ ⟨rfl, rfl⟩ trivial rfl rfl rfl
    · obtain ⟨m, -, h⟩ := Option.map_eq_some_iff.mp h
      cases h
      exact hplain ⟨rfl, rfl⟩ ⟨rfl, rfl⟩ trivial rfl rfl rfl
  | notify k | resolve k =>
    simp only [fiberStep] at h
    split at h <;> cases h <;> exact hplain ⟨rfl, rfl⟩ ⟨rfl, rfl⟩ trivial rfl rfl rfl
  | enter k =>
    simp only [fiberStep] at h
    split at h
    · cases h
      exact hplain ⟨rfl, rfl⟩ ⟨rfl, rfl⟩ trivial rfl rfl rfl
    · split at h <;> cases h <;> exact hplain ⟨rfl, rfl⟩ ⟨rfl, rfl⟩ trivial rfl rfl rfl
  | checkBroken k =>
    cases h
    split <;> exact hplain ⟨rfl, rfl⟩ ⟨rfl, rfl⟩ trivial rfl rfl rfl
  | acquire b =>
    obtain ⟨hfree, h⟩ := Option.ite_none_right_eq_some.mp h
    cases h
    exact ⟨trivial, trivial, .take hfree rfl rfl, fun _ => .keep rfl rfl, fun _ _ _ => rfl⟩
  | body b =>
    have hb := blockStep_moves x f b
    rw [Option.some.inj h] at hb
    exact hb
  | exit r =>
    cases h
    exact ⟨hq.2.2, sets_of_not_holds hq.1, .drop rfl rfl hq.1, fun e => .keep rfl (hq.2.1 e),
      fun _ _ _ => rfl⟩
  | event e p r => exact eventStep_moves hq hs h

/-! ## The steps of the system -/

/-- A step of one fiber, which is then at `p`. -/
structure Turn (cfg : Config) (s t : State) (a : Action) (f : ℕ) (x : Shared) (q : Pc)
    (p : Place) : Prop where
  eq : t = (s.goto f (x, q)).move f p
  born : cfg.n ≤ f → s.pc f ≠ .unborn
  moves : Moves s.toShared x f (s.pc f) q
  locks : ∀ e, q.locks e = true → ∃ h, p = .running h
  stays : ∀ h, p = .running h → s.place f = .running h
  holds : ((s.pc f).holds = true → s.guard = some f) → Calm s a → q.holds = true →
    ∃ h, p = .running h

theorem State.move_place (s : State) (f : ℕ) : s.move f (s.place f) = s := by
  simp [State.move]

theorem State.goto_self (s : State) (f : ℕ) : s.goto f (s.toShared, s.pc f) = s := by
  simp [State.goto]

/-- A step that begins and ends in code that is not under a lock. -/
theorem Turn.plain (hpc : s.pc f = q') (hborn : q' ≠ .unborn)
    (hq' : q'.holds = false ∧ q'.isEvent = false) (hq : q.holds = false)
    (hlocks : ∀ e, q.locks e = false) (hfits : q.Fits) (hguard : x.guard = s.guard)
    (hl : x.locks = s.locks) (he : x.events = s.events) :
    Turn cfg s (s.goto f (x, q)) a f x q (s.place f) where
  eq := ((s.goto f (x, q)).move_place f).symm
  born _ := hpc ▸ hborn
  moves := .plain (hpc ▸ hq') hfits hq hlocks (sets_of_not_holds hq) hguard hl he
  locks e h := absurd ((hlocks e).symm.trans h) (by rintro ⟨⟩)
  stays _ h := h
  holds _ _ h := absurd (hq.symm.trans h) (by rintro ⟨⟩)

theorem Pc.locks_running (h : q'.locks e = true) (x : Shared) : x.off f q' = false := by
  cases q' with
  | event d p r =>
    cases p with
    | locked a => rfl
    | unlock => rfl
    | call | lock | outside => cases h
  | _ => cases h

/-- Under `_guard` nobody parks. -/
theorem Moves.not_off (h : Moves x x' f q q') (hq : q'.holds = true) : x'.off f q' = false := by
  cases q' with
  | event e p r =>
    cases p with
    | outside =>
      have hw := h.sets hq
      simp only [Shared.off]
      split
      · rename_i hpc
        rw [hpc] at hw
        cases hw
      · rfl
    | call | lock | locked | unlock => rfl
  | _ => first | rfl | cases hq

/-- A fiber at the taken guard of an event stays there. -/
theorem fiberStep_contended (hc : x.contended q = true) (h : fiberStep cfg x f q = some (x', q')) :
    x' = x ∧ q' = q ∧ ∀ e, q.locks e = false := by
  cases q with
  | event e p r =>
    cases p with
    | lock a =>
      obtain ⟨g, hg⟩ := Option.isSome_iff_exists.mp hc
      simp only [fiberStep, eventStep, hg] at h
      cases h
      exact ⟨rfl, rfl, fun _ => rfl⟩
    | call | locked | unlock | outside => cases hc
  | _ => cases hc

theorem turn_fiber {h : ℕ} (hfits : (s.pc f).Fits) (hsets : Sets s.toShared f (s.pc f))
    (hplace : s.place f = .running h)
    (hstep : fiberStep cfg s.toShared f (s.pc f) = some (x, q)) :
    Turn cfg s ((s.goto f (x, q)).move f (s.after f h (x, q))) (.fiber f) f x q
      (s.after f h (x, q)) := by
  have hm := fiberStep_moves hfits hsets hstep
  refine ⟨rfl, fun _ hpc => ?_, hm, fun e hl => ?_, fun h' hp => ?_, fun hown hcalm hhold => ?_⟩
  · rw [hpc] at hstep
    cases hstep
  · refine ⟨h, ?_⟩
    unfold State.after
    split
    · rename_i hc
      obtain ⟨-, rfl, hno⟩ := fiberStep_contended hc hstep
      rw [hno e] at hl
      cases hl
    · rw [if_neg (by rw [Pc.locks_running hl]; simp)]
  · unfold State.after at hp
    split at hp
    · cases hp
    · split at hp
      · cases hp
      · cases hp
        exact hplace
  · refine ⟨h, ?_⟩
    unfold State.after
    split
    · rename_i hc
      obtain ⟨-, rfl, -⟩ := fiberStep_contended hc hstep
      exact absurd ⟨hown hhold, hc⟩ hcalm
    · rw [if_neg (by rw [hm.not_off hhold]; simp)]

theorem turn_unpark {h : ℕ} {woken : Bool} (hfits : (s.pc f).Fits)
    (hsets : Sets s.toShared f (s.pc f))
    (hx : unparked cfg s.toShared f woken (s.pc f) = some x) (a : Action) :
    Turn cfg s ((s.goto f (x, s.pc f)).move f (.ready h)) a f x (s.pc f) (.ready h) := by
  cases hpc : s.pc f with
  | event e p r =>
    rw [hpc] at hx hfits hsets
    cases p with
    | outside =>
      obtain ⟨v, hv, rfl⟩ := Option.map_eq_some_iff.mp hx
      -- a fiber that parks waits, so it does not hold `_guard`
      have hspec : inWait ((s.events e).pc f) = true ∧
          ∀ g, g ≠ f → v.pc g = (s.events e).pc g := by
        cases hq : (s.events e).pc f with
        | parked n timed =>
          refine ⟨rfl, fun g hg => ?_⟩
          cases woken with
          | true =>
            simp only [Event.step, if_true, hq] at hv
            obtain ⟨-, h⟩ := Option.ite_none_right_eq_some.mp hv
            cases h
            exact update_of_ne hg _ _
          | false =>
            simp only [Event.step, Bool.false_eq_true, if_false, hq] at hv
            cases hv
            exact update_of_ne hg _ _
        | _ => cases woken <;> simp [Event.step, hq] at hv
      have hhold : r.holds = false := by
        by_contra hr
        have := hsets (by simpa using hr)
        rw [hspec.1] at this
        cases this
      refine ⟨rfl, fun _ => by simp [hpc], ?_, by rintro _ ⟨⟩, by rintro _ ⟨⟩, fun _ _ hq => ?_⟩
      · rw [hpc]
        exact .event hfits hspec.2 (fun hq => absurd (hhold.symm.trans hq) (by rintro ⟨⟩)) fun _ => rfl
      · exact absurd (hhold.symm.trans hq) (by rintro ⟨⟩)
    | call | lock | locked | unlock => cases hx
  | acquiring k =>
    rw [hpc] at hx
    obtain ⟨m, -, rfl⟩ := Option.map_eq_some_iff.mp hx
    refine ⟨rfl, fun _ => by simp [hpc], ?_, by rintro _ ⟨⟩, by rintro _ ⟨⟩, by rintro _ _ ⟨⟩⟩
    rw [hpc]
    exact .plain ⟨rfl, rfl⟩ trivial rfl (fun _ => rfl) trivial rfl rfl rfl
  | _ =>
    rw [hpc] at hx
    cases hx

/-- What the steps can do. -/
theorem step_cases (hfits : ∀ f, (s.pc f).Fits)
    (hsets : ∀ f, Sets s.toShared f (s.pc f)) (h : step cfg hubs s a = some t) :
    (∃ f x q p, Turn cfg s t a f x q p) ∨
    (∃ f c, (∃ c', s.place f = .ready c') ∧ c < hubs ∧ s.busy cfg c = false ∧
      t = s.move f (.running c)) ∨
    ∃ u f q g k c, a = .spawn f g c ∧ Turn cfg s u a f s.toShared q (s.place f) ∧
      Turn cfg u t a g u.toShared (.start k) (.ready c) := by
  cases a with
  | submit f | shutdown f wait cancelFutures =>
    simp only [step] at h
    split at h
    · rename_i hpc
      cases h
      exact .inl ⟨f, _, _, _, .plain hpc (by rintro ⟨⟩) ⟨rfl, rfl⟩ rfl (fun _ => rfl) trivial rfl rfl rfl⟩
    · cases h
  | cancel f k =>
    simp only [step] at h
    split at h
    · rename_i hpc
      obtain ⟨-, h⟩ := Option.ite_none_right_eq_some.mp h
      cases h
      refine .inl ⟨f, _, _, _, .plain hpc (by rintro ⟨⟩) ⟨rfl, rfl⟩ rfl (fun _ => rfl) trivial ?_ ?_ ?_⟩
      all_goals
        unfold Shared.cancel
        split <;> rfl
    · cases h
  | cancelNext f k =>
    simp only [step] at h
    split at h
    · rename_i hpc
      obtain ⟨-, h⟩ := Option.ite_none_right_eq_some.mp h
      cases h
      refine .inl ⟨f, _, _, _, .plain hpc (by rintro ⟨⟩) ⟨rfl, rfl⟩ rfl (fun _ => rfl) trivial ?_ ?_ ?_⟩
      all_goals
        unfold Shared.cancel
        split <;> rfl
    · cases h
  | spawn f g c =>
    simp only [step] at h
    split at h
    · rename_i d k _ hpc
      obtain ⟨⟨hg, hborn, -⟩, h⟩ := Option.ite_none_right_eq_some.mp h
      cases h
      have hne : g ≠ f := by
        rintro rfl
        rw [hpc] at hborn
        cases hborn
      refine .inr (.inr ⟨s.goto f (s.toShared, .code d), f, _, g, k, c, rfl,
        .plain hpc (by rintro ⟨⟩) ⟨rfl, rfl⟩ rfl (fun _ => rfl) trivial rfl rfl rfl, ?_⟩)
      refine ⟨rfl, fun hn => absurd hg (Nat.not_lt.mpr hn), ?_, by rintro _ ⟨⟩, by rintro _ ⟨⟩, by rintro _ _ ⟨⟩⟩
      refine .plain ?_ trivial rfl (fun _ => rfl) trivial rfl rfl rfl
      simp only [State.goto, update_of_ne hne, hborn]
      exact ⟨rfl, rfl⟩
    · cases h
  | spawnFails f =>
    simp only [step] at h
    split at h
    · rename_i hpc
      cases h
      exact .inl ⟨f, _, _, _, .plain hpc (by rintro ⟨⟩) ⟨rfl, rfl⟩ rfl (fun _ => rfl) trivial rfl rfl rfl⟩
    · cases h
  | fiber f =>
    simp only [step] at h
    split at h
    · rename_i c hplace
      obtain ⟨⟨x, q⟩, hstep, h⟩ := Option.map_eq_some_iff.mp h
      cases h
      exact .inl ⟨f, x, q, _, turn_fiber (hfits f) (hsets f) hplace hstep⟩
    · cases h
  | ends f ok =>
    simp only [step] at h
    split at h
    · rename_i hpc
      cases h
      cases ok with
      | true =>
        exact .inl ⟨f, _, _, _, .plain hpc (by rintro ⟨⟩) ⟨rfl, rfl⟩ rfl (fun _ => rfl) ⟨rfl, trivial⟩ rfl
          rfl rfl⟩
      | false =>
        exact .inl ⟨f, _, _, _, .plain hpc (by rintro ⟨⟩) ⟨rfl, rfl⟩ rfl (fun _ => rfl) trivial rfl rfl rfl⟩
    · rename_i hpc
      cases h
      exact .inl ⟨f, _, _, _, .plain hpc (by rintro ⟨⟩) ⟨rfl, rfl⟩ rfl (fun _ => rfl) trivial rfl rfl rfl⟩
    · cases h
  | yield f =>
    simp only [step] at h
    split at h
    · rename_i c hplace
      obtain ⟨hforeign, h⟩ := Option.ite_none_right_eq_some.mp h
      cases h
      have hq : s.pc f ≠ .unborn ∧ (s.pc f).holds = false ∧ (s.pc f).isEvent = false := by
        cases hpc : s.pc f <;> simp_all [Pc.foreign, Pc.holds, Pc.isEvent]
      refine .inl ⟨f, s.toShared, s.pc f, .ready c, ?_, fun _ => hq.1, ?_, fun e hl => ?_, by rintro _ ⟨⟩,
        fun _ _ hh => ?_⟩
      · rw [s.goto_self]
      · exact .plain hq.2 (hfits f) hq.2.1 (fun _ => Pc.locks_of_not_event hq.2.2) (hsets f) rfl rfl
          rfl
      · rw [Pc.locks_of_not_event hq.2.2] at hl
        cases hl
      · rw [hq.2.1] at hh
        cases hh
    · cases h
  | unpark f c woken =>
    obtain ⟨-, h⟩ := Option.ite_none_right_eq_some.mp h
    obtain ⟨x, hx, h⟩ := Option.map_eq_some_iff.mp h
    cases h
    exact .inl ⟨f, x, s.pc f, _, turn_unpark (hfits f) (hsets f) hx _⟩
  | schedule f c =>
    simp only [step] at h
    split at h
    · rename_i c' hplace
      obtain ⟨⟨hc, hbusy⟩, h⟩ := Option.ite_none_right_eq_some.mp h
      cases h
      exact .inr (.inl ⟨f, c, ⟨c', hplace⟩, hc, hbusy, rfl⟩)
    · cases h

/-! ## The invariant -/

/-- The two kinds of locks are where the code of the fibers says, whoever holds the guard of an event
runs, and a hub has one fiber at a time. -/
structure Inv (cfg : Config) (hubs : ℕ) (s : State) : Prop where
  bound : ∀ f, cfg.n ≤ f → s.pc f = .unborn ∧ s.place f = .parked
  fits : ∀ f, (s.pc f).Fits
  sets : ∀ f, Sets s.toShared f (s.pc f)
  guard : Owns s.guard fun f => (s.pc f).holds
  locks : ∀ e, Owns (s.locks e) fun f => (s.pc f).locks e
  working : ∀ e f, (s.pc f).locks e = true → ∃ h, s.place f = .running h
  alone : ∀ f g h, s.place f = .running h → s.place g = .running h → f = g
  hub : ∀ f h, s.place f = .running h → h < hubs

theorem inv_start {home : ℕ → Option ℕ} : Inv cfg hubs (start cfg home) := by
  have hpc (f : ℕ) : (start cfg home).pc f = .code .user ∨ (start cfg home).pc f = .unborn := by
    simp only [start]
    split <;> simp
  have hplace (f h : ℕ) : (start cfg home).place f ≠ .running h := by
    simp only [start]
    split
    · cases home f <;> simp
    · simp
  have hnone (f : ℕ) : ((start cfg home).pc f).holds = false ∧ ((start cfg home).pc f).isEvent = false := by
    rcases hpc f with h | h <;> rw [h] <;> exact ⟨rfl, rfl⟩
  constructor
  case bound =>
    intro f hf
    simp [start, Nat.not_lt.mpr hf]
  case fits =>
    intro f
    rcases hpc f with h | h <;> rw [h] <;> trivial
  case sets => exact fun f => sets_of_not_event (hnone f).2
  case guard =>
    intro f
    exact iff_of_false (by rintro ⟨⟩) (by simp [(hnone f).1])
  case locks =>
    intro e f
    exact iff_of_false (by rintro ⟨⟩) (by simp [Pc.locks_of_not_event (hnone f).2])
  case working =>
    intro e f h
    rw [Pc.locks_of_not_event (hnone f).2] at h
    cases h
  case alone => exact fun f g h hf => absurd hf (hplace f h)
  case hub => exact fun f h hf => absurd hf (hplace f h)

/-- The fiber stays what it is for the others. -/
theorem Sets.of_events {g : ℕ} (h : Sets x g q) (he : ∀ e, (x'.events e).pc g = (x.events e).pc g) :
    Sets x' g q := by
  cases q with
  | event e p r =>
    cases p with
    | unlock | outside =>
      intro hr
      rw [he e]
      exact h hr
    | call => exact h
    | lock a | locked a => cases a <;> exact h
  | _ => trivial

theorem Inv.turn {p : Place} (h : Inv cfg hubs s) (ht : Turn cfg s t a f x q p) :
    Inv cfg hubs t := by
  obtain ⟨rfl, hborn, hm, hlocks, hstays, -⟩ := ht
  have hself : ((s.goto f (x, q)).move f p).pc f = q := update_self _ _ _
  have hother (g : ℕ) (hg : g ≠ f) : ((s.goto f (x, q)).move f p).pc g = s.pc g :=
    update_of_ne hg _ _
  have hplace : ((s.goto f (x, q)).move f p).place f = p := update_self _ _ _
  have hplaces (g : ℕ) (hg : g ≠ f) : ((s.goto f (x, q)).move f p).place g = s.place g :=
    update_of_ne hg _ _
  have hruns (g c : ℕ) (hg : ((s.goto f (x, q)).move f p).place g = .running c) :
      s.place g = .running c := by
    by_cases hgf : g = f
    · subst hgf
      rw [hplace] at hg
      exact hstays c hg
    · rwa [hplaces g hgf] at hg
  constructor
  case bound =>
    intro g hg
    have hgf : g ≠ f := by
      rintro rfl
      exact hborn hg (h.bound g hg).1
    rw [hother g hgf, hplaces g hgf]
    exact h.bound g hg
  case fits =>
    intro g
    by_cases hgf : g = f
    · subst hgf
      rw [hself]
      exact hm.fits
    · rw [hother g hgf]
      exact h.fits g
  case sets =>
    intro g
    by_cases hgf : g = f
    · subst hgf
      rw [hself]
      exact hm.sets
    · rw [hother g hgf]
      exact (h.sets g).of_events fun e => hm.others e g hgf
  case guard =>
    refine h.guard.passes (f := f) ?_ fun g hg => by rw [hother g hg]
    rw [hself]
    exact hm.guard
  case locks =>
    intro e
    refine (h.locks e).passes (f := f) ?_ fun g hg => by rw [hother g hg]
    rw [hself]
    exact hm.locks e
  case working =>
    intro e g hg
    by_cases hgf : g = f
    · subst hgf
      rw [hself] at hg
      rw [hplace]
      exact hlocks e hg
    · rw [hother g hgf] at hg
      rw [hplaces g hgf]
      exact h.working e g hg
  case alone => exact fun g g' c hg hg' => h.alone g g' c (hruns g c hg) (hruns g' c hg')
  case hub => exact fun g c hg => h.hub g c (hruns g c hg)

theorem Inv.schedule {c : ℕ} (h : Inv cfg hubs s) (hready : ∃ c', s.place f = .ready c')
    (hc : c < hubs) (hbusy : s.busy cfg c = false) : Inv cfg hubs (s.move f (.running c)) := by
  obtain ⟨c', hready⟩ := hready
  have hplace : (s.move f (.running c)).place f = .running c := update_self _ _ _
  have hplaces (g : ℕ) (hg : g ≠ f) : (s.move f (.running c)).place g = s.place g :=
    update_of_ne hg _ _
  have hfree (g : ℕ) : s.place g ≠ .running c := by
    intro hg
    have hlt : g < cfg.n := by
      by_contra hn
      rw [(h.bound g (Nat.not_lt.mp hn)).2] at hg
      cases hg
    simp only [State.busy, List.any_eq_false, List.mem_range] at hbusy
    exact hbusy g hlt (by simp [hg])
  refine ⟨fun g hg => ?_, h.fits, h.sets, h.guard, h.locks, fun e g hg => ?_, fun g g' d hg hg' => ?_,
    fun g d hg => ?_⟩
  · have hgf : g ≠ f := by
      rintro rfl
      rw [(h.bound g hg).2] at hready
      cases hready
    rw [hplaces g hgf]
    exact h.bound g hg
  · by_cases hgf : g = f
    · subst hgf
      exact ⟨c, hplace⟩
    · rw [hplaces g hgf]
      exact h.working e g hg
  · by_cases hgf : g = f <;> by_cases hgf' : g' = f
    · rw [hgf, hgf']
    · subst hgf
      rw [hplace] at hg
      cases hg
      rw [hplaces g' hgf'] at hg'
      exact absurd hg' (hfree g')
    · subst hgf'
      rw [hplace] at hg'
      cases hg'
      rw [hplaces g hgf] at hg
      exact absurd hg (hfree g)
    · rw [hplaces g hgf] at hg
      rw [hplaces g' hgf'] at hg'
      exact h.alone g g' d hg hg'
  · by_cases hgf : g = f
    · subst hgf
      rw [hplace] at hg
      cases hg
      exact hc
    · rw [hplaces g hgf] at hg
      exact h.hub g d hg

theorem Inv.step (h : Inv cfg hubs s) (hs : step cfg hubs s a = some t) :
    Inv cfg hubs t := by
  rcases step_cases h.fits h.sets hs with ⟨f, x, q, p, ht⟩ | ⟨f, c, hready, hc, hbusy, rfl⟩ |
    ⟨u, f, q, g, k, c, -, hu, ht⟩
  · exact h.turn ht
  · exact h.schedule hready hc hbusy
  · exact (h.turn hu).turn ht

theorem reachable_inv (h : Reachable (system cfg hubs) s) : Inv cfg hubs s :=
  h.invariant (by rintro s ⟨home, -, rfl⟩; exact inv_start) fun _ _ _ _ hi hs => hi.step hs

/-! ## The holder of the lock -/

/-- The holder of `_guard` runs. -/
def Held (s : State) : Prop := ∀ f, (s.pc f).holds = true → ∃ h, s.place f = .running h

theorem Held.turn {p : Place} (h : Held s) (hi : Inv cfg hubs s) (hcalm : Calm s a)
    (ht : Turn cfg s t a f x q p) : Held t := by
  intro g hg
  by_cases hgf : g = f
  · subst hgf
    have hholds := ht.holds (hi.guard g).mpr hcalm
    rw [ht.eq] at hg ⊢
    simp only [State.move, State.goto, update_self] at hg ⊢
    exact hholds hg
  · rw [ht.eq] at hg ⊢
    simp only [State.move, State.goto, update_of_ne hgf] at hg ⊢
    exact h g hg

theorem Held.step (h : Held s) (hi : Inv cfg hubs s) (hcalm : Calm s a)
    (hs : step cfg hubs s a = some t) : Held t := by
  rcases step_cases hi.fits hi.sets hs with ⟨f, x, q, p, ht⟩ | ⟨f, c, hready, hc, hbusy, rfl⟩ |
    ⟨u, f, q, g, k, c, rfl, hu, ht⟩
  · exact h.turn hi hcalm ht
  · intro g hg
    by_cases hgf : g = f
    · subst hgf
      exact ⟨c, update_self _ _ _⟩
    · obtain ⟨d, hd⟩ := h g hg
      exact ⟨d, (update_of_ne hgf _ _).trans hd⟩
  · have hcalm' : Calm u (.spawn f g c) := trivial
    exact (h.turn hi hcalm hu).turn (hi.turn hu) hcalm' ht

theorem safe_of_held (h : Held s) (hi : Inv cfg hubs s) : Safe s where
  running f hf := h f ((hi.guard f).mp hf)
  unblocked f g b c hf hpc hg hready := by
    obtain ⟨d, hd⟩ := h g ((hi.guard g).mp hg)
    rw [hready] at hd
    cases hd

theorem held_of_safe (h : Safe s) (hi : Inv cfg hubs s) : Held s := fun f hf =>
  h.running f ((hi.guard f).mpr hf)

def calmSystem (cfg : Config) (hubs : ℕ) : System State Action := (system cfg hubs).restrict Calm

theorem reachable_held (h : Reachable (calmSystem cfg hubs) s) : Held s := by
  induction h with
  | start hs =>
    obtain ⟨home, -, rfl⟩ := hs
    intro f hf
    have hi : Inv cfg hubs (start cfg home) := inv_start
    cases (hi.guard f).mpr hf
  | next hr hs ih =>
    obtain ⟨hcalm, hs⟩ := System.restrict_step.mp hs
    exact ih.step (reachable_inv hr.of_restrict) hcalm hs

/-- The branch that is left out suspends the holder. -/
theorem not_held_of_not_calm (hi : Inv cfg hubs s) (hcalm : ¬Calm s a)
    (hs : step cfg hubs s a = some t) : ¬Held t := by
  cases a with
  | fiber f =>
    obtain ⟨hguard, hc⟩ := not_not.mp hcalm
    simp only [step] at hs
    split at hs
    · rename_i c hplace
      obtain ⟨⟨x, q⟩, hstep, h⟩ := Option.map_eq_some_iff.mp hs
      cases h
      obtain ⟨rfl, rfl, -⟩ := fiberStep_contended hc hstep
      intro hheld
      obtain ⟨d, hd⟩ := hheld f (by
        simp only [State.move, State.goto, update_self]
        exact (hi.guard f).mp hguard)
      simp [State.move, State.after, hc] at hd
    · cases hs
  | _ => exact absurd trivial hcalm

/-- With one hub whoever holds the guard of an event is the fiber that runs. -/
theorem calm_of_one_hub (hi : Inv cfg hubs s) (hone : hubs ≤ 1)
    (hs : step cfg hubs s a = some t) : Calm s a := by
  cases a with
  | fiber f =>
    rintro ⟨-, hc⟩
    simp only [step] at hs
    split at hs
    · rename_i c hplace
      cases hpc : s.pc f with
      | event e p r =>
        rw [hpc] at hc
        cases p with
        | lock a =>
          obtain ⟨g, hg⟩ := Option.isSome_iff_exists.mp hc
          have hlocks : (s.pc g).locks e = true := (hi.locks e g).mp hg
          obtain ⟨d, hd⟩ := hi.working e g hlocks
          have hcd : c = d := by
            have := hi.hub f c hplace
            have := hi.hub g d hd
            omega
          subst hcd
          obtain rfl := hi.alone f g c hplace hd
          rw [hpc] at hlocks
          cases hlocks
        | call | locked | unlock | outside => cases hc
      | _ =>
        rw [hpc] at hc
        cases hc
    · cases hs
  | _ => trivial

theorem calm_reachable_of_one_hub (hone : hubs ≤ 1) (h : Reachable (system cfg hubs) s) :
    Reachable (calmSystem cfg hubs) s := by
  induction h with
  | start hs => exact .start hs
  | next hr hs ih =>
    exact ih.restrict_next _ (calm_of_one_hub (reachable_inv hr) hone hs) hs

/-- In the runs in which the holder of `_guard` never finds the guard of an event taken it is never
suspended, and the first step in which it does suspends it. With one hub every run is of this
kind. -/
theorem guard_holder_runs (cfg : Config) (hubs : ℕ) :
    (∀ s, Reachable (calmSystem cfg hubs) s → Safe s ∧
      ∀ a t, step cfg hubs s a = some t → (Safe t ↔ Calm s a)) ∧
    (hubs ≤ 1 → ∀ s, Reachable (system cfg hubs) s → Safe s) := by
  refine ⟨fun s h => ⟨?_, fun a t hs => ⟨fun hsafe => ?_, fun hcalm => ?_⟩⟩, fun hone s h => ?_⟩
  · exact safe_of_held (reachable_held h) (reachable_inv h.of_restrict)
  · have hi := reachable_inv h.of_restrict
    by_contra hcalm
    exact not_held_of_not_calm hi hcalm hs (held_of_safe hsafe (hi.step hs))
  · have hi := reachable_inv h.of_restrict
    exact safe_of_held ((reachable_held h).step hi hcalm hs) (hi.step hs)
  · exact safe_of_held (reachable_held (calm_reachable_of_one_hub hone h)) (reachable_inv h)

/-- A task ends on one hub while a `shutdown(wait=True)` on another one is in `_idle`. The first hub
then runs a fiber that needs `_guard`. -/
def collide : List Action :=
  Action.schedule 0 0 :: .schedule 1 1 :: .submit 0 :: List.replicate 9 (.fiber 0) ++
    Action.spawn 0 2 0 :: .shutdown 1 true false :: List.replicate 8 (.fiber 1) ++
    Action.yield 0 :: .schedule 2 0 :: List.replicate 4 (.fiber 2) ++
    Action.ends 2 true :: List.replicate 9 (.fiber 2) ++
    [Action.schedule 0 0, .shutdown 0 true false]

/-- Until the task has discarded its future and comes to `_idle.set()`. -/
theorem guard_holder_runs_collide :
    ∃ s, (calmSystem ⟨1, false, 3⟩ 2).run
        (start ⟨1, false, 3⟩ fun f => if f < 2 then some f else none) (collide.take 37) = some s ∧
      s.guard = some 2 ∧ s.locks .idle = some 1 ∧ s.place 2 = .running 0 ∧ Safe s := by
  have hrun : ((calmSystem ⟨1, false, 3⟩ 2).run
      (start ⟨1, false, 3⟩ fun f => if f < 2 then some f else none) (collide.take 37)).any (fun s =>
        s.guard = some 2 ∧ s.locks .idle = some 1 ∧ s.place 2 = .running 0) = true := by
    decide +kernel
  obtain ⟨s, hs, hp⟩ := (Option.any_eq_true _ _).mp hrun
  obtain ⟨hguard, hlock, hplace⟩ := of_decide_eq_true hp
  have hstart : (calmSystem ⟨1, false, 3⟩ 2).init
      (start ⟨1, false, 3⟩ fun f => if f < 2 then some f else none) := by
    refine ⟨_, fun f h hh => ?_, rfl⟩
    split at hh
    · cases hh
      assumption
    · cases hh
  exact ⟨s, hs, hguard, hlock, hplace,
    ((guard_holder_runs _ _).1 s (reachable_of_run _ _ hstart hs)).1⟩

/-- The task holds `_guard` and is in the queue of the hub that blocks on it. -/
theorem holder_yields :
    ∃ s, (system ⟨1, false, 3⟩ 2).run (start ⟨1, false, 3⟩ fun f => if f < 2 then some f else none)
        collide = some s ∧
      s.guard = some 2 ∧ s.place 2 = .ready 0 ∧ s.place 0 = .running 0 ∧
      s.pc 0 = .acquire (.shutdown .user true false) ∧ ¬Safe s := by
  have hrun : ((system ⟨1, false, 3⟩ 2).run
      (start ⟨1, false, 3⟩ fun f => if f < 2 then some f else none) collide).any (fun s =>
        s.guard = some 2 ∧ s.place 2 = .ready 0 ∧ s.place 0 = .running 0 ∧
        s.pc 0 = .acquire (.shutdown .user true false)) = true := by
    decide +kernel
  obtain ⟨s, hs, hp⟩ := (Option.any_eq_true _ _).mp hrun
  obtain ⟨hguard, htask, hhub, hpc⟩ := of_decide_eq_true hp
  refine ⟨s, hs, hguard, htask, hhub, hpc, fun h => ?_⟩
  exact h.unblocked 0 2 _ 0 hhub hpc hguard htask

end Stackweave.Monkey.ExecutorGuard
