import Mathlib.Data.List.Basic
import Mathlib.Tactic.Common
import Stackweave.Transition

/-!
# Done callbacks of `StackweaveFuture` (`aio/futures.py`)

`add_done_callback`, `remove_done_callback` and the completion of one future. The
completion takes the registered entries out (`rest`) and comes to them one by one;
while one of them runs at once, it may call the same methods. `want` is what the
contract of asyncio has registered: it removes by `==`.
-/

namespace Stackweave.Aio.Future

open Transition

/-- The `__self__` of a bound method. -/
inductive Host
  | task (id : ℕ)
  | stockTask (id : ℕ)
  | object (id : ℕ)
  deriving DecidableEq

/-- `id` is the object: an attribute access makes a new one for the same bound method. -/
inductive Callback
  | function (id : ℕ) (fireSync : Bool)
  | method (id : ℕ) (host : Host) (func : ℕ) (fireSync : Bool)
  deriving DecidableEq

/-- `==` of callbacks; `is` is `=` here. -/
def Callback.eq : Callback → Callback → Bool
  | .function i a, .function j b => i == j && a == b
  | .method _ host func _, .method _ host' func' _ => host == host' && func == func'
  | _, _ => false

structure Entry where
  callback : Callback
  context : Option ℕ
  deriving DecidableEq

/-- Runs at once when the future completes. -/
def Entry.sync (e : Entry) (live : Bool) : Bool :=
  match e.callback with
  | .function _ fireSync => fireSync || !live
  | .method _ (.task _) _ _ => true
  | .method _ _ _ fireSync => fireSync || !live

/-- `cb(self)`, or `ctx.run(cb, self)` where the context can be entered. -/
def Entry.entered (e : Entry) (enters : Bool) : Bool :=
  e.context.isNone || enters

inductive Status
  | pending
  | finished
  | cancelled
  deriving DecidableEq

inductive Completion
  | result
  | exception (stopIteration : Bool)
  | cancel

inductive How
  | ran
  | scheduled

/-- `cannotEnter`: a `RuntimeError` whose text starts with "cannot enter context". -/
inductive Outcome
  | returns
  | raises (cannotEnter : Bool)
  deriving DecidableEq

/-- A call of `remove_done_callback`. -/
structure Removal where
  callback : Callback
  before : List Entry
  after : List Entry
  returned : ℕ

/-- `fired` is what the completion ran or scheduled; `added` are the entries added after
the completion and `late` what became of them. -/
structure State where
  status : Status
  live : Bool
  cbs : List Entry
  rest : List Entry
  running : Option Entry
  want : List Entry
  fired : List (Entry × How)
  added : List Entry
  late : List (Entry × How)
  removals : List Removal

def start (live : Bool) : State :=
  { status := .pending, live := live, cbs := [], rest := [], running := none, want := []
    fired := [], added := [], late := [], removals := [] }

inductive Action
  | add (e : Entry) (enters : Bool)
  | remove (c : Callback)
  | complete (k : Completion)
  | fire (enters : Bool)
  | finish (o : Outcome)

def addDoneCallback (s : State) (e : Entry) (enters : Bool) : State :=
  if s.status = .pending then { s with cbs := s.cbs ++ [e], want := s.want ++ [e] }
  else if s.live then
    { s with added := s.added ++ [e], late := s.late ++ [(e, .scheduled)] }
  -- no usable loop: at once, and a context that cannot be entered is reported
  else if e.entered enters then
    { s with added := s.added ++ [e], late := s.late ++ [(e, .ran)] }
  else { s with added := s.added ++ [e] }

def removeDoneCallback (s : State) (c : Callback) : State :=
  let filtered := s.cbs.filter fun e => e.callback ≠ c
  { s with
    cbs := filtered
    want := if s.status = .pending then s.want.filter fun e => !e.callback.eq c else s.want
    removals := s.removals ++ [⟨c, s.cbs, filtered, s.cbs.length - filtered.length⟩] }

/-- `_fire_callbacks` begins. -/
def State.release (s : State) (status : Status) : State :=
  { s with status := status, cbs := [], rest := s.cbs }

/-- A future that is done raises, or returns False from `cancel`. -/
def complete (s : State) : Completion → State
  | .result => if s.status = .pending then s.release .finished else s
  | .exception stopIteration =>
    if s.status = .pending then if stopIteration then s else s.release .finished else s
  | .cancel => if s.status = .pending then s.release .cancelled else s

/-- The next entry of the loop of `_fire_callbacks`. -/
def fire (s : State) (enters : Bool) : Option State :=
  match s.running, s.rest with
  | none, e :: rest =>
    if !e.sync s.live then
      some { s with rest := rest, fired := s.fired ++ [(e, .scheduled)] }
    else if e.entered enters then
      some { s with rest := rest, fired := s.fired ++ [(e, .ran)], running := some e }
    -- rejected before the callback ran: deferred, or reported when the loop is gone
    else if s.live then
      some { s with rest := rest, fired := s.fired ++ [(e, .scheduled)] }
    else some { s with rest := rest }
  | _, _ => none

/-- The callback that runs at once is over. -/
def finish (s : State) (o : Outcome) : Option State :=
  match s.running with
  | none => none
  | some e =>
    if o = .raises true && e.context.isSome && s.live then
      some { s with running := none, fired := s.fired ++ [(e, .scheduled)] }
    else some { s with running := none }

def step (s : State) : Action → Option State
  | .add e enters => some (addDoneCallback s e enters)
  | .remove c => some (removeDoneCallback s c)
  | .complete k => some (complete s k)
  | .fire enters => fire s enters
  | .finish o => finish s o

def system : System State Action where
  init s := ∃ live, s = start live
  step := step

/-! ## The contract -/

/-- The call removed the equal entries and returned their number. -/
def Removal.Exact (r : Removal) : Prop :=
  r.returned = (r.before.filter fun e => e.callback.eq r.callback).length ∧
    r.after = r.before.filter fun e => !e.callback.eq r.callback

structure Delivered (s : State) : Prop where
  removals : ∀ r ∈ s.removals, r.Exact
  /-- nothing runs before the completion -/
  pending : s.status = .pending → s.cbs = s.want ∧ s.rest = [] ∧ s.fired = []
  /-- what was registered then is run or scheduled, in order and once for each time -/
  fired : s.status ≠ .pending → s.cbs = [] ∧ s.fired.map Prod.fst ++ s.rest = s.want
  late : s.late.map Prod.fst = s.added
  scheduled : s.live = true → ∀ x ∈ s.late, x.2 = .scheduled

/-- A registered entry is equal to the callback to remove and is another object; or a
`RuntimeError` of `ctx.run` is taken for the other kind. -/
@[grind =]
def amiss (s : State) : Action → Bool
  | .remove c => s.cbs.any fun e => e.callback.eq c && e.callback != c
  | .finish (.raises true) => s.live && s.running.any fun e => e.context.isSome
  | .fire enters => !s.live && s.rest.head?.any fun e => !e.entered enters
  | .add e enters => s.status != .pending && !s.live && !e.entered enters
  | _ => false

def exact : System State Action :=
  system.restrict fun s a => amiss s a = false

theorem Callback.eq_self (c : Callback) : c.eq c = true := by
  cases c <;> simp [Callback.eq]

theorem delivered_start (live : Bool) : Delivered (start live) :=
  ⟨by rintro _ ⟨⟩, fun _ => ⟨rfl, rfl, rfl⟩, fun h => absurd rfl h, rfl, by rintro _ _ ⟨⟩⟩

section Steps

variable {s t : State}

theorem Delivered.add (h : Delivered s) {e : Entry} {enters : Bool}
    (hok : amiss s (.add e enters) = false) : Delivered (addDoneCallback s e enters) := by
  unfold addDoneCallback
  split
  case isTrue hp =>
    obtain ⟨hcbs, hrest, hfired⟩ := h.pending hp
    refine ⟨h.removals, fun _ => ⟨?_, hrest, hfired⟩, fun hne => absurd hp hne, h.late, h.scheduled⟩
    rw [hcbs]
  case isFalse hp =>
    split
    case isTrue hlive =>
      refine ⟨h.removals, fun hq => absurd hq hp, h.fired, ?_, ?_⟩
      · simp [h.late]
      · intro _ x hx
        rcases List.mem_append.mp hx with hx | hx
        · exact h.scheduled hlive x hx
        · rw [List.mem_singleton.mp hx]
    case isFalse hlive =>
      have hentered : e.entered enters = true := by
        simpa [amiss, hp, hlive] using hok
      rw [if_pos hentered]
      refine ⟨h.removals, fun hq => absurd hq hp, h.fired, ?_, fun hl => absurd hl hlive⟩
      simp [h.late]

theorem Delivered.remove (h : Delivered s) {c : Callback}
    (hok : amiss s (.remove c) = false) : Delivered (removeDoneCallback s c) := by
  -- under the condition, `is` and `==` agree on the registered entries
  have hsame : ∀ e ∈ s.cbs, decide (e.callback ≠ c) = !e.callback.eq c := by
    intro e he
    have hone := List.any_eq_false.mp hok e he
    by_cases hec : e.callback = c
    · simp [hec, Callback.eq_self]
    · simpa [hec] using hone
  have hfilter : (s.cbs.filter fun e => e.callback ≠ c) = s.cbs.filter fun e => !e.callback.eq c :=
    List.filter_congr hsame
  have hcount : s.cbs.length - (s.cbs.filter fun e => e.callback ≠ c).length =
      (s.cbs.filter fun e => e.callback.eq c).length := by
    rw [hfilter, List.length_eq_length_filter_add (l := s.cbs) fun e => e.callback.eq c]
    exact Nat.add_sub_cancel_right ..
  refine ⟨?_, ?_, ?_, h.late, h.scheduled⟩
  · intro r hr
    rcases List.mem_append.mp hr with hr | hr
    · exact h.removals r hr
    · rw [List.mem_singleton.mp hr]
      exact ⟨hcount, hfilter⟩
  · intro hp
    obtain ⟨hcbs, hrest, hfired⟩ := h.pending hp
    refine ⟨?_, hrest, hfired⟩
    have hwant : (removeDoneCallback s c).want = s.want.filter fun e => !e.callback.eq c := if_pos hp
    rw [hwant, ← hcbs]
    exact hfilter
  · intro hp
    obtain ⟨hcbs, hfired⟩ := h.fired hp
    have hwant : (removeDoneCallback s c).want = s.want := if_neg hp
    rw [hwant]
    refine ⟨?_, hfired⟩
    simp [removeDoneCallback, hcbs]

theorem Delivered.release (h : Delivered s) (hp : s.status = .pending) {status : Status}
    (hdone : status ≠ .pending) : Delivered (s.release status) := by
  obtain ⟨hcbs, -, hfired⟩ := h.pending hp
  refine ⟨h.removals, fun hq => absurd hq hdone, fun _ => ⟨rfl, ?_⟩, h.late, h.scheduled⟩
  simp [State.release, hfired, hcbs]

theorem Delivered.complete (h : Delivered s) (k : Completion) : Delivered (complete s k) := by
  cases k <;> simp only [Future.complete]
  case result | cancel =>
    split
    case isTrue hp => exact h.release hp (by rintro ⟨⟩)
    case isFalse => exact h
  case exception stopIteration =>
    split
    case isTrue hp =>
      split
      case isTrue => exact h
      case isFalse => exact h.release hp (by rintro ⟨⟩)
    case isFalse => exact h

/-- The loop of the firing comes to its next entry and handles it. -/
theorem Delivered.handle (h : Delivered s) {e : Entry} {rest : List Entry} {how : How}
    {running : Option Entry} (hrest : s.rest = e :: rest) :
    Delivered { s with rest := rest, fired := s.fired ++ [(e, how)], running := running } := by
  refine ⟨h.removals, ?_, ?_, h.late, h.scheduled⟩
  · intro hp
    rw [(h.pending hp).2.1] at hrest
    cases hrest
  · intro hp
    obtain ⟨hcbs, hfired⟩ := h.fired hp
    refine ⟨hcbs, ?_⟩
    rw [hrest] at hfired
    simpa using hfired

theorem Delivered.fire (h : Delivered s) {enters : Bool} (hok : amiss s (.fire enters) = false)
    (hs : fire s enters = some t) : Delivered t := by
  unfold Future.fire at hs
  split at hs
  case h_1 e rest hrun hrest =>
    split at hs
    case isTrue =>
      cases hs
      exact h.handle hrest
    case isFalse =>
      split at hs
      case isTrue =>
        cases hs
        exact h.handle hrest
      case isFalse hout =>
        split at hs
        case isTrue =>
          cases hs
          exact h.handle hrest
        case isFalse hlive => simp [amiss, hlive, hrest, hout] at hok
  case h_2 => cases hs

theorem Delivered.finish (h : Delivered s) {o : Outcome} (hok : amiss s (.finish o) = false)
    (hs : finish s o = some t) : Delivered t := by
  unfold Future.finish at hs
  split at hs
  case h_1 => cases hs
  case h_2 e hrun =>
    split at hs
    case isTrue hbad =>
      simp only [Bool.and_eq_true, decide_eq_true_eq] at hbad
      obtain ⟨⟨rfl, hctx⟩, hlive⟩ := hbad
      simp [amiss, hlive, hrun, hctx] at hok
    case isFalse =>
      cases hs
      exact ⟨h.removals, h.pending, h.fired, h.late, h.scheduled⟩

theorem step_delivered {a : Action} (h : Delivered s) (hok : amiss s a = false)
    (hs : step s a = some t) : Delivered t := by
  cases a with
  | add e enters =>
    cases hs
    exact h.add hok
  | remove c =>
    cases hs
    exact h.remove hok
  | complete k =>
    cases hs
    exact h.complete k
  | fire enters => exact h.fire hok hs
  | finish o => exact h.finish hok hs

theorem exact_finish {e : Entry} (hrun : s.running = some e) :
    ∃ t, exact.step s (.finish .returns) = some t ∧ t.running = none ∧ t.rest = s.rest := by
  refine ⟨{ s with running := none }, System.restrict_step.mpr ⟨rfl, ?_⟩, rfl, rfl⟩
  simp [system, step, Future.finish, hrun]

theorem exact_fire {e : Entry} {rest : List Entry} (hrun : s.running = none)
    (hrest : s.rest = e :: rest) : ∃ t, exact.step s (.fire true) = some t ∧ t.rest = rest := by
  have hentered : e.entered true = true := Bool.or_true _
  have hok : amiss s (.fire true) = false := by simp [amiss, hrest, hentered]
  by_cases hsync : e.sync s.live = true
  · refine ⟨{ s with rest := rest, fired := s.fired ++ [(e, .ran)], running := some e },
      System.restrict_step.mpr ⟨hok, ?_⟩, rfl⟩
    simp [system, step, Future.fire, hrun, hrest, hsync, hentered]
  · refine ⟨{ s with rest := rest, fired := s.fired ++ [(e, .scheduled)] },
      System.restrict_step.mpr ⟨hok, ?_⟩, rfl⟩
    simp [system, step, Future.fire, hrun, hrest, hsync]

/-- A firing whose callbacks return comes to its end. -/
theorem firing_ends {rest : List Entry} (hrest : s.rest = rest) :
    ∃ acts t, exact.run s acts = some t ∧ t.rest = [] ∧ t.running = none := by
  induction rest generalizing s with
  | nil =>
    cases hrun : s.running with
    | none => exact ⟨[], s, rfl, hrest, hrun⟩
    | some e =>
      obtain ⟨t, ht, hnone, hr⟩ := exact_finish hrun
      exact ⟨[.finish .returns], t, by simp [System.run, ht], hr.trans hrest, hnone⟩
  | cons e rest ih =>
    cases hrun : s.running with
    | none =>
      obtain ⟨t, ht, hr⟩ := exact_fire hrun hrest
      obtain ⟨acts, u, hu, hend⟩ := ih hr
      exact ⟨.fire true :: acts, u, by simp [System.run, ht, hu], hend⟩
    | some e' =>
      obtain ⟨t, ht, hnone, hr⟩ := exact_finish hrun
      obtain ⟨u, hu, hr'⟩ := exact_fire hnone (hr.trans hrest)
      obtain ⟨acts, v, hv, hend⟩ := ih hr'
      exact ⟨.finish .returns :: .fire true :: acts, v, by simp [System.run, ht, hu, hv], hend⟩

end Steps

/-- In every run that meets the condition, the callbacks are delivered as the contract
says, and a firing in progress can come to its end. -/
theorem reachable_delivered {s : State} (hr : Reachable exact s) :
    Delivered s ∧ ∃ acts t, exact.run s acts = some t ∧ t.rest = [] ∧ t.running = none := by
  refine ⟨?_, firing_ends rfl⟩
  refine Reachable.invariant ?_ ?_ hr
  · rintro s ⟨live, rfl⟩
    exact delivered_start live
  · intro s a t _ h hs
    obtain ⟨hok, hs⟩ := System.restrict_step.mp hs
    exact step_delivered h hok hs

/-- One callback is added twice and removed, a second one runs at once, adds a third and
raises. -/
theorem reachable_delivered_reentrant :
    ∃ s, Reachable exact s ∧ s.fired = [(⟨.method 1 (.task 5) 0 false, none⟩, .ran)] ∧
      s.late = [(⟨.function 2 false, none⟩, .scheduled)] ∧ Delivered s := by
  have hr : Reachable exact _ := reachable_of_run exact
    [.add ⟨.function 0 false, none⟩ true, .add ⟨.method 1 (.task 5) 0 false, none⟩ true,
      .add ⟨.function 0 false, some 3⟩ true, .remove (.function 0 false), .complete .result,
      .fire true, .add ⟨.function 2 false, none⟩ true, .finish (.raises true)] ⟨true, rfl⟩ rfl
  exact ⟨_, hr, rfl, rfl, (reachable_delivered hr).1⟩

/-- The bound method to remove is equal to the registered one and made by another attribute
access: nothing is removed, and the completion runs it. -/
theorem remove_misses_equal :
    ∃ s, Reachable system s ∧
      s.removals.map Removal.returned = [0] ∧
      s.fired = [(⟨.method 0 (.task 5) 0 false, none⟩, .ran)] ∧ ¬ Delivered s := by
  have hr : Reachable system _ := reachable_of_run system
    [.add ⟨.method 0 (.task 5) 0 false, none⟩ true, .remove (.method 1 (.task 5) 0 false),
      .complete .result, .fire true] ⟨true, rfl⟩ rfl
  refine ⟨_, hr, rfl, rfl, fun h => ?_⟩
  have hone := (h.removals _ (List.mem_singleton.mpr rfl)).1
  exact absurd hone (by decide)

/-- A callback that runs at once in its context raises the text of `ctx.run` itself: it has
run, and is scheduled as well. -/
theorem finish_fires_twice :
    ∃ s, Reachable system s ∧
      s.fired = [(⟨.function 0 true, some 3⟩, .ran), (⟨.function 0 true, some 3⟩, .scheduled)] ∧
      ¬ Delivered s := by
  have hr : Reachable system _ := reachable_of_run system
    [.add ⟨.function 0 true, some 3⟩ true, .complete .result, .fire true, .finish (.raises true)]
    ⟨true, rfl⟩ rfl
  refine ⟨_, hr, rfl, fun h => ?_⟩
  have hfired := (h.fired (by rintro ⟨⟩)).2
  exact absurd hfired (by decide)

end Stackweave.Aio.Future
