import Mathlib.Data.Nat.Basic
import Mathlib.Logic.Function.Basic
import Stackweave.Transition

/-!
# Starting and stopping the blocking pool (`runloom_blockpool.c`)

The workers of any number of shards, the calls that submit to them, and the
thread that starts the pool and stops it again: in `runloom_blockpool_fini`, or
in `runloom_blockpool_init` when too few workers could be started. The stop flag
is set and the condition variables are signalled without the lock of the shard.

A queue is the number of its jobs. Worker `w` is at home in shard `w % nshard`.
-/

namespace Stackweave.BlockpoolStop

open Transition Function

/-- Where a worker stands. It holds the lock of its shard from `tests` to `waits` and
in `leaves`. -/
inductive Worker
  | unborn
  | top
  /-- it is to evaluate the condition of the loop -/
  | tests
  /-- it has read an empty queue and no stop; `cond_wait` is next -/
  | commits
  | waits
  | woken
  | busy
  | leaves
  | exited
  deriving DecidableEq

/-- Where the thread stands that starts or stops the pool. -/
inductive Stage
  | down
  /-- `runloom_blockpool_init` with `n` workers still to start -/
  | starts (n : ℕ)
  | up
  /-- shard `i` is the next to be signalled; `final` in `runloom_blockpool_fini` -/
  | broadcasts (final : Bool) (i : ℕ)
  | joins (final : Bool) (i : ℕ)
  /-- `bp_failed` -/
  | failed
  deriving DecidableEq

structure State where
  stage : Stage
  stopping : Bool
  nshard : ℕ
  started : ℕ
  held : ℕ → Bool
  jobs : ℕ → ℕ
  worker : ℕ → Worker

def State.init : State :=
  { stage := .down, stopping := false, nshard := 1, started := 0, held := fun _ => false
    jobs := fun _ => 0, worker := fun _ => .unborn }

def State.home (s : State) (w : ℕ) : ℕ := w % s.nshard

def State.goto (s : State) (w : ℕ) (p : Worker) : State :=
  { s with worker := Function.update s.worker w p }

def State.setHeld (s : State) (i : ℕ) (b : Bool) : State :=
  { s with held := Function.update s.held i b }

def State.setJobs (s : State) (i n : ℕ) : State :=
  { s with jobs := Function.update s.jobs i n }

/-- The loop of `runloom_blockpool_worker`; `fn` of a job may take any time. -/
def workerStep (s : State) (w : ℕ) : Option State :=
  let i := s.home w
  match s.worker w with
  | .top | .woken => if s.held i then none else some ((s.setHeld i true).goto w .tests)
  | .tests =>
    if s.jobs i = 0 then
      some (if s.stopping then s.goto w .leaves else s.goto w .commits)
    else some (((s.setJobs i (s.jobs i - 1)).setHeld i false).goto w .busy)
  | .commits => some ((s.setHeld i false).goto w .waits)
  | .busy => some (s.goto w .top)
  | .leaves => some ((s.setHeld i false).goto w .exited)
  | .unborn | .waits | .exited => none

/-- A worker of shard `i` that is waiting. -/
def State.waiting (s : State) (i w : ℕ) : Bool :=
  w < s.started && s.home w == i && s.worker w == .waits

/-- The locked section of `runloom_blocking_call`; `cond_signal` wakes one worker that
waits, if there is any. -/
def submit (s : State) (i : ℕ) (woken : Option ℕ) : Option State :=
  if s.held i then none
  else
    let t := s.setJobs i (s.jobs i + 1)
    match woken with
    | some w => if s.waiting i w then some (t.goto w .woken) else none
    | none => if ∀ w < s.started, s.waiting i w = false then some t else none

/-- `cond_broadcast` on shard `i`. -/
def State.broadcast (s : State) (i : ℕ) : State :=
  { s with worker := fun w => if s.waiting i w then .woken else s.worker w }

/-- After the last worker is started, or one could not be. -/
def State.finishStart (s : State) : State :=
  if s.started < s.nshard then { s with stopping := true, stage := .broadcasts false 0 }
  else { s with stage := .up }

inductive Act
  | worker (w : ℕ)
  | submit (i : ℕ) (woken : Option ℕ)
  /-- `runloom_blockpool_init` gets to its loop over the workers -/
  | init (nshard n : ℕ)
  | threadCreate (ok : Bool)
  | fini
  | broadcast
  | join

@[grind =]
def step (s : State) : Act → Option State
  | .worker w => workerStep s w
  | .submit i woken => if i < s.nshard then submit s i woken else none
  | .init nshard n =>
    if s.stage = .down ∧ 0 < nshard then
      some { s with
        stage := .starts n, stopping := false, nshard := nshard, started := 0
        held := fun _ => false, jobs := fun _ => 0 }
    else none
  | .threadCreate ok =>
    match s.stage with
    | .starts (n + 1) =>
      if ok then
        some { s.goto s.started .top with stage := .starts n, started := s.started + 1 }
      else some s.finishStart
    | .starts 0 => some s.finishStart
    | _ => none
  | .fini =>
    if s.stage = .up then some { s with stopping := true, stage := .broadcasts true 0 } else none
  | .broadcast =>
    match s.stage with
    | .broadcasts final i =>
      if i < s.nshard then some { s.broadcast i with stage := .broadcasts final (i + 1) }
      else some { s with stage := .joins final 0 }
    | _ => none
  | .join =>
    match s.stage with
    | .joins final i =>
      if i < s.started then
        if s.worker i = .exited then some { s with stage := .joins final (i + 1) } else none
      else if final then
        some { s with
          stage := .down, stopping := false, nshard := 1, started := 0, jobs := fun _ => 0 }
      else some { s with stage := .failed }
    | _ => none

def system : System State Act where
  init s := s = State.init
  step := step

/-- The condition on a step: when a shard is signalled, none of its workers is between its
look at the stop flag and its wait. -/
def Clear (s : State) : Act → Prop
  | .broadcast =>
    match s.stage with
    | .broadcasts _ i => ∀ w < s.started, s.home w = i → s.worker w ≠ .commits
    | _ => True
  | _ => True

instance (s : State) (a : Act) : Decidable (Clear s a) :=
  match a with
  | .broadcast =>
    match h : s.stage with
    | .broadcasts _ i =>
      decidable_of_iff (∀ w < s.started, s.home w = i → s.worker w ≠ .commits) (by simp [Clear, h])
    | .down | .starts _ | .up | .joins _ _ | .failed => isTrue (by simp [Clear, h])
  | .worker _ | .submit _ _ | .init _ _ | .threadCreate _ | .fini | .join => isTrue trivial

/-- The runs all of whose steps meet the condition. -/
def clear : System State Act := system.restrict Clear

/-- The stopping thread is past its last broadcast. -/
def Stage.past : Stage → Bool
  | .joins _ _ | .failed => true
  | _ => false

/-- The pool stops and one of its workers waits for a signal that no one will send. -/
def Stranded (s : State) : Prop :=
  s.stopping = true ∧ s.stage.past = true ∧ ∃ w, s.worker w = .waits

/-! ## No worker waits behind a broadcast -/

def Stage.stops : Stage → Bool
  | .broadcasts _ _ | .joins _ _ | .failed => true
  | _ => false

/-- Shard `j` has been signalled for the last time. -/
@[grind =]
def Stage.signalled : Stage → ℕ → Bool
  | .broadcasts _ i, j => j < i
  | .joins _ _, _ | .failed, _ => true
  | _, _ => false

def Worker.quiet : Worker → Bool
  | .commits | .waits => false
  | _ => true

def Worker.absent : Worker → Bool
  | .unborn | .exited => true
  | _ => false

structure Inv (s : State) : Prop where
  shards : 0 < s.nshard
  absent : ∀ w, s.started ≤ w → (s.worker w).absent = true
  down : s.stage = .down → s.started = 0
  flag : s.stage.stops = true → s.stopping = true
  quiet : ∀ w < s.started, s.stage.signalled (s.home w) = true → (s.worker w).quiet = true
  joined : ∀ final i, s.stage = .joins final i → ∀ w < i, s.worker w = .exited

theorem init_inv : Inv State.init := by
  constructor
  case shards => exact Nat.one_pos
  case absent => intro w _; rfl
  case down => intro _; rfl
  case flag => intro h; cases h
  case quiet => intro w hw; cases hw
  case joined => intro final i h; cases h

theorem stops_of_signalled {st : Stage} {j : ℕ} (h : st.signalled j = true) : st.stops = true := by
  cases st <;> first | rfl | cases h

variable {s t : State} {i : ℕ}

/-- One worker moves on: to a place where it is awake, or to its wait, with no stop seen. -/
theorem Inv.move (h : Inv s) {w : ℕ} {p : Worker}
    (hworker : t.worker = update s.worker w p) (hstage : t.stage = s.stage)
    (hstopping : t.stopping = s.stopping) (hnshard : t.nshard = s.nshard)
    (hstarted : t.started = s.started) (hin : (s.worker w).absent = false)
    (hp : p.quiet = false → s.stopping = false ∨ (s.worker w).quiet = false) : Inv t := by
  have hw : w < s.started := by
    by_contra hle
    rw [h.absent w (Nat.le_of_not_lt hle)] at hin
    cases hin
  constructor
  case shards => rw [hnshard]; exact h.shards
  case absent =>
    intro v hv
    have hvw : v ≠ w := by omega
    rw [hworker, update_of_ne hvw]
    exact h.absent v (by omega)
  case down =>
    intro hd
    rw [hstarted]
    exact h.down (hstage ▸ hd)
  case flag =>
    intro hs
    rw [hstopping]
    exact h.flag (hstage ▸ hs)
  case quiet =>
    intro v hv hs
    rw [hstage, State.home, hnshard] at hs
    rw [hworker]
    by_cases hvw : v = w
    · subst hvw
      rw [update_self]
      cases hq : p.quiet with
      | true => rfl
      | false =>
        rcases hp hq with hstop | hold
        · rw [h.flag (stops_of_signalled hs)] at hstop
          cases hstop
        · rw [h.quiet v hw hs] at hold
          cases hold
    · rw [update_of_ne hvw]
      exact h.quiet v (by omega) hs
  case joined =>
    intro final i hj v hv
    have hex := h.joined final i (hstage ▸ hj)
    have hvw : v ≠ w := fun he => by
      rw [← he, hex v hv] at hin
      cases hin
    rw [hworker, update_of_ne hvw]
    exact hex v hv

theorem workerStep_inv {w : ℕ} (h : Inv s) (hs : workerStep s w = some t) :
    Inv t := by
  simp only [workerStep] at hs
  cases hp : s.worker w with
  | unborn | waits | exited => simp [hp] at hs
  | top | woken =>
    simp only [hp] at hs
    split at hs
    · cases hs
    · cases hs
      exact h.move rfl rfl rfl rfl rfl (by rw [hp]; rfl) fun hq => by cases hq
  | tests =>
    simp only [hp] at hs
    split at hs
    · cases hs
      split
      · exact h.move rfl rfl rfl rfl rfl (by rw [hp]; rfl) fun hq => by cases hq
      case isFalse hstop =>
        exact h.move rfl rfl rfl rfl rfl (by rw [hp]; rfl) fun _ => .inl (by simpa using hstop)
    · cases hs
      exact h.move rfl rfl rfl rfl rfl (by rw [hp]; rfl) fun hq => by cases hq
  | commits =>
    simp only [hp] at hs
    cases hs
    exact h.move rfl rfl rfl rfl rfl (by rw [hp]; rfl) fun _ => .inr (by rw [hp]; rfl)
  | busy | leaves =>
    simp only [hp] at hs
    cases hs
    exact h.move rfl rfl rfl rfl rfl (by rw [hp]; rfl) fun hq => by cases hq

theorem waiting_iff {w : ℕ} :
    s.waiting i w = true ↔ w < s.started ∧ s.home w = i ∧ s.worker w = .waits := by
  simp [State.waiting, and_assoc]

theorem submit_inv {woken : Option ℕ} (h : Inv s)
    (hs : submit s i woken = some t) : Inv t := by
  unfold submit at hs
  split at hs
  · cases hs
  · cases woken with
    | none =>
      obtain ⟨-, hs⟩ := Option.ite_none_right_eq_some.mp hs
      cases hs
      exact ⟨h.shards, h.absent, h.down, h.flag, h.quiet, h.joined⟩
    | some w =>
      obtain ⟨hw, hs⟩ := Option.ite_none_right_eq_some.mp hs
      obtain ⟨-, -, hp⟩ := waiting_iff.mp hw
      cases hs
      exact h.move rfl rfl rfl rfl rfl (by rw [hp]; rfl) fun hq => by cases hq

/-- The broadcast of one shard: whoever waits there is woken, and no one is about to. -/
theorem broadcast_inv (h : Inv s) {final : Bool}
    (hstage : s.stage = .broadcasts final i)
    (hok : ∀ w < s.started, s.home w = i → s.worker w ≠ .commits) :
    Inv { s.broadcast i with stage := .broadcasts final (i + 1) } := by
  have hstop := h.flag (by rw [hstage]; rfl)
  constructor
  case shards => exact h.shards
  case absent =>
    intro w hw
    have hnot : s.waiting i w = false := by
      have : ¬ w < s.started := Nat.not_lt.mpr hw
      simp [State.waiting, this]
    simpa [State.broadcast, hnot] using h.absent w hw
  case down => intro hd; cases hd
  case flag => intro _; exact hstop
  case quiet =>
    intro w hw hs
    have hle : s.home w < i + 1 := by
      simp only [Stage.signalled, decide_eq_true_eq] at hs
      exact hs
    simp only [State.broadcast]
    split
    · rfl
    case isFalse hnot =>
      by_cases hi : s.home w = i
      · have hwaits : s.worker w ≠ .waits := fun he => hnot (waiting_iff.mpr ⟨hw, hi, he⟩)
        have hcommits := hok w hw hi
        cases hp : s.worker w with
        | commits => exact absurd hp hcommits
        | waits => exact absurd hp hwaits
        | _ => rfl
      · have hlt : s.home w < i := by omega
        exact h.quiet w hw (by rw [hstage]; simpa [Stage.signalled] using hlt)
  case joined => intro final' i' hj; cases hj

/-- All shards have been signalled. -/
theorem signalled_inv (h : Inv s) {final : Bool}
    (hstage : s.stage = .broadcasts final i) (hi : s.nshard ≤ i) :
    Inv { s with stage := .joins final 0 } := by
  constructor
  case shards => exact h.shards
  case absent => exact h.absent
  case down => intro hd; cases hd
  case flag => intro _; exact h.flag (by rw [hstage]; rfl)
  case quiet =>
    intro w hw _
    have hlt : s.home w < i := Nat.lt_of_lt_of_le (Nat.mod_lt w h.shards) hi
    exact h.quiet w hw (by rw [hstage]; simpa [Stage.signalled] using hlt)
  case joined =>
    intro final' i' hj w hw
    cases hj
    cases hw

/-- The thread goes on, and no shard has been signalled yet. -/
theorem Inv.goes (h : Inv s) {st : Stage} {stop : Bool} (hdown : st ≠ .down)
    (hstop : st.stops = true → stop = true) (hsig : ∀ j, st.signalled j = false)
    (hjoin : ∀ final i, st ≠ .joins final i) : Inv { s with stage := st, stopping := stop } := by
  constructor
  case shards => exact h.shards
  case absent => exact h.absent
  case down => intro hd; exact absurd hd hdown
  case flag => exact hstop
  case quiet =>
    intro w _ hs
    rw [hsig] at hs
    cases hs
  case joined => intro final i hj; exact absurd hj (hjoin final i)

theorem finishStart_inv (h : Inv s) : Inv s.finishStart := by
  unfold State.finishStart
  split
  · exact h.goes (by simp) (fun _ => rfl) (by simp [Stage.signalled]) (by simp)
  · exact h.goes (by simp) (fun hs => by cases hs) (fun _ => rfl) (by simp)

theorem threadCreate_inv {ok : Bool} (h : Inv s)
    (hs : step s (.threadCreate ok) = some t) : Inv t := by
  simp only [step] at hs
  split at hs
  case h_3 => cases hs
  case h_2 =>
    cases hs
    exact finishStart_inv h
  case h_1 n hstage =>
    split at hs
    case isFalse =>
      cases hs
      exact finishStart_inv h
    case isTrue =>
      cases hs
      constructor
      case shards => exact h.shards
      case absent =>
        intro w hw
        have hne : w ≠ s.started := Nat.ne_of_gt hw
        simpa [State.goto, hne] using h.absent w (Nat.le_of_lt hw)
      case down => intro hd; cases hd
      case flag => intro hf; cases hf
      case quiet => intro w _ hs; cases hs
      case joined => intro final i hj; cases hj

theorem join_inv (h : Inv s) (hs : step s .join = some t) : Inv t := by
  simp only [step] at hs
  split at hs
  case h_2 => cases hs
  case h_1 final i hstage =>
    have hsig : ∀ j, s.stage.signalled j = true := fun j => by rw [hstage]; rfl
    have hstop := h.flag (by rw [hstage]; rfl)
    have hjoined := h.joined final i hstage
    split at hs
    case isTrue hi =>
      obtain ⟨hex, hs⟩ := Option.ite_none_right_eq_some.mp hs
      cases hs
      constructor
      case shards => exact h.shards
      case absent => exact h.absent
      case down => intro hd; cases hd
      case flag => intro _; exact hstop
      case quiet => intro w hw _; exact h.quiet w hw (hsig _)
      case joined =>
        intro final' i' hj w hw
        cases hj
        by_cases hwi : w = i
        · exact hwi ▸ hex
        · exact hjoined w (by omega)
    case isFalse hi =>
      cases final with
      | true =>
        cases hs
        constructor
        case shards => exact Nat.one_pos
        case absent =>
          -- those that were started have been joined
          intro w _
          by_cases hw : w < s.started
          · simp [hjoined w (by omega), Worker.absent]
          · exact h.absent w (by omega)
        case down => intro _; rfl
        case flag => intro hf; cases hf
        case quiet => intro w hw; cases hw
        case joined => intro final' i' hj; cases hj
      | false =>
        cases hs
        constructor
        case shards => exact h.shards
        case absent => exact h.absent
        case down => intro hd; cases hd
        case flag => intro _; exact hstop
        case quiet => intro w hw _; exact h.quiet w hw (hsig _)
        case joined => intro final' i' hj; cases hj

theorem step_inv {a : Act} (h : Inv s) (hok : Clear s a)
    (hs : step s a = some t) : Inv t := by
  cases a with
  | worker w => exact workerStep_inv h hs
  | submit i woken => exact submit_inv h (Option.ite_none_right_eq_some.mp hs).2
  | init nshard n =>
    obtain ⟨⟨hdown, hpos⟩, hs⟩ := Option.ite_none_right_eq_some.mp hs
    cases hs
    have hzero := h.down hdown
    constructor
    case shards => exact hpos
    case absent => intro w _; exact h.absent w (by omega)
    case down => intro hd; cases hd
    case flag => intro hf; cases hf
    case quiet => intro w hw; cases hw
    case joined => intro final i hj; cases hj
  | threadCreate ok => exact threadCreate_inv h hs
  | fini =>
    obtain ⟨-, hs⟩ := Option.ite_none_right_eq_some.mp hs
    cases hs
    exact h.goes (by simp) (fun _ => rfl) (by simp [Stage.signalled]) (by simp)
  | broadcast =>
    simp only [step] at hs
    split at hs
    case h_2 => cases hs
    case h_1 final i hstage =>
      simp only [Clear, hstage] at hok
      split at hs
      case isTrue =>
        cases hs
        exact broadcast_inv h hstage hok
      case isFalse hi =>
        cases hs
        exact signalled_inv h hstage (Nat.le_of_not_lt hi)
  | join => exact join_inv h hs

theorem reachable_inv (h : Reachable clear s) : Inv s := by
  induction h with
  | start hs =>
    cases hs
    exact init_inv
  | next _ hs ih =>
    obtain ⟨hok, hs⟩ := System.restrict_step.mp hs
    exact step_inv ih hok hs

/-- In every run in which no broadcast falls between a worker's look at the stop flag and
its wait, the stop leaves no worker behind. -/
theorem clear_not_stranded {s : State} (h : Reachable clear s) : ¬ Stranded s := by
  rintro ⟨-, hpast, w, hw⟩
  have hinv := reachable_inv h
  have hsig : s.stage.signalled (s.home w) = true := by
    cases hst : s.stage <;> first | rfl | (rw [hst] at hpast; cases hpast)
  by_cases hlt : w < s.started
  · have := hinv.quiet w hlt hsig
    rw [hw] at this
    cases this
  · have := hinv.absent w (Nat.le_of_not_lt hlt)
    rw [hw] at this
    cases this

/-- One shard with two workers: one waits and one runs a job when the pool is stopped. -/
def orderly : List Act :=
  [.init 1 2, .threadCreate true, .threadCreate true, .worker 0, .threadCreate true, .worker 0,
    .worker 0, .worker 1, .worker 1, .worker 1, .submit 0 (some 1), .worker 1, .worker 1, .fini,
    .broadcast, .broadcast, .worker 0]

theorem clear_not_stranded_orderly :
    ∃ s, Reachable clear s ∧ s.stopping = true ∧ s.stage.past = true ∧
      s.worker 0 = .tests ∧ s.worker 1 = .busy ∧ ¬ Stranded s := by
  have hrun : (clear.run State.init orderly).map (fun s =>
      (s.stopping, s.stage.past, s.worker 0, s.worker 1)) = some (true, true, .tests, .busy) := by
    decide +kernel
  obtain ⟨s, hs, hobs⟩ := Option.map_eq_some_iff.mp hrun
  simp only [Prod.mk.injEq] at hobs
  obtain ⟨hstop, hpast, h0, h1⟩ := hobs
  have hreach : Reachable clear s := reachable_of_run clear orderly rfl hs
  exact ⟨s, hreach, hstop, hpast, h0, h1, clear_not_stranded hreach⟩

/-- The worker has looked at the stop flag; `fini` sets it and signals; the worker waits. -/
def lateWait : List Act :=
  [.init 1 1, .threadCreate true, .threadCreate true, .worker 0, .worker 0, .fini, .broadcast,
    .broadcast, .worker 0]

/-- The same when the second of two workers cannot be started. -/
def lateWaitInit : List Act :=
  [.init 2 2, .threadCreate true, .worker 0, .worker 0, .threadCreate false, .broadcast,
    .broadcast, .broadcast, .worker 0]

theorem lateWait_stranded :
    (∃ s, Reachable system s ∧ s.stage = .joins true 0 ∧ Stranded s) ∧
    ∃ s, Reachable system s ∧ s.stage = .joins false 0 ∧ Stranded s := by
  constructor
  · have hrun : (system.run State.init lateWait).map (fun s =>
        (s.stopping, s.stage, s.worker 0)) = some (true, .joins true 0, .waits) := by
      decide +kernel
    obtain ⟨s, hs, hobs⟩ := Option.map_eq_some_iff.mp hrun
    simp only [Prod.mk.injEq] at hobs
    obtain ⟨hstop, hstage, h0⟩ := hobs
    exact ⟨s, reachable_of_run system lateWait rfl hs, hstage, hstop, by rw [hstage]; rfl, 0, h0⟩
  · have hrun : (system.run State.init lateWaitInit).map (fun s =>
        (s.stopping, s.stage, s.worker 0)) = some (true, .joins false 0, .waits) := by
      decide +kernel
    obtain ⟨s, hs, hobs⟩ := Option.map_eq_some_iff.mp hrun
    simp only [Prod.mk.injEq] at hobs
    obtain ⟨hstop, hstage, h0⟩ := hobs
    exact ⟨s, reachable_of_run system lateWaitInit rfl hs, hstage, hstop, by rw [hstage]; rfl,
      0, h0⟩

end Stackweave.BlockpoolStop
