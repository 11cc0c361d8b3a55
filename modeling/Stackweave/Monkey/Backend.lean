import Mathlib.Data.List.Basic
import Stackweave.Monkey.Parker

/-!
# `_ThreadPoolBackend` (`monkey/_base.py`)

`submit` calls, the pool's workers and one `fini`. A job is named by its submit
call; what its `fn` returns or raises is a value of `V`, chosen by the run. The
cursor `_rr`, each `SimpleQueue` operation, each store to `box` and each read of
its done flag is one step. A park may return at any time.
-/

namespace Stackweave.Monkey.Backend

open Transition

inductive Item
  | job (n : ℕ)
  /-- `_BACKEND_SHUTDOWN` -/
  | shutdown
  deriving DecidableEq

/-- Where a `submit` stands; each constructor of an unfinished call names what
it does next. -/
inductive SubmitPc (V : Type)
  | fresh
  | advance (shard : ℕ)
  | build (shard : ℕ)
  | enqueue (shard : ℕ)
  /-- `while not box[2]` -/
  | check
  | park
  | releasing
  | returned (outcome : Option V)

/-- Where a worker stands. -/
inductive WorkerPc
  | idle
  /-- tries the sibling at distance `k` -/
  | steal (k : ℕ)
  | run (n : ℕ)
  /-- `box[2] = True` -/
  | publish (n : ℕ)
  | unpark (n : ℕ)
  | exited
  deriving DecidableEq

/-- `outcome` is `box[0]` or `box[1]`, `done` is `box[2]`; `fini` counts the
sentinels that `fini()` has put, if it runs. -/
structure State (V : Type) where
  size : ℕ
  shards : ℕ → List Item
  cursor : ℕ
  outcome : ℕ → Option V
  done : ℕ → Bool
  wake : ℕ → Bool
  submit : ℕ → SubmitPc V
  worker : ℕ → WorkerPc
  fini : Option ℕ

def init (V : Type) (size : ℕ) : State V :=
  { size := size, shards := fun _ => [], cursor := 0, outcome := fun _ => none
    done := fun _ => false, wake := fun _ => false, submit := fun _ => .fresh
    worker := fun _ => .idle, fini := none }

inductive Action (V : Type)
  | submit (n : ℕ)
  | submitter (n : ℕ)
  | spurious (n : ℕ)
  | worker (w : ℕ)
  | finish (w : ℕ) (outcome : V)
  | fini

variable {V : Type}

def State.submitTo (s : State V) (n : ℕ) (p : SubmitPc V) : State V :=
  { s with submit := fun m => if m = n then p else s.submit m }

def State.workerTo (s : State V) (w : ℕ) (p : WorkerPc) : State V :=
  { s with worker := fun v => if v = w then p else s.worker v }

def State.setShard (s : State V) (i : ℕ) (l : List Item) : State V :=
  { s with shards := fun j => if j = i then l else s.shards j }

def State.setWake (s : State V) (n : ℕ) (b : Bool) : State V :=
  { s with wake := fun m => if m = n then b else s.wake m }

def submitterStep (s : State V) (n : ℕ) : Option (State V) :=
  match s.submit n with
  | .advance i => some ({ s with cursor := (i + 1) % s.size }.submitTo n (.build i))
  | .build i => some (s.submitTo n (.enqueue i))
  | .enqueue i => some ((s.setShard i (s.shards i ++ [.job n])).submitTo n .check)
  | .check => some (s.submitTo n (if s.done n then .releasing else .park))
  | .park => if s.wake n then some ((s.setWake n false).submitTo n .check) else none
  | .releasing => some (s.submitTo n (.returned (s.outcome n)))
  | _ => none

/-- What a worker does with an item it got. -/
def Item.start : Item → WorkerPc
  | .job n => .run n
  | .shutdown => .exited

def workerStep (s : State V) (w : ℕ) : Option (State V) :=
  if w < s.size then
    match s.worker w with
    | .idle =>
      match s.shards w with
      | [] => some (s.workerTo w (.steal 1))
      | x :: xs => some ((s.setShard w xs).workerTo w x.start)
    | .steal k =>
      if k < s.size then
        match s.shards ((w + k) % s.size) with
        | [] => some (s.workerTo w (.steal (k + 1)))
        | x :: xs => some ((s.setShard ((w + k) % s.size) xs).workerTo w x.start)
      else some (s.workerTo w .idle)
    | .publish n =>
      some ({ s with done := fun m => if m = n then true else s.done m }.workerTo w (.unpark n))
    | .unpark n => some ((s.setWake n true).workerTo w .idle)
    | _ => none
  else none

@[grind =]
def step (s : State V) : Action V → Option (State V)
  | .submit n =>
    match s.submit n with
    | .fresh => some (s.submitTo n (.advance s.cursor))
    | _ => none
  | .submitter n => submitterStep s n
  | .spurious n =>
    match s.submit n with
    | .park => some (s.submitTo n .check)
    | _ => none
  | .worker w => workerStep s w
  | .finish w v =>
    match s.worker w with
    | .run n =>
      some ({ s with outcome := fun m => if m = n then some v else s.outcome m }.workerTo w
        (.publish n))
    | _ => none
  | .fini =>
    match s.fini with
    | none => some { s with fini := some 0 }
    | some i =>
      if i < s.size then
        some { s.setShard i (s.shards i ++ [.shutdown]) with fini := some (i + 1) }
      else none

def system (V : Type) (size : ℕ) : System (State V) (Action V) where
  init s := s = init V size
  step := step

/-! ## The parkers of the submits -/

section Site

open Parker

def SubmitPc.stage : SubmitPc V → Stage
  | .fresh | .advance _ | .build _ => .before
  | .returned _ => .after
  | _ => .during

def SubmitPc.effect (n : ℕ) : SubmitPc V → Effect ℕ
  | .build _ => .build n false
  | .releasing => .release n
  | _ => .quiet

/-- A worker may write from the moment the submitter can see the done flag. -/
def WorkerPc.effect : WorkerPc → Effect ℕ
  | .publish n => .choose [n]
  | .unpark n => .write n
  | _ => .quiet

def effect (s : State V) : Action V → Effect ℕ
  | .submitter n => (s.submit n).effect n
  | .worker w => (s.worker w).effect
  | _ => .quiet

variable {s t : State V} {n : ℕ}

theorem submitTo_moves {p : SubmitPc V} {f : Effect ℕ}
    (hpc : t.submit = fun m => if m = n then p else s.submit m)
    (hf : f = .quiet ∨ (∃ fdOnly, f = .build n fdOnly) ∨ f = .release n)
    (hp : Moves f n (s.submit n).stage p.stage) (m : ℕ) :
    Moves f m (s.submit m).stage (t.submit m).stage :=
  Moves.one (n := n) (x := fun m => (s.submit m).stage) (y := fun m => (t.submit m).stage)
    (by simpa [hpc] using hp) (fun k hk => by simp [hpc, hk]) hf m

theorem quiet_moves {p : SubmitPc V}
    (hpc : t.submit = fun m => if m = n then p else s.submit m)
    (hp : (s.submit n).stage = p.stage) (m : ℕ) :
    Moves .quiet m (s.submit m).stage (t.submit m).stage :=
  submitTo_moves hpc (.inl rfl) (.inr (.inr ⟨by simp, by simp, .inl hp⟩)) m

theorem submitterStep_moves (hs : submitterStep s n = some t) (m : ℕ) :
    Moves ((s.submit n).effect n) m (s.submit m).stage (t.submit m).stage := by
  unfold submitterStep at hs
  split at hs
  case h_1 hpc | h_3 hpc =>
    cases hs
    rw [hpc]
    exact quiet_moves rfl (by rw [hpc]; rfl) m
  case h_2 hpc =>
    cases hs
    rw [hpc]
    exact submitTo_moves rfl (.inr (.inl ⟨false, rfl⟩))
      (.inl ⟨⟨false, rfl⟩, by rw [hpc]; rfl, rfl⟩) m
  case h_4 hpc =>
    cases hs
    rw [hpc]
    refine quiet_moves rfl ?_ m
    rw [hpc]
    split <;> rfl
  case h_5 hpc =>
    split at hs
    case isTrue =>
      cases hs
      rw [hpc]
      exact quiet_moves rfl (by rw [hpc]; rfl) m
    case isFalse => cases hs
  case h_6 hpc =>
    cases hs
    rw [hpc]
    exact submitTo_moves rfl (.inr (.inr rfl)) (.inr (.inl ⟨rfl, by rw [hpc]; rfl, rfl⟩)) m
  case h_7 => cases hs

theorem WorkerPc.effect_moves (p : WorkerPc) (m : ℕ) (x : Stage) : Moves p.effect m x x := by
  cases p with
  | _ => exact .same (by simp [WorkerPc.effect]) (by simp [WorkerPc.effect]) x

theorem workerStep_submit {w : ℕ} (hs : workerStep s w = some t) :
    t.submit = s.submit := by
  unfold workerStep at hs
  repeat' split at hs
  all_goals first
    | cases hs; done
    | (cases hs; rfl)

theorem step_moves {a : Action V} (hs : step s a = some t) (m : ℕ) :
    Moves (effect s a) m (s.submit m).stage (t.submit m).stage := by
  cases a with
  | submit n =>
    simp only [step] at hs
    split at hs
    case h_1 hpc =>
      cases hs
      exact quiet_moves rfl (by rw [hpc]; rfl) m
    case h_2 => cases hs
  | submitter n => exact submitterStep_moves hs m
  | spurious n =>
    simp only [step] at hs
    split at hs
    case h_1 hpc =>
      cases hs
      exact quiet_moves rfl (by rw [hpc]; rfl) m
    case h_2 => cases hs
  | worker w =>
    rw [workerStep_submit hs]
    exact WorkerPc.effect_moves _ _ _
  | finish w v =>
    simp only [step] at hs
    split at hs
    case h_1 =>
      cases hs
      exact .same (by simp [effect]) (by simp [effect]) _
    case h_2 => cases hs
  | fini =>
    simp only [step] at hs
    repeat' split at hs
    all_goals first
      | cases hs; done
      | (cases hs; exact .same (by simp [effect]) (by simp [effect]) _)

/-- A worker that moves to `p` writes to no parker that `p` does not name. -/
theorem writing_of_workerTo {w : ℕ} {p : WorkerPc}
    (hpc : t.worker = fun v => if v = w then p else s.worker v)
    (hw : ∃ v, t.worker v = .unpark n) : (∃ v, s.worker v = .unpark n) ∨ p = .unpark n := by
  obtain ⟨v, hv⟩ := hw
  rw [hpc] at hv
  by_cases hvw : v = w
  · exact .inr (by simpa [hvw] using hv)
  · exact .inl ⟨v, by simpa [hvw] using hv⟩

theorem workerStep_writing {w : ℕ} (hs : workerStep s w = some t)
    (hw : ∃ v, t.worker v = .unpark n) :
    (∃ v, s.worker v = .unpark n) ∨ ∃ ps, (s.worker w).effect = .choose ps ∧ n ∈ ps := by
  have hstart : ∀ x : Item, x.start ≠ .unpark n := by
    intro x
    cases x <;> simp [Item.start]
  unfold workerStep at hs
  split at hs
  case isFalse => cases hs
  case isTrue =>
    split at hs
    case h_1 =>
      split at hs
      · cases hs
        exact .inl ((writing_of_workerTo rfl hw).resolve_right (by simp))
      · cases hs
        exact .inl ((writing_of_workerTo rfl hw).resolve_right (hstart _))
    case h_2 =>
      split at hs
      · split at hs
        · cases hs
          exact .inl ((writing_of_workerTo rfl hw).resolve_right (by simp))
        · cases hs
          exact .inl ((writing_of_workerTo rfl hw).resolve_right (hstart _))
      · cases hs
        exact .inl ((writing_of_workerTo rfl hw).resolve_right (by simp))
    case h_3 k hpc =>
      cases hs
      refine (writing_of_workerTo rfl hw).imp_right fun hp => ?_
      cases hp
      exact ⟨[n], by rw [hpc]; rfl, by simp⟩
    case h_4 =>
      cases hs
      exact .inl ((writing_of_workerTo rfl hw).resolve_right (by simp))
    case h_5 => cases hs

theorem step_writing {a : Action V} (hs : step s a = some t)
    (hw : ∃ v, t.worker v = .unpark n) :
    (∃ v, s.worker v = .unpark n) ∨ ∃ ps, effect s a = .choose ps ∧ n ∈ ps := by
  cases a with
  | worker w => exact workerStep_writing hs hw
  | finish w v =>
    simp only [step] at hs
    split at hs
    case h_1 =>
      cases hs
      exact .inl ((writing_of_workerTo rfl hw).resolve_right (by simp))
    case h_2 => cases hs
  | submitter m =>
    simp only [step, submitterStep] at hs
    repeat' split at hs
    all_goals first
      | cases hs; done
      | (cases hs; exact .inl hw)
  | submit m | spurious m | fini =>
    simp only [step] at hs
    repeat' split at hs
    all_goals first
      | cases hs; done
      | (cases hs; exact .inl hw)

/-- The backend with the parkers of its submits. -/
def site (V : Type) (size : ℕ) : Site where
  State := State V
  Action := Action V
  init := init V size
  step := step
  effect := effect
  stage s n := (s.submit n).stage
  Inv _ := True
  Writing s n := ∃ w, s.worker w = .unpark n
  inv_init := trivial
  inv_step _ _ := trivial
  stage_init _ := rfl
  stage_step _ hs m := step_moves hs m
  writing_step hs hw := step_writing hs hw
  writing_write := by
    intro s a t n _ hw
    cases a with
    | worker w =>
      refine ⟨w, ?_⟩
      simp only [effect] at hw
      cases hp : s.worker w with
      | unpark k =>
        rw [hp] at hw
        cases hw
        rfl
      | _ =>
        rw [hp] at hw
        cases hw
    | submitter k =>
      simp only [effect] at hw
      cases hp : s.submit k with
      | _ =>
        rw [hp] at hw
        cases hw
    | _ => cases hw

end Site

end Stackweave.Monkey.Backend
