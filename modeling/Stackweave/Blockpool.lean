import Stackweave.ParkWake

/-!
# The blocking pool (`runloom_blockpool.c`)

Any number of fibers that call `runloom_blocking_call` again and again, the
workers of any number of shards, and unrelated wakes of the fibers. The job
record is on the caller's stack; each access to it is one step, and so is each
locked section on a shard's queue. The park of a call and the wake of a worker
are those of the park/wake handshake, access by access.

Which shard a call picks is left open. `out j` is what `fn` of job `j` returns.
-/

namespace Stackweave.Blockpool

open Transition

/-- `runloom_block_job_t`, without the queue link. -/
structure Job where
  g : ℕ
  result : Option ℕ
  done : Bool

/-- Where a `runloom_blocking_call` stands. In `parking` the fiber is inside the
park function, or it has come back and tests `done`. -/
inductive Call
  | idle
  | filled (j : ℕ)
  | enter (j : ℕ)
  | parking (j : ℕ)
  deriving DecidableEq

/-- Where a worker stands; each constructor names what it has done. `waking` is
inside `runloom_sched_wake_safe`, past the increment, as claimer `i` of `g`. -/
inductive Worker
  | idle
  | took (j : ℕ)
  | snapped (j g : ℕ)
  | ran (j g v : ℕ)
  | stored (j g : ℕ)
  | published (j g : ℕ)
  | waking (g i : ℕ)

/-- `next` names the next record. History: how often `fn` ran, the order of
submissions and starts by shard, and by fiber the calls made, the jobs whose
worker has woken it, and the calls returned with their results. -/
structure State where
  fiber : ℕ → ParkWake.State
  call : ℕ → Call
  jobs : ℕ → Job
  next : ℕ
  shards : ℕ → List ℕ
  workers : ℕ → Worker
  unrelated : ℕ → ℕ
  runs : ℕ → ℕ
  submitted : ℕ → List ℕ
  started : ℕ → List ℕ
  calls : ℕ → List ℕ
  woken : ℕ → List ℕ
  returned : ℕ → List (ℕ × Option ℕ)

def init : State :=
  { fiber := fun _ => ParkWake.init, call := fun _ => .idle, jobs := fun _ => ⟨0, none, false⟩
    next := 0, shards := fun _ => [], workers := fun _ => .idle, unrelated := fun _ => 0
    runs := fun _ => 0, submitted := fun _ => [], started := fun _ => []
    calls := fun _ => [], woken := fun _ => [], returned := fun _ => [] }

inductive Action
  | submit (f : ℕ)
  | enqueue (f sh : ℕ)
  | fiber (f : ℕ)
  | wake (f : ℕ)
  | claimer (f i : ℕ)
  | worker (w : ℕ)

/-- `f` with the value at `k` replaced. -/
def put {α : Type} (f : ℕ → α) (k : ℕ) (v : α) : ℕ → α := fun i => if i = k then v else f i

@[simp] theorem put_self {α : Type} (f : ℕ → α) (k : ℕ) (v : α) : put f k v k = v := if_pos rfl

@[simp] theorem put_ne {α : Type} (f : ℕ → α) {k i : ℕ} (h : i ≠ k) (v : α) :
    put f k v i = f i := if_neg h

/-- The wait loop of `runloom_blocking_call`: park first, then test. -/
def fiberStep (s : State) (f : ℕ) : Option State :=
  match s.call f with
  | .enter j =>
    (ParkWake.step (s.fiber f) .park).map fun p =>
      { s with fiber := put s.fiber f p, call := put s.call f (.parking j) }
  | .parking j =>
    if (s.fiber f).pc = .running then
      if (s.jobs j).done then
        some { s with
          call := put s.call f .idle
          returned := put s.returned f (s.returned f ++ [(j, (s.jobs j).result)]) }
      else some { s with call := put s.call f (.enter j) }
    else (ParkWake.step (s.fiber f) .fiber).map fun p => { s with fiber := put s.fiber f p }
  | _ => none

/-- The loop of `runloom_blockpool_worker`. -/
def workerStep (out home : ℕ → ℕ) (s : State) (w : ℕ) : Option State :=
  match s.workers w with
  | .idle =>
    match s.shards (home w) with
    | [] => none
    | j :: rest =>
      some { s with
        shards := put s.shards (home w) rest
        started := put s.started (home w) (s.started (home w) ++ [j])
        workers := put s.workers w (.took j) }
  | .took j => some { s with workers := put s.workers w (.snapped j (s.jobs j).g) }
  | .snapped j g =>
    some { s with
      runs := put s.runs j (s.runs j + 1), workers := put s.workers w (.ran j g (out j)) }
  | .ran j g v =>
    some { s with
      jobs := put s.jobs j { s.jobs j with result := some v }
      workers := put s.workers w (.stored j g) }
  | .stored j g =>
    some { s with
      jobs := put s.jobs j { s.jobs j with done := true }
      workers := put s.workers w (.published j g) }
  | .published j g =>
    (ParkWake.step (s.fiber g) .wake).map fun p =>
      { s with
        fiber := put s.fiber g p
        woken := put s.woken g (s.woken g ++ [j])
        workers := put s.workers w (.waking g (s.fiber g).claimers.length) }
  | .waking g i =>
    if (s.fiber g).claimers[i]? = some .done then
      some { s with workers := put s.workers w .idle }
    else none

@[grind =]
def step (out home : ℕ → ℕ) (s : State) : Action → Option State
  | .submit f =>
    match s.call f with
    | .idle =>
      some { s with
        jobs := put s.jobs s.next ⟨f, none, false⟩
        call := put s.call f (.filled s.next)
        calls := put s.calls f (s.calls f ++ [s.next])
        next := s.next + 1 }
    | _ => none
  | .enqueue f sh =>
    match s.call f with
    | .filled j =>
      some { s with
        shards := put s.shards sh (s.shards sh ++ [j])
        submitted := put s.submitted sh (s.submitted sh ++ [j])
        call := put s.call f (.enter j) }
    | _ => none
  | .fiber f => fiberStep s f
  | .wake f =>
    (ParkWake.step (s.fiber f) .wake).map fun p =>
      { s with
        fiber := put s.fiber f p, unrelated := put s.unrelated f (s.unrelated f + 1) }
  | .claimer f i =>
    (ParkWake.step (s.fiber f) (.claimer i)).map fun p => { s with fiber := put s.fiber f p }
  | .worker w => workerStep out home s w

/-- Worker `w` serves the shard `home w`. -/
def system (out home : ℕ → ℕ) : System State Action where
  init s := s = init
  step := step out home

/-- The exchange on `parked_safe` would be won by a waker while no credit is left:
the credit of that waker was eaten before. -/
def overdrawn (s : State) : Action → Bool
  | .claimer f i =>
    match (s.fiber f).claimers[i]? with
    | some (.claim _) => (s.fiber f).parkedSafe && decide ((s.fiber f).wakePending ≤ 0)
    | _ => false
  | _ => false

/-- The runs in which no waker wins with a credit that was eaten before. -/
def funded (out home : ℕ → ℕ) : System State Action :=
  (system out home).restrict fun s a => overdrawn s a = false

/-! ## The jobs -/

/-- Who has a job: nobody, its caller, a shard's queue or a worker, which has run
`fn` or not; then the worker that published it, until it has woken the caller. -/
inductive Stage
  | unborn
  | filled
  | queued (sh : ℕ)
  | held (w : ℕ) (ran : Bool)
  | published (w : ℕ)
  | woken

/-- A queue or a worker still needs the record. -/
@[grind =]
def Stage.busy : Stage → Bool
  | .queued _ | .held _ _ => true
  | _ => false

@[grind =]
def Stage.done : Stage → Bool
  | .published _ | .woken => true
  | _ => false

/-- How often `fn` has run by then. -/
def Stage.runs : Stage → ℕ
  | .held _ true | .published _ | .woken => 1
  | _ => 0

theorem Stage.runs_le (v : Stage) : v.runs ≤ 1 := by
  unfold Stage.runs
  split <;> omega

theorem Stage.runs_of_done {v : Stage} (h : v.done = true) : v.runs = 1 := by
  cases v with
  | published w => rfl
  | woken => rfl
  | unborn => cases h
  | filled => cases h
  | queued sh => cases h
  | held w ran => cases h

/-- The record that the worker's next step reads or writes. -/
def Worker.touches : Worker → Option ℕ
  | .took j | .snapped j _ | .ran j _ _ | .stored j _ => some j
  | _ => none

/-- The stage of the job that a worker has in hand. -/
def Worker.stage (w : ℕ) : Worker → Option (ℕ × Stage)
  | .took j | .snapped j _ => some (j, .held w false)
  | .ran j _ _ | .stored j _ => some (j, .held w true)
  | .published j _ => some (j, .published w)
  | _ => none

/-- What a worker has read and computed. -/
@[grind =]
def Worker.Right (out : ℕ → ℕ) (jobs : ℕ → Job) : Worker → Prop
  | .snapped j g | .published j g => g = (jobs j).g
  | .ran j g v => g = (jobs j).g ∧ v = out j
  | .stored j g => g = (jobs j).g ∧ (jobs j).result = some (out j)
  | _ => True

/-- The job of a call that has been submitted. -/
def Call.job : Call → Option ℕ
  | .enter j | .parking j => some j
  | _ => none

structure Jobs (out : ℕ → ℕ) (s : State) (st : ℕ → Stage) : Prop where
  young : ∀ j, s.next ≤ j → st j = .unborn
  filled : ∀ f j, s.call f = .filled j → st j = .filled ∧ (s.jobs j).g = f
  submitted : ∀ f j, (s.call f).job = some j →
    ((st j).busy = true ∨ (st j).done = true) ∧ (s.jobs j).g = f
  queue : ∀ sh, (s.shards sh).Nodup ∧ ∀ j ∈ s.shards sh, st j = .queued sh
  worker : ∀ w j v, (s.workers w).stage w = some (j, v) → st j = v
  right : ∀ w, (s.workers w).Right out s.jobs
  live : ∀ j, (st j).busy = true → (s.call (s.jobs j).g).job = some j
  done : ∀ j, (s.jobs j).done = (st j).done
  runs : ∀ j, s.runs j = (st j).runs
  result : ∀ j, (st j).done = true → (s.jobs j).result = some (out j)
  woken : ∀ f, (s.woken f).Nodup ∧ ∀ j ∈ s.woken f, st j = .woken ∧ (s.jobs j).g = f
  calls : ∀ f j, st j ≠ .unborn → (s.jobs j).g = f → j ∈ s.calls f
  returned : ∀ f p, p ∈ s.returned f → (st p.1).done = true ∧ p.2 = some (out p.1)
  fifo : ∀ sh, s.submitted sh = s.started sh ++ s.shards sh

variable {out home : ℕ → ℕ} {s t : State} {st su : ℕ → Stage} {w j f : ℕ} {p q : ParkWake.State}

/-- A step that leaves the jobs, the queues and the workers alone. -/
theorem Jobs.same (h : Jobs out s st)
    (hnext : t.next = s.next) (hjobs : t.jobs = s.jobs) (hshards : t.shards = s.shards)
    (hworkers : t.workers = s.workers) (hruns : t.runs = s.runs) (hwoken : t.woken = s.woken)
    (hcalls : t.calls = s.calls) (hreturned : t.returned = s.returned)
    (hsub : t.submitted = s.submitted) (hstart : t.started = s.started)
    (hfilled : ∀ f j, t.call f = .filled j → s.call f = .filled j)
    (hjob : ∀ f, (t.call f).job = (s.call f).job) : Jobs out t st := by
  constructor
  case young => rw [hnext]; exact h.young
  case filled =>
    intro f j hf
    rw [hjobs]
    exact h.filled f j (hfilled f j hf)
  case submitted =>
    intro f j hf
    rw [hjobs]
    exact h.submitted f j (by rw [← hjob]; exact hf)
  case queue => rw [hshards]; exact h.queue
  case worker => rw [hworkers]; exact h.worker
  case right => rw [hworkers, hjobs]; exact h.right
  case live =>
    intro j hj
    rw [hjobs, hjob]
    exact h.live j hj
  case done => rw [hjobs]; exact h.done
  case runs => rw [hruns]; exact h.runs
  case result => rw [hjobs]; exact h.result
  case woken => rw [hwoken, hjobs]; exact h.woken
  case calls => rw [hcalls, hjobs]; exact h.calls
  case returned => rw [hreturned]; exact h.returned
  case fifo => rw [hsub, hstart, hshards]; exact h.fifo

/-- The stage of a job in hand names the worker. -/
theorem Worker.stage_by {p : Worker} {v : Stage} (h : p.stage w = some (j, v)) :
    (∃ b, v = .held w b) ∨ v = .published w := by
  unfold Worker.stage at h
  split at h
  case h_6 => cases h
  all_goals
    cases h
    simp

theorem Worker.right_congr {jobs jobs' : ℕ → Job} {p : Worker}
    (hp : ∀ j v, p.stage w = some (j, v) → jobs' j = jobs j) (h : p.Right out jobs) :
    p.Right out jobs' := by
  cases p with
  | idle => trivial
  | took j => trivial
  | snapped j g =>
    dsimp only [Worker.Right] at h ⊢
    rw [hp j _ rfl]
    exact h
  | ran j g v =>
    dsimp only [Worker.Right] at h ⊢
    rw [hp j _ rfl]
    exact h
  | stored j g =>
    dsimp only [Worker.Right] at h ⊢
    rw [hp j _ rfl]
    exact h
  | published j g =>
    dsimp only [Worker.Right] at h ⊢
    rw [hp j _ rfl]
    exact h
  | waking g i => trivial

/-- A worker moves the job it has in hand on. -/
theorem Jobs.advance (h : Jobs out s st)
    {p : Worker} {v : Stage} {r : Job} (hsu : su = put st j v)
    (hw : (s.workers w).stage w = some (j, st j)) (hworkers : t.workers = put s.workers w p)
    (hp : ∀ i u, p.stage w = some (i, u) → i = j ∧ u = v) (hright : p.Right out t.jobs)
    (hjobs : t.jobs = put s.jobs j r) (hg : r.g = (s.jobs j).g) (hdone : r.done = v.done)
    (hresult : v.done = true → r.result = some (out j))
    (hbusy : v.busy = true → (st j).busy = true) (hmore : (st j).done = true → v.done = true)
    (hv : v.busy = true ∨ v.done = true) (hruns : t.runs = put s.runs j v.runs)
    (hwoken : ∀ f, t.woken f = s.woken f ∨
      v = .woken ∧ f = (s.jobs j).g ∧ t.woken f = s.woken f ++ [j])
    (hnext : t.next = s.next) (hcall : t.call = s.call) (hshards : t.shards = s.shards)
    (hcalls : t.calls = s.calls) (hreturned : t.returned = s.returned)
    (hsub : t.submitted = s.submitted) (hstart : t.started = s.started) : Jobs out t su := by
  have hsj : su j = v := by rw [hsu, put_self]
  have hso : ∀ {i : ℕ}, i ≠ j → su i = st i := fun hi => by rw [hsu, put_ne _ hi]
  have hgj : ∀ i, (t.jobs i).g = (s.jobs i).g := by
    intro i
    rw [hjobs]
    by_cases hi : i = j
    · rw [hi, put_self, hg]
    · rw [put_ne _ hi]
  have hjo : ∀ {i : ℕ}, i ≠ j → t.jobs i = s.jobs i := fun hi => by rw [hjobs, put_ne _ hi]
  have hin := Worker.stage_by hw
  have hne : ∀ {i : ℕ}, st i = .unborn ∨ st i = .filled ∨ (∃ sh, st i = .queued sh) ∨
      st i = .woken → i ≠ j := by
    rintro i hi rfl
    rcases hin with ⟨b, hb⟩ | hb
    all_goals
      rw [hb] at hi
      simp at hi
  constructor
  case young =>
    intro i hi
    rw [hnext] at hi
    have := h.young i hi
    rw [hso (hne (.inl this))]
    exact this
  case filled =>
    intro f i hf
    rw [hcall] at hf
    obtain ⟨hst, hgi⟩ := h.filled f i hf
    rw [hso (hne (.inr (.inl hst))), hgj]
    exact ⟨hst, hgi⟩
  case submitted =>
    intro f i hf
    rw [hcall] at hf
    obtain ⟨hst, hgi⟩ := h.submitted f i hf
    rw [hgj]
    refine ⟨?_, hgi⟩
    by_cases hi : i = j
    · rw [hi, hsj]
      exact hv
    · rw [hso hi]
      exact hst
  case queue =>
    intro sh
    rw [hshards]
    refine ⟨(h.queue sh).1, fun i hi => ?_⟩
    have := (h.queue sh).2 i hi
    rw [hso (hne (.inr (.inr (.inl ⟨sh, this⟩))))]
    exact this
  case worker =>
    intro w' i u hu
    rw [hworkers] at hu
    by_cases hww : w' = w
    · subst hww
      rw [put_self] at hu
      obtain ⟨rfl, rfl⟩ := hp i u hu
      exact hsj
    · rw [put_ne _ hww] at hu
      have hst := h.worker w' i u hu
      have hi : i ≠ j := by
        rintro rfl
        rw [hst] at hin
        rcases Worker.stage_by hu with ⟨b, hb⟩ | hb
        all_goals
          rw [hb] at hin
          simp [hww] at hin
      rw [hso hi]
      exact hst
  case right =>
    intro w'
    rw [hworkers]
    by_cases hww : w' = w
    · rw [hww, put_self]
      exact hright
    · rw [put_ne _ hww]
      refine Worker.right_congr (w := w') ?_ (h.right w')
      intro i u hu
      have hst := h.worker w' i u hu
      have hi : i ≠ j := by
        rintro rfl
        rw [hst] at hin
        rcases Worker.stage_by hu with ⟨b, hb⟩ | hb
        all_goals
          rw [hb] at hin
          simp [hww] at hin
      exact hjo hi
  case live =>
    intro i hi
    rw [hgj, hcall]
    by_cases hij : i = j
    · rw [hij, hsj] at hi
      exact hij ▸ h.live j (hbusy hi)
    · rw [hso hij] at hi
      exact h.live i hi
  case done =>
    intro i
    by_cases hij : i = j
    · rw [hij, hjobs, put_self, hsj, hdone]
    · rw [hjo hij, hso hij]
      exact h.done i
  case runs =>
    intro i
    rw [hruns]
    by_cases hij : i = j
    · rw [hij, put_self, hsj]
    · rw [put_ne _ hij, hso hij]
      exact h.runs i
  case result =>
    intro i hi
    by_cases hij : i = j
    · rw [hij, hsj] at hi
      rw [hij, hjobs, put_self]
      exact hresult hi
    · rw [hso hij] at hi
      rw [hjo hij]
      exact h.result i hi
  case woken =>
    intro f
    have hold : ∀ i ∈ s.woken f, su i = .woken ∧ (t.jobs i).g = f := by
      intro i hi
      obtain ⟨hst, hgi⟩ := (h.woken f).2 i hi
      rw [hso (hne (.inr (.inr (.inr hst)))), hgj]
      exact ⟨hst, hgi⟩
    rcases hwoken f with he | ⟨hvw, hf, he⟩
    · rw [he]
      exact ⟨(h.woken f).1, hold⟩
    · rw [he]
      constructor
      · rw [List.nodup_append]
        refine ⟨(h.woken f).1, List.nodup_singleton _, fun i hi k hk => ?_⟩
        rw [List.mem_singleton.mp hk]
        exact hne (.inr (.inr (.inr ((h.woken f).2 i hi).1)))
      · intro i hi
        rcases List.mem_append.mp hi with hi | hi
        · exact hold i hi
        · rw [List.mem_singleton.mp hi, hsj, hgj]
          exact ⟨hvw, hf.symm⟩
  case calls =>
    intro f i hi hgi
    rw [hgj] at hgi
    rw [hcalls]
    by_cases hij : i = j
    · subst hij
      refine h.calls f i ?_ hgi
      intro hun
      exact hne (.inl hun) rfl
    · exact h.calls f i (by rw [← hso hij]; exact hi) hgi
  case returned =>
    intro f q hq
    rw [hreturned] at hq
    obtain ⟨hst, hout⟩ := h.returned f q hq
    refine ⟨?_, hout⟩
    by_cases hqj : q.1 = j
    · rw [hqj, hsj]
      exact hmore (hqj ▸ hst)
    · rw [hso hqj]
      exact hst
  case fifo => rw [hsub, hstart, hshards]; exact h.fifo

/-- A worker takes the head of its shard's queue. -/
theorem Jobs.take (h : Jobs out s st)
    {sh : ℕ} {rest : List ℕ} (hsu : su = put st j (.held w false))
    (hhead : s.shards sh = j :: rest)
    (hworkers : t.workers = put s.workers w (.took j))
    (hshards : t.shards = put s.shards sh rest)
    (hstart : t.started = put s.started sh (s.started sh ++ [j]))
    (hjobs : t.jobs = s.jobs) (hruns : t.runs = s.runs) (hwoken : t.woken = s.woken)
    (hnext : t.next = s.next) (hcall : t.call = s.call) (hcalls : t.calls = s.calls)
    (hreturned : t.returned = s.returned) (hsub : t.submitted = s.submitted) :
    Jobs out t su := by
  have hsj : su j = .held w false := by rw [hsu, put_self]
  have hso : ∀ {i : ℕ}, i ≠ j → su i = st i := fun hi => by rw [hsu, put_ne _ hi]
  obtain ⟨hnd, hq⟩ := h.queue sh
  rw [hhead] at hnd hq
  have hj : st j = .queued sh := hq j List.mem_cons_self
  obtain ⟨hnj, hnd'⟩ := List.nodup_cons.mp hnd
  have hne : ∀ {i : ℕ}, st i ≠ .queued sh → i ≠ j := by
    rintro i hi rfl
    exact hi hj
  have hdn : ∀ i, (su i).done = (st i).done := by
    intro i
    by_cases hi : i = j
    · rw [hi, hsj, hj]
      rfl
    · rw [hso hi]
  have hbz : ∀ i, (su i).busy = (st i).busy := by
    intro i
    by_cases hi : i = j
    · rw [hi, hsj, hj]
      rfl
    · rw [hso hi]
  constructor
  case young =>
    intro i hi
    rw [hnext] at hi
    have := h.young i hi
    rw [hso (hne (by rw [this]; rintro ⟨⟩))]
    exact this
  case filled =>
    intro f i hf
    rw [hcall] at hf
    obtain ⟨hst, hgi⟩ := h.filled f i hf
    rw [hso (hne (by rw [hst]; rintro ⟨⟩)), hjobs]
    exact ⟨hst, hgi⟩
  case submitted =>
    intro f i hf
    rw [hcall] at hf
    rw [hbz, hdn, hjobs]
    exact h.submitted f i hf
  case queue =>
    intro sh'
    rw [hshards]
    by_cases hsh : sh' = sh
    · subst hsh
      rw [put_self]
      refine ⟨hnd', fun i hi => ?_⟩
      have hij : i ≠ j := by
        rintro rfl
        exact hnj hi
      rw [hso hij]
      exact hq i (List.mem_cons_of_mem _ hi)
    · rw [put_ne _ hsh]
      refine ⟨(h.queue sh').1, fun i hi => ?_⟩
      have := (h.queue sh').2 i hi
      rw [hso (hne ?_)]
      · exact this
      · rw [this]
        exact fun he => hsh (Stage.queued.inj he)
  case worker =>
    intro w' i u hu
    rw [hworkers] at hu
    by_cases hww : w' = w
    · subst hww
      rw [put_self] at hu
      cases hu
      exact hsj
    · rw [put_ne _ hww] at hu
      have hst := h.worker w' i u hu
      rw [hso (hne ?_)]
      · exact hst
      · rw [hst]
        rcases Worker.stage_by hu with ⟨b, hb⟩ | hb
        all_goals
          rw [hb]
          rintro ⟨⟩
  case right =>
    intro w'
    rw [hworkers, hjobs]
    by_cases hww : w' = w
    · rw [hww, put_self]
      trivial
    · rw [put_ne _ hww]
      exact h.right w'
  case live =>
    intro i hi
    rw [hjobs, hcall]
    exact h.live i (by rw [← hbz]; exact hi)
  case done =>
    intro i
    rw [hjobs, hdn]
    exact h.done i
  case runs =>
    intro i
    rw [hruns, h.runs]
    by_cases hi : i = j
    · rw [hi, hsj, hj]
      rfl
    · rw [hso hi]
  case result =>
    intro i hi
    rw [hjobs]
    exact h.result i (by rw [← hdn]; exact hi)
  case woken =>
    intro f
    rw [hwoken, hjobs]
    refine ⟨(h.woken f).1, fun i hi => ?_⟩
    obtain ⟨hst, hgi⟩ := (h.woken f).2 i hi
    rw [hso (hne (by rw [hst]; rintro ⟨⟩))]
    exact ⟨hst, hgi⟩
  case calls =>
    intro f i hi hgi
    rw [hjobs] at hgi
    rw [hcalls]
    by_cases hij : i = j
    · exact h.calls f i (by rw [hij, hj]; rintro ⟨⟩) hgi
    · exact h.calls f i (by rw [← hso hij]; exact hi) hgi
  case returned =>
    intro f q hq'
    rw [hreturned] at hq'
    rw [hdn]
    exact h.returned f q hq'
  case fifo =>
    intro sh'
    rw [hsub, hstart, hshards, h.fifo]
    by_cases hsh : sh' = sh
    · rw [hsh, put_self, put_self, hhead, List.append_assoc]
      rfl
    · rw [put_ne _ hsh, put_ne _ hsh]

/-- A new record. -/
theorem Jobs.submit (h : Jobs out s st)
    (hsu : su = put st s.next .filled) (hidle : s.call f = .idle)
    (hjobs : t.jobs = put s.jobs s.next ⟨f, none, false⟩)
    (hcall : t.call = put s.call f (.filled s.next))
    (hcalls : t.calls = put s.calls f (s.calls f ++ [s.next])) (hnext : t.next = s.next + 1)
    (hworkers : t.workers = s.workers) (hshards : t.shards = s.shards) (hruns : t.runs = s.runs)
    (hwoken : t.woken = s.woken) (hreturned : t.returned = s.returned)
    (hsub : t.submitted = s.submitted) (hstart : t.started = s.started) : Jobs out t su := by
  have hsj : su s.next = .filled := by rw [hsu, put_self]
  have hso : ∀ {i : ℕ}, i ≠ s.next → su i = st i := fun hi => by rw [hsu, put_ne _ hi]
  have hjo : ∀ {i : ℕ}, i ≠ s.next → t.jobs i = s.jobs i := fun hi => by rw [hjobs, put_ne _ hi]
  have hun : st s.next = .unborn := h.young s.next (Nat.le_refl _)
  have hne : ∀ {i : ℕ}, st i ≠ .unborn → i ≠ s.next := by
    rintro i hi rfl
    exact hi hun
  have hbusy : ∀ {i : ℕ}, (st i).busy = true ∨ (st i).done = true → i ≠ s.next := by
    intro i hi
    refine hne ?_
    intro he
    rw [he] at hi
    simp [Stage.busy, Stage.done] at hi
  have hcf : ∀ {k : ℕ}, k ≠ f → t.call k = s.call k := fun hk => by rw [hcall, put_ne _ hk]
  constructor
  case young =>
    intro i hi
    rw [hnext] at hi
    rw [hso (by omega)]
    exact h.young i (by omega)
  case filled =>
    intro k i hk
    by_cases hkf : k = f
    · subst hkf
      rw [hcall, put_self] at hk
      cases hk
      rw [hsj, hjobs, put_self]
      exact ⟨rfl, rfl⟩
    · rw [hcf hkf] at hk
      obtain ⟨hst, hgi⟩ := h.filled k i hk
      have hi := hne (by rw [hst]; rintro ⟨⟩)
      rw [hso hi, hjo hi]
      exact ⟨hst, hgi⟩
  case submitted =>
    intro k i hk
    by_cases hkf : k = f
    · subst hkf
      rw [hcall, put_self] at hk
      cases hk
    · rw [hcf hkf] at hk
      obtain ⟨hst, hgi⟩ := h.submitted k i hk
      have hi := hbusy hst
      rw [hso hi, hjo hi]
      exact ⟨hst, hgi⟩
  case queue =>
    intro sh
    rw [hshards]
    refine ⟨(h.queue sh).1, fun i hi => ?_⟩
    have := (h.queue sh).2 i hi
    rw [hso (hne (by rw [this]; rintro ⟨⟩))]
    exact this
  case worker =>
    intro w i u hu
    rw [hworkers] at hu
    have hst := h.worker w i u hu
    rw [hso (hne ?_)]
    · exact hst
    · rw [hst]
      rcases Worker.stage_by hu with ⟨b, hb⟩ | hb
      all_goals
        rw [hb]
        rintro ⟨⟩
  case right =>
    intro w
    rw [hworkers]
    refine Worker.right_congr (w := w) ?_ (h.right w)
    intro i u hu
    have hst := h.worker w i u hu
    refine hjo (hne ?_)
    rw [hst]
    rcases Worker.stage_by hu with ⟨b, hb⟩ | hb
    all_goals
      rw [hb]
      rintro ⟨⟩
  case live =>
    intro i hi
    have hin : i ≠ s.next := by
      rintro rfl
      rw [hsj] at hi
      cases hi
    rw [hso hin] at hi
    have hl := h.live i hi
    rw [hjo hin]
    by_cases hkf : (s.jobs i).g = f
    · rw [hkf, hidle] at hl
      cases hl
    · rw [hcf hkf]
      exact hl
  case done =>
    intro i
    by_cases hi : i = s.next
    · rw [hi, hjobs, put_self, hsj]
      rfl
    · rw [hjo hi, hso hi]
      exact h.done i
  case runs =>
    intro i
    rw [hruns, h.runs]
    by_cases hi : i = s.next
    · rw [hi, hun, hsj]
      rfl
    · rw [hso hi]
  case result =>
    intro i hi
    have hin : i ≠ s.next := by
      rintro rfl
      rw [hsj] at hi
      cases hi
    rw [hso hin] at hi
    rw [hjo hin]
    exact h.result i hi
  case woken =>
    intro k
    rw [hwoken]
    refine ⟨(h.woken k).1, fun i hi => ?_⟩
    obtain ⟨hst, hgi⟩ := (h.woken k).2 i hi
    have hin := hne (by rw [hst]; rintro ⟨⟩)
    rw [hso hin, hjo hin]
    exact ⟨hst, hgi⟩
  case calls =>
    intro k i hi hgi
    rw [hcalls]
    by_cases hin : i = s.next
    · subst hin
      rw [hjobs, put_self] at hgi
      have hkf : k = f := hgi.symm
      rw [hkf, put_self]
      exact List.mem_append_right _ List.mem_cons_self
    · rw [hso hin] at hi
      rw [hjo hin] at hgi
      have hold := h.calls k i hi hgi
      by_cases hkf : k = f
      · rw [hkf, put_self]
        exact List.mem_append_left _ (hkf ▸ hold)
      · rw [put_ne _ hkf]
        exact hold
  case returned =>
    intro k q hq
    rw [hreturned] at hq
    obtain ⟨hst, hout⟩ := h.returned k q hq
    rw [hso (hbusy (.inr hst))]
    exact ⟨hst, hout⟩
  case fifo => rw [hsub, hstart, hshards]; exact h.fifo

/-- The record goes on a shard's queue. -/
theorem Jobs.enqueue (h : Jobs out s st)
    {sh : ℕ} (hsu : su = put st j (.queued sh)) (hf : s.call f = .filled j)
    (hcall : t.call = put s.call f (.enter j))
    (hshards : t.shards = put s.shards sh (s.shards sh ++ [j]))
    (hsub : t.submitted = put s.submitted sh (s.submitted sh ++ [j]))
    (hjobs : t.jobs = s.jobs) (hcalls : t.calls = s.calls) (hnext : t.next = s.next)
    (hworkers : t.workers = s.workers) (hruns : t.runs = s.runs) (hwoken : t.woken = s.woken)
    (hreturned : t.returned = s.returned) (hstart : t.started = s.started) : Jobs out t su := by
  have hsj : su j = .queued sh := by rw [hsu, put_self]
  have hso : ∀ {i : ℕ}, i ≠ j → su i = st i := fun hi => by rw [hsu, put_ne _ hi]
  obtain ⟨hst, hg⟩ := h.filled f j hf
  have hne : ∀ {i : ℕ}, st i ≠ .filled → i ≠ j := by
    rintro i hi rfl
    exact hi hst
  have hdn : ∀ i, (su i).done = (st i).done := by
    intro i
    by_cases hi : i = j
    · rw [hi, hsj, hst]
      rfl
    · rw [hso hi]
  have hcf : ∀ {k : ℕ}, k ≠ f → t.call k = s.call k := fun hk => by rw [hcall, put_ne _ hk]
  constructor
  case young =>
    intro i hi
    rw [hnext] at hi
    have := h.young i hi
    rw [hso (hne (by rw [this]; rintro ⟨⟩))]
    exact this
  case filled =>
    intro k i hk
    have hkf : k ≠ f := by
      rintro rfl
      rw [hcall, put_self] at hk
      cases hk
    rw [hcf hkf] at hk
    obtain ⟨hsti, hgi⟩ := h.filled k i hk
    have hij : i ≠ j := by
      rintro rfl
      exact hkf (hgi.symm.trans hg)
    rw [hso hij, hjobs]
    exact ⟨hsti, hgi⟩
  case submitted =>
    intro k i hk
    rw [hjobs]
    by_cases hkf : k = f
    · subst hkf
      rw [hcall, put_self] at hk
      cases hk
      rw [hsj]
      exact ⟨.inl rfl, hg⟩
    · rw [hcf hkf] at hk
      obtain ⟨hsti, hgi⟩ := h.submitted k i hk
      have hij : i ≠ j := by
        rintro rfl
        exact hkf (hgi.symm.trans hg)
      rw [hso hij]
      exact ⟨hsti, hgi⟩
  case queue =>
    intro sh'
    have hold : ∀ i ∈ s.shards sh', i ≠ j ∧ su i = .queued sh' := by
      intro i hi
      have := (h.queue sh').2 i hi
      have hij := hne (by rw [this]; rintro ⟨⟩)
      exact ⟨hij, by rw [hso hij]; exact this⟩
    rw [hshards]
    by_cases hsh : sh' = sh
    · subst hsh
      rw [put_self]
      constructor
      · rw [List.nodup_append]
        refine ⟨(h.queue sh').1, List.nodup_singleton _, fun i hi k hk => ?_⟩
        rw [List.mem_singleton.mp hk]
        exact (hold i hi).1
      · intro i hi
        rcases List.mem_append.mp hi with hi | hi
        · exact (hold i hi).2
        · rw [List.mem_singleton.mp hi]
          exact hsj
    · rw [put_ne _ hsh]
      exact ⟨(h.queue sh').1, fun i hi => (hold i hi).2⟩
  case worker =>
    intro w i u hu
    rw [hworkers] at hu
    have hsti := h.worker w i u hu
    rw [hso (hne ?_)]
    · exact hsti
    · rw [hsti]
      rcases Worker.stage_by hu with ⟨b, hb⟩ | hb
      all_goals
        rw [hb]
        rintro ⟨⟩
  case right => rw [hworkers, hjobs]; exact h.right
  case live =>
    intro i hi
    rw [hjobs]
    by_cases hij : i = j
    · rw [hij, hg, hcall, put_self]
      rfl
    · rw [hso hij] at hi
      have hl := h.live i hi
      by_cases hkf : (s.jobs i).g = f
      · rw [hkf, hf] at hl
        cases hl
      · rw [hcf hkf]
        exact hl
  case done =>
    intro i
    rw [hjobs, hdn]
    exact h.done i
  case runs =>
    intro i
    rw [hruns, h.runs]
    by_cases hi : i = j
    · rw [hi, hsj, hst]
      rfl
    · rw [hso hi]
  case result =>
    intro i hi
    rw [hjobs]
    exact h.result i (by rw [← hdn]; exact hi)
  case woken =>
    intro k
    rw [hwoken, hjobs]
    refine ⟨(h.woken k).1, fun i hi => ?_⟩
    obtain ⟨hsti, hgi⟩ := (h.woken k).2 i hi
    rw [hso (hne (by rw [hsti]; rintro ⟨⟩))]
    exact ⟨hsti, hgi⟩
  case calls =>
    intro k i hi hgi
    rw [hjobs] at hgi
    rw [hcalls]
    by_cases hij : i = j
    · exact h.calls k i (by rw [hij, hst]; rintro ⟨⟩) hgi
    · exact h.calls k i (by rw [← hso hij]; exact hi) hgi
  case returned =>
    intro k q hq
    rw [hreturned] at hq
    rw [hdn]
    exact h.returned k q hq
  case fifo =>
    intro sh'
    rw [hsub, hstart, hshards]
    by_cases hsh : sh' = sh
    · rw [hsh, put_self, put_self, h.fifo, List.append_assoc]
    · rw [put_ne _ hsh, put_ne _ hsh]
      exact h.fifo sh'

/-- The call has seen `done` and returns. -/
theorem Jobs.return (h : Jobs out s st)
    (hf : (s.call f).job = some j) (hdone : (s.jobs j).done = true)
    (hcall : t.call = put s.call f .idle)
    (hreturned : t.returned = put s.returned f (s.returned f ++ [(j, (s.jobs j).result)]))
    (hjobs : t.jobs = s.jobs) (hshards : t.shards = s.shards) (hcalls : t.calls = s.calls)
    (hnext : t.next = s.next) (hworkers : t.workers = s.workers) (hruns : t.runs = s.runs)
    (hwoken : t.woken = s.woken) (hsub : t.submitted = s.submitted)
    (hstart : t.started = s.started) : Jobs out t st := by
  have hcf : ∀ {k : ℕ}, k ≠ f → t.call k = s.call k := fun hk => by rw [hcall, put_ne _ hk]
  have hst : (st j).done = true := by rw [← h.done]; exact hdone
  constructor
  case young => rw [hnext]; exact h.young
  case filled =>
    intro k i hk
    have hkf : k ≠ f := by
      rintro rfl
      rw [hcall, put_self] at hk
      cases hk
    rw [hjobs]
    exact h.filled k i (by rw [← hcf hkf]; exact hk)
  case submitted =>
    intro k i hk
    have hkf : k ≠ f := by
      rintro rfl
      rw [hcall, put_self] at hk
      cases hk
    rw [hjobs]
    exact h.submitted k i (by rw [← hcf hkf]; exact hk)
  case queue => rw [hshards]; exact h.queue
  case worker => rw [hworkers]; exact h.worker
  case right => rw [hworkers, hjobs]; exact h.right
  case live =>
    intro i hi
    rw [hjobs]
    have hl := h.live i hi
    by_cases hkf : (s.jobs i).g = f
    · -- the busy job would be the one that is done
      rw [hkf, hf] at hl
      cases hl
      cases hsti : st j
      all_goals
        rw [hsti] at hi hst
        simp [Stage.busy, Stage.done] at hi hst
    · rw [hcf hkf]
      exact hl
  case done => rw [hjobs]; exact h.done
  case runs => rw [hruns]; exact h.runs
  case result => rw [hjobs]; exact h.result
  case woken => rw [hwoken, hjobs]; exact h.woken
  case calls => rw [hcalls, hjobs]; exact h.calls
  case returned =>
    intro k q hq
    rw [hreturned] at hq
    by_cases hkf : k = f
    · rw [hkf, put_self] at hq
      rcases List.mem_append.mp hq with hq | hq
      · exact h.returned f q hq
      · rw [List.mem_singleton.mp hq]
        exact ⟨hst, h.result j hst⟩
    · rw [put_ne _ hkf] at hq
      exact h.returned k q hq
  case fifo => rw [hsub, hstart, hshards]; exact h.fifo

theorem workerStep_jobs (h : Jobs out s st)
    (hs : workerStep out home s w = some t) : ∃ su, Jobs out t su := by
  have hright := h.right w
  have hstage := h.worker w
  unfold workerStep at hs
  split at hs
  case h_1 =>
    split at hs
    case h_1 => cases hs
    case h_2 j rest hhead =>
      cases hs
      exact ⟨_, h.take rfl hhead rfl rfl rfl rfl rfl rfl rfl rfl rfl rfl rfl⟩
  case h_2 j hpc =>
    rw [hpc] at hstage
    have hj := hstage j _ rfl
    cases hs
    refine ⟨_, h.advance (v := .held w false) (r := s.jobs j) rfl (by rw [hpc, hj]; rfl) rfl ?_ rfl
      ?_ rfl ?_ (by rintro ⟨⟩) (fun _ => by rw [hj]; rfl) (fun hd => by rw [hj] at hd; exact hd)
      (.inl rfl) ?_ (fun _ => .inl rfl) rfl rfl rfl rfl rfl rfl rfl⟩
    · intro i u hu
      cases hu
      exact ⟨rfl, rfl⟩
    · funext i
      by_cases hi : i = j
      · rw [hi, put_self]
      · rw [put_ne _ hi]
    · rw [h.done, hj]
    · funext i
      by_cases hi : i = j
      · rw [hi, put_self, h.runs, hj]
      · rw [put_ne _ hi]
  case h_3 j g hpc =>
    rw [hpc] at hstage hright
    have hj := hstage j _ rfl
    cases hs
    refine ⟨_, h.advance (v := .held w true) (r := s.jobs j) rfl (by rw [hpc, hj]; rfl) rfl ?_
      ⟨hright, rfl⟩ ?_ rfl ?_ (by rintro ⟨⟩) (fun _ => by rw [hj]; rfl)
      (fun hd => by rw [hj] at hd; exact hd) (.inl rfl) ?_ (fun _ => .inl rfl) rfl rfl rfl rfl rfl
      rfl rfl⟩
    · intro i u hu
      cases hu
      exact ⟨rfl, rfl⟩
    · funext i
      by_cases hi : i = j
      · rw [hi, put_self]
      · rw [put_ne _ hi]
    · rw [h.done, hj]
      rfl
    · rw [h.runs, hj]
      rfl
  case h_4 j g v hpc =>
    rw [hpc] at hstage hright
    have hj := hstage j _ rfl
    cases hs
    refine ⟨_, h.advance (v := .held w true) rfl (by rw [hpc, hj]; rfl) rfl ?_ ?_ rfl rfl ?_ (by rintro ⟨⟩)
      (fun _ => by rw [hj]; rfl) (fun hd => by rw [hj] at hd; exact hd) (.inl rfl) ?_
      (fun _ => .inl rfl) rfl rfl rfl rfl rfl rfl rfl⟩
    · intro i u hu
      cases hu
      exact ⟨rfl, rfl⟩
    · dsimp only [Worker.Right]
      rw [put_self, hright.2]
      exact ⟨hright.1, rfl⟩
    · exact (h.done j).trans (by rw [hj])
    · funext i
      by_cases hi : i = j
      · rw [hi, put_self, h.runs, hj]
      · rw [put_ne _ hi]
  case h_5 j g hpc =>
    rw [hpc] at hstage hright
    have hj := hstage j _ rfl
    cases hs
    refine ⟨_, h.advance (v := .published w) rfl (by rw [hpc, hj]; rfl) rfl ?_ ?_ rfl rfl rfl
      (fun _ => hright.2) (by rintro ⟨⟩) (fun _ => rfl) (.inr rfl) ?_ (fun _ => .inl rfl) rfl rfl rfl rfl
      rfl rfl rfl⟩
    · intro i u hu
      cases hu
      exact ⟨rfl, rfl⟩
    · dsimp only [Worker.Right]
      rw [put_self]
      exact hright.1
    · funext i
      by_cases hi : i = j
      · rw [hi, put_self, h.runs, hj]
        rfl
      · rw [put_ne _ hi]
  case h_6 j g hpc =>
    rw [hpc] at hstage hright
    have hj := hstage j _ rfl
    obtain ⟨p, hp, rfl⟩ := Option.map_eq_some_iff.mp hs
    refine ⟨_, h.advance (v := .woken) (r := s.jobs j) rfl (by rw [hpc, hj]; rfl) rfl (by rintro _ _ ⟨⟩) trivial
      ?_ rfl ?_ (fun _ => h.result j (by rw [hj]; rfl)) (by rintro ⟨⟩) (fun _ => rfl) (.inr rfl) ?_ ?_ rfl
      rfl rfl rfl rfl rfl rfl⟩
    · funext i
      by_cases hi : i = j
      · rw [hi, put_self]
      · rw [put_ne _ hi]
    · rw [h.done, hj]
      rfl
    · funext i
      by_cases hi : i = j
      · rw [hi, put_self, h.runs, hj]
        rfl
      · rw [put_ne _ hi]
    · intro f
      by_cases hf : f = g
      · subst hf
        right
        exact ⟨rfl, hright, put_self _ _ _⟩
      · left
        exact put_ne _ hf _
  case h_7 g i hpc =>
    split at hs
    case isTrue =>
      cases hs
      refine ⟨st, h.young, h.filled, h.submitted, h.queue, ?_, ?_, h.live, h.done, h.runs,
        h.result, h.woken, h.calls, h.returned, h.fifo⟩
      · intro w' j v hv
        dsimp only at hv
        by_cases hw : w' = w
        · rw [hw, put_self] at hv
          cases hv
        · rw [put_ne _ hw] at hv
          exact h.worker w' j v hv
      · intro w'
        dsimp only
        by_cases hw : w' = w
        · rw [hw, put_self]
          trivial
        · rw [put_ne _ hw]
          exact h.right w'
    case isFalse => cases hs

/-- **Step lemma** for the jobs. -/
theorem step_jobs {a : Action} (h : ∃ st, Jobs out s st)
    (hs : step out home s a = some t) : ∃ st, Jobs out t st := by
  obtain ⟨st, h⟩ := h
  have hfiber : ∀ {u : State}, u.next = s.next → u.jobs = s.jobs → u.shards = s.shards →
      u.workers = s.workers → u.runs = s.runs → u.woken = s.woken → u.calls = s.calls →
      u.returned = s.returned → u.submitted = s.submitted → u.started = s.started →
      u.call = s.call → ∃ st, Jobs out u st := by
    intro u h1 h2 h3 h4 h5 h6 h7 h8 h9 h10 h11
    refine ⟨st, h.same h1 h2 h3 h4 h5 h6 h7 h8 h9 h10 ?_ ?_⟩
    · rw [h11]
      exact fun f j hf => hf
    · rw [h11]
      exact fun f => rfl
  cases a with
  | submit f =>
    dsimp only [step] at hs
    split at hs
    case h_1 hidle =>
      cases hs
      exact ⟨_, h.submit rfl hidle rfl rfl rfl rfl rfl rfl rfl rfl rfl rfl rfl⟩
    case h_2 => cases hs
  | enqueue f sh =>
    dsimp only [step] at hs
    split at hs
    case h_1 j hf =>
      cases hs
      exact ⟨_, h.enqueue rfl hf rfl rfl rfl rfl rfl rfl rfl rfl rfl rfl rfl⟩
    case h_2 => cases hs
  | fiber f =>
    dsimp only [step] at hs
    unfold fiberStep at hs
    -- only the call of `f` moves, and it keeps its job
    have hcall : ∀ {u : State} {c : Call} {j : ℕ}, (s.call f).job = some j → c.job = some j →
        u.next = s.next → u.jobs = s.jobs → u.shards = s.shards →
        u.workers = s.workers → u.runs = s.runs → u.woken = s.woken → u.calls = s.calls →
        u.returned = s.returned → u.submitted = s.submitted → u.started = s.started →
        u.call = put s.call f c → ∃ st, Jobs out u st := by
      intro u c j hj hc h1 h2 h3 h4 h5 h6 h7 h8 h9 h10 h11
      refine ⟨st, h.same h1 h2 h3 h4 h5 h6 h7 h8 h9 h10 ?_ ?_⟩
      · intro k i hk
        rw [h11] at hk
        by_cases hkf : k = f
        · rw [hkf, put_self] at hk
          rw [hk] at hc
          cases hc
        · rw [put_ne _ hkf] at hk
          exact hk
      · intro k
        rw [h11]
        by_cases hkf : k = f
        · rw [hkf, put_self, hj, hc]
        · rw [put_ne _ hkf]
    split at hs
    case h_1 j hf =>
      obtain ⟨p, -, rfl⟩ := Option.map_eq_some_iff.mp hs
      exact hcall (by rw [hf]; rfl) rfl rfl rfl rfl rfl rfl rfl rfl rfl rfl rfl rfl
    case h_2 j hf =>
      split at hs
      case isTrue =>
        split at hs
        case isTrue hdone =>
          cases hs
          exact ⟨st, h.return (by rw [hf]; rfl) hdone rfl rfl rfl rfl rfl rfl rfl rfl rfl rfl rfl⟩
        case isFalse =>
          cases hs
          exact hcall (by rw [hf]; rfl) rfl rfl rfl rfl rfl rfl rfl rfl rfl rfl rfl rfl
      case isFalse =>
        obtain ⟨p, -, rfl⟩ := Option.map_eq_some_iff.mp hs
        exact hfiber rfl rfl rfl rfl rfl rfl rfl rfl rfl rfl rfl
    case h_3 => cases hs
  | wake f =>
    dsimp only [step] at hs
    obtain ⟨p, -, rfl⟩ := Option.map_eq_some_iff.mp hs
    exact hfiber rfl rfl rfl rfl rfl rfl rfl rfl rfl rfl rfl
  | claimer f i =>
    dsimp only [step] at hs
    obtain ⟨p, -, rfl⟩ := Option.map_eq_some_iff.mp hs
    exact hfiber rfl rfl rfl rfl rfl rfl rfl rfl rfl rfl rfl
  | worker w => exact workerStep_jobs h hs

/-! ## The fibers -/

/-- Each fiber runs the park/wake handshake. It parks only in a call, every call
that returned has parked, and its wakes are the unrelated ones and one for each
job whose worker has woken it. -/
structure Fibers (s : State) : Prop where
  reach : ∀ f, Reachable ParkWake.system (s.fiber f)
  running : ∀ f, (∀ j, s.call f ≠ .parking j) → (s.fiber f).pc = .running
  wakes : ∀ f, (s.fiber f).wakes = s.unrelated f + (s.woken f).length
  count : ∀ f, (s.calls f).length = (s.returned f).length + if s.call f = .idle then 0 else 1
  parks : ∀ f, (s.returned f).length ≤ (s.fiber f).park ∧
    ∀ j, s.call f = .parking j → (s.returned f).length < (s.fiber f).park

/-- An access of the handshake by one fiber. -/
theorem Fibers.move (h : Fibers s)
    {b : ParkWake.Action} (hp : ParkWake.step (s.fiber f) b = some p)
    (hfiber : t.fiber = put s.fiber f p) (hcall : t.call = s.call)
    (hcalls : t.calls = s.calls) (hreturned : t.returned = s.returned)
    (hpc : p.pc = .running ∨ ∃ j, s.call f = .parking j) (hpark : (s.fiber f).park ≤ p.park)
    (hwakes : ∀ k, (t.fiber k).wakes = t.unrelated k + (t.woken k).length) : Fibers t := by
  have hself : t.fiber f = p := by rw [hfiber, put_self]
  have hother : ∀ {k : ℕ}, k ≠ f → t.fiber k = s.fiber k := fun hk => by rw [hfiber, put_ne _ hk]
  constructor
  case reach =>
    intro k
    by_cases hk : k = f
    · rw [hk, hself]
      exact (h.reach f).next hp
    · rw [hother hk]
      exact h.reach k
  case running =>
    intro k hk
    rw [hcall] at hk
    by_cases hkf : k = f
    · rw [hkf, hself]
      refine hpc.resolve_right fun ⟨j, hj⟩ => ?_
      exact hk j (hkf ▸ hj)
    · rw [hother hkf]
      exact h.running k hk
  case wakes => exact hwakes
  case count => rw [hcalls, hreturned, hcall]; exact h.count
  case parks =>
    intro k
    rw [hreturned, hcall]
    obtain ⟨hle, hlt⟩ := h.parks k
    by_cases hk : k = f
    · subst hk
      rw [hself]
      exact ⟨Nat.le_trans hle hpark, fun j hj => Nat.lt_of_lt_of_le (hlt j hj) hpark⟩
    · rw [hother hk]
      exact ⟨hle, hlt⟩

/-- A step of one fiber's call that is not inside the handshake. -/
theorem Fibers.setCall (h : Fibers s) {c : Call}
    (hfiber : t.fiber = s.fiber) (hcall : t.call = put s.call f c)
    (hunrelated : t.unrelated = s.unrelated) (hwoken : t.woken = s.woken)
    (hpc : (s.fiber f).pc = .running) (hc : ∀ j, c ≠ .parking j)
    (hcalls : ∀ k, k ≠ f → t.calls k = s.calls k)
    (hreturned : ∀ k, k ≠ f → t.returned k = s.returned k)
    (hcount : (t.calls f).length = (t.returned f).length + if c = .idle then 0 else 1)
    (hpark : (t.returned f).length ≤ (s.fiber f).park) : Fibers t := by
  have hother : ∀ {k : ℕ}, k ≠ f → t.call k = s.call k := fun hk => by rw [hcall, put_ne _ hk]
  have hself : t.call f = c := by rw [hcall, put_self]
  constructor
  case reach => rw [hfiber]; exact h.reach
  case running =>
    intro k hk
    rw [hfiber]
    by_cases hkf : k = f
    · rw [hkf]
      exact hpc
    · exact h.running k (by rw [← hother hkf]; exact hk)
  case wakes => rw [hfiber, hunrelated, hwoken]; exact h.wakes
  case count =>
    intro k
    by_cases hkf : k = f
    · rw [hkf, hself]
      exact hcount
    · rw [hcalls k hkf, hreturned k hkf, hother hkf]
      exact h.count k
  case parks =>
    intro k
    rw [hfiber]
    by_cases hkf : k = f
    · rw [hkf, hself]
      exact ⟨hpark, fun j hj => absurd hj (hc j)⟩
    · rw [hreturned k hkf, hother hkf]
      exact h.parks k

theorem wake_frame (h : ParkWake.step p .wake = some q) :
    q.pc = p.pc ∧ q.park = p.park ∧ q.wakes = p.wakes + 1 := by
  cases h
  exact ⟨rfl, rfl, rfl⟩

theorem claimer_frame {i : ℕ}
    (h : ParkWake.step p (.claimer i) = some q) :
    q.pc = p.pc ∧ q.park = p.park ∧ q.wakes = p.wakes := by
  dsimp only [ParkWake.step] at h
  unfold ParkWake.claimerStep at h
  split at h
  case h_1 =>
    split at h
    all_goals
      cases h
      exact ⟨rfl, rfl, rfl⟩
  case h_2 =>
    cases h
    exact ⟨rfl, rfl, rfl⟩
  case h_3 => cases h

theorem fiber_frame (h : ParkWake.step p .fiber = some q) :
    q.park = p.park ∧ q.wakes = p.wakes := by
  dsimp only [ParkWake.step] at h
  unfold ParkWake.fiberStep at h
  split at h
  case h_6 =>
    split at h
    all_goals
      cases h
      exact ⟨rfl, rfl⟩
  case h_9 =>
    split at h
    all_goals cases h
    exact ⟨rfl, rfl⟩
  all_goals
    cases h <;> exact ⟨rfl, rfl⟩

/-- **Step lemma** for the fibers. -/
theorem step_fibers {a : Action} (h : Fibers s)
    (hs : step out home s a = some t) : Fibers t := by
  have hkeep : ∀ {p : ParkWake.State} {f k : ℕ}, p.wakes = (s.fiber f).wakes →
      (put s.fiber f p k).wakes = s.unrelated k + (s.woken k).length := by
    intro p f k hp
    by_cases hk : k = f
    · rw [hk, put_self, hp]
      exact h.wakes f
    · rw [put_ne _ hk]
      exact h.wakes k
  have hidle : ∀ {f : ℕ}, (∀ j, s.call f ≠ .parking j) → (s.fiber f).pc = .running :=
    fun hf => h.running _ hf
  have hbusy : ∀ {p : ParkWake.State} {f : ℕ}, p.pc = (s.fiber f).pc →
      p.pc = .running ∨ ∃ j, s.call f = .parking j := by
    intro p f hp
    by_cases hj : ∃ j, s.call f = .parking j
    · exact .inr hj
    · rw [hp]
      exact .inl (h.running f fun j hf => hj ⟨j, hf⟩)
  cases a with
  | submit f =>
    dsimp only [step] at hs
    split at hs
    case h_1 hf =>
      cases hs
      refine h.setCall rfl rfl rfl rfl (hidle (by rw [hf]; rintro _ ⟨⟩)) (by rintro _ ⟨⟩)
        (fun k hk => put_ne _ hk _) (fun k hk => rfl) ?_ (h.parks f).1
      have := h.count f
      rw [hf, if_pos rfl] at this
      simp only [put_self, List.length_append, List.length_singleton]
      rw [if_neg (by rintro ⟨⟩)]
      omega
    case h_2 => cases hs
  | enqueue f sh =>
    dsimp only [step] at hs
    split at hs
    case h_1 j hf =>
      cases hs
      refine h.setCall rfl rfl rfl rfl (hidle (by rw [hf]; rintro _ ⟨⟩)) (by rintro _ ⟨⟩)
        (fun k hk => rfl) (fun k hk => rfl) ?_ (h.parks f).1
      have := h.count f
      rw [hf, if_neg (by rintro ⟨⟩)] at this
      rw [if_neg (by rintro ⟨⟩)]
      exact this
    case h_2 => cases hs
  | fiber f =>
    dsimp only [step] at hs
    unfold fiberStep at hs
    split at hs
    case h_1 j hf =>
      obtain ⟨p, hp, rfl⟩ := Option.map_eq_some_iff.mp hs
      have hcall : ∀ {k : ℕ}, k ≠ f → put s.call f (.parking j) k = s.call k :=
        fun hk => put_ne _ hk _
      have hent : p.park = (s.fiber f).park + 1 ∧ p.wakes = (s.fiber f).wakes := by
        dsimp only [ParkWake.step] at hp
        split at hp
        · cases hp
          exact ⟨rfl, rfl⟩
        · cases hp
      constructor
      case reach =>
        intro k
        dsimp only
        by_cases hk : k = f
        · rw [hk, put_self]
          exact (h.reach f).next (a := .park) hp
        · rw [put_ne _ hk]
          exact h.reach k
      case running =>
        intro k hk
        dsimp only at hk ⊢
        by_cases hkf : k = f
        · rw [hkf, put_self] at hk
          exact absurd rfl (hk j)
        · rw [hcall hkf] at hk
          rw [put_ne _ hkf]
          exact h.running k hk
      case wakes => exact fun k => hkeep hent.2
      case count =>
        intro k
        dsimp only
        have := h.count k
        by_cases hkf : k = f
        · subst hkf
          simpa [hf] using this
        · simpa [hcall hkf] using this
      case parks =>
        intro k
        dsimp only
        obtain ⟨hle, hlt⟩ := h.parks k
        by_cases hkf : k = f
        · subst hkf
          rw [put_self, hent.1]
          exact ⟨by omega, fun _ _ => by omega⟩
        · rw [put_ne _ hkf, hcall hkf]
          exact ⟨hle, hlt⟩
    case h_2 j hf =>
      split at hs
      case isTrue hpc =>
        have hlt := (h.parks f).2 j hf
        have hcount := h.count f
        rw [hf, if_neg (by rintro ⟨⟩)] at hcount
        split at hs
        case isTrue =>
          cases hs
          refine h.setCall rfl rfl rfl rfl hpc (by rintro _ ⟨⟩) (fun k hk => rfl)
            (fun k hk => put_ne _ hk _) ?_ ?_
          · simp only [put_self, List.length_append, List.length_singleton, if_true]
            omega
          · simp only [put_self, List.length_append, List.length_singleton]
            omega
        case isFalse =>
          cases hs
          refine h.setCall rfl rfl rfl rfl hpc (by rintro _ ⟨⟩) (fun k hk => rfl) (fun k hk => rfl) ?_
            (h.parks f).1
          rw [if_neg (by rintro ⟨⟩)]
          exact hcount
      case isFalse =>
        obtain ⟨p, hp, rfl⟩ := Option.map_eq_some_iff.mp hs
        obtain ⟨hpark, hw⟩ := fiber_frame hp
        exact h.move hp rfl rfl rfl rfl (.inr ⟨j, hf⟩) (Nat.le_of_eq hpark.symm)
          (fun k => hkeep hw)
    case h_3 => cases hs
  | wake f =>
    dsimp only [step] at hs
    obtain ⟨p, hp, rfl⟩ := Option.map_eq_some_iff.mp hs
    obtain ⟨hpc, hpark, hw⟩ := wake_frame hp
    refine h.move hp rfl rfl rfl rfl (hbusy hpc) (Nat.le_of_eq hpark.symm) ?_
    intro k
    dsimp only
    by_cases hk : k = f
    · rw [hk, put_self, put_self, hw, h.wakes f]
      omega
    · rw [put_ne _ hk, put_ne _ hk]
      exact h.wakes k
  | claimer f i =>
    dsimp only [step] at hs
    obtain ⟨p, hp, rfl⟩ := Option.map_eq_some_iff.mp hs
    obtain ⟨hpc, hpark, hw⟩ := claimer_frame hp
    exact h.move hp rfl rfl rfl rfl (hbusy hpc) (Nat.le_of_eq hpark.symm) (fun k => hkeep hw)
  | worker w =>
    have hsame : ∀ {u : State}, u.fiber = s.fiber → u.call = s.call → u.unrelated = s.unrelated →
        u.woken = s.woken → u.calls = s.calls → u.returned = s.returned → Fibers u := by
      intro u h1 h2 h3 h4 h5 h6
      refine ⟨?_, ?_, ?_, ?_, ?_⟩
      · rw [h1]
        exact h.reach
      · rw [h1, h2]
        exact h.running
      · rw [h1, h3, h4]
        exact h.wakes
      · rw [h2, h5, h6]
        exact h.count
      · rw [h1, h2, h6]
        exact h.parks
    dsimp only [step] at hs
    unfold workerStep at hs
    split at hs
    case h_1 =>
      split at hs
      case h_1 => cases hs
      case h_2 =>
        cases hs
        exact hsame rfl rfl rfl rfl rfl rfl
    case h_6 j g hpc =>
      obtain ⟨p, hp, rfl⟩ := Option.map_eq_some_iff.mp hs
      obtain ⟨hpc', hpark, hw⟩ := wake_frame hp
      refine h.move hp rfl rfl rfl rfl (hbusy hpc') (Nat.le_of_eq hpark.symm) ?_
      intro k
      dsimp only
      by_cases hk : k = g
      · rw [hk, put_self, put_self, hw, h.wakes g, List.length_append, List.length_singleton]
        omega
      · rw [put_ne _ hk, put_ne _ hk]
        exact h.wakes k
    case h_7 =>
      split at hs
      case isTrue =>
        cases hs
        exact hsame rfl rfl rfl rfl rfl rfl
      case isFalse => cases hs
    all_goals
      cases hs
      exact hsame rfl rfl rfl rfl rfl rfl

/-! ## Credits -/

/-- Whoever has been claimed has a credit to eat, and every park that is over has
eaten one. -/
structure Paid (p : ParkWake.State) : Prop where
  fed : p.pc.announced = true ∧ p.parkedSafe = false ∨ p.pc = .resumed → 0 < p.wakePending
  paid : p.eaten + (if p.pc = .running then 0 else 1) = p.park

theorem Paid.park (h : Paid p) (hs : ParkWake.step p .park = some q) :
    Paid q := by
  dsimp only [ParkWake.step] at hs
  split at hs
  case isTrue hpc =>
    cases hs
    have := h.paid
    rw [if_pos hpc] at this
    refine ⟨?_, ?_⟩
    · rintro (⟨ha, -⟩ | hr)
      · cases ha
      · cases hr
    · simp [ParkWake.State.enterPark]
      omega
  case isFalse => cases hs

theorem Paid.wake (h : Paid p) (hs : ParkWake.step p .wake = some q) :
    Paid q := by
  cases hs
  refine ⟨fun hc => ?_, h.paid⟩
  have := h.fed hc
  dsimp only
  omega

/-- A waker wins only with a credit that is still there. -/
theorem Paid.claimer {i : ℕ} (h : Paid p)
    (hok : ∀ src, p.claimers[i]? = some (.claim src) → p.parkedSafe = true → 0 < p.wakePending)
    (hs : ParkWake.step p (.claimer i) = some q) : Paid q := by
  dsimp only [ParkWake.step] at hs
  unfold ParkWake.claimerStep at hs
  split at hs
  case h_1 src hget =>
    split at hs
    case isTrue hps =>
      cases hs
      exact ⟨fun _ => hok src hget hps, h.paid⟩
    case isFalse =>
      cases hs
      exact ⟨h.fed, h.paid⟩
  case h_2 =>
    cases hs
    exact ⟨h.fed, h.paid⟩
  case h_3 => cases hs

/-- The fiber comes back from a park only by eating a credit. -/
theorem Paid.fiber (h : Paid p) (hc : ParkWake.OneClaim p)
    (hs : ParkWake.step p .fiber = some q) : Paid q := by
  obtain ⟨hfed, hpaid⟩ := h
  have heat : ∀ {r : ParkWake.State}, r = p.eatWake → p.pc ≠ .running → Paid r := by
    rintro r rfl hpc
    rw [if_neg hpc] at hpaid
    refine ⟨?_, ?_⟩
    · rintro (⟨ha, -⟩ | hr)
      · cases ha
      · cases hr
    · simpa [ParkWake.State.eatWake] using hpaid
  dsimp only [ParkWake.step] at hs
  unfold ParkWake.fiberStep at hs
  split at hs
  case h_1 => cases hs
  case h_2 hpc =>
    cases hs
    rw [hpc, if_neg (by rintro ⟨⟩)] at hpaid
    refine ⟨?_, ?_⟩
    · dsimp only
      split <;> simp [ParkWake.FiberPc.announced]
    · dsimp only
      split <;> exact hpaid
  case h_3 hpc =>
    cases hs
    exact heat rfl (by rw [hpc]; rintro ⟨⟩)
  case h_4 hpc =>
    cases hs
    rw [hpc, if_neg (by rintro ⟨⟩)] at hpaid
    refine ⟨?_, hpaid⟩
    rintro (⟨-, hf⟩ | hr)
    · cases hf
    · cases hr
  case h_5 hpc =>
    cases hs
    rw [hpc, if_neg (by rintro ⟨⟩)] at hpaid
    refine ⟨?_, ?_⟩
    · intro hor
      apply hfed
      rw [hpc]
      left
      refine ⟨rfl, ?_⟩
      rcases hor with ⟨-, hf⟩ | hr
      · exact hf
      · dsimp only at hr
        split at hr <;> cases hr
    · dsimp only
      split <;> exact hpaid
  case h_6 hpc =>
    rw [hpc] at hfed
    rw [hpc, if_neg (by rintro ⟨⟩)] at hpaid
    split at hs
    case isTrue =>
      cases hs
      refine ⟨?_, hpaid⟩
      rintro (⟨ha, -⟩ | hr)
      · cases ha
      · cases hr
    case isFalse hps =>
      cases hs
      refine ⟨fun _ => hfed (.inl ⟨rfl, ?_⟩), hpaid⟩
      simpa using hps
  case h_7 hpc =>
    cases hs
    exact heat rfl (by rw [hpc]; rintro ⟨⟩)
  case h_8 hpc =>
    cases hs
    rw [hpc] at hfed
    rw [hpc, if_neg (by rintro ⟨⟩)] at hpaid
    refine ⟨?_, hpaid⟩
    rintro (⟨-, hf⟩ | hr)
    · exact hfed (.inl ⟨rfl, hf⟩)
    · cases hr
  case h_9 hpc =>
    split at hs
    case isTrue hq =>
      cases hs
      rw [hpc] at hfed
      rw [hpc, if_neg (by rintro ⟨⟩)] at hpaid
      -- the entry in the queue says that the park was claimed
      have hclaimed : p.parkedSafe = false := by
        have := hc.count
        rw [hpc] at this
        by_contra hps
        simp only [Bool.not_eq_false] at hps
        simp [ParkWake.FiberPc.announced, hps] at this
        omega
      exact ⟨fun _ => hfed (.inl ⟨rfl, hclaimed⟩), hpaid⟩
    case isFalse => cases hs
  case h_10 hpc =>
    cases hs
    have hpos := hfed (.inr hpc)
    rw [hpc, if_neg (by rintro ⟨⟩)] at hpaid
    rw [if_pos hpos]
    refine ⟨?_, hpaid⟩
    rintro (⟨ha, -⟩ | hr)
    · cases ha
    · cases hr
  case h_11 hpc =>
    cases hs
    exact heat rfl (by rw [hpc]; rintro ⟨⟩)

/-- **Step lemma** for the credits. -/
theorem step_paid {a : Action} (hf : Fibers s)
    (h : ∀ f, Paid (s.fiber f)) (hok : overdrawn s a = false)
    (hs : step out home s a = some t) : ∀ f, Paid (t.fiber f) := by
  have hput : ∀ {p : ParkWake.State} {f : ℕ}, Paid p → ∀ k, Paid (put s.fiber f p k) := by
    intro p f hp k
    by_cases hk : k = f
    · rw [hk, put_self]
      exact hp
    · rw [put_ne _ hk]
      exact h k
  cases a with
  | submit f =>
    dsimp only [step] at hs
    split at hs
    · cases hs
      exact h
    · cases hs
  | enqueue f sh =>
    dsimp only [step] at hs
    split at hs
    · cases hs
      exact h
    · cases hs
  | fiber f =>
    dsimp only [step] at hs
    unfold fiberStep at hs
    split at hs
    case h_1 =>
      obtain ⟨p, hp, rfl⟩ := Option.map_eq_some_iff.mp hs
      exact hput ((h f).park hp)
    case h_2 =>
      split at hs
      case isTrue =>
        split at hs
        all_goals
          cases hs
          exact h
      case isFalse =>
        obtain ⟨p, hp, rfl⟩ := Option.map_eq_some_iff.mp hs
        exact hput ((h f).fiber (ParkWake.reachable_oneClaim (hf.reach f)) hp)
    case h_3 => cases hs
  | wake f =>
    dsimp only [step] at hs
    obtain ⟨p, hp, rfl⟩ := Option.map_eq_some_iff.mp hs
    exact hput ((h f).wake hp)
  | claimer f i =>
    dsimp only [step] at hs
    obtain ⟨p, hp, rfl⟩ := Option.map_eq_some_iff.mp hs
    refine hput ((h f).claimer ?_ hp)
    intro src hget hps
    simp only [overdrawn, hget, hps, Bool.true_and, decide_eq_false_iff_not] at hok
    omega
  | worker w =>
    dsimp only [step] at hs
    unfold workerStep at hs
    split at hs
    case h_1 =>
      split at hs
      · cases hs
      · cases hs
        exact h
    case h_6 =>
      obtain ⟨p, hp, rfl⟩ := Option.map_eq_some_iff.mp hs
      exact hput ((h _).wake hp)
    case h_7 =>
      split at hs
      · cases hs
        exact h
      · cases hs
    all_goals
      cases hs
      exact h

/-! ## The hand-off -/

theorem init_jobs (out : ℕ → ℕ) : Jobs out init fun _ => .unborn := by
  constructor
  case young => exact fun _ _ => rfl
  case filled => rintro _ _ ⟨⟩
  case submitted => rintro _ _ ⟨⟩
  case queue => exact fun _ => ⟨List.nodup_nil, by rintro _ ⟨⟩⟩
  case worker => rintro _ _ _ ⟨⟩
  case right => exact fun _ => trivial
  case live => rintro _ ⟨⟩
  case done => exact fun _ => rfl
  case runs => exact fun _ => rfl
  case result => rintro _ ⟨⟩
  case woken => exact fun _ => ⟨List.nodup_nil, by rintro _ ⟨⟩⟩
  case calls => exact fun _ _ h => absurd rfl h
  case returned => rintro _ _ ⟨⟩
  case fifo => exact fun _ => rfl

theorem init_fibers : Fibers init :=
  ⟨fun _ => .start rfl, fun _ _ => rfl, fun _ => rfl, fun _ => rfl, fun _ => ⟨Nat.le_refl _, by rintro _ ⟨⟩⟩⟩

theorem reachable_jobs (hr : Reachable (system out home) s) :
    ∃ st, Jobs out s st := by
  induction hr with
  | start hs =>
    cases hs
    exact ⟨_, init_jobs out⟩
  | next _ hs ih => exact step_jobs ih hs

theorem reachable_fibers
    (hr : Reachable (system out home) s) : Fibers s := by
  induction hr with
  | start hs =>
    cases hs
    exact init_fibers
  | next _ hs ih => exact step_fibers ih hs

theorem reachable_paid (hr : Reachable (funded out home) s) :
    ∀ f, Paid (s.fiber f) := by
  induction hr with
  | start hs =>
    cases hs
    exact fun f => ⟨by rintro (⟨ha, -⟩ | hr) <;> contradiction, rfl⟩
  | next hr hs ih =>
    obtain ⟨hok, hst⟩ := System.restrict_step.mp hs
    exact step_paid (reachable_fibers hr.of_restrict) ih hok hst

/-- The record of job `j` is on the stack of a call that has not returned. -/
def Alive (s : State) (j : ℕ) : Prop := (s.call (s.jobs j).g).job = some j

/-- What `runloom_blocking_call` promises. -/
structure HandedOff (out : ℕ → ℕ) (s : State) : Prop where
  once : ∀ j, s.runs j ≤ 1
  returned : ∀ f p, p ∈ s.returned f → s.runs p.1 = 1 ∧ p.2 = some (out p.1)
  /-- a worker reads or writes the record only while the call waits for it, and so
  do the queue's operations on the records that are linked in it -/
  touches : ∀ w j, (s.workers w).touches = some j → Alive s j
  linked : ∀ sh j, j ∈ s.shards sh → Alive s j
  order : ∀ sh, s.started sh <+: s.submitted sh
  nonneg : ∀ f, 0 ≤ (s.fiber f).wakePending
  /-- no credit of a worker is left behind -/
  settled : ∀ f, s.call f = .idle → (s.fiber f).wakePending ≤ s.unrelated f

theorem Worker.stage_of_touches {p : Worker} (h : p.touches = some j) :
    ∃ b, p.stage w = some (j, .held w b) := by
  unfold Worker.touches at h
  split at h
  case h_5 => cases h
  all_goals
    cases h
    exact ⟨_, rfl⟩

end Stackweave.Blockpool
