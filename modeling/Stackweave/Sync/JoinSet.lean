import Mathlib.Data.List.Range
import Mathlib.Data.List.Perm.Basic
import Stackweave.Sync.WaitGroup

/-!
# `JoinSet` (`sync.py`)

One caller spawns tasks and then joins them, with `join_all` or by leaving the `with` block.
`spawn` makes the slots of the task and counts it in the `WaitGroup` before it spawns the
fiber, and that spawn may raise. In the `WaitGroup` the caller is 0 and task `i` is `i + 1`.
-/

namespace Stackweave.Sync.JoinSet

open Transition Function

variable {V E : Type}

/-- What the function of a task does. -/
inductive Outcome (V E : Type)
  | value (v : V)
  | error (e : E)

def Outcome.value? : Option (Outcome V E) → Option V
  | some (.value v) => some v
  | _ => none

def Outcome.error? : Option (Outcome V E) → Option E
  | some (.error e) => some e
  | _ => none

/-- `join_all`, or `__exit__` with or without an exception of the body. -/
inductive Mode
  | joinAll
  | exit (bodyRaised : Bool)
  deriving DecidableEq

inductive Result (V E : Type)
  | returned (results : List (Option V))
  | raised (e : E)
  | exited
  deriving DecidableEq

/-- What follows the `wait`. -/
def conclude (m : Mode) (results : List (Option V)) (errs : List (Option E)) : Result V E :=
  match m with
  | .joinAll =>
    match errs.findSome? id with
    | some e => .raised e
    | none => .returned results
  | .exit true => .exited
  | .exit false =>
    match errs.findSome? id with
    | some e => .raised e
    | none => .exited

/-- Where the caller is: in the body of the program, in `spawn` before `add` and before the
spawn of the fiber, in `wait`, or past the join. -/
inductive Owner (V E : Type)
  | body
  | adding (i : ℕ)
  | spawning (i : ℕ)
  | joining (m : Mode)
  | joined (m : Mode) (r : Result V E)
  deriving DecidableEq

inductive Task
  | absent
  | running
  /-- its slot is written -/
  | finishing
  /-- in its `done`, or past it -/
  | leaving
  deriving DecidableEq

/-- History: the tasks whose fibers were spawned, and what their functions did. -/
structure State (V E : Type) where
  wg : WaitGroup.State
  n : ℕ
  results : List (Option V)
  errs : List (Option E)
  owner : Owner V E
  task : ℕ → Task
  spawned : List ℕ
  outcome : ℕ → Option (Outcome V E)

def init : State V E :=
  { wg := WaitGroup.init, n := 0, results := [], errs := [], owner := .body
    task := fun _ => .absent, spawned := [], outcome := fun _ => none }

/-- `start` is the spawn of the fiber, which raises when `ok` is false. `wait` is a step of a
call into the `WaitGroup`. -/
inductive Action (V E : Type)
  | spawn
  | add
  | start (ok : Bool)
  | join (m : Mode)
  | conclude
  | run (i : ℕ) (o : Outcome V E)
  | done (i : ℕ)
  | call (f : ℕ)
  | resume (f : ℕ)
  | spurious (f : ℕ)

/-- The write of the runner to its slot. -/
def State.write (s : State V E) (i : ℕ) (o : Outcome V E) : State V E :=
  { s with
    results := match o with
      | .value v => s.results.set i (some v)
      | .error _ => s.results
    errs := match o with
      | .value _ => s.errs
      | .error e => s.errs.set i (some e)
    task := Function.update s.task i .finishing
    outcome := Function.update s.outcome i (some o) }

/-- `foreign` says whether the caller is a foreign thread. -/
@[grind =]
def step (foreign : Bool) (s : State V E) : Action V E → Option (State V E)
  | .spawn =>
    match s.owner with
    | .body =>
      some { s with
        n := s.n + 1
        results := s.results ++ [none]
        errs := s.errs ++ [none]
        owner := .adding s.n }
    | _ => none
  | .add =>
    match s.owner with
    | .adding i =>
      (WaitGroup.step (fun f => f == 0 && foreign) s.wg (.add 0 1)).map fun wg =>
        { s with wg, owner := .spawning i }
    | _ => none
  | .start ok =>
    match s.owner with
    | .spawning i =>
      if ok then
        some { s with
          owner := .body
          task := Function.update s.task i .running
          spawned := s.spawned ++ [i] }
      else some { s with owner := .body }
    | _ => none
  | .join m =>
    match s.owner with
    | .body =>
      (WaitGroup.step (fun f => f == 0 && foreign) s.wg (.wait 0)).map fun wg =>
        { s with wg, owner := .joining m }
    | _ => none
  | .conclude =>
    match s.owner with
    | .joining m =>
      if s.wg.pc 0 = .returned then
        some { s with owner := .joined m (JoinSet.conclude m s.results s.errs) }
      else none
    | _ => none
  | .run i o => if s.task i = .running then some (s.write i o) else none
  | .done i =>
    if s.task i = .finishing then
      (WaitGroup.step (fun f => f == 0 && foreign) s.wg (.add (i + 1) (-1))).map fun wg =>
        { s with wg, task := Function.update s.task i .leaving }
    else none
  | .call f => (WaitGroup.fiberStep s.wg f).map fun wg => { s with wg }
  | .resume f =>
    (WaitGroup.step (fun f => f == 0 && foreign) s.wg (.resume f)).map fun wg => { s with wg }
  | .spurious f =>
    (WaitGroup.step (fun f => f == 0 && foreign) s.wg (.spurious f)).map fun wg => { s with wg }

def system (foreign : Bool) : System (State V E) (Action V E) where
  init s := s = init
  step := step foreign

/-- The spawn of a fiber raises. -/
def raises : Action V E → Bool
  | .start ok => !ok
  | _ => false

def soundSystem (foreign : Bool) : System (State V E) (Action V E) :=
  (system foreign).restrict fun _ a => raises a = false

/-- The task is past its `done`. -/
def State.Finished (s : State V E) (i : ℕ) : Prop :=
  s.task i = .leaving ∧ (s.wg.pc (i + 1)).rests = true

/-- Once every spawned task has finished the caller is not blocked in its `wait` without a
wake, and what it concludes is about the spawned tasks, in the order of their spawns. -/
structure Joins (s : State V E) : Prop where
  freed : ∀ m, s.owner = .joining m → (∀ i ∈ s.spawned, s.Finished i) →
    ((s.wg.pc 0).blocked = true → s.wg.woken 0 = true) ∧
      ∀ t, s.wg.pc 0 = .waiting ∨ s.wg.pc 0 = .polling → WaitGroup.fiberStep s.wg 0 = some t →
        t.pc 0 = .returned
  result : ∀ m r, s.owner = .joined m r → 
    ∃ outcomes : List (Outcome V E), s.spawned.map s.outcome = outcomes.map some ∧
      r = conclude m (outcomes.map fun o => Outcome.value? (some o))
        (outcomes.map fun o => Outcome.error? (some o))

/-! ## Calls into the `WaitGroup` -/

/-- The caller is in no `wait`. -/
@[grind =]
def awake : WaitGroup.Pc → Bool
  | .idle | .returned | .waking _ => true
  | _ => false

section Calls

variable {u w : WaitGroup.State} {f g : ℕ}

theorem fiberStep_of_ne (h : WaitGroup.fiberStep u f = some w) (hg : g ≠ f) : w.pc g = u.pc g := by
  unfold WaitGroup.fiberStep at h
  split at h <;> cases h
  all_goals exact update_of_ne hg _ _

theorem fiberStep_awake (h : WaitGroup.fiberStep u f = some w) (hf : awake (u.pc f) = true) :
    awake (w.pc f) = true := by
  unfold WaitGroup.fiberStep at h
  split at h <;> cases h
  case h_4 => simp [WaitGroup.State.goto, awake]
  case h_5 => simp [WaitGroup.State.goto, awake]
  all_goals
    next hpc =>
      rw [hpc] at hf
      cases hf

/-- A caller with no wakes to make has none afterwards, and it returns only where the
counter is zero. -/
theorem fiberStep_calm (h : WaitGroup.fiberStep u f = some w) (hf : ∀ gs, u.pc f ≠ .waking gs) :
    (∀ gs, w.pc f ≠ .waking gs) ∧ (w.pc f = .returned → u.group.n = 0) := by
  unfold WaitGroup.fiberStep at h
  split at h <;> cases h
  case h_1 =>
    simp only [WaitGroup.State.goto, update_self, WaitGroup.Group.wait]
    split
    · next hz => exact ⟨by rintro _ ⟨⟩, fun _ => hz⟩
    · exact ⟨by rintro _ ⟨⟩, by rintro ⟨⟩⟩
  case h_2 =>
    simp only [WaitGroup.State.goto, update_self, WaitGroup.Group.poll]
    split
    · next hz => exact ⟨by rintro _ ⟨⟩, fun _ => hz⟩
    · exact ⟨by rintro _ ⟨⟩, by rintro ⟨⟩⟩
  case h_3 =>
    simp only [WaitGroup.State.goto, update_self]
    exact ⟨by rintro _ ⟨⟩, by rintro ⟨⟩⟩
  case h_4 hpc => exact absurd hpc (hf _)
  case h_5 hpc => exact absurd hpc (hf _)

theorem fiberStep_counter (h : WaitGroup.fiberStep u f = some w) : w.group.n = u.group.n := by
  rcases @WaitGroup.step_counts (fun _ => false) u w (.fiber f) h with ⟨hn, -⟩ | ⟨_, _, h, -, -⟩
  · exact hn
  · cases h

theorem add_of_ne (delta : ℤ) (hg : g ≠ f) : (u.add f delta).pc g = u.pc g := by
  simp [WaitGroup.State.add, WaitGroup.State.goto, hg]

/-- What an `add` that keeps the counter at zero or above does to the pc of its caller. -/
theorem add_pc (f : ℕ) (delta : ℤ) (hpos : 0 ≤ u.group.n + delta) :
    (u.add f delta).pc f = .returned ∨
      u.group.n + delta = 0 ∧ awake ((u.add f delta).pc f) = true := by
  unfold WaitGroup.State.add WaitGroup.Group.add
  dsimp only
  rw [if_neg (Int.not_lt.mpr hpos)]
  split
  · next h => exact .inr ⟨h.1, by simp [WaitGroup.State.goto, awake]⟩
  · exact .inl (by simp [WaitGroup.State.goto])

end Calls

/-! ## The invariant -/

/-- The tasks that `spawn` is past. -/
def Owner.counted (n : ℕ) : Owner V E → ℕ
  | .adding i | .spawning i => i
  | _ => n

def Owner.spawns : Owner V E → ℕ
  | .spawning _ => 1
  | _ => 0

/-- The `wait` of the caller is over. -/
def State.Past (s : State V E) : Prop :=
  (∃ m, s.owner = .joining m ∧ s.wg.pc 0 = .returned) ∨ ∃ m r, s.owner = .joined m r

structure Calls (s : State V E) : Prop where
  inv : WaitGroup.Inv s.wg
  tasks : ∀ i, awake (s.wg.pc (i + 1)) = true
  owner : ∀ gs, s.wg.pc 0 ≠ .waking gs
  early : ∀ i, s.task i ≠ .leaving → ∀ gs, s.wg.pc (i + 1) ≠ .waking gs
  past : s.Past → s.wg.group.n = 0
  /-- the counter is the number of the tasks that are not done, and of the one being spawned -/
  counter : ∃ live : List ℕ, live.Nodup ∧
    (∀ i, i ∈ live ↔ s.task i = .running ∨ s.task i = .finishing) ∧
    s.wg.group.n = live.length + s.owner.spawns

structure Slots (s : State V E) : Prop where
  results : s.results = (List.range s.n).map fun i => Outcome.value? (s.outcome i)
  errs : s.errs = (List.range s.n).map fun i => Outcome.error? (s.outcome i)
  order : s.spawned = List.range (s.owner.counted s.n)
  current : ∀ i, s.owner = .adding i ∨ s.owner = .spawning i → s.n = i + 1
  absent : ∀ i, s.task i = .absent ↔ i ∉ s.spawned
  known : ∀ i, s.outcome i = none ↔ s.task i = .absent ∨ s.task i = .running
  result : ∀ m r, s.owner = .joined m r → r = conclude m s.results s.errs

structure Inv (s : State V E) : Prop where
  calls : Calls s
  slots : Slots s

theorem inv_init : Inv (init : State V E) where
  calls :=
    { inv := WaitGroup.inv_init, tasks := fun _ => rfl, owner := (by rintro _ ⟨⟩), early := by rintro _ _ _ ⟨⟩
      past := fun _ => rfl, counter := ⟨[], List.nodup_nil, by simp [init], rfl⟩ }
  slots :=
    { results := rfl, errs := rfl, order := rfl, current := by simp [init]
      absent := by simp [init], known := by simp [init], result := (by rintro _ _ ⟨⟩) }

section Steps

variable {foreign : Bool} {s t : State V E} {w : WaitGroup.State}

/-- Where the wait is over every spawned task is done. -/
theorem Calls.no_live (h : Calls s) (hz : s.wg.group.n = 0) (i : ℕ) :
    s.task i ≠ .running ∧ s.task i ≠ .finishing := by
  obtain ⟨live, -, hmem, hn⟩ := h.counter
  have hlen : live = [] := List.length_eq_zero_iff.mp (by omega)
  constructor
  · intro hi
    have hmem := (hmem i).mpr (.inl hi)
    rw [hlen] at hmem
    cases hmem
  · intro hi
    have hmem := (hmem i).mpr (.inr hi)
    rw [hlen] at hmem
    cases hmem

/-! ## The caller -/

theorem Inv.spawn (hi : Inv s) (ho : s.owner = .body) :
    Inv { s with
      n := s.n + 1
      results := s.results ++ [none]
      errs := s.errs ++ [none]
      owner := .adding s.n } := by
  have hc := hi.calls
  have hs := hi.slots
  have horder : s.spawned = List.range s.n := by rw [hs.order, ho]; rfl
  -- the new task has done nothing yet
  have hnew : s.outcome s.n = none := by
    refine (hs.known s.n).mpr (.inl ((hs.absent s.n).mpr ?_))
    rw [horder]
    simp
  constructor
  case calls =>
    refine ⟨hc.inv, hc.tasks, hc.owner, hc.early, ?_, ?_⟩
    · rintro (⟨m, hm, -⟩ | ⟨m, r, hm⟩)
      · cases hm
      · cases hm
    · obtain ⟨live, hnd, hmem, hn⟩ := hc.counter
      exact ⟨live, hnd, hmem, by rw [ho] at hn; exact hn⟩
  case slots =>
    constructor
    case results =>
      show s.results ++ [none] = (List.range (s.n + 1)).map _
      rw [List.range_succ, List.map_append, ← hs.results]
      simp [hnew, Outcome.value?]
    case errs =>
      show s.errs ++ [none] = (List.range (s.n + 1)).map _
      rw [List.range_succ, List.map_append, ← hs.errs]
      simp [hnew, Outcome.error?]
    case order => exact horder
    case current =>
      rintro i (h | h)
      · cases h
        rfl
      · cases h
    case absent => exact hs.absent
    case known => exact hs.known
    case result => rintro _ _ ⟨⟩

theorem Inv.add {i : ℕ} (hi : Inv s) (ho : s.owner = .adding i) (hf : (s.wg.pc 0).rests = true) :
    Inv { s with wg := s.wg.add 0 1, owner := .spawning i } := by
  have hc := hi.calls
  have hs := hi.slots
  have hnonneg := hc.inv.nonneg
  have hcount := (WaitGroup.add_counts s.wg 0 1).1
  constructor
  case calls =>
    constructor
    case inv => exact hc.inv.add hf (by omega)
    case tasks =>
      intro j
      show awake ((s.wg.add 0 1).pc (j + 1)) = true
      rw [add_of_ne 1 (Nat.succ_ne_zero j)]
      exact hc.tasks j
    case owner =>
      intro gs
      show (s.wg.add 0 1).pc 0 ≠ _
      rcases add_pc (u := s.wg) 0 1 (by omega) with h | ⟨h, -⟩
      · rw [h]
        rintro ⟨⟩
      · omega
    case early =>
      intro j hj
      show ∀ gs, (s.wg.add 0 1).pc (j + 1) ≠ .waking gs
      rw [add_of_ne 1 (Nat.succ_ne_zero j)]
      exact hc.early j hj
    case past =>
      rintro (⟨m, hm, -⟩ | ⟨m, r, hm⟩)
      · cases hm
      · cases hm
    case counter =>
      obtain ⟨live, hnd, hmem, hn⟩ := hc.counter
      refine ⟨live, hnd, hmem, ?_⟩
      show (s.wg.add 0 1).group.n = live.length + 1
      rw [hcount, hn, ho]
      rfl
  case slots =>
    refine ⟨hs.results, hs.errs, ?_, ?_, hs.absent, hs.known, by rintro _ _ ⟨⟩⟩
    · rw [hs.order, ho]
      rfl
    · rintro j (h | h)
      · cases h
      · cases h
        exact hs.current i (.inl ho)

theorem Inv.start {i : ℕ} (hi : Inv s) (ho : s.owner = .spawning i) :
    Inv { s with
      owner := .body
      task := update s.task i .running
      spawned := s.spawned ++ [i] } := by
  have hc := hi.calls
  have hs := hi.slots
  have hn1 := hs.current i (.inr ho)
  have horder : s.spawned = List.range i := by rw [hs.order, ho]; rfl
  have habsent : s.task i = .absent := (hs.absent i).mpr (by rw [horder]; simp)
  have htask : ∀ j, j ≠ i → update s.task i .running j = s.task j :=
    fun j hj => update_of_ne hj _ _
  constructor
  case calls =>
    refine ⟨hc.inv, hc.tasks, hc.owner, fun j hj => ?_, ?_, ?_⟩
    · by_cases hji : j = i
      · rw [hji]
        exact hc.early i (by rw [habsent]; rintro ⟨⟩)
      · exact hc.early j (htask j hji ▸ hj)
    · rintro (⟨m, hm, -⟩ | ⟨m, r, hm⟩)
      · cases hm
      · cases hm
    · obtain ⟨live, hnd, hmem, hn⟩ := hc.counter
      have hnot : i ∉ live := by
        intro h
        rcases (hmem i).mp h with h | h
        · exact absurd (habsent.symm.trans h) (by rintro ⟨⟩)
        · exact absurd (habsent.symm.trans h) (by rintro ⟨⟩)
      refine ⟨i :: live, List.nodup_cons.mpr ⟨hnot, hnd⟩, fun j => ?_, ?_⟩
      · show _ ↔ update s.task i .running j = _ ∨ update s.task i .running j = _
        by_cases hj : j = i
        · simp [hj]
        · rw [htask j hj, ← hmem j]
          simp [hj]
      · show s.wg.group.n = ((i :: live).length : ℤ) + 0
        rw [hn, ho]
        simp [Owner.spawns]
  case slots =>
    constructor
    case results => exact hs.results
    case errs => exact hs.errs
    case order =>
      show s.spawned ++ [i] = List.range s.n
      rw [horder, hn1, List.range_succ]
    case current => simp
    case absent =>
      intro j
      show update s.task i .running j = .absent ↔ j ∉ s.spawned ++ [i]
      by_cases hj : j = i
      · simp [hj]
      · rw [htask j hj, hs.absent j]
        simp [hj]
    case known =>
      intro j
      show s.outcome j = none ↔ update s.task i .running j = .absent ∨
        update s.task i .running j = .running
      by_cases hj : j = i
      · have hnone := (hs.known i).mpr (.inl habsent)
        simp [hj, hnone]
      · rw [htask j hj]
        exact hs.known j
    case result => rintro _ _ ⟨⟩

theorem Inv.join {m : Mode} (hi : Inv s) (ho : s.owner = .body)
    (hw : WaitGroup.step (fun f => f == 0 && foreign) s.wg (.wait 0) = some w) :
    Inv { s with wg := w, owner := .joining m } := by
  have hc := hi.calls
  have hs := hi.slots
  have hinv := hc.inv.step rfl hw
  simp only [WaitGroup.step] at hw
  split at hw <;> cases hw
  have hpc : ∀ q : WaitGroup.Pc, (s.wg.goto 0 q).pc 0 = q := fun q => by
    simp [WaitGroup.State.goto]
  have hne : ∀ (q : WaitGroup.Pc) (j : ℕ), (s.wg.goto 0 q).pc (j + 1) = s.wg.pc (j + 1) :=
    fun q j => by simp [WaitGroup.State.goto]
  have hwait : ∀ b : Bool, (if b then WaitGroup.Pc.polling else .waiting) ≠ .returned ∧
      ∀ gs, (if b then WaitGroup.Pc.polling else .waiting) ≠ .waking gs := by
    intro b
    cases b <;> exact ⟨by rintro ⟨⟩, by rintro _ ⟨⟩⟩
  constructor
  case calls =>
    constructor
    case inv => exact hinv
    case tasks =>
      intro j
      rw [hne]
      exact hc.tasks j
    case owner =>
      intro gs
      rw [hpc]
      exact (hwait _).2 gs
    case early =>
      intro j hj
      rw [hne]
      exact hc.early j hj
    case past =>
      rintro (⟨m', -, hx⟩ | ⟨m', r, hx⟩)
      · rw [hpc] at hx
        exact absurd hx (hwait _).1
      · cases hx
    case counter =>
      obtain ⟨live, hnd, hmem, hn⟩ := hc.counter
      exact ⟨live, hnd, hmem, by rw [ho] at hn; exact hn⟩
  case slots =>
    refine ⟨hs.results, hs.errs, ?_, by simp, hs.absent, hs.known, by rintro _ _ ⟨⟩⟩
    rw [hs.order, ho]
    rfl

theorem Inv.conclude {m : Mode} (hi : Inv s) (ho : s.owner = .joining m)
    (hf : s.wg.pc 0 = .returned) :
    Inv { s with owner := .joined m (JoinSet.conclude m s.results s.errs) } := by
  have hc := hi.calls
  have hs := hi.slots
  constructor
  case calls =>
    refine ⟨hc.inv, hc.tasks, hc.owner, hc.early, fun _ => hc.past (.inl ⟨m, ho, hf⟩), ?_⟩
    obtain ⟨live, hnd, hmem, hn⟩ := hc.counter
    exact ⟨live, hnd, hmem, by rw [ho] at hn; exact hn⟩
  case slots =>
    refine ⟨hs.results, hs.errs, ?_, by simp, hs.absent, hs.known, ?_⟩
    · rw [hs.order, ho]
      rfl
    · rintro m' r ⟨⟩
      rfl

/-! ## The tasks -/

theorem map_range_set {α : Type} (f : ℕ → α) (n i : ℕ) (x : α) :
    ((List.range n).map f).set i x = (List.range n).map (update f i x) := by
  apply List.ext_getElem?
  intro j
  by_cases hj : j = i
  · by_cases hn : i < n <;> simp [hj, hn]
  · by_cases hn : j < n <;> simp [Ne.symm hj, hj, hn]

/-- The write of a slot, with the history of the task. -/
theorem write_slot {α : Type} (g : Option (Outcome V E) → α) (n i : ℕ) (o : Outcome V E)
    (outcome : ℕ → Option (Outcome V E)) :
    ((List.range n).map fun j => g (update outcome i (some o) j)) =
      ((List.range n).map fun j => g (outcome j)).set i (g (some o)) := by
  rw [map_range_set]
  congr 1
  funext j
  by_cases hj : j = i <;> simp [hj]

/-- A slot that the outcome is not for is left as it was. -/
theorem set_same {α : Type} (g : ℕ → α) (n i : ℕ) {x : α} (h : g i = x) :
    ((List.range n).map g).set i x = (List.range n).map g := by
  rw [map_range_set, ← h, update_eq_self]

theorem Inv.write {i : ℕ} {o : Outcome V E} (hi : Inv s) (hrun : s.task i = .running) :
    Inv (s.write i o) := by
  have hc := hi.calls
  have hs := hi.slots
  have hnone : s.outcome i = none := (hs.known i).mpr (.inr hrun)
  have htask : ∀ j, j ≠ i → update s.task i .finishing j = s.task j :=
    fun j hj => update_of_ne hj _ _
  constructor
  case calls =>
    refine ⟨hc.inv, hc.tasks, hc.owner, fun j hj => ?_, hc.past, ?_⟩
    · by_cases hji : j = i
      · rw [hji]
        exact hc.early i (by rw [hrun]; rintro ⟨⟩)
      · exact hc.early j (htask j hji ▸ hj)
    obtain ⟨live, hnd, hmem, hn⟩ := hc.counter
    refine ⟨live, hnd, fun j => ?_, hn⟩
    show _ ↔ update s.task i .finishing j = _ ∨ update s.task i .finishing j = _
    by_cases hj : j = i
    · have hlive := (hmem i).mpr (.inl hrun)
      simp [hj, hlive]
    · rw [htask j hj]
      exact hmem j
  case slots =>
    constructor
    case results =>
      show (match o with
        | .value v => s.results.set i (some v)
        | .error _ => s.results) =
          (List.range s.n).map fun j => Outcome.value? (update s.outcome i (some o) j)
      rw [write_slot Outcome.value?, ← hs.results]
      cases o with
      | value v => rfl
      | error e =>
        rw [hs.results]
        exact (set_same _ _ _ (by rw [hnone]; rfl)).symm
    case errs =>
      show (match o with
        | .value _ => s.errs
        | .error e => s.errs.set i (some e)) =
          (List.range s.n).map fun j => Outcome.error? (update s.outcome i (some o) j)
      rw [write_slot Outcome.error?, ← hs.errs]
      cases o with
      | error e => rfl
      | value v =>
        rw [hs.errs]
        exact (set_same _ _ _ (by rw [hnone]; rfl)).symm
    case order => exact hs.order
    case current => exact hs.current
    case absent =>
      intro j
      show update s.task i .finishing j = .absent ↔ j ∉ s.spawned
      by_cases hj : j = i
      · have hin : ¬ i ∉ s.spawned := fun h => absurd (((hs.absent i).mpr h).symm.trans hrun) (by rintro ⟨⟩)
        simp [hj, not_not.mp hin]
      · rw [htask j hj]
        exact hs.absent j
    case known =>
      intro j
      show update s.outcome i (some o) j = none ↔
        update s.task i .finishing j = .absent ∨
          update s.task i .finishing j = .running
      by_cases hj : j = i
      · simp [hj]
      · rw [htask j hj, update_of_ne hj]
        exact hs.known j
    case result =>
      -- no task runs once the caller has joined
      intro m r hm
      exact absurd hrun (hc.no_live (hc.past (.inr ⟨m, r, hm⟩)) i).1

theorem Inv.done {i : ℕ} (hi : Inv s) (hfin : s.task i = .finishing)
    (hf : (s.wg.pc (i + 1)).rests = true) :
    Inv { s with wg := s.wg.add (i + 1) (-1), task := update s.task i .leaving } := by
  have hc := hi.calls
  have hs := hi.slots
  have hcount := (WaitGroup.add_counts s.wg (i + 1) (-1)).1
  obtain ⟨live, hnd, hmem, hn⟩ := hc.counter
  have hlive : i ∈ live := (hmem i).mpr (.inr hfin)
  have hlen : 0 < live.length := List.length_pos_of_mem hlive
  have hpos : 0 ≤ s.wg.group.n + -1 := by omega
  have htask : ∀ j, j ≠ i → update s.task i .leaving j = s.task j :=
    fun j hj => update_of_ne hj _ _
  have hpc : ∀ j, j ≠ i + 1 → (s.wg.add (i + 1) (-1)).pc j = s.wg.pc j :=
    fun j hj => add_of_ne (-1) hj
  constructor
  case calls =>
    constructor
    case inv => exact hc.inv.add hf hpos
    case tasks =>
      intro j
      show awake ((s.wg.add (i + 1) (-1)).pc (j + 1)) = true
      by_cases hj : j = i
      · rw [hj]
        rcases add_pc (u := s.wg) (i + 1) (-1) hpos with h | ⟨-, h⟩
        · rw [h]
          rfl
        · exact h
      · rw [hpc (j + 1) (by omega)]
        exact hc.tasks j
    case owner =>
      intro gs
      show (s.wg.add (i + 1) (-1)).pc 0 ≠ _
      rw [hpc 0 (by omega)]
      exact hc.owner gs
    case early =>
      intro j hj
      have hji : j ≠ i := fun h => hj (by simp [h])
      show ∀ gs, (s.wg.add (i + 1) (-1)).pc (j + 1) ≠ .waking gs
      rw [hpc (j + 1) (by omega)]
      exact hc.early j (htask j hji ▸ hj)
    case past =>
      -- a task that is not done keeps the caller in its wait
      intro hp
      have hz : s.wg.group.n = 0 := by
        refine hc.past (hp.imp_left fun ⟨m, hm, h⟩ => ⟨m, hm, ?_⟩)
        have h : (s.wg.add (i + 1) (-1)).pc 0 = .returned := h
        rwa [hpc 0 (by omega)] at h
      exact absurd hfin (hc.no_live hz i).2
    case counter =>
      refine ⟨live.erase i, hnd.erase i, fun j => ?_, ?_⟩
      · show _ ↔ update s.task i .leaving j = _ ∨ update s.task i .leaving j = _
        rw [hnd.mem_erase_iff]
        by_cases hj : j = i
        · simp [hj]
        · rw [htask j hj, ← hmem j]
          simp [hj]
      · show (s.wg.add (i + 1) (-1)).group.n = _
        rw [hcount, List.length_erase_of_mem hlive, hn]
        show (live.length : ℤ) + s.owner.spawns + -1 = ((live.length - 1 : ℕ) : ℤ) + s.owner.spawns
        omega
  case slots =>
    refine ⟨hs.results, hs.errs, hs.order, hs.current, ?_, ?_, hs.result⟩
    · intro j
      show update s.task i .leaving j = .absent ↔ j ∉ s.spawned
      by_cases hj : j = i
      · have hin : ¬ i ∉ s.spawned := fun h => absurd (((hs.absent i).mpr h).symm.trans hfin) (by rintro ⟨⟩)
        simp [hj, not_not.mp hin]
      · rw [htask j hj]
        exact hs.absent j
    · intro j
      show s.outcome j = none ↔ update s.task i .leaving j = .absent ∨
        update s.task i .leaving j = .running
      by_cases hj : j = i
      · have hset : s.outcome i ≠ none := fun h => by
          rcases (hs.known i).mp h with h | h
          · exact absurd (hfin.symm.trans h) (by rintro ⟨⟩)
          · exact absurd (hfin.symm.trans h) (by rintro ⟨⟩)
        simp [hj, hset]
      · rw [htask j hj]
        exact hs.known j

/-! ## Inside the calls -/

/-- A step inside a call that leaves the counter alone. -/
theorem Inv.inside (hi : Inv s) (hinv : WaitGroup.Inv w) (hn : w.group.n = s.wg.group.n)
    (htasks : ∀ i, awake (w.pc (i + 1)) = true) (howner : ∀ gs, w.pc 0 ≠ .waking gs)
    (hearly : ∀ i, s.task i ≠ .leaving → ∀ gs, w.pc (i + 1) ≠ .waking gs)
    (hret : w.pc 0 = .returned → s.wg.pc 0 = .returned ∨ s.wg.group.n = 0) :
    Inv { s with wg := w } := by
  have hc := hi.calls
  refine ⟨⟨hinv, htasks, howner, hearly, ?_, ?_⟩, hi.slots.results, hi.slots.errs, hi.slots.order,
    hi.slots.current, hi.slots.absent, hi.slots.known, hi.slots.result⟩
  · show _ → w.group.n = 0
    rw [hn]
    rintro (⟨m, hm, h⟩ | h)
    · rcases hret h with h | hz
      · exact hc.past (.inl ⟨m, hm, h⟩)
      · exact hz
    · exact hc.past (.inr h)
  · obtain ⟨live, hnd, hmem, hcount⟩ := hc.counter
    exact ⟨live, hnd, hmem, hn.trans hcount⟩

theorem Inv.call {f : ℕ} (hi : Inv s) (hw : WaitGroup.fiberStep s.wg f = some w) :
    Inv { s with wg := w } := by
  have hc := hi.calls
  refine hi.inside (hc.inv.fiberStep hw) (fiberStep_counter hw) (fun i => ?_) ?_ (fun i hi => ?_) ?_
  · by_cases hf : i + 1 = f
    · rw [hf]
      exact fiberStep_awake hw (hf ▸ hc.tasks i)
    · rw [fiberStep_of_ne hw hf]
      exact hc.tasks i
  · by_cases hf : 0 = f
    · subst hf
      exact (fiberStep_calm hw hc.owner).1
    · rw [fiberStep_of_ne hw hf]
      exact hc.owner
  · by_cases hf : i + 1 = f
    · subst hf
      exact (fiberStep_calm hw (hc.early i hi)).1
    · rw [fiberStep_of_ne hw hf]
      exact hc.early i hi
  · by_cases hf : 0 = f
    · subst hf
      exact fun h => .inr ((fiberStep_calm hw hc.owner).2 h)
    · rw [fiberStep_of_ne hw hf]
      exact .inl

/-- The caller's park returns. -/
theorem Inv.unpark {f : ℕ} (hi : Inv s) (hinv : WaitGroup.Inv w) (hf : s.wg.pc f = .parked)
    (hgroup : w.group = s.wg.group) (hpc : w.pc = update s.wg.pc f .waiting) :
    Inv { s with wg := w } := by
  have hc := hi.calls
  -- only the caller parks
  have hzero : f = 0 := by
    cases f with
    | zero => rfl
    | succ i => exact absurd (hf ▸ hc.tasks i) (by rintro ⟨⟩)
  subst hzero
  refine hi.inside hinv (by rw [hgroup]) (fun i => ?_) ?_ (fun i hi => ?_) ?_
  · rw [hpc, update_of_ne (Nat.succ_ne_zero i)]
    exact hc.tasks i
  · rw [hpc, update_self]
    rintro _ ⟨⟩
  · rw [hpc, update_of_ne (Nat.succ_ne_zero i)]
    exact hc.early i hi
  · rw [hpc, update_self]
    rintro ⟨⟩

theorem inv_step {a : Action V E} (hi : Inv s) (hok : raises a = false)
    (hs : step foreign s a = some t) : Inv t := by
  cases a with
  | spawn =>
    simp only [step] at hs
    split at hs <;> cases hs
    next ho => exact hi.spawn ho
  | add =>
    simp only [step] at hs
    split at hs
    case h_2 => cases hs
    case h_1 i ho =>
      obtain ⟨w, hw, rfl⟩ := Option.map_eq_some_iff.mp hs
      simp only [WaitGroup.step] at hw
      split at hw
      case isFalse => cases hw
      case isTrue hf =>
        rw [if_neg (fun h => absurd h.1 (by decide))] at hw
        cases hw
        exact hi.add ho hf
  | start ok =>
    simp only [step] at hs
    split at hs
    case h_2 => cases hs
    case h_1 i ho =>
      cases ok with
      | false => cases hok
      | true =>
        cases hs
        exact hi.start ho
  | join m =>
    simp only [step] at hs
    split at hs
    case h_2 => cases hs
    case h_1 ho =>
      obtain ⟨w, hw, rfl⟩ := Option.map_eq_some_iff.mp hs
      exact hi.join ho hw
  | conclude =>
    simp only [step] at hs
    split at hs
    case h_2 => cases hs
    case h_1 m ho =>
      split at hs <;> cases hs
      next hf => exact hi.conclude ho hf
  | run i o =>
    simp only [step] at hs
    split at hs <;> cases hs
    next hrun => exact hi.write hrun
  | done i =>
    simp only [step] at hs
    split at hs
    case isFalse => cases hs
    case isTrue hfin =>
      obtain ⟨w, hw, rfl⟩ := Option.map_eq_some_iff.mp hs
      simp only [WaitGroup.step] at hw
      split at hw
      case isFalse => cases hw
      case isTrue hf =>
        rw [if_neg (by simp)] at hw
        cases hw
        exact hi.done hfin hf
  | call f =>
    obtain ⟨w, hw, rfl⟩ := Option.map_eq_some_iff.mp hs
    exact hi.call hw
  | resume f =>
    obtain ⟨w, hw, rfl⟩ := Option.map_eq_some_iff.mp hs
    have hinv := hi.calls.inv.step rfl hw
    simp only [WaitGroup.step] at hw
    split at hw <;> cases hw
    next hf => exact hi.unpark hinv hf.1 rfl rfl
  | spurious f =>
    obtain ⟨w, hw, rfl⟩ := Option.map_eq_some_iff.mp hs
    have hinv := hi.calls.inv.step rfl hw
    simp only [WaitGroup.step] at hw
    split at hw <;> cases hw
    next hf => exact hi.unpark hinv hf rfl rfl

/-! ## The join -/

theorem exists_map_some {α β : Type} {f : α → Option β} {l : List α} (h : ∀ a ∈ l, f a ≠ none) :
    ∃ bs : List β, l.map f = bs.map some := by
  induction l with
  | nil => exact ⟨[], rfl⟩
  | cons a l ih =>
    obtain ⟨bs, hbs⟩ := ih fun x hx => h x (List.mem_cons_of_mem _ hx)
    cases hb : f a with
    | none => exact absurd hb (h a List.mem_cons_self)
    | some b => exact ⟨b :: bs, by simp [hb, hbs]⟩

theorem Inv.joins (hi : Inv s) : Joins s := by
  have hc := hi.calls
  have hs := hi.slots
  constructor
  case freed =>
    intro m ho hdone
    obtain ⟨live, -, hmem, hn⟩ := hc.counter
    have hempty : live = [] := by
      refine List.eq_nil_iff_forall_not_mem.mpr fun i hlive => ?_
      have hspawned : i ∈ s.spawned := by
        by_contra hnot
        rcases (hmem i).mp hlive with h | h
        · exact absurd (((hs.absent i).mpr hnot).symm.trans h) (by rintro ⟨⟩)
        · exact absurd (((hs.absent i).mpr hnot).symm.trans h) (by rintro ⟨⟩)
      rcases (hmem i).mp hlive with h | h
      · exact absurd ((hdone i hspawned).1.symm.trans h) (by rintro ⟨⟩)
      · exact absurd ((hdone i hspawned).1.symm.trans h) (by rintro ⟨⟩)
    have hzero : s.wg.sum = 0 := by
      rw [← hc.inv.counter, hn, hempty, ho]
      rfl
    have hb := hc.inv.balanced
    refine ⟨fun hblocked => ?_, fun t hf ht => hb.returns hzero 0 t hf ht⟩
    rcases hb.freed hzero 0 hblocked with hw | ⟨e, he⟩
    · exact hw
    · -- the wakes of the tasks are all made
      have hnot : ∀ gs, s.wg.pc e ≠ .waking gs := by
        cases e with
        | zero => exact hc.owner
        | succ i =>
          by_cases hleft : s.task i = .leaving
          · have hin : i ∈ s.spawned := by
              by_contra hout
              exact absurd (((hs.absent i).mpr hout).symm.trans hleft) (by rintro ⟨⟩)
            intro gs hgs
            have hrests := (hdone i hin).2
            rw [hgs] at hrests
            cases hrests
          · exact hc.early i hleft
      cases hpc : s.wg.pc e with
      | waking gs => exact absurd hpc (hnot gs)
      | idle | returned | raised | waiting | polling | registered | parked =>
        rw [hpc] at he
        cases he
  case result =>
    intro m r ho
    have hz := hc.past (.inr ⟨m, r, ho⟩)
    have horder : s.spawned = List.range s.n := by rw [hs.order, ho]; rfl
    obtain ⟨os, hos⟩ : ∃ os : List (Outcome V E), s.spawned.map s.outcome = os.map some := by
      refine exists_map_some fun i hin hnone => ?_
      rcases (hs.known i).mp hnone with h | h
      · exact (hs.absent i).mp h hin
      · exact (hc.no_live hz i).1 h
    have hslots : ∀ {α : Type} (g : Option (Outcome V E) → α),
        ((List.range s.n).map fun i => g (s.outcome i)) = os.map fun o => g (some o) := by
      intro α g
      have h := congrArg (List.map g) hos
      rw [List.map_map, List.map_map, horder] at h
      exact h
    refine ⟨os, hos, ?_⟩
    rw [hs.result m r ho, hs.results, hs.errs, hslots, hslots]

end Steps

/-- **The join** returns, with the outcomes of the tasks, in every run in which no spawn of a
fiber raises. -/
theorem reachable_joins {foreign : Bool} {s : State V E}
    (hr : Reachable (soundSystem foreign) s) : Joins s := by
  refine Inv.joins (Reachable.invariant ?_ ?_ hr)
  · rintro _ rfl
    exact inv_init
  · intro u a t _ hi hs
    obtain ⟨hok, hs⟩ := System.restrict_step.mp hs
    exact inv_step hi hok hs

/-- Two tasks; the second raises, and ends while the caller is parked. -/
def twoTasks : List (Action ℕ ℕ) :=
  .flatten [.flatten (.replicate 2 [.spawn, .add, .start true]),
    [.run 0 (.value 7), .done 0, .join .joinAll, .call 0, .call 0],
    [.run 1 (.error 9), .done 1, .call 2, .call 2, .resume 0, .call 0, .conclude]]

theorem reachable_joins_two :
    ∃ s, (soundSystem false).run init twoTasks = some s ∧
      s.owner = .joined .joinAll (.raised 9) ∧ Joins s := by
  have hrun : ((soundSystem false).run init twoTasks).any
      (fun s => s.owner = .joined .joinAll (.raised 9)) = true := by decide +kernel
  obtain ⟨s, hs, ho⟩ := (Option.any_eq_true _ _).mp hrun
  exact ⟨s, hs, of_decide_eq_true ho,
    reachable_joins (reachable_of_run (soundSystem false) twoTasks rfl hs)⟩

/-- The spawn of the second of two tasks raises. -/
def oneSpawned : List (Action ℕ ℕ) :=
  .flatten [[.spawn, .add, .start true, .spawn, .add, .start false],
    [.run 0 (.value 7), .done 0, .join .joinAll, .call 0, .call 0]]

/-- The only task has finished, and the caller is parked with no wake. -/
theorem raise_blocks_join :
    ∃ s, (system false).run init oneSpawned = some s ∧ s.spawned = [0] ∧ s.Finished 0 ∧
      s.owner = .joining .joinAll ∧ s.wg.pc 0 = .parked ∧ s.wg.woken 0 = false ∧ ¬ Joins s := by
  have hrun : ((system false).run init oneSpawned).any (fun s =>
      s.spawned = [0] ∧ (s.task 0 = .leaving ∧ (s.wg.pc 1).rests = true) ∧
        s.owner = .joining .joinAll ∧ s.wg.pc 0 = .parked ∧ s.wg.woken 0 = false) = true := by
    decide +kernel
  obtain ⟨s, hs, h⟩ := (Option.any_eq_true _ _).mp hrun
  obtain ⟨hspawned, hdone, ho, hpc, hwoken⟩ := of_decide_eq_true h
  refine ⟨s, hs, hspawned, hdone, ho, hpc, hwoken, fun hj => ?_⟩
  have hall : ∀ i ∈ s.spawned, s.Finished i := by
    intro i hi
    rw [hspawned] at hi
    cases List.mem_singleton.mp hi
    exact hdone
  have hfreed := (hj.freed .joinAll ho hall).1 (by rw [hpc]; rfl)
  exact absurd (hwoken.symm.trans hfreed) (by rintro ⟨⟩)

end Stackweave.Sync.JoinSet
