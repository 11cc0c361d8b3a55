import Mathlib.Algebra.Order.BigOperators.Group.Finset
import Stackweave.Monkey.BackendJobs

/-!
# The pool runs out its jobs (`monkey/_base.py`)

`fini` puts one sentinel on each shard and a worker stops at the first one it gets,
from whichever shard. Counting them: while a worker is left, a sentinel is queued or
still to be put; when none is left, every sentinel was put and taken, and with it
every job that was queued before it.
-/

namespace Stackweave.Monkey.Backend

open Transition

variable {V : Type}

/-! ### Counting the sentinels -/

section Counting

variable {l : Log V}

theorem Fenced.took_fst_subset (h : Fenced l) : l.took.map Prod.fst ⊆ List.range l.s.size := by
  intro w hw
  exact List.mem_range.mpr (h.bound w ((h.exited w).mp hw))

theorem Fenced.took_snd_subset (h : Fenced l) : l.took.map Prod.snd ⊆ List.range l.s.put := by
  intro i hi
  rw [List.mem_range]
  by_contra hput
  exact (h.ahead i (Nat.not_lt.mp hput)).2 hi

theorem Fenced.took_snd_nodup (h : Fenced l) : (l.took.map Prod.snd).Nodup := by
  rw [List.nodup_iff_count_le_one]
  intro i
  by_cases hi : i < l.s.put
  · have := h.behind i hi
    omega
  · rw [List.count_eq_zero_of_not_mem (h.ahead i (Nat.not_lt.mp hi)).2]
    omega

/-- No worker is left: every shard got its sentinel and gave it out. -/
theorem Fenced.all_taken (h : Fenced l) (hall : ∀ w, w < l.s.size → l.s.worker w = .exited) :
    l.s.put = l.s.size ∧ ∀ i, Item.shutdown ∉ l.s.shards i := by
  have hsub : List.range l.s.size ⊆ l.took.map Prod.fst := fun w hw =>
    (h.exited w).mpr (hall w (List.mem_range.mp hw))
  have hle := List.nodup_range.length_le_of_subset hsub
  have htook := h.took_snd_nodup.length_le_of_subset h.took_snd_subset
  simp only [List.length_map, List.length_range] at hle htook
  have hput : l.s.put = l.s.size := by
    have := h.put
    omega
  refine ⟨hput, fun i hi => ?_⟩
  have hlt : i < l.s.put := by
    by_contra hge
    exact (h.ahead i (Nat.not_lt.mp hge)).1 hi
  have hnot : i ∉ l.took.map Prod.snd := by
    rw [← List.count_eq_zero]
    have hone := h.behind i hlt
    have hpos := List.count_pos_iff.mpr hi
    omega
  have hmore := (List.nodup_cons.mpr ⟨hnot, h.took_snd_nodup⟩).length_le_of_subset
    (List.cons_subset.mpr ⟨List.mem_range.mpr hlt, h.took_snd_subset⟩)
  simp only [List.length_cons, List.length_map, List.length_range] at hmore
  omega

/-- All sentinels are put and none is queued: no worker is left. -/
theorem Fenced.all_exited (h : Fenced l) (hput : l.s.put = l.s.size)
    (hnone : ∀ i, Item.shutdown ∉ l.s.shards i) {w : ℕ} (hw : w < l.s.size) :
    l.s.worker w = .exited := by
  have hsub : List.range l.s.size ⊆ l.took.map Prod.snd := fun i hi => by
    have hone := h.behind i (hput ▸ List.mem_range.mp hi)
    rw [List.count_eq_zero_of_not_mem (hnone i)] at hone
    exact List.count_pos_iff.mp (by omega)
  have hle := List.nodup_range.length_le_of_subset hsub
  by_contra hne
  have hnot : w ∉ l.took.map Prod.fst := fun hmem => hne ((h.exited w).mp hmem)
  have hmore := (List.nodup_cons.mpr ⟨hnot, h.once⟩).length_le_of_subset
    (List.cons_subset.mpr ⟨List.mem_range.mpr hw, h.took_fst_subset⟩)
  simp only [List.length_cons, List.length_map, List.length_range] at hle hmore
  omega

variable {n : ℕ}

theorem Placed.sent_of_early (h : Placed l) (hn : n ∈ l.early) :
    (l.s.submit n).sent = true := by
  by_contra hs
  exact (h.unsent n (Bool.not_eq_true _ ▸ hs)).2.1 hn

theorem Placed.begun_of_not_queued (h : Placed l) (hsent : (l.s.submit n).sent = true)
    (hnot : ∀ i, Item.job n ∉ l.s.shards i) : l.begun.count n = 1 := by
  have hone := (h.sent n hsent).2.1
  rw [List.count_eq_zero_of_not_mem (hnot _)] at hone
  exact hone

theorem Placed.begun_count_le (h : Placed l) (n : ℕ) : l.begun.count n ≤ 1 := by
  by_cases hs : (l.s.submit n).sent = true
  · have := (h.sent n hs).2.1
    omega
  · rw [List.count_eq_zero_of_not_mem (h.unsent n (Bool.not_eq_true _ ▸ hs)).1]
    omega

/-- No worker is left: no job that preceded its sentinel is queued. -/
theorem Jobs.none_left (h : Jobs l) (hall : ∀ w, w < l.s.size → l.s.worker w = .exited)
    (hn : n ∈ l.early) (i : ℕ) : Item.job n ∉ l.s.shards i := by
  intro hmem
  obtain ⟨hput, hnone⟩ := h.fenced.all_taken hall
  have hi : i < l.s.put := by
    by_contra hge
    rw [hput] at hge
    rw [h.placed.bound i (Nat.not_lt.mp hge)] at hmem
    cases hmem
  obtain ⟨pre, post, hsplit, hsent⟩ := h.fenced.before i hi n hn hmem
  refine hnone i ?_
  rw [hsplit]
  exact List.mem_append_right _ (List.mem_cons_of_mem _ hsent)

/-- A job that is neither queued nor running has come to an end. -/
theorem Jobs.ended (h : Jobs l) (hn : n ∈ l.early)
    (hnot : ∀ i, Item.job n ∉ l.s.shards i)
    (hidle : ∀ w, w < l.s.size → l.s.worker w ≠ .run n) :
    l.begun.count n = 1 ∧ n ∈ l.ended.map Prod.fst := by
  have hone := h.placed.begun_of_not_queued (h.placed.sent_of_early hn) hnot
  refine ⟨hone, (h.ran.begun n (List.count_pos_iff.mp (by omega))).resolve_left ?_⟩
  rintro ⟨w, hw⟩
  exact hidle w (h.ran.own w n hw) hw

end Counting

/-! ### Running out the queues -/

/-- Steps of the workers and of the jobs' own code. -/
def Action.ofWorker : Action V → Bool
  | .worker _ | .finish _ _ => true
  | _ => false

/-- The workers alone lead from the one state to the other, where job `n` comes to `f n`. -/
def Works (size : ℕ) (f : ℕ → V) (l l' : Log V) : Prop :=
  (∃ as : List (Action V), (∀ a ∈ as, a.ofWorker = true) ∧ (logged V size).run l as = some l') ∧
    ∀ n v, (n, v) ∈ l'.ended → (n, v) ∈ l.ended ∨ v = f n

section Works

variable {size : ℕ} {f : ℕ → V} {l l' : Log V}

theorem Works.refl (l : Log V) : Works size f l l := ⟨⟨[], by rintro _ ⟨⟩, rfl⟩, fun _ _ => .inl⟩

theorem Works.trans {l'' : Log V} (h : Works size f l l') (h' : Works size f l' l'') :
    Works size f l l'' := by
  obtain ⟨⟨as, has, hr⟩, hf⟩ := h
  obtain ⟨⟨bs, hbs, hr'⟩, hf'⟩ := h'
  refine ⟨⟨as ++ bs, fun a ha => ?_, System.run_trans _ hr hr'⟩, fun n v hv => ?_⟩
  · exact (List.mem_append.mp ha).elim (has a) (hbs a)
  · exact (hf' n v hv).elim (hf n v) .inr

theorem Works.one {a : Action V} (ha : a.ofWorker = true) (hs : Log.step l a = some l')
    (hf : ∀ n v, (n, v) ∈ l'.ended → (n, v) ∈ l.ended ∨ v = f n) : Works size f l l' := by
  refine ⟨⟨[a], ?_, ?_⟩, hf⟩
  · intro b hb
    rw [List.mem_singleton.mp hb]
    exact ha
  · exact Option.bind_eq_some_iff.mpr ⟨l', hs, rfl⟩

theorem Works.reachable (h : Works size f l l') (hr : Reachable (logged V size) l) :
    Reachable (logged V size) l' := by
  obtain ⟨⟨as, -, hrun⟩, -⟩ := h
  exact hr.run hrun

/-- The step of a worker, in the log. -/
theorem works_worker {w : ℕ} {t : State V} (hs : workerStep l.s w = some t) :
    Works size f l { l.note (.worker w) with s := t } := by
  refine Works.one (a := .worker w) rfl (Option.map_eq_some_iff.mpr ⟨t, hs, rfl⟩) fun n v hv => .inl ?_
  dsimp only [Log.note] at hv
  split at hv
  all_goals exact hv

theorem works_look {w : ℕ} {t : State V} (hs : workerStep l.s w = some t)
    (hpop : l.s.popped w = none) : Works size f l { l with s := t } := by
  have hnote : l.note (.worker w) = l := by simp only [Log.note, hpop]
  have h : Works size f l { l.note (.worker w) with s := t } := works_worker hs
  rw [hnote] at h
  exact h

theorem step_ofWorker {a : Action V} (ha : a.ofWorker = true) (hs : Log.step l a = some l') :
    l'.early = l.early ∧ l'.s.fini = l.s.fini := by
  obtain ⟨t, ht, rfl⟩ := Option.map_eq_some_iff.mp hs
  cases a with
  | submit | submitter | spurious | fini => cases ha
  | worker w =>
    constructor
    · dsimp only [Log.note]
      split <;> rfl
    · dsimp only [Backend.step] at ht
      unfold workerStep at ht
      obtain ⟨-, ht⟩ := Option.ite_none_right_eq_some.mp ht
      repeat' split at ht
      all_goals cases ht
      all_goals rfl
  | finish w v =>
    dsimp only [Backend.step] at ht
    split at ht
    case h_1 n hold =>
      cases ht
      simp only [Log.note, hold]
      exact ⟨trivial, rfl⟩
    case h_2 => cases ht

theorem Works.size_eq (h : Works size f l l') : l'.s.size = l.s.size := by
  obtain ⟨⟨as, -, hr⟩, -⟩ := h
  induction as generalizing l with
  | nil =>
    cases hr
    rfl
  | cons a as ih =>
    obtain ⟨u, hu, hrest⟩ := Option.bind_eq_some_iff.mp hr
    exact (ih hrest).trans (step_move hu).size

theorem Works.kept (h : Works size f l l') : l'.early = l.early ∧ l'.s.fini = l.s.fini := by
  obtain ⟨⟨as, has, hr⟩, -⟩ := h
  induction as generalizing l with
  | nil =>
    cases hr
    exact ⟨rfl, rfl⟩
  | cons a as ih =>
    obtain ⟨u, hu, hrest⟩ := Option.bind_eq_some_iff.mp hr
    obtain ⟨h1, h2⟩ := step_ofWorker (has a List.mem_cons_self) hu
    obtain ⟨h3, h4⟩ := ih (fun b hb => has b (List.mem_cons_of_mem a hb)) hrest
    exact ⟨h3.trans h1, h4.trans h2⟩

end Works

/-- The number of items in the queues. -/
def State.total (s : State V) : ℕ := ∑ i ∈ Finset.range s.size, (s.shards i).length

section Drain

variable {size : ℕ} {f : ℕ → V} {l : Log V}

variable {i w k : ℕ}

theorem total_pop {s s' : State V} {x : Item} {xs : List Item} (hi : i < s.size)
    (hq : s.shards i = x :: xs) (hsize : s'.size = s.size)
    (hshards : s'.shards = fun j => if j = i then xs else s.shards j) : s'.total < s.total := by
  unfold State.total
  rw [hsize, hshards]
  refine Finset.sum_lt_sum (fun j _ => ?_) ⟨i, Finset.mem_range.mpr hi, ?_⟩
  · dsimp only
    split
    case isTrue hj =>
      rw [hj, hq]
      exact Nat.le_succ _
    case isFalse => exact Nat.le_refl _
  · dsimp only
    rw [if_pos rfl, hq]
    exact Nat.lt_succ_self _

/-- A worker that gets an item leaves one item less. -/
theorem works_pop {x : Item} {xs : List Item} (hi : i < l.s.size)
    (hq : l.s.shards i = x :: xs)
    (hs : workerStep l.s w = some ((l.s.setShard i xs).workerTo w x.start)) :
    ∃ l', Works size f l l' ∧ l'.s.total < l.s.total :=
  ⟨_, works_worker hs, total_pop hi hq rfl rfl⟩

theorem exists_sibling {n : ℕ} (hw : w < n) (hi : i < n) (hne : i ≠ w) :
    ∃ k, 1 ≤ k ∧ k < n ∧ (w + k) % n = i := by
  rcases Nat.lt_or_gt_of_ne hne with h | h
  · refine ⟨n - w + i, by omega, by omega, ?_⟩
    have hsum : w + (n - w + i) = i + n := by omega
    rw [hsum, Nat.add_mod_right, Nat.mod_eq_of_lt hi]
  · refine ⟨i - w, by omega, by omega, ?_⟩
    rw [Nat.add_sub_cancel' (Nat.le_of_lt h), Nat.mod_eq_of_lt hi]

/-- One look of a worker at the sibling at distance `k`: an item, or the next one. -/
theorem works_steal (hw : w < l.s.size) (hold : l.s.worker w = .steal k)
    (hk : k < l.s.size) :
    (∃ l', Works size f l l' ∧ l'.s.total < l.s.total) ∨
      (l.s.shards ((w + k) % l.s.size) = [] ∧
        Works size f l { l with s := l.s.workerTo w (.steal (k + 1)) }) := by
  have hmod : (w + k) % l.s.size < l.s.size := Nat.mod_lt _ (Nat.lt_of_le_of_lt (Nat.zero_le w) hw)
  cases hq : l.s.shards ((w + k) % l.s.size) with
  | nil =>
    refine .inr ⟨rfl, works_look (w := w) ?_ ?_⟩
    · simp only [workerStep, hold, hw, hk, hq, if_true]
    · simp only [State.popped, hold, hk, hq, if_true]
      rfl
  | cons x xs =>
    refine .inl (works_pop (w := w) hmod hq ?_)
    simp only [workerStep, hold, hw, hk, hq, if_true]

theorem works_wrap (hw : w < l.s.size) (hold : l.s.worker w = .steal k)
    (hk : ¬ k < l.s.size) : Works size f l { l with s := l.s.workerTo w .idle } := by
  refine works_look (w := w) ?_ ?_
  · simp only [workerStep, hold, hw, hk, if_true, if_false]
  · simp only [State.popped, hold, hk, if_false]

/-- A worker that has found the siblings before distance `k` empty finds an item. -/
theorem works_round (hi : i < l.s.size) (hq : l.s.shards i ≠ []) (hne : i ≠ w)
    (hw : w < l.s.size) (hold : l.s.worker w = .steal k)
    (hbefore : ∀ j, 1 ≤ j → j < k → l.s.shards ((w + j) % l.s.size) = []) :
    ∃ l', Works size f l l' ∧ l'.s.total < l.s.total := by
  induction hd : l.s.size - k generalizing l k with
  | zero =>
    obtain ⟨j, h1, hj, hmod⟩ := exists_sibling hw hi hne
    exact absurd (hmod ▸ hbefore j h1 (by omega)) hq
  | succ d ih =>
    rcases works_steal hw hold (by omega) with hpop | ⟨hempty, hstep⟩
    · exact hpop
    · have hbefore' : ∀ j, 1 ≤ j → j < k + 1 → l.s.shards ((w + j) % l.s.size) = [] := by
        intro j h1 hj
        rcases Nat.lt_succ_iff_lt_or_eq.mp hj with hj | rfl
        · exact hbefore j h1 hj
        · exact hempty
      obtain ⟨l', hworks, hlt⟩ := ih (l := { l with s := l.s.workerTo w (.steal (k + 1)) }) hi hq hw
        (if_pos rfl) hbefore' (by dsimp only [State.workerTo]; omega)
      exact ⟨l', hstep.trans hworks, hlt⟩

theorem works_idle (hi : i < l.s.size) (hq : l.s.shards i ≠ []) (hw : w < l.s.size)
    (hold : l.s.worker w = .idle) : ∃ l', Works size f l l' ∧ l'.s.total < l.s.total := by
  cases hown : l.s.shards w with
  | cons x xs =>
    refine works_pop (w := w) hw hown ?_
    simp only [workerStep, hold, hw, hown, if_true]
  | nil =>
    have hne : i ≠ w := by
      rintro rfl
      exact hq hown
    have hstep : Works size f l { l with s := l.s.workerTo w (.steal 1) } := by
      refine works_look (w := w) ?_ ?_
      · simp only [workerStep, hold, hw, hown, if_true]
      · simp only [State.popped, hold, hown]
        rfl
    obtain ⟨l', hworks, hlt⟩ := works_round (l := { l with s := l.s.workerTo w (.steal 1) }) hi hq hne hw
      (if_pos rfl) fun j h1 hj => absurd h1 (Nat.not_le.mpr hj)
    exact ⟨l', hstep.trans hworks, hlt⟩

/-- A worker that looks for an item gets one, if there is any. -/
theorem works_looking (hi : i < l.s.size) (hq : l.s.shards i ≠ []) (hw : w < l.s.size)
    (hold : (l.s.worker w).looking = true) : ∃ l', Works size f l l' ∧ l'.s.total < l.s.total := by
  cases hpc : l.s.worker w with
  | run | publish | unpark | exited =>
    rw [hpc] at hold
    cases hold
  | idle => exact works_idle hi hq hw hpc
  | steal k =>
    -- the rest of the round, then the worker's own shard
    clear hold
    induction hd : l.s.size - k generalizing l k with
    | zero =>
      obtain ⟨l', hworks, hlt⟩ := works_idle (l := { l with s := l.s.workerTo w .idle }) hi hq hw
        (if_pos rfl)
      exact ⟨l', (works_wrap hw hpc (by omega)).trans hworks, hlt⟩
    | succ d ih =>
      rcases works_steal hw hpc (by omega) with hpop | ⟨-, hstep⟩
      · exact hpop
      · obtain ⟨l', hworks, hlt⟩ := ih (l := { l with s := l.s.workerTo w (.steal (k + 1)) }) hi hq hw
          (k + 1) (if_pos rfl) (by dsimp only [State.workerTo]; omega)
        exact ⟨l', hstep.trans hworks, hlt⟩

/-- A worker ends the job it has. -/
theorem works_job (size : ℕ) (f : ℕ → V) (hw : w < l.s.size) :
    ∃ l', Works size f l l' ∧ l'.s.size = l.s.size ∧ l'.s.shards = l.s.shards ∧
      (∀ v, v ≠ w → l'.s.worker v = l.s.worker v) ∧
      ((l'.s.worker w).looking = true ∨ l'.s.worker w = .exited) := by
  have hunpark : ∀ (l : Log V) n, w < l.s.size → l.s.worker w = .unpark n →
      Works size f l { l with s := (l.s.setWake n true).workerTo w .idle } := fun l n hw hold => by
    refine works_look (w := w) ?_ ?_
    · simp only [workerStep, hold, hw, if_true]
    · simp only [State.popped, hold]
  have hpublish : ∀ (l : Log V) n, w < l.s.size → l.s.worker w = .publish n →
      ∃ l', Works size f l l' ∧ l'.s.size = l.s.size ∧ l'.s.shards = l.s.shards ∧
        (∀ v, v ≠ w → l'.s.worker v = l.s.worker v) ∧ l'.s.worker w = .idle := fun l n hw hold => by
    generalize ht : State.workerTo { l.s with done := fun m => if m = n then true else l.s.done m } w
      (.unpark n) = t
    have hstep : Works size f l { l with s := t } := by
      refine works_look (w := w) ?_ ?_
      · simp only [workerStep, hold, hw, if_true, ht]
      · simp only [State.popped, hold]
    subst ht
    refine ⟨_, hstep.trans (hunpark _ n hw (if_pos rfl)), rfl, rfl, fun v hv => ?_, if_pos rfl⟩
    exact (if_neg hv).trans (if_neg hv)
  cases hpc : l.s.worker w with
  | idle | steal => exact ⟨l, .refl l, rfl, rfl, fun _ _ => rfl, .inl (by rw [hpc]; rfl)⟩
  | exited => exact ⟨l, .refl l, rfl, rfl, fun _ _ => rfl, .inr hpc⟩
  | unpark n =>
    exact ⟨_, hunpark l n hw hpc, rfl, rfl, fun v hv => if_neg hv, .inl (congrArg _ (if_pos rfl))⟩
  | publish n =>
    obtain ⟨l', hworks, h1, h2, h3, h4⟩ := hpublish l n hw hpc
    exact ⟨l', hworks, h1, h2, h3, .inl (by rw [h4]; rfl)⟩
  | run n =>
    obtain ⟨t, ht⟩ : ∃ t : State V, t =
        { l.s with outcome := fun m => if m = n then some (f n) else l.s.outcome m }.workerTo w
          (.publish n) := ⟨_, rfl⟩
    have hfinish : Works size f l { l.note (.finish w (f n)) with s := t } := by
      refine Works.one (a := .finish w (f n)) rfl (Option.map_eq_some_iff.mpr ⟨t, ?_, rfl⟩)
        fun m v hv => ?_
      · simp only [Backend.step, hpc, ht]
      · simp only [Log.note, hpc] at hv
        rcases List.mem_append.mp hv with hv | hv
        · exact .inl hv
        · cases List.mem_singleton.mp hv
          exact .inr rfl
    have hself : t.worker w = .publish n := by
      rw [ht]
      exact if_pos rfl
    have hother : ∀ v, v ≠ w → t.worker v = l.s.worker v := fun v hv => by
      rw [ht]
      exact if_neg hv
    have hsize : t.size = l.s.size := by
      rw [ht]
      rfl
    have hshards : t.shards = l.s.shards := by
      rw [ht]
      rfl
    obtain ⟨l', hworks, h1, h2, h3, h4⟩ := hpublish { l.note (.finish w (f n)) with s := t } n
      (hsize ▸ hw) hself
    refine ⟨l', hfinish.trans hworks, h1.trans hsize, h2.trans hshards,
      fun v hv => (h3 v hv).trans (hother v hv), .inl ?_⟩
    rw [h4]
    rfl

/-- The first `k` workers end the jobs they have. -/
theorem works_settle (size : ℕ) (f : ℕ → V) (hk : k ≤ l.s.size) :
    ∃ l', Works size f l l' ∧ l'.s.size = l.s.size ∧ l'.s.shards = l.s.shards ∧
      ∀ w, w < k → (l'.s.worker w).looking = true ∨ l'.s.worker w = .exited := by
  induction k with
  | zero => exact ⟨l, .refl l, rfl, rfl, fun w hw => absurd hw (Nat.not_lt_zero w)⟩
  | succ k ih =>
    obtain ⟨l', hworks, hsize, hshards, hdone⟩ := ih (Nat.le_of_succ_le hk)
    obtain ⟨l'', hworks', hsize', hshards', hother, hself⟩ := works_job size f (l := l') (w := k)
      (by rw [hsize]; exact hk)
    refine ⟨l'', hworks.trans hworks', hsize'.trans hsize, hshards'.trans hshards, fun w hw => ?_⟩
    rcases Nat.lt_succ_iff_lt_or_eq.mp hw with hlt | rfl
    · rw [hother w (Nat.ne_of_lt hlt)]
      exact hdone w hlt
    · exact hself

/-- The workers go on until they have all exited or the queues are empty, and end the
jobs they have. -/
theorem works_out (f : ℕ → V) (hl : l.s.size = size) :
    ∃ l', Works size f l l' ∧ l'.s.size = size ∧
      (∀ w, w < size → (l'.s.worker w).looking = true ∨ l'.s.worker w = .exited) ∧
      ((∀ w, w < size → l'.s.worker w = .exited) ∨ ∀ i, i < size → l'.s.shards i = []) := by
  induction hn : l.s.total using Nat.strong_induction_on generalizing l with
  | _ n ih =>
    obtain ⟨l', hworks, hsize, hshards, hquiet⟩ := works_settle size f (Nat.le_refl l.s.size)
    rw [hl] at hsize hquiet
    by_cases hall : ∀ w, w < size → l'.s.worker w = .exited
    · exact ⟨l', hworks, hsize, hquiet, .inl hall⟩
    by_cases hempty : ∀ i, i < size → l'.s.shards i = []
    · exact ⟨l', hworks, hsize, hquiet, .inr hempty⟩
    push Not at hall hempty
    obtain ⟨w, hw, hleft⟩ := hall
    obtain ⟨i, hi, hq⟩ := hempty
    obtain ⟨u, hworks', hlt⟩ : ∃ u, Works size f l' u ∧ u.s.total < l'.s.total :=
      works_looking (hsize.symm ▸ hi) hq (hsize.symm ▸ hw) ((hquiet w hw).resolve_right hleft)
    have htotal : l'.s.total = l.s.total := by
      unfold State.total
      rw [hshards, hsize, hl]
    obtain ⟨t, hworks'', hend⟩ := ih _ (by rw [← hn, ← htotal]; exact hlt)
      (hworks'.size_eq.trans hsize) rfl
    exact ⟨t, (hworks.trans hworks').trans hworks'', hend⟩

end Drain

/-- After that run every job that preceded its sentinel has ended, and if `fini` is
through then so are the workers. -/
theorem Jobs.worked_out {size : ℕ} {l : Log V} (h : Jobs l) (hl : l.s.size = size)
    (hquiet : ∀ w, w < size → (l.s.worker w).looking = true ∨ l.s.worker w = .exited)
    (hout : (∀ w, w < size → l.s.worker w = .exited) ∨ ∀ i, i < size → l.s.shards i = []) :
    (∀ n ∈ l.early, n ∈ l.ended.map Prod.fst) ∧
      (l.s.fini = some size → ∀ w, w < size → l.s.worker w = .exited) := by
  subst hl
  have hidle : ∀ n w, w < l.s.size → l.s.worker w ≠ .run n := by
    intro n w hw he
    rcases hquiet w hw with hlook | hexit
    · exact WorkerPc.ne_run_of_looking hlook n he
    · rw [he] at hexit
      cases hexit
  rcases hout with hall | hempty
  · refine ⟨fun n hn => ?_, fun _ => hall⟩
    exact (h.ended hn (h.none_left hall hn) (hidle n)).2
  · have hnone : ∀ i, l.s.shards i = [] := fun i => by
      by_cases hi : i < l.s.size
      · exact hempty i hi
      · exact h.placed.bound i (Nat.not_lt.mp hi)
    refine ⟨fun n hn => ?_, fun hfini w hw => ?_⟩
    · refine (h.ended hn (fun i hi => ?_) (hidle n)).2
      rw [hnone i] at hi
      cases hi
    · refine h.fenced.all_exited ?_ (fun i hi => ?_) hw
      · rw [State.put, hfini]
        rfl
      · rw [hnone i] at hi
        cases hi

/-! ### The pool -/

/-- Taken by one worker, once, and its `fn` came to an end, once. -/
def Log.Executed (l : Log V) (n : ℕ) : Prop :=
  l.begun.count n = 1 ∧ (l.ended.map Prod.fst).count n = 1

theorem Jobs.executed {l : Log V} (h : Jobs l) {n : ℕ} (hn : n ∈ l.ended.map Prod.fst) :
    l.Executed n := by
  obtain ⟨v, -, hv⟩ := h.ran.outcome hn
  have hpos := List.count_pos_iff.mpr (h.ran.stored n v hv).1
  have hle := h.placed.begun_count_le n
  exact ⟨by omega, List.count_eq_one_of_mem h.ran.once hn⟩

/-- In every state of a pool of any size: no job is taken twice; once all workers have
exited, each job that was put before the sentinel of its shard has been executed and none
of them is queued; a worker gets at most one sentinel and has exited exactly if it got
one; a `submit` has returned only what its own job came to. And whatever the jobs come to,
the workers by themselves execute every job that was put before its sentinel, and exit if
all sentinels are there. -/
theorem pool_runs_out (n : ℕ) {l : Log V} (h : Reachable (logged V (max 1 n)) l) :
    (∀ m, l.begun.count m ≤ 1) ∧
    ((∀ w, w < max 1 n → l.s.worker w = .exited) →
      ∀ m ∈ l.early, l.Executed m ∧ ∀ i, Item.job m ∉ l.s.shards i) ∧
    (∀ w, (l.took.map Prod.fst).count w ≤ 1 ∧
      (w ∈ l.took.map Prod.fst ↔ l.s.worker w = .exited)) ∧
    (∀ m o, l.s.submit m = .returned o →
      ∃ v, o = some v ∧ (m, v) ∈ l.ended ∧ ∀ v', (m, v') ∈ l.ended → v' = v) ∧
    (∀ f : ℕ → V, ∃ l', Works (max 1 n) f l l' ∧ (∀ m ∈ l.early, l'.Executed m) ∧
      (l.s.fini = some (max 1 n) → ∀ w, w < max 1 n → l'.s.worker w = .exited)) := by
  have hpos : 0 < max 1 n := Nat.lt_of_lt_of_le Nat.zero_lt_one (Nat.le_max_left 1 n)
  obtain ⟨hsize, hjobs⟩ := reachable_jobs hpos h
  refine ⟨hjobs.placed.begun_count_le, fun hall m hm => ?_, fun w => ⟨?_, hjobs.fenced.exited w⟩,
    fun m o ho => ?_, fun f => ?_⟩
  · rw [← hsize] at hall
    have hnot := hjobs.none_left hall hm
    refine ⟨hjobs.executed (hjobs.ended hm hnot fun w hw he => ?_).2, hnot⟩
    rw [hall w hw] at he
    cases he
  · exact List.nodup_iff_count_le_one.mp hjobs.fenced.once w
  · obtain ⟨v, hv, hmem⟩ := hjobs.ran.returned m o ho
    refine ⟨v, hv, hmem, fun v' hmem' => ?_⟩
    have h1 := (hjobs.ran.stored m v hmem).2
    have h2 := (hjobs.ran.stored m v' hmem').2
    rw [h1] at h2
    exact (Option.some.inj h2).symm
  · obtain ⟨l', hworks, hsize', hquiet, hout⟩ := works_out f hsize
    have hjobs' := (reachable_jobs hpos (hworks.reachable h)).2
    obtain ⟨hearly, hfini⟩ := hworks.kept
    obtain ⟨hended, hexit⟩ := hjobs'.worked_out hsize' hquiet hout
    refine ⟨l', hworks, fun m hm => hjobs'.executed (hended m (hearly ▸ hm)), fun hall => ?_⟩
    exact hexit (hfini.trans hall)

/-- Worker 1 steals the sentinel of shard 0; job 1 is then put on its shard, ahead of the
sentinel there, and is left to worker 0. -/
def stolenSentinel : List (Action ℕ) :=
  [.submit 0, .submitter 0, .submitter 0, .submitter 0, .worker 0, .fini, .fini,
   .worker 1, .worker 1, .submit 1, .submitter 1, .submitter 1, .submitter 1, .fini,
   .finish 0 10, .worker 0, .worker 0, .submitter 0, .submitter 0,
   .worker 0, .worker 0, .finish 0 11, .worker 0, .worker 0, .worker 0, .worker 0]

theorem stolenSentinel_runs_out :
    ∃ l : Log ℕ, (logged ℕ 2).run (.init ℕ 2) stolenSentinel = some l ∧ l.took = [(1, 0), (0, 1)] ∧
      l.early = [0, 1] ∧ l.Executed 1 ∧ l.s.submit 0 = .returned (some 10) := by
  obtain ⟨l, hl, htook, hearly, h0, h1, hreturned⟩ : ∃ l : Log ℕ,
      (logged ℕ 2).run (.init ℕ 2) stolenSentinel = some l ∧ l.took = [(1, 0), (0, 1)] ∧
      l.early = [0, 1] ∧ l.s.worker 0 = .exited ∧ l.s.worker 1 = .exited ∧
      l.s.submit 0 = .returned (some 10) := ⟨_, rfl, rfl, rfl, rfl, rfl, rfl⟩
  have hr : Reachable (logged ℕ (max 1 2)) l := reachable_of_run _ stolenSentinel rfl hl
  have hexit : ∀ w, w < max 1 2 → l.s.worker w = .exited := by
    intro w hw
    rcases w with _ | _ | w
    · exact h0
    · exact h1
    · exact absurd hw (by omega)
  exact ⟨l, hl, htook, hearly, ((pool_runs_out 2 hr).2.1 hexit 1 (by rw [hearly]; decide)).1, hreturned⟩

end Stackweave.Monkey.Backend
