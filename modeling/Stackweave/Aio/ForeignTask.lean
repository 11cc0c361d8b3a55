import Mathlib.Data.List.Count
import Mathlib.Logic.Function.Basic
import Stackweave.Tally
import Stackweave.Transition

/-!
# `create_task` from another thread (`aio/loop_schedule.py`, `aio/loop_run.py`)

A thread that is not the loop's builds its task at once when the loop does not run, and leaves the
spawn to the next run. When the loop runs it puts a closure into `_ts_queue` and waits for it to be
called. The queue is drained by the keepalive fiber of a run, on the thread of the loop. A run ends
when its future is done, after an exception that is to leave it, or when the keepalive has seen
`stop()` and has drained once more; the keepalive of an earlier run may still be there and drain in a
later one.

* `create_task_returns`: when no caller is left waiting, and that a call that has returned has made
  one task.
* `stop_strands_caller`: a run whose end leaves one.
-/

namespace Stackweave.Aio.ForeignTask

open Transition Tally Function

/-- What is in `_ts_queue`: the closure `_mk` of a call, a `_DeferredSpawn`, another callback. -/
inductive Item
  | make (c : ℕ)
  | spawn (c : ℕ)
  | other
  deriving DecidableEq

/-- A call of `create_task`. -/
inductive Pc
  | idle
  /-- looks at `_thread_id` -/
  | choose
  /-- the loop did not run: `_pg_make_task`, then the append -/
  | build
  | defer
  /-- the loop ran: `call_soon_threadsafe(_mk)`, then `ev.wait()` -/
  | marshal
  | blocked
  | returned
  | raised
  deriving DecidableEq

inductive KaPc
  /-- at the test of its loop -/
  | top
  /-- in `_drain_ts_queue`; `last` is the one behind the loop -/
  | draining (pending : List Item) (last : Bool)
  | sleeping
  /-- looks whether `stop()` was called -/
  | finishing
  | done

/-- The keepalive of a run, with its own `stop` box. -/
structure Keepalive where
  stop : Bool
  pc : KaPc

inductive Phase
  | off
  /-- in `run_forever` or `run_until_complete` before `_drive` -/
  | entering
  | driving
  deriving DecidableEq

/-- The keepalives are those of all the runs, the last one that of the current one. `_thread_id` is set
while the loop is driving. `ev`, `failed` and `tasks` are the event, the exception and the tasks of a
call. -/
structure State where
  phase : Phase
  forever : Bool
  stopping : Bool
  schedStop : Bool
  queue : List Item
  kas : List Keepalive
  pc : ℕ → Pc
  ev : ℕ → Bool
  failed : ℕ → Bool
  tasks : ℕ → ℕ

def start : State where
  phase := .off
  forever := false
  stopping := false
  schedStop := false
  queue := []
  kas := []
  pc _ := .idle
  ev _ := false
  failed _ := false
  tasks _ := 0

inductive Action
  | call (c : ℕ)
  /-- the next step of a call; `ok` says that the task can be made -/
  | caller (c : ℕ) (ok : Bool)
  /-- any other callback is put into the queue -/
  | post
  | enter (forever : Bool)
  | drive
  | keepalive (i : ℕ) (ok : Bool)
  | stop
  /-- `_stop_on_done` or `_pg_signal_fatal` -/
  | breaks
  /-- `stackweave_c.run()` returns -/
  | endDrive

namespace State

variable (s : State)

def goto (c : ℕ) (q : Pc) : State := { s with pc := Function.update s.pc c q }

/-- An item of the queue is run on the thread of the loop. -/
def exec (ok : Bool) : Item → State
  | .make c =>
    { s with
      ev := Function.update s.ev c true
      failed := Function.update s.failed c (!ok)
      tasks := Function.update s.tasks c (s.tasks c + ok.toNat) }
  | .spawn _ | .other => s

def setKa (i : ℕ) (k : Keepalive) : State := { s with kas := s.kas.set i k }

/-- `_ka_stop_box[0] = True` -/
def stopBox : State :=
  match s.kas[s.kas.length - 1]? with
  | none => s
  | some k => s.setKa (s.kas.length - 1) { k with stop := true }

end State

/-- The next step of a call. -/
def callerStep (s : State) (c : ℕ) (ok : Bool) : Option State :=
  match s.pc c with
  | .idle | .returned | .raised => none
  | .choose => some (s.goto c (if s.phase = .driving then .marshal else .build))
  | .build =>
    if ok then some { s.goto c .defer with tasks := Function.update s.tasks c (s.tasks c + 1) }
    else some (s.goto c .raised)
  | .defer => some { s.goto c .returned with queue := s.queue ++ [.spawn c] }
  | .marshal => some { s.goto c .blocked with queue := s.queue ++ [.make c] }
  | .blocked =>
    if s.ev c then some (s.goto c (if s.failed c then .raised else .returned)) else none

/-- The next step of the keepalive `i`. -/
def keepaliveStep (s : State) (i : ℕ) (ok : Bool) : Option State :=
  match s.kas[i]? with
  | none => none
  | some k =>
    match k.pc with
    | .top =>
      some { s.setKa i { k with pc := .draining s.queue (k.stop || s.stopping) } with queue := [] }
    | .draining (x :: xs) last => some ((s.exec ok x).setKa i { k with pc := .draining xs last })
    | .draining [] last => some (s.setKa i { k with pc := if last then .finishing else .sleeping })
    | .sleeping => some (s.setKa i { k with pc := .top })
    | .finishing =>
      some { s.setKa i { k with pc := .done } with schedStop := s.schedStop || s.stopping }
    | .done => none

def step (s : State) : Action → Option State
  | .call c => if s.pc c = .idle then some (s.goto c .choose) else none
  | .caller c ok => callerStep s c ok
  | .post => some { s with queue := s.queue ++ [.other] }
  | .enter forever =>
    if s.phase = .off then
      some { s with
        phase := .entering, forever := forever, stopping := forever && s.stopping
        kas := s.kas ++ [⟨false, .top⟩] }
    else none
  | .drive => if s.phase = .entering then some { s with phase := .driving } else none
  | .keepalive i ok => if s.phase = .driving then keepaliveStep s i ok else none
  | .stop => some { s with stopping := true }
  | .breaks => if s.phase = .driving then some { s.stopBox with schedStop := true } else none
  | .endDrive =>
    if s.phase = .driving ∧ s.schedStop = true then
      some { s.stopBox with
        phase := .off, schedStop := false, stopping := !s.forever && s.stopping }
    else none

def system : System State Action where
  init s := s = start
  step := step

/-! ## What it promises -/

/-- No caller waits for a closure that nobody is going to run, and a call that has returned has made one
task. -/
structure Sound (s : State) : Prop where
  drained : ∀ c, s.pc c = .blocked → .make c ∈ s.queue → s.phase ≠ .off
  once : ∀ c, s.pc c = .returned → s.tasks c = 1

def Item.isMake : Item → Bool
  | .make _ => true
  | _ => false

/-- A run does not end with a closure of a call in the queue, and none is put there by a caller that saw
the loop run and comes when it does not any more. -/
def Timely (s : State) : Action → Prop
  | .endDrive => ∀ x ∈ s.queue, x.isMake = false
  | .caller c _ => s.pc c = .marshal → s.phase ≠ .off
  | _ => True

instance (s : State) (a : Action) : Decidable (Timely s a) := by
  cases a <;> unfold Timely <;> infer_instance

/-! ## Where the closure of a call is -/

def KaPc.pending : KaPc → List Item
  | .draining pending _ => pending
  | _ => []

/-- How often the closure of a call is in the hands of a keepalive. -/
def Keepalive.has (c : ℕ) (k : Keepalive) : ℕ := k.pc.pending.count (.make c)

/-- How often it is anywhere. -/
def State.tokens (s : State) (c : ℕ) : ℕ := s.queue.count (.make c) + tally (Keepalive.has c) s.kas

/-- The tasks of a call, by where it is. -/
def Pc.made (ev failed : Bool) : Pc → ℕ
  | .defer | .returned => 1
  | .blocked => (ev && !failed).toNat
  | _ => 0

def Pc.early : Pc → Bool
  | .idle | .choose | .build | .marshal => true
  | _ => false

/-- There is one closure while the caller waits and its event is not set. -/
structure Book (s : State) (c : ℕ) : Prop where
  tokens : s.tokens c = if s.pc c = .blocked ∧ s.ev c = false then 1 else 0
  tasks : s.tasks c = (s.pc c).made (s.ev c) (s.failed c)
  early : (s.pc c).early = true → s.ev c = false

variable {s t : State} {c d i : ℕ}

theorem Book.of_eq (h : Book s c) (htok : t.tokens c = s.tokens c) (hpc : t.pc c = s.pc c)
    (hev : t.ev c = s.ev c) (hfail : t.failed c = s.failed c) (htasks : t.tasks c = s.tasks c) :
    Book t c where
  tokens := by rw [htok, hpc, hev, h.tokens]
  tasks := by rw [htasks, hpc, hev, hfail, h.tasks]
  early he := by
    rw [hpc] at he
    rw [hev]
    exact h.early he

/-- A caller whose closure is somewhere waits. -/
theorem Book.waits (h : Book s c) (hpos : 0 < s.tokens c) : s.pc c = .blocked ∧ s.ev c = false := by
  rw [h.tokens] at hpos
  by_contra hno
  rw [if_neg hno] at hpos
  cases hpos

theorem book_start (c : ℕ) : Book start c := ⟨rfl, rfl, fun _ => rfl⟩

/-! ## The steps -/

theorem tokens_append (x : Item) (d : ℕ) :
    State.tokens { s with queue := s.queue ++ [x] } d = s.tokens d + [x].count (.make d) := by
  simp only [State.tokens, List.count_append]
  omega

theorem tokens_append_other {x : Item} (hx : x ≠ .make d) :
    State.tokens { s with queue := s.queue ++ [x] } d = s.tokens d := by
  rw [tokens_append, List.count_eq_zero_of_not_mem (by simpa using hx.symm), Nat.add_zero]

/-- A keepalive whose pending items change. -/
theorem tokens_setKa {k : Keepalive} (hk : s.kas[i]? = some k) (k' : Keepalive) (d : ℕ) :
    (s.setKa i k').tokens d + k.has d = s.tokens d + k'.has d := by
  have h := tally_set (w := Keepalive.has d) hk k'
  simp only [State.tokens, State.setKa]
  omega

theorem tokens_stopBox (d : ℕ) : s.stopBox.tokens d = s.tokens d := by
  unfold State.stopBox
  split
  · rfl
  · rename_i k hk
    have h := tokens_setKa hk { k with stop := true } d
    have heq : Keepalive.has d { k with stop := true } = k.has d := rfl
    omega

theorem stopBox_rest : s.stopBox.pc = s.pc ∧ s.stopBox.ev = s.ev ∧ s.stopBox.failed = s.failed ∧
    s.stopBox.tasks = s.tasks ∧ s.stopBox.queue = s.queue := by
  unfold State.stopBox
  split <;> exact ⟨rfl, rfl, rfl, rfl, rfl⟩

/-- A call that moves without its closure. -/
theorem Book.goto {q : Pc} (h : Book s c) (hnot : ¬(s.pc c = .blocked ∧ s.ev c = false))
    (hq : q ≠ .blocked) (htasks : q.made (s.ev c) (s.failed c) = s.tasks c)
    (hearly : q.early = true → s.ev c = false) : Book (s.goto c q) c := by
  have hpc : (s.goto c q).pc c = q := update_self _ _ _
  refine ⟨?_, ?_, fun he => ?_⟩
  · have htok := h.tokens
    rw [if_neg hnot] at htok
    rw [if_neg (by rw [hpc]; exact fun hb => hq hb.1)]
    exact htok
  · rw [hpc]
    exact htasks.symm
  · rw [hpc] at he
    exact hearly he

theorem callerStep_other {ok : Bool} (h : callerStep s c ok = some t) (hdc : d ≠ c) (hb : Book s d) :
    Book t d := by
  have hpc (q : Pc) : (s.goto c q).pc d = s.pc d := update_of_ne hdc _ _
  unfold callerStep at h
  split at h
  · cases h
  · cases h
  · cases h
  · cases h
    exact hb.of_eq rfl (hpc _) rfl rfl rfl
  · split at h <;> cases h
    · exact hb.of_eq rfl (hpc _) rfl rfl (update_of_ne hdc _ _)
    · exact hb.of_eq rfl (hpc _) rfl rfl rfl
  · cases h
    exact hb.of_eq (tokens_append_other (s := s.goto c .returned) (by rintro ⟨⟩)) (hpc _) rfl rfl rfl
  · cases h
    refine hb.of_eq (tokens_append_other (s := s.goto c .blocked) ?_) (hpc _) rfl rfl rfl
    simpa using hdc.symm
  · obtain ⟨-, h⟩ := Option.ite_none_right_eq_some.mp h
    cases h
    exact hb.of_eq rfl (hpc _) rfl rfl rfl

theorem callerStep_self {ok : Bool} (h : callerStep s c ok = some t) (hb : Book s c) : Book t c := by
  have htasks := hb.tasks
  unfold callerStep at h
  split at h
  · cases h
  · cases h
  · cases h
  · rename_i hpc
    rw [hpc] at htasks
    have hev : s.ev c = false := hb.early (by rw [hpc]; rfl)
    cases h
    refine hb.goto (by rw [hpc]; rintro (⟨⟩ | ⟨⟩)) ?_ ?_ fun _ => hev
    · split <;> rintro ⟨⟩
    · rw [htasks]
      split <;> rfl
  · rename_i hpc
    rw [hpc] at htasks
    have hev : s.ev c = false := hb.early (by rw [hpc]; rfl)
    have htok := hb.tokens
    rw [if_neg (by rw [hpc]; rintro (⟨⟩ | ⟨⟩))] at htok
    split at h <;> cases h
    · refine ⟨?_, ?_, fun he => hev⟩
      · rw [if_neg (by simp [State.goto])]
        exact htok
      · simp only [State.goto, update_self, htasks]
        rfl
    · exact hb.goto (by rw [hpc]; rintro (⟨⟩ | ⟨⟩)) (by rintro ⟨⟩) htasks.symm (by rintro ⟨⟩)
  · rename_i hpc
    rw [hpc] at htasks
    cases h
    have hr : Book (s.goto c .returned) c := hb.goto (by rw [hpc]; rintro (⟨⟩ | ⟨⟩)) (by rintro ⟨⟩) htasks.symm (by rintro ⟨⟩)
    exact hr.of_eq (tokens_append_other (s := s.goto c .returned) (by rintro ⟨⟩)) rfl rfl rfl rfl
  · rename_i hpc
    rw [hpc] at htasks
    have hev : s.ev c = false := hb.early (by rw [hpc]; rfl)
    have htok := hb.tokens
    rw [if_neg (by rw [hpc]; rintro (⟨⟩ | ⟨⟩))] at htok
    cases h
    refine ⟨?_, ?_, fun he => hev⟩
    · rw [if_pos ⟨update_self _ _ _, hev⟩]
      refine (tokens_append (s := s.goto c .blocked) (.make c) c).trans ?_
      have hgoto : (s.goto c .blocked).tokens c = s.tokens c := rfl
      simp [hgoto, htok]
    · simp only [State.goto, update_self, htasks, hev]
      rfl
  · rename_i hpc
    rw [hpc] at htasks
    obtain ⟨hev, h⟩ := Option.ite_none_right_eq_some.mp h
    cases h
    refine hb.goto (by rw [hev]; rintro ⟨_, ⟨⟩⟩) ?_ ?_ ?_
    · split <;> rintro ⟨⟩
    · rw [htasks, hev]
      split
      · rename_i hf
        rw [hf]
        rfl
      · rename_i hf
        rw [Bool.eq_false_iff.mpr hf]
        rfl
    · split <;> rintro ⟨⟩

/-- A keepalive that neither takes an item nor runs one. -/
theorem Book.setKa {k k' : Keepalive} (h : Book s d) (hk : s.kas[i]? = some k)
    (hp : k'.pc.pending = k.pc.pending) : Book (s.setKa i k') d := by
  refine h.of_eq ?_ rfl rfl rfl rfl
  have htok := tokens_setKa hk k' d
  have heq : k'.has d = k.has d := by
    unfold Keepalive.has
    rw [hp]
  omega

/-- An item is run. -/
theorem Book.exec {k : Keepalive} {x : Item} {xs : List Item} {last ok : Bool} (h : Book s d)
    (hk : s.kas[i]? = some k) (hp : k.pc = .draining (x :: xs) last) :
    Book ((s.exec ok x).setKa i { k with pc := .draining xs last }) d := by
  have hkas : (s.exec ok x).kas[i]? = some k := by
    cases x <;> exact hk
  have htok := tokens_setKa hkas { k with pc := .draining xs last } d
  have hexec : (s.exec ok x).tokens d = s.tokens d := by
    cases x <;> rfl
  have hold : k.has d = (x :: xs).count (.make d) := by
    unfold Keepalive.has
    rw [hp]
    rfl
  have hnew : Keepalive.has d { k with pc := .draining xs last } = xs.count (.make d) := rfl
  rw [List.count_cons] at hold
  by_cases hx : x = .make d
  · subst hx
    rw [if_pos (by simp)] at hold
    have hpos : 0 < s.tokens d := by
      have hle : k.has d ≤ tally (Keepalive.has d) s.kas := le_tally (List.mem_of_getElem? hk)
      unfold State.tokens
      omega
    obtain ⟨hpc, hev⟩ := h.waits hpos
    have htasks := h.tasks
    rw [hpc, hev] at htasks
    have htokens := h.tokens
    rw [if_pos ⟨hpc, hev⟩] at htokens
    refine ⟨?_, ?_, fun he => ?_⟩
    · rw [if_neg (by simp [State.exec, State.setKa])]
      omega
    · simp only [State.exec, State.setKa, update_self, htasks, hpc]
      cases ok <;> rfl
    · simp only [State.exec, State.setKa, hpc] at he
      cases he
  · rw [if_neg (by simpa using hx)] at hold
    refine h.of_eq (by omega) ?_ ?_ ?_ ?_
    all_goals
      cases x with
      | make c =>
        have hdc : d ≠ c := by
          rintro rfl
          exact hx rfl
        simp [State.exec, State.setKa, update_of_ne hdc]
      | spawn _ => rfl
      | other => rfl

theorem keepaliveStep_book {ok : Bool} (h : keepaliveStep s i ok = some t) (hb : Book s d) :
    Book t d := by
  unfold keepaliveStep at h
  split at h
  · cases h
  · rename_i k hk
    split at h
    · rename_i hpc
      cases h
      refine hb.of_eq ?_ rfl rfl rfl rfl
      -- the queue has become the pending items of the keepalive
      have htok := tokens_setKa hk { k with pc := .draining s.queue (k.stop || s.stopping) } d
      have hold : k.has d = 0 := by
        unfold Keepalive.has
        rw [hpc]
        rfl
      have hnew : Keepalive.has d { k with pc := .draining s.queue (k.stop || s.stopping) } =
        s.queue.count (.make d) := rfl
      simp only [State.tokens, State.setKa] at htok ⊢
      simp only [List.count_nil]
      omega
    · rename_i hpc
      cases h
      exact hb.exec hk hpc
    · rename_i hpc
      cases h
      refine hb.setKa hk ?_
      rw [hpc]
      simp only
      split <;> rfl
    · rename_i hpc
      cases h
      exact hb.setKa hk (by rw [hpc]; rfl)
    · rename_i hpc
      cases h
      have hd : Book (s.setKa i { k with pc := .done }) d := hb.setKa hk (by rw [hpc]; rfl)
      exact hd.of_eq rfl rfl rfl rfl rfl
    · cases h

theorem step_book {a : Action} (h : step s a = some t) (hb : ∀ c, Book s c) (d : ℕ) : Book t d := by
  cases a with
  | call c =>
    obtain ⟨hidle, h⟩ := Option.ite_none_right_eq_some.mp h
    cases h
    by_cases hdc : d = c
    · subst hdc
      have hev : s.ev d = false := (hb d).early (by rw [hidle]; rfl)
      have htasks := (hb d).tasks
      rw [hidle] at htasks
      exact (hb d).goto (by rw [hidle]; rintro (⟨⟩ | ⟨⟩)) (by rintro ⟨⟩) htasks.symm fun _ => hev
    · exact (hb d).of_eq rfl (update_of_ne hdc _ _) rfl rfl rfl
  | caller c ok =>
    by_cases hdc : d = c
    · subst hdc
      exact callerStep_self h (hb d)
    · exact callerStep_other h hdc (hb d)
  | post =>
    cases h
    exact (hb d).of_eq (tokens_append_other (by rintro ⟨⟩)) rfl rfl rfl rfl
  | enter forever =>
    obtain ⟨-, h⟩ := Option.ite_none_right_eq_some.mp h
    cases h
    refine (hb d).of_eq ?_ rfl rfl rfl rfl
    simp only [State.tokens, tally_append, tally_cons, tally_nil]
    rfl
  | drive =>
    obtain ⟨-, h⟩ := Option.ite_none_right_eq_some.mp h
    cases h
    exact (hb d).of_eq rfl rfl rfl rfl rfl
  | keepalive i ok =>
    obtain ⟨-, h⟩ := Option.ite_none_right_eq_some.mp h
    exact keepaliveStep_book h (hb d)
  | stop =>
    cases h
    exact (hb d).of_eq rfl rfl rfl rfl rfl
  | breaks | endDrive =>
    obtain ⟨-, h⟩ := Option.ite_none_right_eq_some.mp h
    cases h
    obtain ⟨hpc, hev, hfail, htasks, -⟩ := stopBox_rest (s := s)
    exact (hb d).of_eq (tokens_stopBox d) (congrFun hpc d) (congrFun hev d) (congrFun hfail d)
      (congrFun htasks d)

theorem reachable_book (h : Reachable system s) : ∀ c, Book s c :=
  Reachable.invariant (P := fun s => ∀ c, Book s c) (by rintro s rfl; exact book_start)
    (fun _ _ _ _ hb hs => step_book hs hb) h

/-! ## The end of a run -/

/-- No closure of a call is in the queue while the loop is off. -/
def Drained (s : State) : Prop := s.phase = .off → ∀ c, .make c ∉ s.queue

theorem callerStep_phase {ok : Bool} (h : callerStep s c ok = some t) : t.phase = s.phase ∧
    (t.queue = s.queue ∨ t.queue = s.queue ++ [Item.spawn c] ∨
      s.pc c = .marshal ∧ t.queue = s.queue ++ [Item.make c]) := by
  unfold callerStep at h
  split at h
  · cases h
  · cases h
  · cases h
  · cases h
    exact ⟨rfl, .inl rfl⟩
  · split at h <;> cases h <;> exact ⟨rfl, .inl rfl⟩
  · cases h
    exact ⟨rfl, .inr (.inl rfl)⟩
  · rename_i hpc
    cases h
    exact ⟨rfl, .inr (.inr ⟨hpc, rfl⟩)⟩
  · obtain ⟨-, h⟩ := Option.ite_none_right_eq_some.mp h
    cases h
    exact ⟨rfl, .inl rfl⟩

theorem exec_rest (s : State) (ok : Bool) (x : Item) :
    (s.exec ok x).phase = s.phase ∧ (s.exec ok x).queue = s.queue := by
  cases x <;> exact ⟨rfl, rfl⟩

theorem keepaliveStep_phase {ok : Bool} (h : keepaliveStep s i ok = some t) : t.phase = s.phase := by
  unfold keepaliveStep at h
  split at h
  · cases h
  · split at h <;> cases h
    · rfl
    · exact (exec_rest s ok _).1
    · rfl
    · rfl
    · rfl

theorem Drained.step {a : Action} (h : Drained s) (ha : Timely s a) (hs : step s a = some t) :
    Drained t := by
  intro hoff c
  cases a with
  | call d =>
    obtain ⟨-, hs⟩ := Option.ite_none_right_eq_some.mp hs
    cases hs
    exact h hoff c
  | caller d ok =>
    obtain ⟨hphase, hqueue⟩ := callerStep_phase hs
    rw [hphase] at hoff
    rcases hqueue with heq | heq | ⟨hpc, -⟩
    · rw [heq]
      exact h hoff c
    · rw [heq]
      simpa using h hoff c
    · exact absurd hoff (ha hpc)
  | post =>
    cases hs
    simpa using h hoff c
  | enter forever =>
    obtain ⟨-, hs⟩ := Option.ite_none_right_eq_some.mp hs
    cases hs
    cases hoff
  | drive =>
    obtain ⟨-, hs⟩ := Option.ite_none_right_eq_some.mp hs
    cases hs
    cases hoff
  | keepalive i ok =>
    obtain ⟨hdriving, hs⟩ := Option.ite_none_right_eq_some.mp hs
    rw [keepaliveStep_phase hs, hdriving] at hoff
    cases hoff
  | stop =>
    cases hs
    exact h hoff c
  | breaks =>
    obtain ⟨hdriving, hs⟩ := Option.ite_none_right_eq_some.mp hs
    cases hs
    have hphase : s.stopBox.phase = s.phase := by
      unfold State.stopBox
      split <;> rfl
    exact absurd ((hphase.trans hdriving).symm.trans hoff) (by rintro ⟨⟩)
  | endDrive =>
    obtain ⟨-, hs⟩ := Option.ite_none_right_eq_some.mp hs
    cases hs
    intro hmem
    obtain ⟨-, -, -, -, hqueue⟩ := stopBox_rest (s := s)
    cases ha (.make c) (hqueue ▸ hmem)

theorem sound_of_drained (h : Drained s) (hb : ∀ c, Book s c) : Sound s where
  drained c _ hmem hoff := h hoff c hmem
  once c hc := by
    have htasks := (hb c).tasks
    rwa [hc] at htasks

theorem reachable_drained (h : Reachable (system.restrict Timely) s) : Drained s :=
  h.invariant (by rintro s rfl; exact fun _ _ => (by rintro ⟨⟩)) fun _ _ _ _ hd hs =>
    hd.step (System.restrict_step.mp hs).1 (System.restrict_step.mp hs).2

/-- A step that misses the condition leaves a caller behind. -/
theorem not_sound_of_late {a : Action} (hb : ∀ c, Book s c) (ha : ¬Timely s a)
    (hs : step s a = some t) : ¬Sound t := by
  intro h
  cases a with
  | caller c ok =>
    obtain ⟨hpc, hoff⟩ := Classical.not_imp.mp ha
    have hoff := not_not.mp hoff
    simp only [step, callerStep, hpc] at hs
    cases hs
    exact h.drained c (update_self _ _ _) (by simp) hoff
  | endDrive =>
    obtain ⟨-, hs⟩ := Option.ite_none_right_eq_some.mp hs
    cases hs
    simp only [Timely, not_forall] at ha
    obtain ⟨x, hx, hmake⟩ := ha
    cases x with
    | make c =>
      obtain ⟨hpc, -, -, -, hqueue⟩ := stopBox_rest (s := s)
      have hpos : 0 < s.tokens c :=
        Nat.lt_of_lt_of_le (List.count_pos_iff.mpr hx) (Nat.le_add_right _ _)
      refine h.drained c ?_ ?_ rfl
      · rw [← ((hb c).waits hpos).1]
        exact congrFun hpc c
      · change Item.make c ∈ s.stopBox.queue
        rw [hqueue]
        exact hx
    | spawn _ => exact hmake rfl
    | other => exact hmake rfl
  | call | post | enter | drive | keepalive | stop | breaks => exact ha trivial

/-- In the runs in which no run of the loop ends with a closure in the queue and none comes late no
caller is left waiting, and the first step of another kind leaves one. In every run a call that has
returned has made one task. -/
theorem create_task_returns (s : State) :
    (Reachable (system.restrict Timely) s → Sound s ∧
      ∀ a t, step s a = some t → (Sound t ↔ Timely s a)) ∧
    (Reachable system s → ∀ c, s.pc c = .returned → s.tasks c = 1) := by
  refine ⟨fun h => ?_, fun h c hc => ?_⟩
  · have hb := reachable_book h.of_restrict
    have hd := reachable_drained h
    refine ⟨sound_of_drained hd hb, fun a t hs => ⟨fun hsound => ?_, fun ha => ?_⟩⟩
    · by_contra ha
      exact not_sound_of_late hb ha hs hsound
    · exact sound_of_drained (hd.step ha hs) (step_book hs hb)
  · have htasks := (reachable_book h c).tasks
    rwa [hc] at htasks

/-- A call before the run and one during it, which the keepalive serves. -/
def served : List Action :=
  [.call 0, .caller 0 true, .caller 0 true, .caller 0 true, .enter true, .drive, .call 1,
    .caller 1 true, .caller 1 true, .keepalive 0 true, .keepalive 0 true, .keepalive 0 true,
    .caller 1 true]

theorem create_task_returns_served :
    ∃ s, (system.restrict Timely).run start served = some s ∧ s.pc 0 = .returned ∧
      s.pc 1 = .returned ∧ s.tasks 1 = 1 ∧ Sound s := by
  have hrun : ((system.restrict Timely).run start served).any (fun s =>
      s.pc 0 = .returned ∧ s.pc 1 = .returned ∧ s.tasks 1 = 1) = true := by
    decide +kernel
  obtain ⟨s, hs, hp⟩ := (Option.any_eq_true _ _).mp hrun
  obtain ⟨hzero, hone, htasks⟩ := of_decide_eq_true hp
  exact ⟨s, hs, hzero, hone, htasks, ((create_task_returns s).1 (reachable_of_run _ served rfl hs)).1⟩

/-- `stop()` is seen, the keepalive drains for the last time, and a caller that saw the loop run appends
its closure before the run ends. -/
def late : List Action :=
  [.enter true, .drive, .call 0, .caller 0 true, .stop, .keepalive 0 true, .keepalive 0 true,
    .caller 0 true, .keepalive 0 true, .endDrive]

theorem stop_strands_caller :
    ∃ s, system.run start late = some s ∧ s.pc 0 = .blocked ∧ s.ev 0 = false ∧
      s.queue = [.make 0] ∧ s.phase = .off ∧ ¬Sound s := by
  refine ⟨_, rfl, rfl, rfl, rfl, rfl, fun h => ?_⟩
  exact h.drained 0 rfl (List.mem_singleton.mpr rfl) rfl

end Stackweave.Aio.ForeignTask
