import Stackweave.Monkey.ExecutorTasks

/-!
# The shutdown of the executor

`_idle` is set exactly while `_pending` is empty: both are changed under `_guard`. What is pending
belongs to a task that has not finished, to a `submit` at its spawn, or to one whose spawn raised.
Nothing takes the last kind off the set again.
-/

namespace Stackweave.Monkey.Executor

open Transition Function

variable {cfg : Config} {s t : State} {x x' : Shared} {f : ℕ} {st st' : Stage}

/-! ## Who is in `_idle` -/

@[grind =]
def Op.shuts : Op → Bool
  | .cancelling _ _ | .waiting => true
  | _ => false

/-- Where a fiber is in `_idle`. -/
def IdleFits (flag : Bool) (q : Event.Pc) : Op → Stage → Prop
  | .waiting, _ => q.waits = true ∨ q = .returned true false ∧ flag = true
  | _, .settingIdle _ => q.sets = true ∨ q = .idle
  | _, _ => q.rests = true

/-- `_idle` is cleared only by a `submit` that comes before every `shutdown`. -/
structure Waits (cfg : Config) (s : State) : Prop where
  inv : Event.Inv cfg.n s.idle
  fits : ∀ f, IdleFits s.idle.flag (s.idle.pc f) (s.op f) (s.stage f)
  busy : ∀ f, s.op f ≠ .idle → (s.stage f).free = true
  shut : ∀ f, (s.op f).shuts = true → s.shutdown = true

variable {q : Event.Pc} {o : Op} {e : Event.State} {k : ℕ} {a : Action}

theorem IdleFits.of_ne {flag flag' : Bool} (h : IdleFits flag q o st)
    (ho : o ≠ .waiting) : IdleFits flag' q o st := by
  cases o with
  | waiting => exact absurd rfl ho
  | idle | submit | submitBroken | submitGuard | spawning | cancelling =>
    cases st <;> exact h

theorem IdleFits.rests {flag : Bool} (h : IdleFits flag q o st)
    (ho : o ≠ .waiting) (hst : ∀ k, st ≠ .settingIdle k) : q.rests = true := by
  cases o with
  | waiting => exact absurd rfl ho
  | idle | submit | submitBroken | submitGuard | spawning | cancelling =>
    cases st <;> first | exact h | exact absurd rfl (hst _)

theorem IdleFits.of_rests {flag : Bool} (h : q.rests = true)
    (ho : o ≠ .waiting) (hst : ∀ k, st ≠ .settingIdle k) : IdleFits flag q o st := by
  cases o with
  | waiting => exact absurd rfl ho
  | idle | submit | submitBroken | submitGuard | spawning | cancelling =>
    cases st <;> first | exact h | exact absurd rfl (hst _)

/-- A step of one fiber in the event. -/
theorem Waits.turn (h : Waits cfg s)
    (ht : Event.Turn cfg.n s.idle e f q) (hidle : t.idle = e)
    (hop : ∀ g, g ≠ f → t.op g = s.op g) (hstage : ∀ g, g ≠ f → t.stage g = s.stage g)
    (hfits : IdleFits e.flag q (t.op f) (t.stage f))
    (hbusy : t.op f ≠ .idle → (t.stage f).free = true)
    (hshut : (t.op f).shuts = true → t.shutdown = true)
    (hkeep : s.shutdown = true → t.shutdown = true ∧ (s.idle.flag = true → e.flag = true)) :
    Waits cfg t := by
  refine ⟨hidle ▸ ht.inv, fun g => ?_, fun g hg => ?_, fun g hg => ?_⟩
  · rw [hidle]
    by_cases hgf : g = f
    · subst hgf
      rw [ht.self]
      exact hfits
    · rw [hop g hgf, hstage g hgf, ht.others g hgf]
      have hold := h.fits g
      cases hg : s.op g with
      | waiting =>
        rw [hg] at hold
        have hs : s.shutdown = true := h.shut g (by rw [hg]; rfl)
        exact hold.imp_right fun hr => ⟨hr.1, (hkeep hs).2 hr.2⟩
      | idle | submit | submitBroken | submitGuard | spawning | cancelling =>
        rw [hg] at hold
        exact hold.of_ne (by rintro ⟨⟩)
  · by_cases hgf : g = f
    · subst hgf
      exact hbusy hg
    · rw [hop g hgf] at hg
      rw [hstage g hgf]
      exact h.busy g hg
  · by_cases hgf : g = f
    · subst hgf
      exact hshut hg
    · rw [hop g hgf] at hg
      exact (hkeep (h.shut g hg)).1

/-- A step of one fiber outside of it. -/
theorem Waits.frame (h : Waits cfg s) (hidle : t.idle = s.idle)
    (hop : ∀ g, g ≠ f → t.op g = s.op g) (hstage : ∀ g, g ≠ f → t.stage g = s.stage g)
    (hfits : IdleFits s.idle.flag (s.idle.pc f) (t.op f) (t.stage f))
    (hbusy : t.op f ≠ .idle → (t.stage f).free = true)
    (hshut : (t.op f).shuts = true → t.shutdown = true)
    (hkeep : s.shutdown = true → t.shutdown = true) : Waits cfg t :=
  h.turn ⟨h.inv, rfl, fun _ _ => rfl⟩ hidle hop hstage hfits hbusy hshut fun hs =>
    ⟨hkeep hs, fun hf => hf⟩

/-- A call goes on outside of `_idle`. -/
theorem Waits.setOp (h : Waits cfg s) (hidle : x'.idle = s.idle)
    (hfree : o ≠ .idle → (s.stage f).free = true) (hold : s.op f ≠ .waiting ∨
      ∃ b timed, s.idle.pc f = .returned b timed) (ho : o ≠ .waiting)
    (hst : ∀ k, s.stage f ≠ .settingIdle k) (hshut : o.shuts = true → x'.shutdown = true)
    (hkeep : s.shutdown = true → x'.shutdown = true) : Waits cfg (s.setOp f (x', o)) := by
  have hrests : (s.idle.pc f).rests = true := by
    rcases hold with hold | ⟨b, timed, hpc⟩
    · exact (h.fits f).rests hold hst
    · rw [hpc]
      rfl
  refine h.frame (f := f) hidle ?_ (fun _ _ => rfl) ?_ ?_ ?_ hkeep
  · intro g hg
    simp [State.setOp, hg]
  · simp only [State.setOp, update_self]
    exact .of_rests hrests ho hst
  · simpa [State.setOp] using hfree
  · simpa [State.setOp] using hshut

/-- A task, or the end of user code, outside of `_idle`. -/
theorem Waits.setStage (h : Waits cfg s) (hidle : x'.idle = s.idle) (hop : s.op f = .idle)
    (hst : ∀ k, s.stage f ≠ .settingIdle k) (hst' : ∀ k, st' ≠ .settingIdle k)
    (hshut : x'.shutdown = s.shutdown) : Waits cfg (s.setStage f (x', st')) := by
  have hrests := (h.fits f).rests (by rw [hop]; rintro ⟨⟩) hst
  refine h.frame (f := f) hidle (fun _ _ => rfl) ?_ ?_ ?_ ?_ ?_
  · intro g hg
    simp [State.setStage, hg]
  · simp only [State.setStage, update_self]
    exact .of_rests hrests (by rw [hop]; rintro ⟨⟩) hst'
  · simp [State.setStage, hop]
  · simp [State.setStage, hop, Op.shuts]
  · exact fun hs => hshut ▸ hs

/-- The stages from `_task_done` on. -/
@[grind =]
def Stage.closing : Stage → Bool
  | .taskDone _ | .settingIdle _ => true
  | _ => false

/-- What a task leaves alone before `_task_done`. -/
structure Aside (x x' : Shared) (st st' : Stage) : Prop where
  idle : x'.idle = x.idle
  pending : x'.pending = x.pending
  lost : x'.lost = x.lost
  waited : x'.waited = x.waited
  shutdown : x'.shutdown = x.shutdown
  through : st.through = false ∧ st'.through = false

theorem taskStep_aside (hr : taskStep cfg x f st = some (x', st')) (hst : st.closing = false) :
    Aside x x' st st' := by
  cases st with
  | notify k | resolve k =>
    simp only [taskStep] at hr
    split at hr <;> cases hr <;> exact ⟨rfl, rfl, rfl, rfl, rfl, rfl, rfl⟩
  | enter k =>
    simp only [taskStep] at hr
    split at hr
    · cases hr
      exact ⟨rfl, rfl, rfl, rfl, rfl, rfl, rfl⟩
    · split at hr <;> cases hr <;> exact ⟨rfl, rfl, rfl, rfl, rfl, rfl, rfl⟩
  | checkBroken k =>
    cases hr
    cases x.broken <;> exact ⟨rfl, rfl, rfl, rfl, rfl, rfl, rfl⟩
  | guardInit k =>
    simp only [taskStep] at hr
    split at hr
    · cases hr
      exact ⟨rfl, rfl, rfl, rfl, rfl, rfl, rfl⟩
    · split at hr
      · cases hr
        exact ⟨rfl, rfl, rfl, rfl, rfl, rfl, rfl⟩
      · split at hr <;> cases hr <;> exact ⟨rfl, rfl, rfl, rfl, rfl, rfl, rfl⟩
  | start k | release k | awaitInit k | setInit k ok =>
    obtain ⟨e, -, hr⟩ := Option.map_eq_some_iff.mp hr
    cases hr
    exact ⟨rfl, rfl, rfl, rfl, rfl, rfl, rfl⟩
  | acquiring k | releasing k | waitInit k =>
    simp only [taskStep] at hr
    split at hr
    · cases hr
      exact ⟨rfl, rfl, rfl, rfl, rfl, rfl, rfl⟩
    · obtain ⟨e, -, hr⟩ := Option.map_eq_some_iff.mp hr
      cases hr
      exact ⟨rfl, rfl, rfl, rfl, rfl, rfl, rfl⟩
  | settingInit k ok =>
    simp only [taskStep] at hr
    split at hr
    · cases hr
      cases ok <;> exact ⟨rfl, rfl, rfl, rfl, rfl, rfl, rfl⟩
    · obtain ⟨e, -, hr⟩ := Option.map_eq_some_iff.mp hr
      cases hr
      exact ⟨rfl, rfl, rfl, rfl, rfl, rfl, rfl⟩
  | breaking k =>
    cases hr
    exact ⟨rfl, rfl, rfl, rfl, rfl, rfl, rfl⟩
  | user | unborn | initializing | calling | ended => simp [taskStep] at hr
  | taskDone | settingIdle => simp [Stage.closing] at hst

theorem not_setting_of_through (h : st.through = false) (k : ℕ) : st ≠ .settingIdle k := by
  rintro rfl
  cases h

theorem taskStep_free (hr : taskStep cfg x f st = some (x', st')) : st.free = false := by
  cases st <;> first | rfl | simp [taskStep] at hr

/-- A fiber that takes a step of its task is in no call. -/
theorem Waits.op_of_task (h : Waits cfg s)
    (hr : taskStep cfg s.toShared f (s.stage f) = some (x', st')) : s.op f = .idle := by
  by_contra hne
  have hfree := h.busy f hne
  rw [taskStep_free hr] at hfree
  cases hfree

/-- The guarded section of `_task_done`. -/
theorem taskDone_cases (hr : taskStep cfg x f (.taskDone k) = some (x', st')) :
    (∃ e, x.pending.erase k = [] ∧ Event.step cfg.n x.idle (.set f) = some e ∧
      x' = { x with pending := x.pending.erase k, idle := e } ∧ st' = .settingIdle k) ∨
    x.pending.erase k ≠ [] ∧ x' = { x with pending := x.pending.erase k } ∧ st' = .ended k := by
  simp only [taskStep] at hr
  split at hr
  · rename_i hnil
    obtain ⟨e, he, hr⟩ := Option.map_eq_some_iff.mp hr
    cases hr
    exact .inl ⟨e, hnil, he, rfl, rfl⟩
  · rename_i hne
    cases hr
    exact .inr ⟨hne, rfl, rfl⟩

theorem settingIdle_cases (hr : taskStep cfg x f (.settingIdle k) = some (x', st')) :
    (x.idle.pc f = .idle ∧ x' = x ∧ st' = .ended k) ∨
    ∃ e, x.idle.pc f ≠ .idle ∧ Event.fiberStep x.idle f = some e ∧ x' = { x with idle := e } ∧
      st' = .settingIdle k := by
  simp only [taskStep] at hr
  split at hr
  · rename_i hpc
    cases hr
    exact .inl ⟨hpc, rfl, rfl⟩
  · rename_i hpc
    obtain ⟨e, he, hr⟩ := Option.map_eq_some_iff.mp hr
    cases hr
    exact .inr ⟨e, hpc, he, rfl, rfl⟩

/-- A turn of a task in `_idle.set()`. -/
theorem Waits.turnStage (h : Waits cfg s) (hop : s.op f = .idle)
    (ht : Event.Turn cfg.n s.idle e f q) (hq : q.sets = true ∨ q = .idle)
    (hidle : x'.idle = e) (hshut : x'.shutdown = s.shutdown)
    (hflag : s.idle.flag = true → e.flag = true) :
    Waits cfg (s.setStage f (x', .settingIdle k)) := by
  refine h.turn (f := f) ht hidle (fun _ _ => rfl) ?_ ?_ ?_ ?_ ?_
  · intro g hg
    simp [State.setStage, hg]
  · simp only [State.setStage, update_self, hop]
    exact hq
  · simp [State.setStage, hop]
  · simp [State.setStage, hop, Op.shuts]
  · exact fun hs => ⟨hshut ▸ hs, hflag⟩

theorem Waits.task (h : Waits cfg s)
    (hr : taskStep cfg s.toShared f (s.stage f) = some (x', st')) :
    Waits cfg (s.setStage f (x', st')) := by
  have hop := h.op_of_task hr
  have hfits := h.fits f
  cases hst : s.stage f with
  | taskDone k =>
    rw [hst] at hr
    rcases taskDone_cases hr with ⟨e, -, he, rfl, rfl⟩ | ⟨-, rfl, rfl⟩
    · obtain ⟨q, ht, hq, hflag⟩ := h.inv.set he
      exact h.turnStage hop ht hq rfl rfl fun _ => hflag
    · exact h.setStage rfl hop (by rw [hst]; rintro _ ⟨⟩) (by rintro _ ⟨⟩) rfl
  | settingIdle k =>
    rw [hst] at hr
    rw [hst, hop] at hfits
    rcases settingIdle_cases hr with ⟨hpc, rfl, rfl⟩ | ⟨e, hpc, he, rfl, rfl⟩
    · refine h.frame (f := f) rfl (fun _ _ => rfl) ?_ ?_ ?_ ?_ fun hs => hs
      · intro g hg
        simp [State.setStage, hg]
      · simp only [State.setStage, update_self, hop, hpc]
        rfl
      · simp [State.setStage, hop]
      · simp [State.setStage, hop, Op.shuts]
    · obtain ⟨q, ht, hq, hflag⟩ := h.inv.sets (hfits.resolve_right hpc) he
      exact h.turnStage hop ht hq rfl rfl fun hf => hflag ▸ hf
  | user | unborn | start | acquiring | notify | enter | checkBroken | guardInit | awaitInit
  | waitInit | initializing | breaking | setInit | settingInit | calling | resolve | release
  | releasing | ended =>
    have ha := taskStep_aside hr (by rw [hst]; rfl)
    exact h.setStage ha.idle hop (not_setting_of_through ha.through.1)
      (not_setting_of_through ha.through.2) ha.shutdown

theorem not_setting_of_free (h : st.free = true) (k : ℕ) : st ≠ .settingIdle k := by
  rintro rfl
  cases h

/-- A `clear` of a `submit` finds nobody in a `shutdown`. -/
theorem Waits.clear (h : Waits cfg s) (hshut : s.shutdown = false)
    (he : Event.step cfg.n s.idle (.clear f) = some e) :
    Event.Turn cfg.n s.idle e f .idle ∧ e.flag = false := by
  refine h.inv.clear ?_ he
  simp only [Event.clearsLate, List.any_eq_false, List.mem_range]
  intro g _
  have hne : s.op g ≠ .waiting := by
    intro hw
    have := h.shut g (by rw [hw]; rfl)
    rw [hshut] at this
    cases this
  have hfits := h.fits g
  cases hst : s.stage g with
  | settingIdle k =>
    have hq : (s.idle.pc g).sets = true ∨ s.idle.pc g = .idle := by
      rw [hst] at hfits
      cases hop : s.op g with
      | waiting => exact absurd hop hne
      | idle | submit | submitBroken | submitGuard | spawning | cancelling =>
        rw [hop] at hfits
        exact hfits
    cases hpc : s.idle.pc g <;> simp_all [Event.Pc.sets, Event.Pc.late]
  | user | unborn | start | acquiring | notify | enter | checkBroken | guardInit | awaitInit
  | waitInit | initializing | breaking | setInit | settingInit | calling | resolve | release
  | releasing | taskDone | ended =>
    have hrests := hfits.rests hne (by rw [hst]; rintro _ ⟨⟩)
    cases hpc : s.idle.pc g <;> simp_all [Event.Pc.rests, Event.Pc.late]

theorem of_ready (h : s.ready cfg f = true) :
    f < cfg.n ∧ (s.stage f).free = true ∧ s.op f = .idle := by
  simpa [State.ready, and_assoc] using h

theorem Waits.free (h : Waits cfg s) (hop : s.op f ≠ .idle) (k : ℕ) :
    s.stage f ≠ .settingIdle k :=
  not_setting_of_free (h.busy f hop) k

/-- A call that begins, or ends at once. -/
theorem Waits.call (h : Waits cfg s) (hready : s.ready cfg f = true)
    (hidle : x'.idle = s.idle) (ho : o ≠ .waiting) (hshut : o.shuts = true → x'.shutdown = true)
    (hkeep : s.shutdown = true → x'.shutdown = true) : Waits cfg (s.setOp f (x', o)) := by
  obtain ⟨-, hfree, hop⟩ := of_ready hready
  exact h.setOp hidle (fun _ => hfree) (.inl (by rw [hop]; rintro ⟨⟩)) ho (not_setting_of_free hfree)
    hshut hkeep

/-- Where a `shutdown` that has not returned is. -/
theorem Waits.inWait (h : Waits cfg s) (hop : s.op f = .waiting)
    (hpc : ∀ b timed, s.idle.pc f ≠ .returned b timed) : (s.idle.pc f).waits = true := by
  have hfits := h.fits f
  rw [hop] at hfits
  exact hfits.resolve_right fun hret => hpc _ _ hret.1

theorem Waits.parked (h : Waits cfg s) (hop : s.op f = .waiting) {woken : Bool}
    (he : Event.step cfg.n s.idle (if woken then .resume f else .spurious f) = some e) :
    (s.idle.pc f).waits = true := by
  refine h.inWait hop fun b timed hret => ?_
  cases woken <;> simp [Event.step, hret] at he

theorem Waits.op (h : Waits cfg s)
    (hr : opStep cfg s.toShared f (s.op f) = some (x', o)) : Waits cfg (s.setOp f (x', o)) := by
  have hne : s.op f ≠ .idle := by
    intro hop
    rw [hop] at hr
    cases hr
  have hfree := h.busy f hne
  have hothers (o : Op) (g : ℕ) (hg : g ≠ f) : update s.op f o g = s.op g :=
    update_of_ne hg _ _
  rcases opStep_cases hr with ⟨rfl, ho, hold⟩ | ⟨e, -, rfl, hshut, he, rfl⟩ |
    ⟨e, hold, rfl, he, rfl⟩ | ⟨b, timed, -, rfl, hpc, rfl⟩ | ⟨e, hold, rfl, hpc, he, rfl⟩
  · rcases ho with rfl | rfl | rfl <;>
      exact h.setOp rfl (fun _ => hfree) (.inl hold) (by rintro ⟨⟩) (h.free hne) (by rintro ⟨⟩) fun hs => hs
  · obtain ⟨ht, -⟩ := h.clear hshut he
    refine h.turn ht rfl (hothers _) (fun _ _ => rfl) ?_ (fun _ => hfree) ?_ ?_
    · simp only [State.setOp, update_self]
      exact .of_rests rfl (by rintro ⟨⟩) (h.free hne)
    · simp [State.setOp, Op.shuts]
    · intro hs
      rw [hshut] at hs
      cases hs
  · obtain ⟨ht, hflag⟩ := h.inv.wait he
    refine h.turn ht rfl (hothers _) (fun _ _ => rfl) ?_ (fun _ => hfree) (fun _ => ?_) ?_
    · simp only [State.setOp, update_self]
      exact .inl rfl
    · exact h.shut f (by rw [hold]; rfl)
    · exact fun hs => ⟨hs, fun hf => hflag ▸ hf⟩
  · exact h.setOp rfl (fun _ => hfree) (.inr ⟨b, timed, hpc⟩) (by rintro ⟨⟩) (h.free hne) (by rintro ⟨⟩)
      fun hs => hs
  · obtain ⟨q, ht, hflag, hq⟩ := h.inv.waits (h.inWait hold hpc) he
    refine h.turn ht rfl (hothers _) (fun _ _ => rfl) ?_ (fun _ => hfree) (fun _ => ?_) ?_
    · simp only [State.setOp, update_self]
      rw [hflag]
      exact hq
    · exact h.shut f (by rw [hold]; rfl)
    · exact fun hs => ⟨hs, fun hf => hflag ▸ hf⟩

/-- A spawn ends the `submit` and starts the task. -/
theorem Waits.spawn (h : Waits cfg s) {g : ℕ} (hop : s.op f = .spawning k)
    (hg : s.stage g = .unborn) :
    Waits cfg { s with op := update s.op f .idle
                       stage := update s.stage g (.start k) } := by
  have hne : s.op f ≠ .idle := by
    rw [hop]
    rintro ⟨⟩
  have hcall : Waits cfg (s.setOp f (s.toShared, .idle)) :=
    h.setOp rfl (by intros; contradiction) (.inl (by rw [hop]; rintro ⟨⟩)) (by rintro ⟨⟩) (h.free hne) (by rintro ⟨⟩) fun hs => hs
  have hidle : (s.setOp f (s.toShared, .idle)).op g = .idle := by
    by_contra hbusy
    have hfree : (s.stage g).free = true := hcall.busy g hbusy
    rw [hg] at hfree
    cases hfree
  have hnot (k : ℕ) : s.stage g ≠ .settingIdle k := by
    rw [hg]
    rintro ⟨⟩
  have hspawned : Waits cfg ((s.setOp f (s.toShared, .idle)).setStage g (s.toShared, .start k)) :=
    hcall.setStage rfl hidle hnot (by rintro _ ⟨⟩) rfl
  exact hspawned

theorem Waits.unpark (h : Waits cfg s) {woken : Bool} (hs : s.unpark cfg f woken = some t) :
    Waits cfg t := by
  rcases unpark_cases hs with ⟨e, hop, rfl, he⟩ | ⟨k, e, -, rfl, -⟩ | ⟨k, m, -, rfl, -⟩
  · obtain ⟨q, ht, hflag, hq⟩ := h.inv.unpark (by cases woken <;> simp) (h.parked hop he) he
    refine h.turn ht rfl (fun _ _ => rfl) (fun _ _ => rfl) ?_ (h.busy f) (h.shut f) ?_
    · simp only [hop]
      exact .inl hq
    · exact fun hs => ⟨hs, fun hf => hflag ▸ hf⟩
  · exact ⟨h.inv, h.fits, h.busy, h.shut⟩
  · exact ⟨h.inv, h.fits, h.busy, h.shut⟩

theorem Waits.step (h : Waits cfg s) (hs : step cfg s a = some t) : Waits cfg t := by
  cases a with
  | submit f =>
    obtain ⟨hready, hs⟩ := Option.ite_none_right_eq_some.mp hs
    cases hs
    exact h.call hready rfl (by rintro ⟨⟩) (by rintro ⟨⟩) fun hs => hs
  | cancel f k =>
    obtain ⟨⟨hready, -⟩, hs⟩ := Option.ite_none_right_eq_some.mp hs
    cases hs
    obtain ⟨fut, resolved, hc⟩ := cancel_keeps s.toShared k
    rw [hc]
    exact h.call hready rfl (by rintro ⟨⟩) (by rintro ⟨⟩) fun hs => hs
  | shutdown f wait cancelFutures =>
    obtain ⟨hready, hs⟩ := Option.ite_none_right_eq_some.mp hs
    cases hs
    exact h.call hready rfl (by rintro ⟨⟩) (fun _ => rfl) fun _ => rfl
  | op f =>
    obtain ⟨⟨x', o⟩, hr, rfl⟩ := Option.map_eq_some_iff.mp hs
    exact h.op hr
  | cancelNext f k =>
    simp only [Executor.step] at hs
    split at hs
    · rename_i ks wait hop
      obtain ⟨-, hs⟩ := Option.ite_none_right_eq_some.mp hs
      cases hs
      have hne : s.op f ≠ .idle := by
        rw [hop]
        rintro ⟨⟩
      obtain ⟨fut, resolved, hc⟩ := cancel_keeps s.toShared k
      rw [hc]
      exact h.setOp rfl (fun _ => h.busy f hne) (.inl (by rw [hop]; rintro ⟨⟩)) (by rintro ⟨⟩) (h.free hne)
        (fun _ => h.shut f (by rw [hop]; rfl)) fun hs => hs
    · cases hs
  | spawn f g =>
    simp only [Executor.step] at hs
    split at hs
    · rename_i k hop
      obtain ⟨⟨-, hg⟩, hs⟩ := Option.ite_none_right_eq_some.mp hs
      cases hs
      exact h.spawn hop hg
    · cases hs
  | spawnFails f =>
    simp only [Executor.step] at hs
    split at hs
    · rename_i k hop
      cases hs
      exact h.setOp rfl (by intros; contradiction) (.inl (by rw [hop]; rintro ⟨⟩)) (by rintro ⟨⟩)
        (h.free (by rw [hop]; rintro ⟨⟩)) (by rintro ⟨⟩) fun hs => hs
    · cases hs
  | task f =>
    obtain ⟨⟨x', st'⟩, hr, rfl⟩ := Option.map_eq_some_iff.mp hs
    exact h.task hr
  | ends f ok =>
    obtain ⟨hop, hs⟩ := Option.ite_none_right_eq_some.mp hs
    split at hs
    · rename_i k hst
      cases hs
      exact h.setStage rfl hop (by rw [hst]; rintro _ ⟨⟩) (by cases ok <;> rintro _ ⟨⟩) rfl
    · rename_i k hst
      cases hs
      exact h.setStage rfl hop (by rw [hst]; rintro _ ⟨⟩) (by rintro _ ⟨⟩) rfl
    · cases hs
  | resume f | spurious f => exact h.unpark hs

theorem start_waits (born : ℕ → Bool) : Waits cfg (start cfg born) where
  inv := ⟨fun _ _ => rfl, fun _ => rfl, by rintro _ ⟨⟩, by rintro _ _ ⟨⟩, by rintro _ _ ⟨⟩, fun _ _ => rfl, by rintro _ _ ⟨⟩⟩
  fits f := by
    refine .of_rests rfl (by rintro ⟨⟩) fun k => ?_
    simp only [start]
    split <;> rintro ⟨⟩
  busy f hf := absurd rfl hf
  shut := by rintro _ ⟨⟩

/-! ## What is pending -/

/-- The task of `k` has yet to take it off the set. -/
def Stage.pends (k : ℕ) (st : Stage) : Prop := st.job = some k ∧ st.through = false

/-- `apart` is where the condition on the spawns enters. -/
structure Pending (s : State) : Prop where
  flag : s.idle.flag = true ↔ s.pending = []
  nodup : s.pending.Nodup
  task : ∀ f k, (s.stage f).pends k → k ∈ s.pending
  spawning : ∀ f k, s.op f = .spawning k → k ∈ s.pending
  why : ∀ k ∈ s.pending, (∃ f, (s.stage f).pends k) ∨ (∃ f, s.op f = .spawning k) ∨ k ∈ s.lost
  waited : s.waited = true → s.shutdown = true ∧ s.idle.flag = true
  apart : ∀ f, (s.op f).awaits = true → s.lost = []

/-- A step that neither starts nor ends a task. -/
theorem Pending.frame (h : Pending s) (hflag : t.idle.flag = s.idle.flag)
    (hpending : t.pending = s.pending) (hlost : t.lost = s.lost)
    (hpends : ∀ g k, (t.stage g).pends k ↔ (s.stage g).pends k)
    (hspawn : ∀ g k, t.op g = .spawning k ↔ s.op g = .spawning k)
    (hshut : s.shutdown = true → t.shutdown = true)
    (hwaited : t.waited = true → s.waited = true ∨ s.shutdown = true ∧ s.idle.flag = true)
    (hapart : ∀ g, (t.op g).awaits = true → s.lost = []) : Pending t where
  flag := by
    rw [hflag, hpending]
    exact h.flag
  nodup := hpending ▸ h.nodup
  task g k hg := hpending ▸ h.task g k ((hpends g k).mp hg)
  spawning g k hg := hpending ▸ h.spawning g k ((hspawn g k).mp hg)
  why k hk := by
    simp only [hpends, hspawn, hlost]
    exact h.why k (hpending ▸ hk)
  waited hw := by
    rw [hflag]
    have hold := (hwaited hw).elim h.waited id
    exact ⟨hshut hold.1, hold.2⟩
  apart g hg := hlost ▸ hapart g hg

/-- A call goes on. -/
theorem Pending.setOp (h : Pending s) (hflag : x'.idle.flag = s.idle.flag)
    (hpending : x'.pending = s.pending) (hlost : x'.lost = s.lost)
    (hold : ∀ k, s.op f ≠ .spawning k) (ho : ∀ k, o ≠ .spawning k)
    (hshut : s.shutdown = true → x'.shutdown = true)
    (hwaited : x'.waited = true → s.waited = true ∨ s.shutdown = true ∧ s.idle.flag = true)
    (hapart : o.awaits = true → s.lost = []) : Pending (s.setOp f (x', o)) := by
  refine h.frame hflag hpending hlost (fun _ _ => Iff.rfl) (fun g k => ?_) hshut hwaited
    fun g hg => ?_
  · by_cases hgf : g = f
    · subst hgf
      simp [State.setOp, hold k, ho k]
    · simp [State.setOp, hgf]
  · by_cases hgf : g = f
    · subst hgf
      exact hapart (by simpa [State.setOp] using hg)
    · exact h.apart g (by simpa [State.setOp, hgf] using hg)

/-- A task goes on. -/
theorem Pending.setStage (h : Pending s) (hflag : x'.idle.flag = s.idle.flag)
    (hpending : x'.pending = s.pending) (hlost : x'.lost = s.lost)
    (hshut : x'.shutdown = s.shutdown) (hwaited : x'.waited = s.waited)
    (hpends : ∀ k, st'.pends k ↔ (s.stage f).pends k) : Pending (s.setStage f (x', st')) := by
  refine h.frame hflag hpending hlost (fun g k => ?_) (fun _ _ => Iff.rfl) (fun hs => hshut ▸ hs)
    (fun hw => .inl (hwaited ▸ hw)) h.apart
  by_cases hgf : g = f
  · subst hgf
    simp only [State.setStage, update_self]
    exact hpends k
  · simp only [State.setStage, update_of_ne hgf]

/-- A new future, which no task has. -/
theorem Pending.submit (h : Pending s) (hfut : Futures s)
    (hop : s.op f = .submitGuard) (hshut : s.shutdown = false) (hflag : e.flag = false) :
    Pending (s.setOp f ({ s.toShared with
      idle := e, pending := s.pending ++ [s.next], next := s.next + 1
      fut := update s.fut s.next .pending }, .spawning s.next)) where
  flag := by simp [State.setOp, hflag]
  nodup := by
    refine h.nodup.append (List.nodup_singleton _) ?_
    intro k hk hnew
    have hlt := hfut.pending k hk
    rw [List.mem_singleton.mp hnew] at hlt
    exact Nat.lt_irrefl _ hlt
  task g k hg := List.mem_append_left _ (h.task g k hg)
  spawning g k hg := by
    by_cases hgf : g = f
    · subst hgf
      simp only [State.setOp, update_self, Op.spawning.injEq] at hg
      subst hg
      exact List.mem_append_right _ List.mem_cons_self
    · simp only [State.setOp, update_of_ne hgf] at hg
      exact List.mem_append_left _ (h.spawning g k hg)
  why k hk := by
    rcases List.mem_append.mp hk with hk | hk
    · refine (h.why k hk).imp_right (.imp_left ?_)
      rintro ⟨g, hg⟩
      have hgf : g ≠ f := by
        rintro rfl
        rw [hop] at hg
        cases hg
      exact ⟨g, by simpa [State.setOp, hgf] using hg⟩
    · rw [List.mem_singleton.mp hk]
      exact .inr (.inl ⟨f, by simp [State.setOp]⟩)
  waited hw := by
    have hs := (h.waited hw).1
    rw [hshut] at hs
    cases hs
  apart g hg := by
    by_cases hgf : g = f
    · subst hgf
      simp [State.setOp, Op.awaits] at hg
    · exact h.apart g (by simpa [State.setOp, hgf] using hg)

/-- The future of a `submit` becomes that of a task. -/
theorem Pending.spawn (h : Pending s) {g : ℕ} (hop : s.op f = .spawning k)
    (hg : s.stage g = .unborn) :
    Pending { s with op := update s.op f .idle
                     stage := update s.stage g (.start k) } where
  flag := h.flag
  nodup := h.nodup
  task j i hj := by
    by_cases hjg : j = g
    · subst hjg
      simp only [update_self] at hj
      obtain rfl : k = i := by simpa [Stage.job] using hj.1
      exact h.spawning f k hop
    · simp only [update_of_ne hjg] at hj
      exact h.task j i hj
  spawning j i hj := by
    by_cases hjf : j = f
    · subst hjf
      simp at hj
    · simp only [update_of_ne hjf] at hj
      exact h.spawning j i hj
  why i hi := by
    rcases h.why i hi with ⟨j, hj⟩ | ⟨j, hj⟩ | hlost
    · have hjg : j ≠ g := by
        rintro rfl
        rw [hg] at hj
        cases hj.1
      exact .inl ⟨j, by simpa [hjg] using hj⟩
    · by_cases hjf : j = f
      · subst hjf
        rw [hop] at hj
        cases hj
        exact .inl ⟨g, by simp [Stage.pends, Stage.job, Stage.through]⟩
      · exact .inr (.inl ⟨j, by simpa [hjf] using hj⟩)
    · exact .inr (.inr hlost)
  waited := h.waited
  apart j hj := by
    by_cases hjf : j = f
    · subst hjf
      simp [Op.awaits] at hj
    · exact h.apart j (by simpa [hjf] using hj)

/-- A future that nothing will take off the set. -/
theorem Pending.spawnFails (h : Pending s) (hop : s.op f = .spawning k)
    (hnone : ∀ g, (s.op g).awaits = false) :
    Pending (s.setOp f ({ s.toShared with lost := k :: s.lost }, .idle)) where
  flag := h.flag
  nodup := h.nodup
  task := h.task
  spawning j i hj := by
    by_cases hjf : j = f
    · subst hjf
      simp [State.setOp] at hj
    · simp only [State.setOp, update_of_ne hjf] at hj
      exact h.spawning j i hj
  why i hi := by
    rcases h.why i hi with hj | ⟨j, hj⟩ | hlost
    · exact .inl hj
    · by_cases hjf : j = f
      · subst hjf
        rw [hop] at hj
        cases hj
        exact .inr (.inr List.mem_cons_self)
      · exact .inr (.inl ⟨j, by simpa [State.setOp, hjf] using hj⟩)
    · exact .inr (.inr (List.mem_cons_of_mem _ hlost))
  waited := h.waited
  apart j hj := by
    by_cases hjf : j = f
    · subst hjf
      simp [State.setOp, Op.awaits] at hj
    · rw [show (s.setOp f ({ s.toShared with lost := k :: s.lost }, .idle)).op j = s.op j from
        update_of_ne hjf _ _, hnone] at hj
      cases hj

/-- `_task_done` takes the future of the task off the set. -/
theorem Pending.erase (h : Pending s) (hfut : Futures s) (hst : s.stage f = .taskDone k)
    (hflag : e.flag = true ↔ s.pending.erase k = []) (hst' : st'.job = some k)
    (hthrough : st'.through = true) :
    Pending (s.setStage f
      ({ s.toShared with pending := s.pending.erase k, idle := e }, st')) := by
  have hjob : (s.stage f).job = some k := by
    rw [hst]
    rfl
  have hk : k ∈ s.pending := h.task f k ⟨hjob, by rw [hst]; rfl⟩
  have hnot (i : ℕ) : ¬st'.pends i := by
    rintro ⟨-, hi⟩
    rw [hthrough] at hi
    cases hi
  constructor
  case flag => exact hflag
  case nodup => exact h.nodup.erase k
  case task =>
    intro g i hg
    have hgf : g ≠ f := by
      rintro rfl
      simp only [State.setStage, update_self] at hg
      exact hnot i hg
    simp only [State.setStage, update_of_ne hgf] at hg
    refine (List.mem_erase_of_ne ?_).mpr (h.task g i hg)
    rintro rfl
    exact hgf (hfut.unique g f i hg.1 hjob)
  case spawning =>
    intro g i hg
    refine (List.mem_erase_of_ne ?_).mpr (h.spawning g i hg)
    rintro rfl
    exact (hfut.spawning g i hg).2.2 f hjob
  case why =>
    intro i hi
    have hik : i ≠ k := by
      rintro rfl
      exact h.nodup.not_mem_erase hi
    rcases h.why i (List.mem_of_mem_erase hi) with ⟨g, hg⟩ | hrest
    · have hgf : g ≠ f := by
        rintro rfl
        exact hik (Option.some.inj (hg.1.symm.trans hjob))
      exact .inl ⟨g, by simpa [State.setStage, hgf] using hg⟩
    · exact .inr hrest
  case waited =>
    intro hw
    have hnil := h.flag.mp (h.waited hw).2
    rw [hnil] at hk
    cases hk
  case apart => exact h.apart

theorem Pending.runTask (h : Pending s) (hfut : Futures s) (hw : Waits cfg s)
    (hr : taskStep cfg s.toShared f (s.stage f) = some (x', st')) :
    Pending (s.setStage f (x', st')) := by
  have hop := hw.op_of_task hr
  cases hst : s.stage f with
  | taskDone k =>
    rw [hst] at hr
    rcases taskDone_cases hr with ⟨e, hnil, he, rfl, rfl⟩ | ⟨hne, rfl, rfl⟩
    · obtain ⟨q, -, -, hflag⟩ := hw.inv.set he
      exact h.erase hfut hst (by simp [hflag, hnil]) rfl rfl
    · refine h.erase hfut hst ?_ rfl rfl
      have hfull : s.pending ≠ [] := fun hnil => hne (by rw [hnil]; rfl)
      simp only [h.flag, hfull, hne]
  | settingIdle k =>
    have hclosed (i : ℕ) : ¬(Stage.settingIdle k).pends i ∧ ¬(Stage.ended k).pends i := by
      simp [Stage.pends, Stage.through]
    have hfits := hw.fits f
    rw [hst] at hr
    rw [hst, hop] at hfits
    rcases settingIdle_cases hr with ⟨-, rfl, rfl⟩ | ⟨e, hpc, he, rfl, rfl⟩
    · refine h.setStage rfl rfl rfl rfl rfl fun i => ?_
      rw [hst]
      exact iff_of_false (hclosed i).2 (hclosed i).1
    · obtain ⟨q, -, -, hflag⟩ := hw.inv.sets (hfits.resolve_right hpc) he
      exact h.setStage hflag rfl rfl rfl rfl fun i => by rw [hst]
  | user | unborn | start | acquiring | notify | enter | checkBroken | guardInit | awaitInit
  | waitInit | initializing | breaking | setInit | settingInit | calling | resolve | release
  | releasing | ended =>
    have ha := taskStep_aside hr (by rw [hst]; rfl)
    refine h.setStage (by rw [ha.idle]) ha.pending ha.lost ha.shutdown ha.waited fun k => ?_
    simp only [Stage.pends, (taskStep_fut hr).job, ha.through]

theorem Pending.unpark (h : Pending s) (hw : Waits cfg s) {woken : Bool}
    (hs : s.unpark cfg f woken = some t) : Pending t := by
  rcases unpark_cases hs with ⟨e, hop, rfl, he⟩ | ⟨k, e, -, rfl, -⟩ | ⟨k, m, -, rfl, -⟩
  · obtain ⟨q, -, hflag, -⟩ := hw.inv.unpark (by cases woken <;> simp) (hw.parked hop he) he
    exact h.frame hflag rfl rfl (fun _ _ => Iff.rfl) (fun _ _ => Iff.rfl) id .inl h.apart
  · exact h.frame rfl rfl rfl (fun _ _ => Iff.rfl) (fun _ _ => Iff.rfl) id .inl h.apart
  · exact h.frame rfl rfl rfl (fun _ _ => Iff.rfl) (fun _ _ => Iff.rfl) id .inl h.apart

theorem Pending.op (h : Pending s) (hfut : Futures s) (hw : Waits cfg s)
    (hr : opStep cfg s.toShared f (s.op f) = some (x', o)) : Pending (s.setOp f (x', o)) := by
  have hold (k : ℕ) : s.op f ≠ .spawning k := by
    intro hop
    rw [hop] at hr
    cases hr
  rcases opStep_cases hr with ⟨rfl, ho, -⟩ | ⟨e, hop, rfl, hshut, he, rfl⟩ |
    ⟨e, hop, rfl, he, rfl⟩ | ⟨b, timed, hop, rfl, hpc, rfl⟩ | ⟨e, hop, rfl, hpc, he, rfl⟩
  · rcases ho with rfl | rfl | rfl <;> exact h.setOp rfl rfl rfl hold (by rintro _ ⟨⟩) id .inl (by rintro ⟨⟩)
  · exact h.submit hfut hop hshut (hw.clear hshut he).2
  · exact h.setOp (hw.inv.wait he).2 rfl rfl hold (by rintro _ ⟨⟩) id .inl
      fun _ => h.apart f (by rw [hop]; rfl)
  · refine h.setOp rfl rfl rfl hold (by rintro _ ⟨⟩) id (fun _ => .inr ⟨?_, ?_⟩) (by rintro ⟨⟩)
    · exact hw.shut f (by rw [hop]; rfl)
    · have hfits := hw.fits f
      rw [hop] at hfits
      refine (hfits.resolve_left fun hwaits => ?_).2
      simp [hpc, Event.Pc.waits] at hwaits
  · obtain ⟨q, -, hflag, -⟩ := hw.inv.waits (hw.inWait hop hpc) he
    exact h.setOp hflag rfl rfl hold (by rintro _ ⟨⟩) id .inl fun _ => h.apart f (by rw [hop]; rfl)

theorem Pending.step (h : Pending s) (hp : Permits cfg s) (hfut : Futures s)
    (hw : Waits cfg s) (hok : Spawns cfg s a) (hs : step cfg s a = some t) : Pending t := by
  have of_idle (f : ℕ) (hop : s.op f = .idle) (k : ℕ) : s.op f ≠ .spawning k := by
    rw [hop]
    rintro ⟨⟩
  cases a with
  | submit f =>
    obtain ⟨hready, hs⟩ := Option.ite_none_right_eq_some.mp hs
    cases hs
    exact h.setOp rfl rfl rfl (of_idle f (of_ready hready).2.2) (by rintro _ ⟨⟩) id .inl (by rintro ⟨⟩)
  | cancel f k =>
    obtain ⟨⟨hready, -⟩, hs⟩ := Option.ite_none_right_eq_some.mp hs
    cases hs
    obtain ⟨fut, resolved, hc⟩ := cancel_keeps s.toShared k
    rw [hc]
    exact h.setOp rfl rfl rfl (of_idle f (of_ready hready).2.2) (by rintro _ ⟨⟩) id .inl (by rintro ⟨⟩)
  | shutdown f wait cancelFutures =>
    obtain ⟨hready, hs⟩ := Option.ite_none_right_eq_some.mp hs
    cases hs
    refine h.setOp rfl rfl rfl (of_idle f (of_ready hready).2.2) (by rintro _ ⟨⟩) (fun _ => rfl) .inl
      fun ho => ?_
    cases wait with
    | true => exact hok rfl
    | false => cases ho
  | op f =>
    obtain ⟨⟨x', o⟩, hr, rfl⟩ := Option.map_eq_some_iff.mp hs
    exact h.op hfut hw hr
  | cancelNext f k =>
    simp only [Executor.step] at hs
    split at hs
    · rename_i ks wait hop
      obtain ⟨-, hs⟩ := Option.ite_none_right_eq_some.mp hs
      cases hs
      obtain ⟨fut, resolved, hc⟩ := cancel_keeps s.toShared k
      rw [hc]
      refine h.setOp rfl rfl rfl (by rw [hop]; rintro _ ⟨⟩) (by rintro _ ⟨⟩) id .inl fun ho => h.apart f ?_
      rw [hop]
      cases wait with
      | true => rfl
      | false => cases ho
    · cases hs
  | spawn f g =>
    simp only [Executor.step] at hs
    split at hs
    · rename_i k hop
      obtain ⟨⟨-, hg⟩, hs⟩ := Option.ite_none_right_eq_some.mp hs
      cases hs
      exact h.spawn hop hg
    · cases hs
  | spawnFails f =>
    simp only [Executor.step] at hs
    split at hs
    · rename_i k hop
      cases hs
      refine h.spawnFails hop fun g => ?_
      by_cases hg : s.op g = .idle
      · rw [hg]
        rfl
      · -- a fiber in a call is one of the executor's users
        have hfree := hw.busy g hg
        refine hok g (hp.lt fun hst => ?_)
        rw [hst] at hfree
        cases hfree
    · cases hs
  | task f =>
    obtain ⟨⟨x', st'⟩, hr, rfl⟩ := Option.map_eq_some_iff.mp hs
    exact h.runTask hfut hw hr
  | ends f ok =>
    obtain ⟨-, hs⟩ := Option.ite_none_right_eq_some.mp hs
    split at hs
    · rename_i k hst
      cases hs
      refine h.setStage rfl rfl rfl rfl rfl fun i => ?_
      rw [hst]
      cases ok <;> rfl
    · rename_i k hst
      cases hs
      refine h.setStage rfl rfl rfl rfl rfl fun i => ?_
      rw [hst]
      rfl
    · cases hs
  | resume f | spurious f => exact h.unpark hw hs

theorem start_pending (born : ℕ → Bool) : Pending (start cfg born) where
  flag := by simp [start]
  nodup := List.nodup_nil
  task f k hf := by
    have hjob := hf.1
    simp only [start] at hjob
    split at hjob <;> cases hjob
  spawning := by rintro _ _ ⟨⟩
  why := by rintro _ ⟨⟩
  waited := by rintro ⟨⟩
  apart := by rintro _ ⟨⟩

/-! ## The return of `shutdown` -/

/-- Steps of the fiber `f` take it out of its `shutdown`. -/
def Returns (cfg : Config) (s : State) (f : ℕ) : Prop :=
  ∃ as t, (∀ a ∈ as, a = .op f ∨ a = .resume f) ∧ (system cfg).run s as = some t ∧
    t.op f = .idle ∧ t.waited = true

theorem Returns.cons (ha : a = .op f ∨ a = .resume f) (hs : step cfg s a = some t)
    (h : Returns cfg t f) : Returns cfg s f := by
  obtain ⟨as, u, has, hrun, hu⟩ := h
  refine ⟨a :: as, u, ?_, ?_, hu⟩
  · intro b hb
    rcases List.mem_cons.mp hb with rfl | hb
    · exact ha
    · exact has b hb
  · simp only [System.run, system, hs, Option.bind_some]
    exact hrun

theorem returns_of_returned (hop : s.op f = .waiting) {b timed : Bool}
    (hpc : s.idle.pc f = .returned b timed) : Returns cfg s f := by
  have hs : step cfg s (.op f) = some (s.setOp f ({ s.toShared with waited := true }, .idle)) := by
    simp [step, hop, opStep, hpc]
  exact .cons (.inl rfl) hs ⟨[], _, by rintro _ ⟨⟩, rfl, by simp [State.setOp], rfl⟩

theorem step_in_wait (hop : s.op f = .waiting) (hwaits : (s.idle.pc f).waits = true)
    (he : Event.fiberStep s.idle f = some e) :
    step cfg s (.op f) = some (s.setOp f ({ s.toShared with idle := e }, .waiting)) := by
  simp only [step, hop, opStep]
  split
  · rename_i b timed hpc
    simp [hpc, Event.Pc.waits] at hwaits
  · rw [he]
    rfl

/-- By induction on the turns that are left. -/
theorem returns_of_flag (n : ℕ) : ∀ s : State, s.op f = .waiting → s.idle.flag = true →
    (s.idle.pc f).waits = true → (∀ p, s.idle.pc f ≠ .parked p false) →
      (s.idle.pc f).left = n → Returns cfg s f := by
  induction n using Nat.strong_induction_on with
  | _ n ih =>
    intro s hop hflag hwaits hp hn
    obtain ⟨e, he, hflag', hnext⟩ := Event.closer hflag hwaits hp
    have hop' : (s.setOp f ({ s.toShared with idle := e }, .waiting)).op f = .waiting := by
      simp [State.setOp]
    refine .cons (.inl rfl) (step_in_wait hop hwaits he) ?_
    rcases hnext with hpc | ⟨hwaits', hp', hlt⟩
    · exact returns_of_returned hop' hpc
    · exact ih _ (hn ▸ hlt) _ hop' hflag' hwaits' hp' rfl

/-- A fiber that was woken, if it is parked, comes back to a set flag. -/
theorem Waits.returns (h : Waits cfg s) (hop : s.op f = .waiting) (hflag : s.idle.flag = true)
    (hset : ∀ g, (s.idle.pc g).sets = false) : Returns cfg s f := by
  have hfits := h.fits f
  rw [hop] at hfits
  rcases hfits with hwaits | ⟨hret, -⟩
  · by_cases hparked : ∃ p, s.idle.pc f = .parked p false
    · obtain ⟨p, hpc⟩ := hparked
      have hwoken := h.inv.sound.woken hflag hset f p false hpc
      refine .cons (.inr rfl) (t := { s with
        idle := Event.State.goto { s.idle with woken := update s.idle.woken f false } f
          (.recheck p false) }) ?_ ?_
      · simp [Executor.step, State.unpark, hop, Event.step, hpc, hwoken]
      · refine returns_of_flag _ _ hop hflag ?_ (fun q => ?_) rfl
        · simp [Event.State.goto, Event.Pc.waits]
        · simp [Event.State.goto]
    · exact returns_of_flag _ s hop hflag hwaits (fun p hpc => hparked ⟨p, hpc⟩) rfl
  · exact returns_of_returned hop hret

/-- Once the tasks have ended nobody is in `_idle.set()`. -/
theorem Waits.none_sets (h : Waits cfg s)
    (hend : ∀ f k, (s.stage f).job = some k → s.stage f = .ended k) (g : ℕ) :
    (s.idle.pc g).sets = false := by
  have hfits := h.fits g
  cases hop : s.op g with
  | waiting =>
    rw [hop] at hfits
    rcases hfits with hwaits | ⟨hret, -⟩
    · cases hpc : s.idle.pc g <;> simp_all [Event.Pc.waits, Event.Pc.sets]
    · rw [hret]
      rfl
  | idle | submit | submitBroken | submitGuard | spawning | cancelling =>
    have hst (k : ℕ) : s.stage g ≠ .settingIdle k := by
      intro hst
      have := hend g k (by rw [hst]; rfl)
      rw [hst] at this
      cases this
    have hrests := hfits.rests (by rw [hop]; rintro ⟨⟩) hst
    cases hpc : s.idle.pc g <;> simp_all [Event.Pc.rests, Event.Pc.sets]

/-- A `shutdown(wait=True)` keeps nothing pending that has no task. -/
theorem Pending.none_left (h : Pending s) (hop : s.op f = .waiting)
    (hend : ∀ f k, (s.stage f).job = some k → s.stage f = .ended k)
    (hspawn : ∀ f k, s.op f ≠ .spawning k) : s.pending = [] := by
  have hlost := h.apart f (by rw [hop]; rfl)
  refine List.eq_nil_iff_forall_not_mem.mpr fun k hk => ?_
  rcases h.why k hk with ⟨g, hjob, hthrough⟩ | ⟨g, hg⟩ | hk
  · rw [hend g k hjob] at hthrough
    cases hthrough
  · exact hspawn g k hg
  · rw [hlost] at hk
    cases hk

theorem Pending.drained (h : Pending s) (hw : s.waited = true)
    (hjob : (s.stage f).job = some k) : (s.stage f).through = true := by
  by_contra hthrough
  have hk := h.task f k ⟨hjob, Bool.not_eq_true _ ▸ hthrough⟩
  rw [h.flag.mp (h.waited hw).2] at hk
  cases hk

/-! ## The whole executor -/

structure Inv (cfg : Config) (s : State) : Prop where
  permits : Permits cfg s
  initializer : Initializer cfg s
  futures : Futures s
  waits : Waits cfg s
  pending : Pending s

theorem Inv.step (h : Inv cfg s) (hok : Spawns cfg s a) (hs : step cfg s a = some t) :
    Inv cfg t where
  permits := h.permits.step hs
  initializer := h.initializer.step hs
  futures := h.futures.step hs
  waits := h.waits.step hs
  pending := h.pending.step h.permits h.futures h.waits hok hs

theorem reachable_inv (hr : Reachable ((system cfg).restrict (Spawns cfg)) s) : Inv cfg s := by
  refine Reachable.invariant (P := Inv cfg) ?_ ?_ hr
  · rintro s ⟨born, rfl⟩
    exact ⟨start_permits born, start_initializer born, start_futures born, start_waits born,
      start_pending born⟩
  · intro s a t _ hi hs
    obtain ⟨hok, hs⟩ := System.restrict_step.mp hs
    exact hi.step hok hs

theorem executor_kept (hr : Reachable ((system cfg).restrict (Spawns cfg)) s) : Kept cfg s := by
  have h := reachable_inv hr
  constructor
  case bounded => exact h.permits.bounded
  case initOnce =>
    rw [h.initializer.runs]
    split <;> omega
  case initFirst =>
    intro f k hst hinit
    have hfits := h.initializer.fits f
    rw [hst] at hfits
    exact h.initializer.ended (hfits.2 hinit)
  case resolved =>
    intro f k hst
    have hfits := h.futures.fits f k (by rw [hst]; rfl)
    rw [hst] at hfits
    exact hfits
  case drained => exact fun hw f k hjob => h.pending.drained hw hjob
  case returns =>
    intro hend hspawn f hop
    have hflag := h.pending.flag.mpr (h.pending.none_left hop hend hspawn)
    exact h.waits.returns hop hflag (h.waits.none_sets hend)

/-- There is nothing beyond the fibers that the configuration has. -/
theorem outside (hr : Reachable (system cfg) s) :
    (∀ f, cfg.n ≤ f → s.stage f = .unborn) ∧ ∀ f, cfg.n ≤ f → s.op f = .idle := by
  have h : Permits cfg s ∧ Waits cfg s := by
    refine Reachable.invariant (P := fun s => Permits cfg s ∧ Waits cfg s) ?_ ?_ hr
    · rintro s ⟨born, rfl⟩
      exact ⟨start_permits born, start_waits born⟩
    · exact fun s a t _ hi hs => ⟨hi.1.step hs, hi.2.step hs⟩
  refine ⟨h.1.outside, fun f hf => ?_⟩
  by_contra hop
  have hfree := h.2.busy f hop
  rw [h.1.outside f hf] at hfree
  cases hfree

/-- One task with an initializer, and a `shutdown(wait=True)` that parks before it begins. -/
def drain : List Action :=
  Action.submit 0 :: List.replicate 3 (.op 0) ++
    Action.spawn 0 1 :: .shutdown 0 true false :: List.replicate 4 (.op 0) ++
    List.replicate 5 (Action.task 1) ++ Action.ends 1 true :: List.replicate 4 (.task 1) ++
    Action.ends 1 true :: List.replicate 10 (.task 1) ++
    Action.resume 0 :: List.replicate 6 (.op 0)

theorem executor_kept_drain :
    ∃ s, ((system ⟨1, true, 2⟩).restrict (Spawns ⟨1, true, 2⟩)).run
        (start ⟨1, true, 2⟩ (· == 0)) drain = some s ∧
      s.waited = true ∧ s.fut 0 = .finished ∧ s.initRuns = 1 ∧ Kept ⟨1, true, 2⟩ s := by
  have hrun : (((system ⟨1, true, 2⟩).restrict (Spawns ⟨1, true, 2⟩)).run
      (start ⟨1, true, 2⟩ (· == 0)) drain).any (fun s =>
        s.waited = true ∧ s.fut 0 = .finished ∧ s.initRuns = 1) = true := by
    decide +kernel
  obtain ⟨s, hs, hp⟩ := (Option.any_eq_true _ _).mp hrun
  obtain ⟨hw, hfut, hinit⟩ := of_decide_eq_true hp
  exact ⟨s, hs, hw, hfut, hinit,
    executor_kept (reachable_of_run (System.restrict _ _) drain ⟨_, rfl⟩ hs)⟩

/-- `submit` registers the future and its spawn raises. `shutdown(wait=True)` then parks. -/
def lose : List Action :=
  [.submit 0, .op 0, .op 0, .op 0, .spawnFails 0, .shutdown 0 true false, .op 0, .op 0, .op 0, .op 0]

/-- There is no task and no other fiber, and the one that waits was not woken. -/
theorem failed_spawn_blocks_shutdown :
    ∃ s, (system ⟨1, false, 1⟩).run (start ⟨1, false, 1⟩ (· == 0)) lose = some s ∧
      s.op 0 = .waiting ∧ ¬Kept ⟨1, false, 1⟩ s := by
  have hrun : ((system ⟨1, false, 1⟩).run (start ⟨1, false, 1⟩ (· == 0)) lose).any (fun s =>
      s.op 0 = .waiting ∧ s.stage 0 = .user ∧ s.idle.pc 0 = .parked 0 false ∧
        s.idle.woken 0 = false) = true := by
    decide +kernel
  obtain ⟨s, hs, hp⟩ := (Option.any_eq_true _ _).mp hrun
  obtain ⟨hop, hst, hpc, hwoken⟩ := of_decide_eq_true hp
  obtain ⟨hout, hidle⟩ := outside (reachable_of_run (system _) lose ⟨_, rfl⟩ hs)
  refine ⟨s, hs, hop, fun h => ?_⟩
  have hstage (f k : ℕ) : (s.stage f).job ≠ some k := by
    cases f with
    | zero =>
      rw [hst]
      rintro ⟨⟩
    | succ f =>
      rw [hout (f + 1) (Nat.le_add_left 1 f)]
      rintro ⟨⟩
  have hspawn (f k : ℕ) : s.op f ≠ .spawning k := by
    cases f with
    | zero =>
      rw [hop]
      rintro ⟨⟩
    | succ f =>
      rw [hidle (f + 1) (Nat.le_add_left 1 f)]
      rintro ⟨⟩
  obtain ⟨as, t, has, hrun, ht, -⟩ :=
    h.returns (fun f k hjob => absurd hjob (hstage f k)) hspawn 0 hop
  cases as with
  | nil =>
    cases hrun
    rw [hop] at ht
    cases ht
  | cons a as =>
    obtain ⟨u, hu, -⟩ := Option.bind_eq_some_iff.mp hrun
    rcases has a List.mem_cons_self with rfl | rfl
    · simp [system, step, hop, opStep, hpc, Event.fiberStep] at hu
    · simp [system, step, State.unpark, hop, Event.step, hpc, hwoken] at hu

end Stackweave.Monkey.Executor
