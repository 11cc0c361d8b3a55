import Stackweave.Monkey.Awaiting
import Stackweave.Monkey.Executor
import Stackweave.Monkey.Permits
import Stackweave.Tally

/-!
# The tasks of the executor

Three invariants of `Monkey.Executor`, each about one thing that the tasks share: the permits of
the semaphore, the initializer, and the futures. A step of a task is looked at once for each of
them; what it does not concern leaves it alone by the frame lemma of the invariant.
-/

namespace Stackweave.Monkey.Executor

open Transition Tally Function

variable {cfg : Config} {s t : State} {x x' : Shared} {f : ℕ} {st st' : Stage}

/-! ## Permits -/

/-- What a task has of the semaphore. -/
inductive Phase
  | out
  | acquiring
  | held
  | releasing

@[grind =]
def Stage.phase : Stage → Phase
  | .acquiring _ => .acquiring
  | .releasing _ => .releasing
  | .user | .unborn | .start _ | .taskDone _ | .settingIdle _ | .ended _ => .out
  | .notify _ | .enter _ | .checkBroken _ | .guardInit _ | .awaitInit _ | .waitInit _ => .held
  | .initializing _ | .breaking _ | .setInit _ _ | .settingInit _ _ => .held
  | .calling _ | .resolve _ | .release _ => .held

/-- The permit that a fiber has been told of and has not given back. -/
@[grind =]
def Phase.permit : Phase → Semaphore.Pc → ℕ
  | .out, _ => 0
  | .acquiring, q => if q = .returned (some true) then 1 else 0
  | .held, _ => 1
  | .releasing, q => q.owes

/-- Where the fiber is in the semaphore. -/
@[grind =]
def Phase.Fits : Phase → Semaphore.Pc → Prop
  | .out, q | .held, q => q.rests = true
  | .acquiring, q => q.acquires = true ∨ q = .returned (some true)
  | .releasing, q => q.releases = true ∨ q = .returned none

structure Permits (cfg : Config) (s : State) : Prop where
  client : Semaphore.Client cfg.maxWorkers s.sem
  fits : ∀ f, (s.stage f).phase.Fits (s.sem.pc f)
  outside : ∀ f, cfg.n ≤ f → s.stage f = .unborn
  count : ∑ f ∈ Finset.range cfg.n, ((s.stage f).phase.permit (s.sem.pc f) : ℤ) = s.sem.sem.inHand

theorem Permits.lt (h : Permits cfg s) (hf : s.stage f ≠ .unborn) : f < cfg.n := by
  by_contra hle
  exact hf (h.outside f (Nat.not_lt.mp hle))

/-- A step that does not concern the semaphore. -/
theorem Permits.frame (h : Permits cfg s) (hsem : t.sem = s.sem)
    (hphase : ∀ g, (t.stage g).phase = (s.stage g).phase)
    (hout : ∀ g, s.stage g = .unborn → cfg.n ≤ g → t.stage g = .unborn) : Permits cfg t where
  client := hsem ▸ h.client
  fits g := by
    rw [hphase, hsem]
    exact h.fits g
  outside g hg := hout g (h.outside g hg) hg
  count := by
    simp only [hphase, hsem]
    exact h.count

/-- A step of one fiber in the semaphore. -/
theorem Permits.turn (h : Permits cfg s) (hf : f < cfg.n) {m : Semaphore.State}
    {q : Semaphore.Pc} (hturn : Semaphore.Turn cfg.maxWorkers s.sem m f q)
    (hsem : t.sem = m) (hstage : t.stage = update s.stage f st)
    (hfits : st.phase.Fits q)
    (hcount : m.sem.inHand + (s.stage f).phase.permit (s.sem.pc f)
      = s.sem.sem.inHand + st.phase.permit q) : Permits cfg t where
  client := hsem ▸ hturn.client
  fits g := by
    rw [hsem, hstage]
    by_cases hg : g = f
    · subst hg
      rw [update_self, hturn.self]
      exact hfits
    · rw [update_of_ne hg, hturn.others g hg]
      exact h.fits g
  outside g hg := by
    rw [hstage, update_of_ne (by omega)]
    exact h.outside g hg
  count := by
    have hsum := sum_range_update (f := fun g => ((s.stage g).phase.permit (s.sem.pc g) : ℤ))
      (g := fun g => ((t.stage g).phase.permit (t.sem.pc g) : ℤ)) hf fun g hg => by
        simp only [hsem, hstage, update_of_ne hg, hturn.others g hg]
    rw [hsum, h.count, hsem, hstage, update_self, hturn.self]
    omega

/-- A stage that changes on its own. -/
theorem Permits.stage (h : Permits cfg s) (hf : f < cfg.n) (hsem : t.sem = s.sem)
    (hstage : t.stage = update s.stage f st) (hfits : st.phase.Fits (s.sem.pc f))
    (hcount : st.phase.permit (s.sem.pc f) = (s.stage f).phase.permit (s.sem.pc f)) :
    Permits cfg t :=
  h.turn hf ⟨h.client, rfl, fun _ _ => rfl⟩ hsem hstage hfits (by rw [hcount])

theorem Permits.of_phase (h : Permits cfg s) (hf : f < cfg.n) (hsem : t.sem = s.sem)
    (hstage : t.stage = update s.stage f st) (hphase : st.phase = (s.stage f).phase) :
    Permits cfg t :=
  h.stage hf hsem hstage (hphase ▸ h.fits f) (by rw [hphase])

/-- The stages that call the semaphore. -/
@[grind =]
def Stage.inSem : Stage → Bool
  | .start _ | .acquiring _ | .release _ | .releasing _ => true
  | _ => false

theorem taskStep_sem (hr : taskStep cfg x f st = some (x', st')) (hst : st.inSem = false) :
    x'.sem = x.sem ∧ st'.phase = st.phase ∧ st ≠ .unborn := by
  cases st with
  | notify k | resolve k =>
    simp only [taskStep] at hr
    split at hr <;> cases hr <;> exact ⟨rfl, rfl, by rintro ⟨⟩⟩
  | enter k =>
    simp only [taskStep] at hr
    split at hr
    · cases hr
      exact ⟨rfl, rfl, by rintro ⟨⟩⟩
    · split at hr <;> cases hr <;> exact ⟨rfl, rfl, by rintro ⟨⟩⟩
  | checkBroken k =>
    cases hr
    cases x.broken <;> exact ⟨rfl, rfl, by rintro ⟨⟩⟩
  | guardInit k =>
    simp only [taskStep] at hr
    split at hr
    · cases hr
      exact ⟨rfl, rfl, by rintro ⟨⟩⟩
    · split at hr
      · cases hr
        exact ⟨rfl, rfl, by rintro ⟨⟩⟩
      · split at hr <;> cases hr <;> exact ⟨rfl, rfl, by rintro ⟨⟩⟩
  | awaitInit k | setInit k ok =>
    obtain ⟨e, -, hr⟩ := Option.map_eq_some_iff.mp hr
    cases hr
    exact ⟨rfl, rfl, by rintro ⟨⟩⟩
  | waitInit k | settingIdle k =>
    simp only [taskStep] at hr
    split at hr
    · cases hr
      exact ⟨rfl, rfl, by rintro ⟨⟩⟩
    · obtain ⟨e, -, hr⟩ := Option.map_eq_some_iff.mp hr
      cases hr
      exact ⟨rfl, rfl, by rintro ⟨⟩⟩
  | settingInit k ok =>
    simp only [taskStep] at hr
    split at hr
    · cases hr
      cases ok <;> exact ⟨rfl, rfl, by rintro ⟨⟩⟩
    · obtain ⟨e, -, hr⟩ := Option.map_eq_some_iff.mp hr
      cases hr
      exact ⟨rfl, rfl, by rintro ⟨⟩⟩
  | breaking k =>
    cases hr
    exact ⟨rfl, rfl, by rintro ⟨⟩⟩
  | taskDone k =>
    simp only [taskStep] at hr
    split at hr
    · obtain ⟨e, -, hr⟩ := Option.map_eq_some_iff.mp hr
      cases hr
      exact ⟨rfl, rfl, by rintro ⟨⟩⟩
    · cases hr
      exact ⟨rfl, rfl, by rintro ⟨⟩⟩
  | user | unborn | initializing | calling | ended => simp [taskStep] at hr
  | start | acquiring | release | releasing => simp [Stage.inSem] at hst

theorem Permits.task (h : Permits cfg s) (hst : s.stage f = st)
    (hr : taskStep cfg s.toShared f st = some (x', st')) :
    Permits cfg (s.setStage f (x', st')) := by
  have hfits := h.fits f
  rw [hst] at hfits
  have hlt (hne : st ≠ .unborn) : f < cfg.n := h.lt (hst ▸ hne)
  have stay (hin : st.inSem = false) : Permits cfg (s.setStage f (x', st')) := by
    obtain ⟨hsem, hp, hne⟩ := taskStep_sem hr hin
    exact h.of_phase (hlt hne) hsem rfl (hst ▸ hp)
  cases st with
  | start k =>
    obtain ⟨m, hm, hr⟩ := Option.map_eq_some_iff.mp hr
    cases hr
    rcases h.client.acquire hm with ⟨ht, hc⟩ | ⟨ht, hc⟩
    · exact h.turn (hlt (by rintro ⟨⟩)) ht rfl rfl (.inr rfl)
        (by simp [hst, hc, Stage.phase, Phase.permit])
    · exact h.turn (hlt (by rintro ⟨⟩)) ht rfl rfl (.inl rfl) (by simp [hst, hc, Stage.phase, Phase.permit])
  | acquiring k =>
    simp only [taskStep] at hr
    split at hr
    · rename_i b hpc
      cases hr
      have hb : s.sem.pc f = .returned (some true) := by
        rcases hfits with hfits | hfits
        · simp [hpc, Semaphore.Pc.acquires] at hfits
        · exact hfits
      refine h.stage (hlt (by rintro ⟨⟩)) rfl rfl ?_ ?_
      · simp [Stage.phase, Phase.Fits, hb, Semaphore.Pc.rests]
      · simp [hst, Stage.phase, Phase.permit, hb]
    · rename_i hpc
      obtain ⟨m, hm, hr⟩ := Option.map_eq_some_iff.mp hr
      cases hr
      have hacq : (s.sem.pc f).acquires = true := by
        rcases hfits with hfits | hfits
        · exact hfits
        · exact absurd hfits (hpc _)
      have hne : s.sem.pc f ≠ .returned (some true) := hpc _
      rcases h.client.acquires hacq hm with ⟨ht, hc⟩ | ⟨q, ht, hq, hc⟩
      · exact h.turn (hlt (by rintro ⟨⟩)) ht rfl rfl (.inr rfl)
          (by simp [hst, hc, Stage.phase, Phase.permit, hne])
      · refine h.turn (hlt (by rintro ⟨⟩)) ht rfl rfl (.inl hq) ?_
        have hqne : q ≠ .returned (some true) := by
          rintro rfl
          cases hq
        simp [hst, hc, Stage.phase, Phase.permit, hne, hqne]
  | release k =>
    obtain ⟨m, hm, hr⟩ := Option.map_eq_some_iff.mp hr
    cases hr
    obtain ⟨ht, hc⟩ := h.client.release hm
    exact h.turn (hlt (by rintro ⟨⟩)) ht rfl rfl (.inl rfl)
      (by simp [hst, hc, Stage.phase, Phase.permit, Semaphore.Pc.owes])
  | releasing k =>
    simp only [taskStep] at hr
    split at hr
    · rename_i b hpc
      cases hr
      refine h.stage (hlt (by rintro ⟨⟩)) rfl rfl ?_ ?_
      · simp [Stage.phase, Phase.Fits, hpc, Semaphore.Pc.rests]
      · simp [hst, Stage.phase, Phase.permit, hpc, Semaphore.Pc.owes]
    · rename_i hpc
      obtain ⟨m, hm, hr⟩ := Option.map_eq_some_iff.mp hr
      cases hr
      have hrel : (s.sem.pc f).releases = true := by
        rcases hfits with hfits | hfits
        · exact hfits
        · exact absurd hfits (hpc _)
      obtain ⟨q, ht, hq, hc⟩ := h.client.releases hrel hm
      refine h.turn (hlt (by rintro ⟨⟩)) ht rfl rfl hq ?_
      simpa [hst, Stage.phase, Phase.permit] using hc
  | user | unborn | notify | enter | checkBroken | guardInit | awaitInit | waitInit | initializing
  | breaking | setInit | settingInit | calling | resolve | taskDone | settingIdle | ended =>
    exact stay rfl

/-- `Future.cancel` concerns futures only. -/
theorem cancel_keeps (x : Shared) (k : ℕ) :
    ∃ fut resolved, x.cancel k = { x with fut := fut, resolved := resolved } := by
  unfold Shared.cancel
  split
  · exact ⟨_, _, rfl⟩
  · exact ⟨_, _, rfl⟩

variable {o : Op} {a : Action} {q : Event.Pc}

/-- A step of a call only goes on, or it registers a new future, or it is one in `_idle.wait()`. -/
theorem opStep_cases {o' : Op} (hr : opStep cfg x f o = some (x', o')) :
    (x' = x ∧ (o' = .idle ∨ o' = .submitBroken ∨ o' = .submitGuard) ∧ o ≠ .waiting) ∨
    (∃ e, o = .submitGuard ∧ o' = .spawning x.next ∧ x.shutdown = false ∧
      Event.step cfg.n x.idle (.clear f) = some e ∧
      x' = { x with
        idle := e, pending := x.pending ++ [x.next], next := x.next + 1
        fut := update x.fut x.next .pending }) ∨
    (∃ e, o = .cancelling [] true ∧ o' = .waiting ∧
      Event.step cfg.n x.idle (.wait f false) = some e ∧ x' = { x with idle := e }) ∨
    (∃ b timed, o = .waiting ∧ o' = .idle ∧ x.idle.pc f = .returned b timed ∧
      x' = { x with waited := true }) ∨
    ∃ e, o = .waiting ∧ o' = .waiting ∧ (∀ b timed, x.idle.pc f ≠ .returned b timed) ∧
      Event.fiberStep x.idle f = some e ∧ x' = { x with idle := e } := by
  cases o with
  | idle | spawning k => cases hr
  | submit =>
    cases hr
    refine .inl ⟨rfl, ?_, by rintro ⟨⟩⟩
    cases x.shutdown <;> simp
  | submitBroken =>
    cases hr
    refine .inl ⟨rfl, ?_, by rintro ⟨⟩⟩
    cases x.broken <;> simp
  | submitGuard =>
    simp only [opStep] at hr
    split at hr
    · cases hr
      exact .inl ⟨rfl, .inl rfl, by rintro ⟨⟩⟩
    · rename_i hshut
      split at hr
      · cases hr
        exact .inl ⟨rfl, .inl rfl, by rintro ⟨⟩⟩
      · obtain ⟨e, he, hr⟩ := Option.map_eq_some_iff.mp hr
        cases hr
        exact .inr (.inl ⟨e, rfl, rfl, Bool.not_eq_true _ ▸ hshut, he, rfl⟩)
  | cancelling ks wait =>
    cases ks with
    | cons k ks => cases hr
    | nil =>
      cases wait with
      | false =>
        cases hr
        exact .inl ⟨rfl, .inl rfl, by rintro ⟨⟩⟩
      | true =>
        obtain ⟨e, he, hr⟩ := Option.map_eq_some_iff.mp hr
        cases hr
        exact .inr (.inr (.inl ⟨e, rfl, rfl, he, rfl⟩))
  | waiting =>
    simp only [opStep] at hr
    split at hr
    · rename_i b timed hpc
      cases hr
      exact .inr (.inr (.inr (.inl ⟨b, timed, rfl, rfl, hpc, rfl⟩)))
    · rename_i hpc
      obtain ⟨e, he, hr⟩ := Option.map_eq_some_iff.mp hr
      cases hr
      exact .inr (.inr (.inr (.inr ⟨e, rfl, rfl, hpc, he, rfl⟩)))

/-- What the calls leave to the tasks. -/
theorem opStep_keeps {o' : Op} (hr : opStep cfg x f o = some (x', o')) :
    x'.sem = x.sem ∧ x'.initDone = x.initDone ∧ x'.initRuns = x.initRuns ∧
      x'.initStarted = x.initStarted ∧ x'.initEnded = x.initEnded ∧ x'.broken = x.broken := by
  rcases opStep_cases hr with ⟨rfl, -⟩ | ⟨e, -, -, -, -, rfl⟩ | ⟨e, -, -, -, rfl⟩ |
    ⟨b, timed, -, -, -, rfl⟩ | ⟨e, -, -, -, -, rfl⟩
  · exact ⟨rfl, rfl, rfl, rfl, rfl, rfl⟩
  · exact ⟨rfl, rfl, rfl, rfl, rfl, rfl⟩
  · exact ⟨rfl, rfl, rfl, rfl, rfl, rfl⟩
  · exact ⟨rfl, rfl, rfl, rfl, rfl, rfl⟩
  · exact ⟨rfl, rfl, rfl, rfl, rfl, rfl⟩

/-- What is not a step of a task, the end of user code, a spawn or the return of a park is a step
of a call, and leaves the stages alone. -/
theorem step_cases (hs : step cfg s a = some t) :
    (∃ f x' o, t = s.setOp f (x', o) ∧ x'.sem = s.sem ∧ x'.initDone = s.initDone ∧
      x'.initRuns = s.initRuns ∧ x'.initStarted = s.initStarted ∧ x'.initEnded = s.initEnded ∧
      x'.broken = s.broken) ∨
    (∃ f x' st', a = .task f ∧ taskStep cfg s.toShared f (s.stage f) = some (x', st') ∧
      t = s.setStage f (x', st')) ∨
    (∃ f g k, a = .spawn f g ∧ s.op f = .spawning k ∧ g < cfg.n ∧ s.stage g = .unborn ∧
      t = { s with op := update s.op f .idle
                   stage := update s.stage g (.start k) }) ∨
    (∃ f k ok, a = .ends f ok ∧ s.op f = .idle ∧ s.stage f = .initializing k ∧
      t = s.setStage f ({ s.toShared with initEnded := true },
        if ok then .setInit k true else .breaking k)) ∨
    (∃ f k ok, a = .ends f ok ∧ s.op f = .idle ∧ s.stage f = .calling k ∧
      t = s.setStage f (s.toShared, .resolve k)) ∨
    ∃ f woken, (a = .resume f ∨ a = .spurious f) ∧ s.unpark cfg f woken = some t := by
  cases a with
  | submit f =>
    obtain ⟨-, h⟩ := Option.ite_none_right_eq_some.mp hs
    cases h
    exact .inl ⟨f, _, _, rfl, rfl, rfl, rfl, rfl, rfl, rfl⟩
  | cancel f k =>
    obtain ⟨-, h⟩ := Option.ite_none_right_eq_some.mp hs
    cases h
    obtain ⟨fut, resolved, hc⟩ := cancel_keeps s.toShared k
    rw [hc]
    exact .inl ⟨f, _, _, rfl, rfl, rfl, rfl, rfl, rfl, rfl⟩
  | shutdown f wait cancelFutures =>
    obtain ⟨-, h⟩ := Option.ite_none_right_eq_some.mp hs
    cases h
    exact .inl ⟨f, _, _, rfl, rfl, rfl, rfl, rfl, rfl, rfl⟩
  | op f =>
    obtain ⟨⟨x', o⟩, hr, rfl⟩ := Option.map_eq_some_iff.mp hs
    exact .inl ⟨f, x', o, rfl, opStep_keeps hr⟩
  | cancelNext f k =>
    simp only [step] at hs
    split at hs
    · obtain ⟨-, h⟩ := Option.ite_none_right_eq_some.mp hs
      cases h
      obtain ⟨fut, resolved, hc⟩ := cancel_keeps s.toShared k
      rw [hc]
      exact .inl ⟨f, _, _, rfl, rfl, rfl, rfl, rfl, rfl, rfl⟩
    · cases hs
  | spawn f g =>
    simp only [step] at hs
    split at hs
    · rename_i k hop
      obtain ⟨⟨hlt, hg⟩, h⟩ := Option.ite_none_right_eq_some.mp hs
      cases h
      exact .inr (.inr (.inl ⟨f, g, k, rfl, hop, hlt, hg, rfl⟩))
    · cases hs
  | spawnFails f =>
    simp only [step] at hs
    split at hs
    · cases hs
      exact .inl ⟨f, _, _, rfl, rfl, rfl, rfl, rfl, rfl, rfl⟩
    · cases hs
  | task f =>
    obtain ⟨⟨x', st'⟩, hr, rfl⟩ := Option.map_eq_some_iff.mp hs
    exact .inr (.inl ⟨f, x', st', rfl, hr, rfl⟩)
  | ends f ok =>
    obtain ⟨hop, h⟩ := Option.ite_none_right_eq_some.mp hs
    split at h
    · rename_i k hst
      cases h
      exact .inr (.inr (.inr (.inl ⟨f, k, ok, rfl, hop, hst, rfl⟩)))
    · rename_i k hst
      cases h
      exact .inr (.inr (.inr (.inr (.inl ⟨f, k, ok, rfl, hop, hst, rfl⟩))))
    · cases h
  | resume f => exact .inr (.inr (.inr (.inr (.inr ⟨f, true, .inl rfl, hs⟩))))
  | spurious f => exact .inr (.inr (.inr (.inr (.inr ⟨f, false, .inr rfl, hs⟩))))

/-- The park that returns is one of three. -/
theorem unpark_cases {woken : Bool} (hs : s.unpark cfg f woken = some t) :
    (∃ e, s.op f = .waiting ∧ t = { s with idle := e } ∧
      Event.step cfg.n s.idle (if woken then .resume f else .spurious f) = some e) ∨
    (∃ k e, s.stage f = .waitInit k ∧ t = { s with initDone := e } ∧
      Event.step cfg.n s.initDone (if woken then .resume f else .spurious f) = some e) ∨
    ∃ k m, s.stage f = .acquiring k ∧ t = { s with sem := m } ∧
      Semaphore.step s.sem (if woken then .resume f else .spurious f) = some m := by
  unfold State.unpark at hs
  split at hs
  · rename_i hop
    obtain ⟨e, he, rfl⟩ := Option.map_eq_some_iff.mp hs
    exact .inl ⟨e, hop, rfl, he⟩
  · rename_i k hst _
    obtain ⟨e, he, rfl⟩ := Option.map_eq_some_iff.mp hs
    exact .inr (.inl ⟨k, e, hst, rfl, he⟩)
  · rename_i k hst _
    obtain ⟨m, hm, rfl⟩ := Option.map_eq_some_iff.mp hs
    exact .inr (.inr ⟨k, m, hst, rfl, hm⟩)
  · cases hs

theorem Permits.step (h : Permits cfg s) (hs : step cfg s a = some t) :
    Permits cfg t := by
  rcases step_cases hs with ⟨f, x', o, rfl, hsem, -⟩ | ⟨f, x', st', -, hr, rfl⟩ |
    ⟨f, g, k, -, -, hlt, hg, rfl⟩ | ⟨f, k, ok, -, -, hst, rfl⟩ | ⟨f, k, ok, -, -, hst, rfl⟩ |
    ⟨f, woken, -, hs⟩
  · exact h.frame hsem (fun _ => rfl) (fun _ hg _ => hg)
  · exact h.task rfl hr
  · exact h.of_phase hlt rfl rfl (by rw [hg]; rfl)
  · exact h.of_phase (h.lt (by rw [hst]; rintro ⟨⟩)) rfl rfl (by rw [hst]; cases ok <;> rfl)
  · exact h.of_phase (h.lt (by rw [hst]; rintro ⟨⟩)) rfl rfl (by rw [hst]; rfl)
  · rcases unpark_cases hs with ⟨e, -, rfl, -⟩ | ⟨k, e, -, rfl, -⟩ | ⟨k, m, hst, rfl, hm⟩
    · exact h.frame rfl (fun _ => rfl) (fun _ hg _ => hg)
    · exact h.frame rfl (fun _ => rfl) (fun _ hg _ => hg)
    · have hfits := h.fits f
      rw [hst] at hfits
      have hacq : (s.sem.pc f).acquires = true := by
        rcases hfits with hfits | hfits
        · exact hfits
        · cases woken <;> simp [Semaphore.step, hfits] at hm
      have hne : s.sem.pc f ≠ .returned (some true) := by
        intro hpc
        simp [hpc, Semaphore.Pc.acquires] at hacq
      obtain ⟨q, ht, hq, hc⟩ := h.client.unpark (by cases woken <;> simp) hacq hm
      have hqne : q ≠ .returned (some true) := by
        rintro rfl
        cases hq
      have hsame : s.stage = update s.stage f (.acquiring k) := by
        rw [← hst, update_eq_self]
      exact h.turn (h.lt (by rw [hst]; rintro ⟨⟩)) ht rfl hsame (.inl hq)
        (by simp [hst, hc, Stage.phase, Phase.permit, hne, hqne])

theorem start_permits (born : ℕ → Bool) : Permits cfg (start cfg born) where
  client := Semaphore.client_init cfg.maxWorkers
  fits f := by
    simp only [start]
    split <;> rfl
  outside f hf := by simp [start, Nat.not_lt.mpr hf]
  count := by
    have hzero : ∀ f ∈ Finset.range cfg.n, (((start cfg born).stage f).phase.permit
        ((start cfg born).sem.pc f) : ℤ) = 0 := by
      intro f _
      simp only [start]
      split <;> rfl
    rw [Finset.sum_eq_zero hzero]
    rfl

/-- The callables that run have each a permit. -/
theorem Permits.bounded (h : Permits cfg s) :
    (List.range cfg.n).countP (fun f => (s.stage f).calls) ≤ cfg.maxWorkers := by
  have hle := countP_range_le (fun f => (s.stage f).calls)
    (w := fun f => (s.stage f).phase.permit (s.sem.pc f)) (fun f hf => ?_) cfg.n
  · have hin := Semaphore.inHand_le h.client.inv h.client.once
    rw [h.count] at hle
    omega
  · cases hst : s.stage f <;> simp_all [Stage.calls, Stage.phase, Phase.permit]

/-! ## The initializer -/

/-- Where a task is in `_init_done`. Past `_run_initializer` it has seen the event set, and whoever
is about to set it has been through the initializer. -/
def InitFits (cfg : Config) (flag ended : Bool) (q : Event.Pc) : Stage → Prop
  | .waitInit _ => q.waits = true ∨ q = .returned true false ∧ flag = true
  | .settingInit _ _ => (q.sets = true ∨ q = .idle) ∧ flag = true
  | .breaking _ | .setInit _ _ => q.rests = true ∧ ended = true
  | .checkBroken _ => q.rests = true ∧ flag = true
  | .calling _ => q.rests = true ∧ (cfg.hasInit = true → flag = true)
  | _ => q.rests = true

structure Initializer (cfg : Config) (s : State) : Prop where
  inv : Event.Inv cfg.n s.initDone
  fits : ∀ f, InitFits cfg s.initDone.flag s.initEnded (s.initDone.pc f) (s.stage f)
  ended : s.initDone.flag = true → s.initEnded = true
  runs : s.initRuns = if s.initStarted then 1 else 0

theorem InitFits.mono {flag flag' ended ended' : Bool}
    (h : InitFits cfg flag ended q st) (hflag : flag = true → flag' = true)
    (hended : ended = true → ended' = true) : InitFits cfg flag' ended' q st := by
  cases st with
  | waitInit k => exact h.imp_right fun h => ⟨h.1, hflag h.2⟩
  | settingInit k ok => exact ⟨h.1, hflag h.2⟩
  | breaking k => exact ⟨h.1, hended h.2⟩
  | setInit k ok => exact ⟨h.1, hended h.2⟩
  | checkBroken k => exact ⟨h.1, hflag h.2⟩
  | calling k => exact ⟨h.1, fun hi => hflag (h.2 hi)⟩
  | user | unborn | start | acquiring | notify | enter | guardInit | awaitInit | initializing
  | resolve | release | releasing | taskDone | settingIdle | ended => exact h

/-- A step of one fiber in the event. -/
theorem Initializer.turn (h : Initializer cfg s) {e : Event.State}
    (ht : Event.Turn cfg.n s.initDone e f q) (hdone : t.initDone = e)
    (hstage : t.stage = update s.stage f st)
    (hflag : s.initDone.flag = true → e.flag = true)
    (hend : s.initEnded = true → t.initEnded = true)
    (hfits : InitFits cfg e.flag t.initEnded q st) (hended : e.flag = true → t.initEnded = true)
    (hruns : t.initRuns = if t.initStarted then 1 else 0) : Initializer cfg t where
  inv := hdone ▸ ht.inv
  fits g := by
    rw [hdone, hstage]
    by_cases hg : g = f
    · subst hg
      rw [update_self, ht.self]
      exact hfits
    · rw [update_of_ne hg, ht.others g hg]
      exact (h.fits g).mono hflag hend
  ended := hdone ▸ hended
  runs := hruns

/-- A step of one fiber outside of it. -/
theorem Initializer.stage (h : Initializer cfg s) (hdone : t.initDone = s.initDone)
    (hstage : t.stage = update s.stage f st)
    (hend : s.initEnded = true → t.initEnded = true)
    (hfits : InitFits cfg s.initDone.flag t.initEnded (s.initDone.pc f) st)
    (hruns : t.initRuns = if t.initStarted then 1 else 0) : Initializer cfg t :=
  h.turn ⟨h.inv, rfl, fun _ _ => rfl⟩ hdone hstage (fun hf => hf) hend hfits
    (fun hf => hend (h.ended hf)) hruns

/-- The stages that are not about the initializer. -/
@[grind =]
def Stage.plain : Stage → Bool
  | .waitInit _ | .settingInit _ _ | .breaking _ | .setInit _ _ | .checkBroken _ | .calling _ => false
  | _ => true

theorem InitFits.of_plain {flag ended : Bool} (hst : st.plain = true)
    (hq : q.rests = true) : InitFits cfg flag ended q st := by
  cases st <;> first | exact hq | simp [Stage.plain] at hst

theorem InitFits.rests {flag ended : Bool} (h : InitFits cfg flag ended q st)
    (hw : ∀ k, st ≠ .waitInit k) (hset : ∀ k ok, st ≠ .settingInit k ok) : q.rests = true := by
  cases st with
  | waitInit k => exact absurd rfl (hw k)
  | settingInit k ok => exact absurd rfl (hset k ok)
  | breaking k => exact h.1
  | setInit k ok => exact h.1
  | checkBroken k => exact h.1
  | calling k => exact h.1
  | user | unborn | start | acquiring | notify | enter | guardInit | awaitInit | initializing
  | resolve | release | releasing | taskDone | settingIdle | ended => exact h

/-- The stages inside `_run_initializer`. -/
@[grind =]
def Stage.inInit : Stage → Bool
  | .enter _ | .checkBroken _ | .guardInit _ | .awaitInit _ | .waitInit _ | .breaking _ => true
  | .setInit _ _ | .settingInit _ _ => true
  | _ => false

/-- A task before or after `_run_initializer`. -/
theorem taskStep_init (hr : taskStep cfg x f st = some (x', st')) (hst : st.inInit = false) :
    x'.initDone = x.initDone ∧ x'.initEnded = x.initEnded ∧ x'.initRuns = x.initRuns ∧
      x'.initStarted = x.initStarted ∧ st.plain = true ∧ st'.plain = true := by
  cases st with
  | start k | release k =>
    obtain ⟨e, -, hr⟩ := Option.map_eq_some_iff.mp hr
    cases hr
    exact ⟨rfl, rfl, rfl, rfl, rfl, rfl⟩
  | acquiring k | releasing k | settingIdle k =>
    simp only [taskStep] at hr
    split at hr
    · cases hr
      exact ⟨rfl, rfl, rfl, rfl, rfl, rfl⟩
    · obtain ⟨e, -, hr⟩ := Option.map_eq_some_iff.mp hr
      cases hr
      exact ⟨rfl, rfl, rfl, rfl, rfl, rfl⟩
  | notify k | resolve k =>
    simp only [taskStep] at hr
    split at hr <;> cases hr <;> exact ⟨rfl, rfl, rfl, rfl, rfl, rfl⟩
  | taskDone k =>
    simp only [taskStep] at hr
    split at hr
    · obtain ⟨e, -, hr⟩ := Option.map_eq_some_iff.mp hr
      cases hr
      exact ⟨rfl, rfl, rfl, rfl, rfl, rfl⟩
    · cases hr
      exact ⟨rfl, rfl, rfl, rfl, rfl, rfl⟩
  | user | unborn | initializing | calling | ended => simp [taskStep] at hr
  | enter | checkBroken | guardInit | awaitInit | waitInit | breaking | setInit | settingInit =>
    simp [Stage.inInit] at hst

theorem Initializer.task (h : Initializer cfg s) (hst : s.stage f = st)
    (hr : taskStep cfg s.toShared f st = some (x', st')) :
    Initializer cfg (s.setStage f (x', st')) := by
  have hfits := h.fits f
  rw [hst] at hfits
  cases st with
  | enter k =>
    simp only [taskStep] at hr
    split at hr
    · rename_i hno
      cases hr
      exact h.stage rfl rfl (fun he => he) ⟨hfits, fun hi => by simp [hno] at hi⟩ h.runs
    · split at hr
      · rename_i hflag
        cases hr
        exact h.stage rfl rfl (fun he => he) ⟨hfits, hflag⟩ h.runs
      · cases hr
        exact h.stage rfl rfl (fun he => he) hfits h.runs
  | checkBroken k =>
    cases hr
    refine h.stage rfl rfl (fun he => he) ?_ h.runs
    split
    · exact hfits.1
    · exact ⟨hfits.1, fun _ => hfits.2⟩
  | guardInit k =>
    simp only [taskStep] at hr
    split at hr
    · cases hr
      exact h.stage rfl rfl (fun he => he) hfits h.runs
    · split at hr
      · rename_i hflag
        cases hr
        exact h.stage rfl rfl (fun he => he) ⟨hfits, fun _ => hflag⟩ h.runs
      · split at hr
        · cases hr
          exact h.stage rfl rfl (fun he => he) hfits h.runs
        · rename_i hstarted
          cases hr
          refine h.stage rfl rfl (fun he => he) hfits ?_
          have hruns := h.runs
          rw [if_neg hstarted] at hruns
          simp [State.setStage, hruns]
  | awaitInit k =>
    obtain ⟨e, he, hr⟩ := Option.map_eq_some_iff.mp hr
    cases hr
    obtain ⟨ht, hflag⟩ := h.inv.wait he
    exact h.turn ht rfl rfl (fun hf => hflag ▸ hf) (fun he => he) (.inl rfl)
      (fun hf => h.ended (hflag ▸ hf)) h.runs
  | waitInit k =>
    simp only [taskStep] at hr
    split at hr
    · rename_i b timed hpc
      cases hr
      rcases hfits with hfits | ⟨-, hflag⟩
      · simp [hpc, Event.Pc.waits] at hfits
      · exact h.stage rfl rfl (fun he => he) ⟨by simp [hpc, Event.Pc.rests], hflag⟩ h.runs
    · rename_i hpc
      obtain ⟨e, he, hr⟩ := Option.map_eq_some_iff.mp hr
      cases hr
      have hw : (s.initDone.pc f).waits = true := by
        rcases hfits with hfits | ⟨hfits, -⟩
        · exact hfits
        · exact absurd hfits (hpc _ _)
      obtain ⟨q, ht, hflag, hq⟩ := h.inv.waits hw he
      refine h.turn ht rfl rfl (fun hf => hflag ▸ hf) (fun he => he) ?_
        (fun hf => h.ended (hflag ▸ hf)) h.runs
      exact hq.imp_right fun hq => ⟨hq.1, hflag ▸ hq.2⟩
  | breaking k =>
    cases hr
    exact h.stage rfl rfl (fun he => he) hfits h.runs
  | setInit k ok =>
    obtain ⟨e, he, hr⟩ := Option.map_eq_some_iff.mp hr
    cases hr
    obtain ⟨q, ht, hq, hflag⟩ := h.inv.set he
    exact h.turn ht rfl rfl (fun _ => hflag) (fun he => he) ⟨hq, hflag⟩ (fun _ => hfits.2) h.runs
  | settingInit k ok =>
    simp only [taskStep] at hr
    split at hr
    · rename_i hpc
      cases hr
      have hrests : (s.initDone.pc f).rests = true := by simp [hpc, Event.Pc.rests]
      refine h.stage rfl rfl (fun he => he) ?_ h.runs
      split
      · exact ⟨hrests, fun _ => hfits.2⟩
      · exact hrests
    · rename_i hpc
      obtain ⟨e, he, hr⟩ := Option.map_eq_some_iff.mp hr
      cases hr
      have hsets : (s.initDone.pc f).sets = true := hfits.1.resolve_right hpc
      obtain ⟨q, ht, hq, hflag⟩ := h.inv.sets hsets he
      exact h.turn ht rfl rfl (fun hf => hflag ▸ hf) (fun he => he) ⟨hq, hflag ▸ hfits.2⟩
        (fun hf => h.ended (hflag ▸ hf)) h.runs
  | user | unborn | start | acquiring | notify | initializing | calling | resolve | release
  | releasing | taskDone | settingIdle | ended =>
    obtain ⟨hdone, hend, hruns, hstarted, hplain, hplain'⟩ := taskStep_init hr rfl
    have hrests := hfits.rests (by rintro _ ⟨⟩) (by rintro _ _ ⟨⟩)
    exact h.stage hdone rfl (fun he => hend ▸ he) (.of_plain hplain' hrests)
      (by simpa [State.setStage, hruns, hstarted] using h.runs)

theorem Initializer.step (h : Initializer cfg s) (hs : step cfg s a = some t) :
    Initializer cfg t := by
  rcases step_cases hs with ⟨f, x', o, rfl, -, hdone, hruns, hstarted, hend, -⟩ |
    ⟨f, x', st', -, hr, rfl⟩ | ⟨f, g, k, -, -, -, hg, rfl⟩ | ⟨f, k, ok, -, -, hst, rfl⟩ |
    ⟨f, k, ok, -, -, hst, rfl⟩ | ⟨f, woken, -, hs⟩
  · refine ⟨?_, fun g => ?_, ?_, ?_⟩
    · exact hdone ▸ h.inv
    · simpa [State.setOp, hdone, hend] using h.fits g
    · simpa [State.setOp, hdone, hend] using h.ended
    · simpa [State.setOp, hruns, hstarted] using h.runs
  · exact h.task rfl hr
  · have hfits := h.fits g
    rw [hg] at hfits
    exact h.stage rfl rfl (fun he => he) hfits h.runs
  · have hfits := h.fits f
    rw [hst] at hfits
    refine h.stage rfl rfl (fun _ => rfl) ?_ h.runs
    cases ok <;> exact ⟨hfits, rfl⟩
  · have hfits := h.fits f
    rw [hst] at hfits
    exact h.stage rfl rfl (fun he => he) hfits.1 h.runs
  · rcases unpark_cases hs with ⟨e, -, rfl, -⟩ | ⟨k, e, hst, rfl, he⟩ | ⟨k, m, -, rfl, -⟩
    · exact ⟨h.inv, h.fits, h.ended, h.runs⟩
    · have hfits := h.fits f
      rw [hst] at hfits
      have hw : (s.initDone.pc f).waits = true := by
        rcases hfits with hfits | ⟨hfits, -⟩
        · exact hfits
        · cases woken <;> simp [Event.step, hfits] at he
      obtain ⟨q, ht, hflag, hq⟩ := h.inv.unpark (by cases woken <;> simp) hw he
      have hsame : s.stage = update s.stage f (.waitInit k) := by
        rw [← hst, update_eq_self]
      exact h.turn ht rfl hsame (fun hf => hflag ▸ hf) (fun he => he) (.inl hq)
        (fun hf => h.ended (hflag ▸ hf)) h.runs
    · exact ⟨h.inv, h.fits, h.ended, h.runs⟩

theorem start_initializer (born : ℕ → Bool) : Initializer cfg (start cfg born) where
  inv := Event.inv_init cfg.n
  fits f := by
    simp only [start]
    split <;> rfl
  ended := by rintro ⟨⟩
  runs := rfl

/-! ## The futures -/

/-- No task has looked at the future: it may have been cancelled. -/
def Unstarted (fut : Future) (n : ℕ) : Prop := fut = .pending ∧ n = 0 ∨ fut = .cancelled ∧ n = 1

/-- The state of the future of a task, and how often it was resolved or cancelled. -/
@[grind =]
def FutFits (fut : Future) (n : ℕ) : Stage → Prop
  | .user | .unborn => True
  | .start _ | .acquiring _ | .notify _ => Unstarted fut n
  | .enter _ | .checkBroken _ | .guardInit _ | .awaitInit _ | .waitInit _ | .initializing _ =>
    fut = .running ∧ n = 0
  | .breaking _ | .setInit _ _ | .settingInit _ _ | .calling _ | .resolve _ =>
    fut = .running ∧ n = 0
  | .release _ | .releasing _ | .taskDone _ | .settingIdle _ | .ended _ =>
    (fut = .finished ∨ fut = .notified) ∧ n = 1

/-- What a task does to the futures, and that it stays the task of its own. -/
structure FutMove (x x' : Shared) (st st' : Stage) : Prop where
  next : x'.next = x.next
  job : st'.job = st.job
  pending : x'.pending ⊆ x.pending
  others : ∀ k, st.job ≠ some k → x'.fut k = x.fut k ∧ x'.resolved k = x.resolved k
  own : ∀ k, st.job = some k → FutFits (x.fut k) (x.resolved k) st →
    FutFits (x'.fut k) (x'.resolved k) st'

theorem taskStep_fut (hr : taskStep cfg x f st = some (x', st')) : FutMove x x' st st' := by
  cases st with
  | notify k =>
    simp only [taskStep] at hr
    split at hr
    · rename_i hk
      cases hr
      refine ⟨rfl, rfl, List.Subset.refl _, fun j hj => ?_, fun j hj h => ?_⟩
      · have hne : j ≠ k := fun h => hj (h ▸ rfl)
        simp [Shared.setFut, hne]
      · cases hj
        have hn : x.resolved k = 0 := by simpa [FutFits, Unstarted, hk] using h
        simp [FutFits, Shared.setFut, hn]
    · rename_i hk
      cases hr
      refine ⟨rfl, rfl, List.Subset.refl _, fun j hj => ?_, fun j hj h => ?_⟩
      · have hne : j ≠ k := fun h => hj (h ▸ rfl)
        simp [Shared.setFut, hne]
      · cases hj
        have hn : x.resolved k = 1 := by simpa [FutFits, Unstarted, hk] using h
        simp [FutFits, Shared.setFut, hn]
    · rename_i hp hc
      cases hr
      refine ⟨rfl, rfl, List.Subset.refl _, fun _ _ => ⟨rfl, rfl⟩, fun j hj h => ?_⟩
      cases hj
      rcases h with ⟨h, -⟩ | ⟨h, -⟩
      · exact absurd h hp
      · exact absurd h hc
  | resolve k =>
    have settled : FutMove x (x.settle k .finished) (.resolve k) (.release k) := by
      refine ⟨rfl, rfl, List.Subset.refl _, fun j hj => ?_, fun j hj h => ?_⟩
      · have hne : j ≠ k := fun h => hj (h ▸ rfl)
        simp [Shared.settle, Shared.setFut, hne]
      · cases hj
        simp [FutFits, Shared.settle, Shared.setFut, h.2]
    simp only [taskStep] at hr
    split at hr
    · cases hr
      exact settled
    · cases hr
      exact settled
    · rename_i hp hrun
      cases hr
      refine ⟨rfl, rfl, List.Subset.refl _, fun _ _ => ⟨rfl, rfl⟩, fun j hj h => ?_⟩
      cases hj
      exact absurd h.1 hrun
  | enter k =>
    simp only [taskStep] at hr
    split at hr
    · cases hr
      exact ⟨rfl, rfl, List.Subset.refl _, fun _ _ => ⟨rfl, rfl⟩, fun _ _ h => h⟩
    · split at hr <;> cases hr <;> exact ⟨rfl, rfl, List.Subset.refl _, fun _ _ => ⟨rfl, rfl⟩, fun _ _ h => h⟩
  | checkBroken k =>
    cases hr
    cases x.broken <;> exact ⟨rfl, rfl, List.Subset.refl _, fun _ _ => ⟨rfl, rfl⟩, fun _ _ h => h⟩
  | guardInit k =>
    simp only [taskStep] at hr
    split at hr
    · cases hr
      exact ⟨rfl, rfl, List.Subset.refl _, fun _ _ => ⟨rfl, rfl⟩, fun _ _ h => h⟩
    · split at hr
      · cases hr
        exact ⟨rfl, rfl, List.Subset.refl _, fun _ _ => ⟨rfl, rfl⟩, fun _ _ h => h⟩
      · split at hr <;> cases hr <;> exact ⟨rfl, rfl, List.Subset.refl _, fun _ _ => ⟨rfl, rfl⟩, fun _ _ h => h⟩
  | start k | release k | awaitInit k | setInit k ok =>
    obtain ⟨e, -, hr⟩ := Option.map_eq_some_iff.mp hr
    cases hr
    exact ⟨rfl, rfl, List.Subset.refl _, fun _ _ => ⟨rfl, rfl⟩, fun _ _ h => h⟩
  | acquiring k | releasing k | waitInit k | settingIdle k =>
    simp only [taskStep] at hr
    split at hr
    · cases hr
      exact ⟨rfl, rfl, List.Subset.refl _, fun _ _ => ⟨rfl, rfl⟩, fun _ _ h => h⟩
    · obtain ⟨e, -, hr⟩ := Option.map_eq_some_iff.mp hr
      cases hr
      exact ⟨rfl, rfl, List.Subset.refl _, fun _ _ => ⟨rfl, rfl⟩, fun _ _ h => h⟩
  | settingInit k ok =>
    simp only [taskStep] at hr
    split at hr
    · cases hr
      cases ok <;> exact ⟨rfl, rfl, List.Subset.refl _, fun _ _ => ⟨rfl, rfl⟩, fun _ _ h => h⟩
    · obtain ⟨e, -, hr⟩ := Option.map_eq_some_iff.mp hr
      cases hr
      exact ⟨rfl, rfl, List.Subset.refl _, fun _ _ => ⟨rfl, rfl⟩, fun _ _ h => h⟩
  | breaking k =>
    cases hr
    exact ⟨rfl, rfl, List.Subset.refl _, fun _ _ => ⟨rfl, rfl⟩, fun _ _ h => h⟩
  | taskDone k =>
    simp only [taskStep] at hr
    split at hr
    · obtain ⟨e, -, hr⟩ := Option.map_eq_some_iff.mp hr
      cases hr
      exact ⟨rfl, rfl, List.erase_subset, fun _ _ => ⟨rfl, rfl⟩, fun _ _ h => h⟩
    · cases hr
      exact ⟨rfl, rfl, List.erase_subset, fun _ _ => ⟨rfl, rfl⟩, fun _ _ h => h⟩
  | user | unborn | initializing | calling | ended => simp [taskStep] at hr

/-- Every spawned task has a future of its own, and so has every `submit` at its spawn. -/
structure Futures (s : State) : Prop where
  below : ∀ f k, (s.stage f).job = some k → k < s.next
  unique : ∀ f g k, (s.stage f).job = some k → (s.stage g).job = some k → f = g
  fits : ∀ f k, (s.stage f).job = some k → FutFits (s.fut k) (s.resolved k) (s.stage f)
  spawning : ∀ f k, s.op f = .spawning k →
    k < s.next ∧ Unstarted (s.fut k) (s.resolved k) ∧ ∀ g, (s.stage g).job ≠ some k
  oneSpawn : ∀ f g k, s.op f = .spawning k → s.op g = .spawning k → f = g
  fresh : ∀ k, s.next ≤ k → s.resolved k = 0
  pending : ∀ k ∈ s.pending, k < s.next
  cancelling : ∀ f ks wait, s.op f = .cancelling ks wait → ∀ k ∈ ks, k < s.next

/-- A step of one task. -/
theorem Futures.move (h : Futures s) (hm : FutMove s.toShared x' (s.stage f) st') :
    Futures (s.setStage f (x', st')) := by
  have hjob (g : ℕ) : ((s.setStage f (x', st')).stage g).job = (s.stage g).job := by
    by_cases hg : g = f
    · subst hg
      simp only [State.setStage, update_self]
      exact hm.job
    · simp only [State.setStage, update_of_ne hg]
  refine ⟨fun g k hg => ?_, fun g j k hg hj => ?_, fun g k hg => ?_, fun g k hg => ?_,
    h.oneSpawn, fun k hk => ?_, fun k hk => ?_, fun g ks wait hg k hk => ?_⟩
  · rw [hjob] at hg
    exact hm.next ▸ h.below g k hg
  · rw [hjob] at hg hj
    exact h.unique g j k hg hj
  · rw [hjob] at hg
    by_cases hgf : g = f
    · subst hgf
      simp only [State.setStage, update_self]
      exact hm.own k hg (h.fits g k hg)
    · obtain ⟨hfut, hres⟩ := hm.others k fun hf => hgf (h.unique g f k hg hf)
      simp only [State.setStage, update_of_ne hgf]
      rw [hfut, hres]
      exact h.fits g k hg
  · obtain ⟨hlt, hun, hno⟩ := h.spawning g k hg
    obtain ⟨hfut, hres⟩ := hm.others k (hno f)
    refine ⟨hm.next ▸ hlt, ?_, fun j => hjob j ▸ hno j⟩
    change Unstarted (x'.fut k) (x'.resolved k)
    rw [hfut, hres]
    exact hun
  · change x'.resolved k = 0
    have hk' : s.next ≤ k := hm.next ▸ hk
    rw [(hm.others k fun hf => absurd (h.below f k hf) (Nat.not_lt.mpr hk')).2]
    exact h.fresh k hk'

  · exact hm.next ▸ h.pending k (hm.pending hk)
  · exact hm.next ▸ h.cancelling g ks wait hg k hk

/-- A step of one call that starts no future. It may cancel some. -/
theorem Futures.call (h : Futures s) (hnext : x'.next = s.next)
    (hpending : x'.pending = s.pending) (hspawn : ∀ k, o ≠ .spawning k)
    (hcancelling : ∀ ks wait, o = .cancelling ks wait → ∀ k ∈ ks, k < s.next)
    (hfut : ∀ k, x'.fut k = s.fut k ∧ x'.resolved k = s.resolved k ∨
      k < s.next ∧ s.fut k = .pending ∧ x'.fut k = .cancelled ∧
        x'.resolved k = s.resolved k + 1) : Futures (s.setOp f (x', o)) := by
  have hop (g : ℕ) (p : Op) (hg : (s.setOp f (x', o)).op g = p) : g = f ∧ o = p ∨ s.op g = p := by
    by_cases hgf : g = f
    · subst hgf
      exact .inl ⟨rfl, by simpa [State.setOp] using hg⟩
    · exact .inr (by simpa [State.setOp, hgf] using hg)
  have old (g k : ℕ) (hg : (s.setOp f (x', o)).op g = .spawning k) : s.op g = .spawning k := by
    rcases hop g _ hg with ⟨-, ho⟩ | hg
    · exact absurd ho (hspawn k)
    · exact hg
  have unstarted (k : ℕ) (hk : Unstarted (s.fut k) (s.resolved k)) :
      Unstarted (x'.fut k) (x'.resolved k) := by
    rcases hfut k with ⟨hf, hr⟩ | ⟨-, hp, hf, hr⟩
    · rw [hf, hr]
      exact hk
    · have hzero : s.resolved k = 0 := by simpa [Unstarted, hp] using hk
      exact .inr ⟨hf, by rw [hr, hzero]⟩
  refine ⟨fun g k hg => hnext ▸ h.below g k hg, h.unique, fun g k hg => ?_, fun g k hg => ?_,
    fun g j k hg hj => h.oneSpawn g j k (old g k hg) (old j k hj), fun k hk => ?_,
    fun k hk => ?_, fun g ks wait hg k hk => ?_⟩
  · have hold := h.fits g k hg
    change FutFits (x'.fut k) (x'.resolved k) (s.stage g)
    rcases hfut k with ⟨hf, hr⟩ | ⟨-, hp, hf, hr⟩
    · rw [hf, hr]
      exact hold
    · -- a future that can be cancelled has a task that has not started it
      cases hst : s.stage g with
      | start j | acquiring j | notify j =>
        rw [hst] at hold
        exact unstarted k hold
      | user | unborn => trivial
      | enter | checkBroken | guardInit | awaitInit | waitInit | initializing | breaking | setInit
      | settingInit | calling | resolve | release | releasing | taskDone | settingIdle | ended =>
        rw [hst] at hold
        simp [FutFits, hp] at hold
  · obtain ⟨hlt, hun, hno⟩ := h.spawning g k (old g k hg)
    exact ⟨hnext ▸ hlt, unstarted k hun, hno⟩
  · have hk' : s.next ≤ k := hnext ▸ hk
    change x'.resolved k = 0
    rcases hfut k with ⟨-, hr⟩ | ⟨hlt, -⟩
    · rw [hr]
      exact h.fresh k hk'
    · omega
  · change k < x'.next
    rw [hnext]
    exact h.pending k (hpending ▸ hk)
  · change k < x'.next
    rw [hnext]
    rcases hop g _ hg with ⟨-, ho⟩ | hg
    · exact hcancelling ks wait ho k hk
    · exact h.cancelling g ks wait hg k hk

/-- A call that leaves the futures alone. -/
theorem Futures.frame (h : Futures s) (hfut : x'.fut = s.fut)
    (hres : x'.resolved = s.resolved) (hnext : x'.next = s.next)
    (hpending : x'.pending = s.pending) (hspawn : ∀ k, o ≠ .spawning k)
    (hcancelling : ∀ ks wait, o = .cancelling ks wait → ∀ k ∈ ks, k < s.next) :
    Futures (s.setOp f (x', o)) :=
  h.call hnext hpending hspawn hcancelling fun k => .inl ⟨by rw [hfut], by rw [hres]⟩

/-- `Future.cancel` of a future that exists. -/
theorem Futures.cancel (h : Futures s) {k : ℕ} (hk : k < s.next)
    (hspawn : ∀ k, o ≠ .spawning k)
    (hcancelling : ∀ ks wait, o = .cancelling ks wait → ∀ k ∈ ks, k < s.next) :
    Futures (s.setOp f (s.cancel k, o)) := by
  unfold Shared.cancel
  split
  · rename_i hp
    refine h.call rfl rfl hspawn hcancelling fun j => ?_
    by_cases hj : j = k
    · subst hj
      exact .inr ⟨hk, hp, by simp [Shared.settle, Shared.setFut], by simp [Shared.settle]⟩
    · exact .inl ⟨by simp [Shared.settle, Shared.setFut, hj], by simp [Shared.settle, Shared.setFut, hj]⟩
  · exact h.frame rfl rfl rfl rfl hspawn hcancelling

/-- A new future. -/
theorem Futures.submit (h : Futures s) {e : Event.State} :
    Futures (s.setOp f ({ s.toShared with
      idle := e, pending := s.pending ++ [s.next], next := s.next + 1
      fut := update s.fut s.next .pending }, .spawning s.next)) := by
  have hne {k : ℕ} (hk : k < s.next) : k ≠ s.next := Nat.ne_of_lt hk
  have hop (g : ℕ) (p : Op) (hg : update s.op f (.spawning s.next) g = p) :
      g = f ∧ p = .spawning s.next ∨ s.op g = p := by
    by_cases hgf : g = f
    · subst hgf
      exact .inl ⟨rfl, by simpa using hg.symm⟩
    · exact .inr (by simpa [hgf] using hg)
  refine ⟨fun g k hg => Nat.lt_succ_of_lt (h.below g k hg), h.unique, fun g k hg => ?_,
    fun g k hg => ?_, fun g j k hg hj => ?_, fun k hk => h.fresh k (Nat.le_of_succ_le hk),
    fun k hk => ?_, fun g ks wait hg k hk => ?_⟩
  · simp only [State.setOp, update_of_ne (hne (h.below g k hg))]
    exact h.fits g k hg
  · rcases hop g _ hg with ⟨-, hk⟩ | hg
    · cases hk
      refine ⟨Nat.lt_succ_self _, .inl ⟨by simp [State.setOp], h.fresh _ (Nat.le_refl _)⟩, ?_⟩
      intro j hj
      exact absurd (h.below j _ hj) (Nat.lt_irrefl _)
    · obtain ⟨hlt, hun, hno⟩ := h.spawning g k hg
      refine ⟨Nat.lt_succ_of_lt hlt, ?_, hno⟩
      simp only [State.setOp, update_of_ne (hne hlt)]
      exact hun
  · rcases hop g _ hg with ⟨rfl, hk⟩ | hold
    · cases hk
      rcases hop j _ hj with ⟨rfl, -⟩ | hold
      · rfl
      · exact absurd (h.spawning j _ hold).1 (Nat.lt_irrefl _)
    · rcases hop j _ hj with ⟨rfl, hk⟩ | hold'
      · cases hk
        exact absurd (h.spawning g _ hold).1 (Nat.lt_irrefl _)
      · exact h.oneSpawn g j k hold hold'
  · rcases List.mem_append.mp hk with hk | hk
    · exact Nat.lt_succ_of_lt (h.pending k hk)
    · rw [List.mem_singleton.mp hk]
      exact Nat.lt_succ_self _
  · rcases hop g _ hg with ⟨-, ho⟩ | hg
    · cases ho
    · exact Nat.lt_succ_of_lt (h.cancelling g ks wait hg k hk)

/-- The task of the future gets its fiber. -/
theorem Futures.spawn (h : Futures s) {g k : ℕ} (hop : s.op f = .spawning k)
    (hg : s.stage g = .unborn) :
    Futures { s with op := update s.op f .idle
                     stage := update s.stage g (.start k) } := by
  obtain ⟨hlt, hun, hno⟩ := h.spawning f k hop
  have hstage (j i : ℕ) (hj : (update s.stage g (.start k) j).job = some i) :
      j = g ∧ i = k ∨ j ≠ g ∧ (s.stage j).job = some i := by
    by_cases hjg : j = g
    · subst hjg
      rw [update_self] at hj
      cases hj
      exact .inl ⟨rfl, rfl⟩
    · rw [update_of_ne hjg] at hj
      exact .inr ⟨hjg, hj⟩
  have hold (j : ℕ) (p : Op) (hp : p ≠ .idle) (hj : update s.op f .idle j = p) :
      j ≠ f ∧ s.op j = p := by
    by_cases hjf : j = f
    · subst hjf
      rw [update_self] at hj
      exact absurd hj.symm hp
    · rw [update_of_ne hjf] at hj
      exact ⟨hjf, hj⟩
  refine ⟨fun j i hj => ?_, fun j j' i hj hj' => ?_, fun j i hj => ?_, fun j i hj => ?_,
    fun j j' i hj hj' => ?_, h.fresh, h.pending, fun j ks wait hj => ?_⟩
  · rcases hstage j i hj with ⟨-, rfl⟩ | ⟨-, hj⟩
    · exact hlt
    · exact h.below j i hj
  · rcases hstage j i hj with ⟨rfl, rfl⟩ | ⟨-, hjob⟩
    · rcases hstage j' _ hj' with ⟨rfl, -⟩ | ⟨-, hjob'⟩
      · rfl
      · exact absurd hjob' (hno j')
    · rcases hstage j' i hj' with ⟨-, rfl⟩ | ⟨-, hjob'⟩
      · exact absurd hjob (hno j)
      · exact h.unique j j' i hjob hjob'
  · rcases hstage j i hj with ⟨rfl, rfl⟩ | ⟨hjg, hj⟩
    · simp only [update_self]
      exact hun
    · simp only [update_of_ne hjg]
      exact h.fits j i hj
  · obtain ⟨hjf, hspawn⟩ := hold j (.spawning i) (by rintro ⟨⟩) hj
    obtain ⟨hi, hui, hnoi⟩ := h.spawning j i hspawn
    refine ⟨hi, hui, fun j' hj' => ?_⟩
    rcases hstage j' i hj' with ⟨-, rfl⟩ | ⟨-, hjob⟩
    · exact hjf (h.oneSpawn j f _ hspawn hop)
    · exact hnoi j' hjob
  · exact h.oneSpawn j j' i (hold j (.spawning i) (by rintro ⟨⟩) hj).2 (hold j' (.spawning i) (by rintro ⟨⟩) hj').2
  · exact h.cancelling j ks wait (hold j (.cancelling ks wait) (by rintro ⟨⟩) hj).2

theorem Futures.step (h : Futures s) (hs : step cfg s a = some t) : Futures t := by
  cases a with
  | submit f =>
    obtain ⟨-, hs⟩ := Option.ite_none_right_eq_some.mp hs
    cases hs
    exact h.frame rfl rfl rfl rfl (by rintro _ ⟨⟩) (by rintro _ _ ⟨⟩)
  | cancel f k =>
    obtain ⟨⟨-, hk⟩, hs⟩ := Option.ite_none_right_eq_some.mp hs
    cases hs
    exact h.cancel hk (by rintro _ ⟨⟩) (by rintro _ _ ⟨⟩)
  | shutdown f wait cancelFutures =>
    obtain ⟨-, hs⟩ := Option.ite_none_right_eq_some.mp hs
    cases hs
    refine h.frame rfl rfl rfl rfl (by rintro _ ⟨⟩) fun ks w ho k hk => ?_
    cases ho
    split at hk
    · exact h.pending k hk
    · cases hk
  | op f =>
    obtain ⟨⟨x', o⟩, hr, rfl⟩ := Option.map_eq_some_iff.mp hs
    rcases opStep_cases hr with ⟨rfl, ho, -⟩ | ⟨e, -, rfl, -, -, rfl⟩ | ⟨e, -, rfl, -, rfl⟩ |
      ⟨b, timed, -, rfl, -, rfl⟩ | ⟨e, -, rfl, -, -, rfl⟩
    · rcases ho with rfl | rfl | rfl <;> exact h.frame rfl rfl rfl rfl (by rintro _ ⟨⟩) (by rintro _ _ ⟨⟩)
    · exact h.submit
    · exact h.frame rfl rfl rfl rfl (by rintro _ ⟨⟩) (by rintro _ _ ⟨⟩)
    · exact h.frame rfl rfl rfl rfl (by rintro _ ⟨⟩) (by rintro _ _ ⟨⟩)
    · exact h.frame rfl rfl rfl rfl (by rintro _ ⟨⟩) (by rintro _ _ ⟨⟩)
  | cancelNext f k =>
    simp only [Executor.step] at hs
    split at hs
    · rename_i ks wait hop
      obtain ⟨hk, hs⟩ := Option.ite_none_right_eq_some.mp hs
      cases hs
      refine h.cancel (h.cancelling f ks wait hop k hk) (by rintro _ ⟨⟩) fun ks' w ho j hj => ?_
      cases ho
      exact h.cancelling f ks wait hop j (List.mem_of_mem_erase hj)
    · cases hs
  | spawn f g =>
    simp only [Executor.step] at hs
    split at hs
    · rename_i k hop
      obtain ⟨⟨-, hg⟩, hs⟩ := Option.ite_none_right_eq_some.mp hs
      cases hs
      exact h.spawn hop hg
    · cases hs
  | spawnFails f =>
    simp only [Executor.step] at hs
    split at hs
    · cases hs
      exact h.frame rfl rfl rfl rfl (by rintro _ ⟨⟩) (by rintro _ _ ⟨⟩)
    · cases hs
  | task f =>
    obtain ⟨⟨x', st'⟩, hr, rfl⟩ := Option.map_eq_some_iff.mp hs
    exact h.move (taskStep_fut hr)
  | ends f ok =>
    obtain ⟨-, hs⟩ := Option.ite_none_right_eq_some.mp hs
    split at hs
    · rename_i k hst
      cases hs
      refine h.move ?_
      rw [hst]
      cases ok <;> exact ⟨rfl, rfl, List.Subset.refl _, fun _ _ => ⟨rfl, rfl⟩, fun _ _ h => h⟩
    · rename_i k hst
      cases hs
      refine h.move ?_
      rw [hst]
      exact ⟨rfl, rfl, List.Subset.refl _, fun _ _ => ⟨rfl, rfl⟩, fun _ _ h => h⟩
    · cases hs
  | resume f | spurious f =>
    rcases unpark_cases hs with ⟨e, -, rfl, -⟩ | ⟨k, e, -, rfl, -⟩ | ⟨k, m, -, rfl, -⟩ <;>
      exact ⟨h.below, h.unique, h.fits, h.spawning, h.oneSpawn, h.fresh, h.pending, h.cancelling⟩

theorem start_futures (born : ℕ → Bool) : Futures (start cfg born) := by
  have hno (f k : ℕ) : ((start cfg born).stage f).job ≠ some k := by
    simp only [start]
    split <;> simp [Stage.job]
  exact ⟨fun f k hf => absurd hf (hno f k), fun f _ k hf => absurd hf (hno f k),
    fun f k hf => absurd hf (hno f k), by rintro _ _ ⟨⟩, by rintro _ _ _ ⟨⟩, fun _ _ => rfl, by rintro _ ⟨⟩, by rintro _ _ _ ⟨⟩⟩

end Stackweave.Monkey.Executor
