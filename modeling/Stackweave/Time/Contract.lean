import Mathlib.Data.List.Basic
import Stackweave.Time.Backing

/-!
# The contract of `Timer.Stop`

The contract is about the log of armings, stops and sends, in the order of the locked
sections and of the sends. A fire fiber decides to send under the lock and sends after it
has dropped it; `Reset` clears the flag by which that decision is known. The contract holds
in every run in which no `Reset` comes between the two.
-/

namespace Stackweave.Time

open Transition

/-- Nothing has stopped or superseded the arming by the end of the log. -/
def InForce (log : List Event) (gen : ℕ) : Prop :=
  ∃ before after, log = before ++ Event.armed gen :: after ∧ ∀ e ∈ after, ∃ g, e = Event.sent g

/-- After a `Stop` that returned true nothing is sent before the next arming; an arming leads
to at most one send, and only while it is in force. -/
structure Contract (log : List Event) : Prop where
  silent : ∀ before between after g,
    log = (before ++ Event.stopped :: between) ++ Event.sent g :: after → ∃ g', Event.armed g' ∈ between
  once : ∀ g, log.count (.sent g) ≤ 1
  live : ∀ before after g, log = before ++ Event.sent g :: after → InForce before g

/-! ## Logs -/

section Logs

variable {log before between after : List Event} {e x y : Event} {gen g : ℕ}

theorem snoc_eq (h : log ++ [x] = before ++ y :: after) :
    (log = before ∧ x = y) ∨ ∃ after', log = before ++ y :: after' := by
  rcases List.eq_nil_or_concat after with rfl | ⟨after', z, rfl⟩
  · obtain ⟨hlog, hx⟩ := List.append_inj' h rfl
    exact .inl ⟨hlog, by simpa using hx⟩
  · rw [List.concat_eq_append, ← List.cons_append, ← List.append_assoc] at h
    exact .inr ⟨after', (List.append_inj' h rfl).1⟩

/-- The arming in force came after every stop. -/
theorem InForce.after_stop (h : InForce (before ++ Event.stopped :: between) gen) :
    .armed gen ∈ between := by
  obtain ⟨b, a, heq, hsent⟩ := h
  rcases List.append_eq_append_iff.mp heq with ⟨c, -, hc⟩ | ⟨c, -, hc⟩
  · cases c with
    | nil => cases hc
    | cons z c =>
      cases hc
      exact List.mem_append_right _ List.mem_cons_self
  · cases c with
    | nil => cases hc
    | cons z c =>
      cases hc
      obtain ⟨g, hg⟩ := hsent .stopped (List.mem_append_right _ List.mem_cons_self)
      cases hg

theorem InForce.sent (h : InForce log gen) : InForce (log ++ [Event.sent g]) gen := by
  obtain ⟨b, a, rfl, hsent⟩ := h
  refine ⟨b, a ++ [Event.sent g], by simp, fun e he => ?_⟩
  rcases List.mem_append.mp he with he | he
  · exact hsent e he
  · exact ⟨g, List.mem_singleton.mp he⟩

theorem inForce_armed (log : List Event) (gen : ℕ) : InForce (log ++ [Event.armed gen]) gen :=
  ⟨log, [], rfl, by rintro _ ⟨⟩⟩

theorem Contract.of_live (once : ∀ g, log.count (.sent g) ≤ 1)
    (live : ∀ before after g, log = before ++ Event.sent g :: after → InForce before g) :
    Contract log :=
  ⟨fun _ _ _ g h => ⟨g, (live _ _ g h).after_stop⟩, once, live⟩

theorem Contract.snoc (h : Contract log) (he : ∀ g, e ≠ Event.sent g) : Contract (log ++ [e]) := by
  refine .of_live (fun g => ?_) fun before after g heq => ?_
  · rw [List.count_append, List.count_singleton, if_neg (by simpa using he g)]
    exact h.once g
  · rcases snoc_eq heq with ⟨-, hx⟩ | ⟨after', hlog⟩
    · exact absurd hx (he g)
    · exact h.live before after' g hlog

theorem Contract.sent (h : Contract log) (hin : InForce log gen) (hnew : .sent gen ∉ log) :
    Contract (log ++ [Event.sent gen]) := by
  refine .of_live (fun g => ?_) fun before after g heq => ?_
  · rw [List.count_append]
    by_cases hg : gen = g
    · rw [← hg, List.count_eq_zero.mpr hnew]
      simp
    · have hne : Event.sent gen ≠ .sent g := fun hx => hg (by cases hx; rfl)
      rw [List.count_singleton, if_neg (by simpa using hne)]
      exact h.once g
  · rcases snoc_eq heq with ⟨rfl, hx⟩ | ⟨after', hlog⟩
    · cases hx
      exact hin
    · exact h.live before after' g hlog

end Logs

/-! ## The runs of a timer -/

/-- A `Reset` while a fire fiber has decided to send and has not sent. -/
def resetsOverSend (s : State) : Action → Bool
  | .reset _ _ => decide (∃ f < s.count, s.phase f = .sending)
  | _ => false

def timerSystem : System State Action :=
  (system .timer).restrict fun s a => resetsOverSend s a = false

structure TimerInv (s : State) : Prop where
  contract : Contract s.log
  current : s.stopped = false → InForce s.log s.gen
  sending : ∀ f, s.phase f = .sending →
    s.arming f = s.gen ∧ s.fired = true ∧ s.stopped = false ∧ .sent s.gen ∉ s.log
  alone : ∀ f g, s.phase f = .sending → s.phase g = .sending → f = g
  past : ∀ g, .sent g ∈ s.log → g ≤ s.gen
  fired : .sent s.gen ∈ s.log → s.fired = true
  spawned : ∀ f, s.phase f ≠ .done → f < s.count
  plain : ∀ f, s.phase f ≠ .checking ∧ s.phase f ≠ .expired ∧ s.phase f ≠ .finishing

theorem goto_phase (s : State) (f g : ℕ) (p : Phase) :
    (s.goto f p).phase g = if g = f then p else s.phase g := by
  simp [State.goto, Function.update_apply]

section Steps

variable {s t : State} {f c : ℕ} {p : Phase}

theorem TimerInv.not_sending (hi : TimerInv s) (h : s.fired = false ∨ s.stopped = true) :
    s.phase f ≠ .sending := by
  intro hf
  obtain ⟨-, hfired, hstop, -⟩ := hi.sending f hf
  rcases h with h | h
  · exact absurd (h.symm.trans hfired) (by rintro ⟨⟩)
  · exact absurd (hstop.symm.trans h) (by rintro ⟨⟩)

/-- A step of a fiber that is about nothing the contract reads. -/
theorem TimerInv.goto (hi : TimerInv s) (hf : f < s.count)
    (hp : p ∈ [.start, .entering, .linked, .parked, .woken, .done]) : TimerInv (s.goto f p) := by
  have hnot : p ≠ .sending := by rintro rfl; simp at hp
  have hsend : ∀ g, (s.goto f p).phase g = .sending → s.phase g = .sending := by
    intro g hg
    rw [goto_phase] at hg
    split at hg
    · exact absurd hg hnot
    · exact hg
  constructor
  case contract => exact hi.contract
  case current => exact hi.current
  case sending => exact fun g hg => hi.sending g (hsend g hg)
  case alone => exact fun g g' hg hg' => hi.alone g g' (hsend g hg) (hsend g' hg')
  case past => exact hi.past
  case fired => exact hi.fired
  case spawned =>
    intro g hg
    rw [goto_phase] at hg
    split at hg
    · next h => exact h ▸ hf
    · exact hi.spawned g hg
  case plain =>
    intro g
    rw [goto_phase]
    split
    · refine ⟨?_, ?_, ?_⟩ <;> (rintro rfl; simp at hp)
    · exact hi.plain g

theorem TimerInv.call (hi : TimerInv s) (x : Call) : TimerInv (s.call c x) :=
  ⟨hi.contract, hi.current, hi.sending, hi.alone, hi.past, hi.fired, hi.spawned, hi.plain⟩

theorem TimerInv.target (hi : TimerInv s) (x : Option ℕ) : TimerInv { s with target := x } :=
  ⟨hi.contract, hi.current, hi.sending, hi.alone, hi.past, hi.fired, hi.spawned, hi.plain⟩

theorem TimerInv.cancelWaitFd (hi : TimerInv s) : TimerInv (s.cancelWaitFd f) := by
  unfold State.cancelWaitFd
  split
  · next h => exact hi.goto (hi.spawned f (by rw [h]; rintro ⟨⟩)) (by simp)
  · next h => exact hi.goto (hi.spawned f (by rw [h]; rintro ⟨⟩)) (by simp)
  · exact hi

theorem TimerInv.cancelTaken {x : Option ℕ} (hi : TimerInv s) : TimerInv (s.cancelTaken x) := by
  cases x with
  | none => exact hi
  | some f => exact hi.cancelWaitFd

theorem TimerInv.stop (hi : TimerInv s) : TimerInv (s.stop .timer c) := by
  unfold State.stop
  split
  case isTrue => exact hi
  case isFalse h =>
    have hfired : s.fired = false := by
      by_contra hx
      exact h (.inr ⟨rfl, by simpa using hx⟩)
    have hnot : ∀ f, s.phase f ≠ .sending := fun f => hi.not_sending (.inl hfired)
    have hmem : ∀ g, Event.sent g ∈ s.log ++ [Event.stopped] → Event.sent g ∈ s.log := by
      intro g hg
      rcases List.mem_append.mp hg with hg | hg
      · exact hg
      · cases List.mem_singleton.mp hg
    constructor
    case contract => exact hi.contract.snoc (by rintro _ ⟨⟩)
    case current => rintro ⟨⟩
    case sending => exact fun f hf => absurd hf (hnot f)
    case alone => exact fun f g hf => absurd hf (hnot f)
    case past => exact fun g hg => Nat.le_succ_of_le (hi.past g (hmem g hg))
    case fired =>
      intro hg
      exact absurd (hi.past _ (hmem _ hg)) (Nat.not_succ_le_self _)
    case spawned => exact hi.spawned
    case plain => exact hi.plain

theorem TimerInv.reset {positive : Bool} (hi : TimerInv s) (hnot : ∀ f, s.phase f ≠ .sending) :
    TimerInv (s.reset c positive) := by
  have hmem : ∀ g, Event.sent g ∈ s.log ++ [Event.armed (s.gen + 1)] → Event.sent g ∈ s.log := by
    intro g hg
    rcases List.mem_append.mp hg with hg | hg
    · exact hg
    · cases List.mem_singleton.mp hg
  constructor
  case contract => exact hi.contract.snoc (by rintro _ ⟨⟩)
  case current => exact fun _ => inForce_armed _ _
  case sending => exact fun f hf => absurd hf (hnot f)
  case alone => exact fun f g hf => absurd hf (hnot f)
  case past => exact fun g hg => Nat.le_succ_of_le (hi.past g (hmem g hg))
  case fired =>
    intro hg
    exact absurd (hi.past _ (hmem _ hg)) (Nat.not_succ_le_self _)
  case spawned => exact hi.spawned
  case plain => exact hi.plain

theorem TimerInv.spawn (hi : TimerInv s) (gen : ℕ) : TimerInv (s.spawn gen) := by
  have hphase : ∀ g, (s.spawn gen).phase g = if g = s.count then .start else s.phase g := by
    intro g
    simp [State.spawn, Function.update_apply]
  have hsend : ∀ g, (s.spawn gen).phase g = .sending → g ≠ s.count ∧ s.phase g = .sending := by
    intro g hg
    rw [hphase] at hg
    split at hg
    · cases hg
    · next h => exact ⟨h, hg⟩
  constructor
  case contract => exact hi.contract
  case current => exact hi.current
  case sending =>
    intro g hg
    obtain ⟨hne, hg⟩ := hsend g hg
    have harm : (s.spawn gen).arming g = s.arming g := Function.update_of_ne hne _ _
    rw [harm]
    exact hi.sending g hg
  case alone => exact fun g g' hg hg' => hi.alone g g' (hsend g hg).2 (hsend g' hg').2
  case past => exact hi.past
  case fired => exact hi.fired
  case spawned =>
    intro g hg
    rw [hphase] at hg
    split at hg
    · next h => exact h ▸ Nat.lt_succ_self _
    · exact Nat.lt_succ_of_lt (hi.spawned g hg)
  case plain =>
    intro g
    rw [hphase]
    split
    · exact ⟨by rintro ⟨⟩, by rintro ⟨⟩, by rintro ⟨⟩⟩
    · exact hi.plain g

theorem TimerInv.publish (hi : TimerInv s) (hf : s.phase f = .start) :
    TimerInv (s.publish .timer f) := by
  have hlt := hi.spawned f (by rw [hf]; rintro ⟨⟩)
  unfold State.publish
  rw [if_neg (by rintro ⟨⟩)]
  split
  · exact hi.goto hlt (by simp)
  · refine (hi.target (some f)).goto hlt ?_
    split <;> simp

theorem TimerInv.resume (hi : TimerInv s) (hf : s.phase f = .woken) :
    TimerInv (s.resume .timer f) := by
  have hlt := hi.spawned f (by rw [hf]; rintro ⟨⟩)
  unfold State.resume
  dsimp only
  split
  case isTrue => exact hi.goto hlt (by simp)
  case isFalse h =>
    have hfired : s.fired = false := by
      by_contra hx
      exact h (.inr (by simpa using hx))
    have hstop : s.stopped = false := by
      by_contra hx
      exact h (.inl (.inl (by simpa using hx)))
    have hgen : s.gen = s.arming f := by
      by_contra hx
      exact h (.inl (.inr hx))
    -- a fiber that is about to send would have set `_fired`
    have hsend : ∀ g, (s.goto f .sending).phase g = .sending → g = f := by
      intro g hg
      rw [goto_phase] at hg
      split at hg
      · next h => exact h
      · exact absurd hg (hi.not_sending (.inl hfired))
    constructor
    case contract => exact hi.contract
    case current => exact hi.current
    case sending =>
      intro g hg
      cases hsend g hg
      refine ⟨hgen.symm, rfl, hstop, fun hs => ?_⟩
      exact absurd (hfired.symm.trans (hi.fired hs)) (by rintro ⟨⟩)
    case alone => exact fun g g' hg hg' => (hsend g hg).trans (hsend g' hg').symm
    case past => exact hi.past
    case fired => exact fun _ => rfl
    case spawned =>
      intro g hg
      rw [goto_phase] at hg
      split at hg
      · next h => exact h ▸ hlt
      · exact hi.spawned g hg
    case plain =>
      intro g
      rw [goto_phase]
      split
      · exact ⟨by rintro ⟨⟩, by rintro ⟨⟩, by rintro ⟨⟩⟩
      · exact hi.plain g

theorem TimerInv.send (hi : TimerInv s) (hf : s.phase f = .sending) : TimerInv (s.send .timer f) := by
  obtain ⟨hgen, hfired, hstop, hnew⟩ := hi.sending f hf
  have hlt := hi.spawned f (by rw [hf]; rintro ⟨⟩)
  have hsend : ∀ g, (s.send .timer f).phase g ≠ .sending := by
    intro g hg
    unfold State.send at hg
    rw [if_neg (by rintro ⟨⟩), goto_phase] at hg
    split at hg
    · cases hg
    · next h => exact h (hi.alone g f hg hf)
  constructor
  case contract =>
    show Contract (s.log ++ [Event.sent (s.arming f)])
    rw [hgen]
    exact hi.contract.sent (hi.current hstop) hnew
  case current => exact fun _ => (hi.current hstop).sent
  case sending => exact fun g hg => absurd hg (hsend g)
  case alone => exact fun g _ hg => absurd hg (hsend g)
  case past =>
    intro g hg
    rcases List.mem_append.mp hg with hg | hg
    · exact hi.past g hg
    · cases List.mem_singleton.mp hg
      exact Nat.le_of_eq hgen
  case fired => exact fun _ => hfired
  case spawned => exact (hi.goto hlt (p := .done) (by simp)).spawned
  case plain => exact (hi.goto hlt (p := .done) (by simp)).plain

theorem timer_step {a : Action} (hi : TimerInv s) (hok : resetsOverSend s a = false)
    (hs : step .timer s a = some t) : TimerInv t := by
  cases a with
  | stop c =>
    simp only [step] at hs
    split at hs <;> cases hs
    exact hi.stop
  | reset c positive =>
    simp only [step] at hs
    split at hs <;> cases hs
    refine hi.reset fun f hf => ?_
    have hlt := hi.spawned f (by rw [hf]; rintro ⟨⟩)
    simp only [resetsOverSend, decide_eq_false_iff_not] at hok
    exact hok ⟨f, hlt, hf⟩
  | cancel c =>
    simp only [step, State.cancel] at hs
    split at hs <;> cases hs
    · exact hi.cancelTaken.call _
    · exact hi.cancelTaken.call _
  | spawn c =>
    simp only [step] at hs
    split at hs <;> cases hs
    exact (hi.spawn _).call _
  | publish f =>
    simp only [step] at hs
    split at hs <;> cases hs
    next hf => exact hi.publish hf
  | link f =>
    simp only [step] at hs
    split at hs <;> cases hs
    next hf => exact hi.goto (hi.spawned f (by rw [hf]; rintro ⟨⟩)) (by simp)
  | commit f =>
    simp only [step] at hs
    split at hs <;> cases hs
    next hf => exact hi.goto (hi.spawned f (by rw [hf]; rintro ⟨⟩)) (by simp)
  | timeout f =>
    simp only [step] at hs
    split at hs <;> cases hs
    next hf =>
    refine hi.goto (hi.spawned f ?_) (by simp)
    rcases hf with hf | hf <;> rw [hf] <;> rintro ⟨⟩
  | resume f =>
    simp only [step] at hs
    split at hs <;> cases hs
    next hf => exact hi.resume hf
  | check f expired =>
    simp only [step] at hs
    split at hs <;> cases hs
    next hf => exact absurd hf (hi.plain f).1
  | send f =>
    simp only [step] at hs
    split at hs <;> cases hs
    next hf => exact hi.send hf
  | expire f =>
    simp only [step] at hs
    split at hs <;> cases hs
    next hf => exact absurd hf (hi.plain f).2.1
  | finish f =>
    simp only [step] at hs
    split at hs <;> cases hs
    next hf => exact absurd hf (hi.plain f).2.2

end Steps

theorem timer_fresh (positive : Bool) : TimerInv (fresh positive) where
  contract := by
    refine .of_live (fun g => by simp [fresh]) fun before after g heq => ?_
    have hmem : Event.sent g ∈ [Event.armed 0] := by
      rw [show [Event.armed 0] = before ++ Event.sent g :: after from heq]
      exact List.mem_append_right _ List.mem_cons_self
    cases List.mem_singleton.mp hmem
  current _ := ⟨[], [], rfl, by rintro _ ⟨⟩⟩
  sending f hf := by
    simp only [fresh] at hf
    split at hf <;> cases hf
  alone f _ hf := by
    simp only [fresh] at hf
    split at hf <;> cases hf
  past g hg := by cases List.mem_singleton.mp hg
  fired hg := by cases List.mem_singleton.mp hg
  spawned f hf := by
    simp only [fresh] at hf ⊢
    split at hf
    · next h => exact h ▸ Nat.zero_lt_one
    · exact absurd rfl hf
  plain f := by
    simp only [fresh]
    split <;> exact ⟨by rintro ⟨⟩, by rintro ⟨⟩, by rintro ⟨⟩⟩

/-- **The contract of `Stop`** holds in every run in which no `Reset` falls between the
decision of a fire fiber to send and its send. -/
theorem reachable_contract {s : State} (hr : Reachable timerSystem s) : Contract s.log := by
  have hi : TimerInv s := by
    refine Reachable.invariant ?_ ?_ hr
    · rintro _ ⟨positive, -, rfl⟩
      exact timer_fresh positive
    · intro u a t _ hi hs
      obtain ⟨hok, hs⟩ := System.restrict_step.mp hs
      exact timer_step hi hok hs
  exact hi.contract

/-- A timer fires; it is armed again, stopped, and the fiber of the second arming ends. -/
def rearmedRun : List Action :=
  [.publish 0, .link 0, .commit 0, .timeout 0, .resume 0, .send 0, .reset 0 true, .cancel 0,
    .spawn 0, .publish 1, .link 1, .stop 0, .cancel 0, .resume 1]

theorem reachable_contract_rearmed :
    ∃ s, timerSystem.run (fresh true) rearmedRun = some s ∧
      s.log = [.armed 0, .sent 0, .armed 1, .stopped] ∧ Contract s.log :=
  ⟨_, rfl, rfl, reachable_contract (reachable_of_run timerSystem rearmedRun ⟨true, (by intros; contradiction), rfl⟩ rfl)⟩

/-- The fiber decides to send; the timer is armed again and then stopped, with the result
true; and the fiber sends. -/
theorem sent_after_stop :
    (∃ s, (system .timer).run (fresh true)
        [.publish 0, .link 0, .commit 0, .timeout 0, .resume 0, .reset 0 true, .cancel 0, .spawn 0,
          .stop 0, .cancel 0, .send 0] = some s ∧
      s.log = [.armed 0, .armed 1, .stopped, .sent 0]) ∧
    ¬ Contract [.armed 0, .armed 1, .stopped, .sent 0] := by
  refine ⟨⟨_, rfl, rfl⟩, fun h => ?_⟩
  obtain ⟨g, hg⟩ := h.silent [.armed 0, .armed 1] [] [] 0 rfl
  cases hg

end Stackweave.Time
