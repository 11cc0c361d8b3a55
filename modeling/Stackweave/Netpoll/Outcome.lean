import Stackweave.Netpoll.Commit

/-!
# What `wait_fd` returns to its caller

The winner of the commit word decides the result: its ready value, or for a
signal the exception it reserved in the owner's `signal_exc` slot. The two
pending checks and a failed registration return without a look at the commit
word, so they drop the claim of a winner that came first (`claim_dropped`).
`returned_outcome` is the protocol without these late returns.
-/

namespace Stackweave.Netpoll.Commit

open Transition

/-- The result that belongs to a claim of this kind. -/
def Kind.result (events : ℕ) : Kind → Result
  | .signal e => ⟨-1, some e, false⟩
  | k => ⟨k.ready events, none, k.ready events == -1⟩

variable {events i : ℕ} {s t : State}

/-- Only a signal stores the sentinel. -/
theorem Kind.ready_signaled {k : Kind} (h : k.ready events = signaled) :
    ∃ e, k = .signal e := by
  cases k with
  | signal e => exact ⟨e, rfl⟩
  | event mask =>
    have hle : mask.val &&& events ≤ mask.val := Nat.and_le_left
    have hlt := mask.isLt
    simp only [ready, signaled] at h
    omega
  | _ => simp [ready, signaled, cancelled, unparked] at h

theorem Kind.result_of_not_signaled {k : Kind} (h : k.ready events ≠ signaled) :
    k.result events = ⟨k.ready events, none, k.ready events == -1⟩ := by
  cases k with
  | signal e => exact absurd rfl h
  | _ => rfl

/-! ## The delivery slot -/

/-- The exception a claimer of this kind brings. -/
def Kind.exc : Kind → Option ℕ
  | .signal e => some e
  | _ => none

/-- The exception the claimer holds the slot for: from its reservation on,
unless it lost and gave the slot back. -/
@[grind =]
def Claimer.reserved : Claimer → Option ℕ
  | .load k | .cas k _ | .lost k | .write k _ | .unlink k _ | .wake k _ | .wakeLate k => k.exc
  | .unlock k (some _) | .done k (some _) => k.exc
  | _ => none

def FiberPc.hasReturned : FiberPc → Bool
  | .returned _ => true
  | _ => false

/-- Until the call returns, the slot holds the exception of the claimer that
reserved it. -/
structure Slot (s : State) : Prop where
  kept : ∀ i e, (s.claimer i).reserved = some e → s.pc.hasReturned = false →
    s.slot = some (.ours i e)
  mine : ∀ i e, s.slot = some (.ours i e) → (s.claimer i).reserved = some e

section Moves

variable {s t : State} {i : ℕ} {c : Claimer}

/-- A claimer goes on; what it has reserved stays. -/
theorem Slot.move (hi : Slot s) (ht : t.claimer = (s.set i c).claimer) (hpc : t.pc = s.pc)
    (hslot : t.slot = s.slot) (hres : c.reserved = (s.claimer i).reserved) : Slot t := by
  constructor
  case kept =>
    rw [hpc, hslot]
    refine forall_claimer (P := fun j x => ∀ e, x.reserved = some e → s.pc.hasReturned = false →
      s.slot = some (.ours j e)) ht ?_ fun j _ => hi.kept j
    rw [hres]
    exact hi.kept i
  case mine =>
    rw [hslot]
    refine forall_claimer (P := fun j x => ∀ e, s.slot = some (.ours j e) →
      x.reserved = some e) ht ?_ fun j _ => hi.mine j
    rw [hres]
    exact hi.mine i

/-- The slot is free and the claimer puts its exception there. -/
theorem Slot.reserve (hi : Slot s) (hfree : s.slot = none) {e : ℕ} (hres : c.reserved = some e) :
    Slot { s.set i c with slot := some (.ours i e) } := by
  constructor
  case kept =>
    refine forall_claimer (s := s) (c := c) (P := fun j x => ∀ e', x.reserved = some e' →
      s.pc.hasReturned = false → some (Delivery.ours i e) = some (.ours j e')) rfl ?_ ?_
    · intro e' he' _
      rw [hres] at he'
      cases he'
      rfl
    · intro j _ e' he' hpc
      exact absurd (hfree.symm.trans (hi.kept j e' he' hpc)) nofun
  case mine =>
    refine forall_claimer (s := s) (c := c) (P := fun j x => ∀ e',
      some (Delivery.ours i e) = some (.ours j e') → x.reserved = some e') rfl ?_ ?_
    · rintro e' ⟨⟩
      exact hres
    · rintro j hj e' ⟨⟩
      exact absurd rfl hj

/-- The claimer that lost gives the slot back. -/
theorem Slot.giveBack (hi : Slot s) {e : ℕ} (hmine : (s.claimer i).reserved = some e)
    (hres : c.reserved = none) : Slot { s.set i c with slot := none } := by
  constructor
  case kept =>
    refine forall_claimer (s := s) (c := c) (P := fun j x => ∀ e', x.reserved = some e' →
      s.pc.hasReturned = false → none = some (Delivery.ours j e')) rfl ?_ ?_
    · rw [hres]
      nofun
    · intro j hj e' he' hpc
      have hboth := (hi.kept i e hmine hpc).symm.trans (hi.kept j e' he' hpc)
      cases hboth
      exact absurd rfl hj
  case mine => exact nofun

end Moves

theorem claimStart_slot {k : Kind} (hi : Slot s)
    (h : claimStart s i k = some t) : Slot t := by
  unfold claimStart at h
  split at h
  case isTrue hidle =>
    split at h <;> cases h
    · refine hi.move rfl rfl rfl ?_
      rw [hidle.1]
      cases k <;> rfl
    · exact hi.move rfl rfl rfl (by rw [hidle.1]; rfl)
  case isFalse => cases h

theorem claimerStep_slot (hi : Slot s)
    (h : claimerStep events s i = some t) : Slot t := by
  unfold claimerStep at h
  split at h
  case h_1 k hc =>
    split at h <;> cases h
    · next e hfree => exact hi.reserve hfree rfl
    · exact hi.move rfl rfl rfl (by rw [hc]; rfl)
  case h_2 k hc =>
    split at h <;> cases h
    · exact hi.move rfl rfl rfl (by rw [hc]; rfl)
    · exact hi.move rfl rfl rfl (by rw [hc]; rfl)
  case h_3 k cur hc =>
    split at h <;> cases h
    · refine hi.move rfl rfl rfl ?_
      rw [hc]
      split <;> rfl
    · exact hi.move rfl rfl rfl (by rw [hc]; rfl)
  case h_4 k hc =>
    split at h
    · next e =>
      cases h
      exact hi.giveBack (e := e) (by rw [hc]; rfl) rfl
    · next hk =>
      -- nobody but a signal reserves
      have hnone : k.exc = none := by
        cases k with
        | signal e => exact absurd rfl (hk e)
        | _ => rfl
      have hres : Claimer.reserved (.unlock k none) = (s.claimer i).reserved := by
        rw [hc]
        exact hnone.symm
      split at h <;> cases h <;> exact hi.move rfl rfl rfl hres
  case h_5 k src hc =>
    cases h
    refine hi.move rfl rfl rfl ?_
    rw [hc]
    cases k <;> rfl
  case h_6 k src hc =>
    cases h
    refine hi.move rfl rfl rfl ?_
    rw [hc]
    split <;> rfl
  case h_7 k src hc =>
    split at h <;> cases h
    · exact hi.move rfl rfl rfl (by rw [hc]; rfl)
    · exact hi.move rfl rfl rfl (by rw [hc]; rfl)
  case h_8 k src hc =>
    cases h
    refine hi.move rfl rfl rfl ?_
    rw [hc]
    split
    · next hk => rw [hk.2]; rfl
    · cases src <;> rfl
  case h_9 k hc =>
    cases h
    exact hi.move rfl rfl rfl (by rw [hc]; rfl)
  case h_10 => cases h

theorem Slot.fiber (hi : Slot s) (hclaimer : t.claimer = s.claimer)
    (hslot : t.slot = s.slot) (hpc : s.pc.hasReturned = false) : Slot t := by
  constructor
  case kept =>
    rw [hclaimer, hslot]
    exact fun i e he _ => hi.kept i e he hpc
  case mine =>
    rw [hclaimer, hslot]
    exact hi.mine

theorem fiberStep_slot {bits : ℕ} {ok : Bool} (hi : Slot s)
    (h : fiberStep s bits ok = some t) : Slot t := by
  unfold fiberStep at h
  split at h
  case h_1 hpc => split at h <;> cases h; exact hi.fiber rfl rfl (by rw [hpc]; rfl)
  case h_5 hpc => split at h <;> cases h; exact hi.fiber rfl rfl (by rw [hpc]; rfl)
  case h_6 hpc => split at h <;> cases h <;> exact hi.fiber rfl rfl (by rw [hpc]; rfl)
  case h_7 hpc => split at h <;> cases h; exact hi.fiber rfl rfl (by rw [hpc]; rfl)
  case h_9 hpc => split at h <;> cases h; exact hi.fiber rfl rfl (by rw [hpc]; rfl)
  case h_10 hpc => split at h <;> cases h; exact hi.fiber rfl rfl (by rw [hpc]; rfl)
  case h_13 =>
    cases h
    exact ⟨nofun, nofun⟩
  case h_14 => cases h
  all_goals
    next hpc =>
      cases h
      exact hi.fiber rfl rfl (by rw [hpc]; rfl)

theorem step_slot {a : Action} (hi : Slot s)
    (h : step events s a = some t) : Slot t := by
  cases a with
  | fiber bits ok => exact fiberStep_slot hi h
  | claim i k => exact claimStart_slot hi h
  | claimer i => exact claimerStep_slot hi h
  | otherReserve e =>
    simp only [step] at h
    split at h <;> cases h
    next hfree =>
    refine ⟨fun i e he hpc => ?_, nofun⟩
    exact absurd (hfree.symm.trans (hi.kept i e he hpc)) nofun
  | otherClear =>
    simp only [step] at h
    split at h <;> cases h
    next hother =>
    refine ⟨fun i e he hpc => ?_, nofun⟩
    exact absurd (hother.symm.trans (hi.kept i e he hpc)) nofun

theorem reachable_slot (h : Reachable (system events) s) : Slot s := by
  induction h with
  | start hs =>
    obtain ⟨-, -, -, -, hslot, -, -, hc, -⟩ := hs
    constructor
    · simp [hc, Claimer.reserved]
    · intro i e hi
      exact absurd hi (hslot i e)
  | next _ hs ih => exact step_slot ih hs

/-- With the lock free, the slot is held for the winner or not for this parker
at all. -/
theorem slot_winner (hl : Locked s) (hs : Slot s) (hfree : s.lock = none) {e : ℕ}
    (hslot : s.slot = some (.ours i e)) : ∃ src, s.winner = some ⟨i, .signal e, src⟩ := by
  have hres := hs.mine i e hslot
  have hheld : (s.claimer i).holding = false := by
    by_contra hh
    have := (hl.holder i).mp (by simpa using hh)
    rw [hfree] at this
    cases this
  have hwon : ∃ src, (s.claimer i).won = some (.signal e, src) := by
    cases hc : s.claimer i with
    | wakeLate k =>
      cases k <;> simp_all [Claimer.reserved, Claimer.won, Kind.exc]
    | done k src =>
      cases src <;> cases k <;> simp_all [Claimer.reserved, Claimer.won, Kind.exc]
    | _ => simp_all [Claimer.reserved, Claimer.holding]
  obtain ⟨src, hw⟩ := hwon
  exact ⟨src, (hl.won i _ src).mp hw⟩

/-! ## The outcome -/

/-- The fiber takes an early return although its parker was claimed. -/
def lateLeave (s : State) : Action → Bool
  | .fiber _ _ =>
    match s.pc with
    | .leave _ => s.word == .woken
    | _ => false
  | _ => false

/-- No early return is taken on a claimed parker. -/
def NoLateLeave (s : State) (a : Action) : Prop := lateLeave s a = false

instance (s : State) (a : Action) : Decidable (NoLateLeave s a) :=
  inferInstanceAs (Decidable (lateLeave s a = false))

structure Outcome (events : ℕ) (s : State) : Prop where
  taking : s.pc = .takeLoad → ∃ i e src, s.winner = some ⟨i, .signal e, src⟩
  storing : ∀ exc, s.pc = .takeStore exc →
    ∃ i e src, s.winner = some ⟨i, .signal e, src⟩ ∧ exc = some e
  result : ∀ r, s.pc = .returned r → ∀ w, s.winner = some w → r = w.kind.result events
  cleared : ∀ r, s.pc = .returned r → ∀ i e, s.slot ≠ some (.ours i e)

/-- A step of anybody but the fiber. -/
theorem Outcome.frame (hi : Outcome events s) (hp : t.pc = s.pc)
    (hw : s.pc.past = true → t.winner = s.winner)
    (hs : ∀ r, s.pc = .returned r → ∀ i e, t.slot ≠ some (.ours i e)) : Outcome events t := by
  refine ⟨?_, ?_, ?_, ?_⟩
  · intro h
    rw [hp] at h
    rw [hw (by simp [h, FiberPc.past])]
    exact hi.taking h
  · intro exc h
    rw [hp] at h
    rw [hw (by simp [h, FiberPc.past])]
    exact hi.storing exc h
  · intro r h
    rw [hp] at h
    rw [hw (by simp [h, FiberPc.past])]
    exact hi.result r h
  · intro r h
    rw [hp] at h
    exact hs r h

/-- The fiber's step to its result. -/
theorem fiberStep_outcome {bits : ℕ} {ok : Bool}
    (hr : Reachable (system events) s) (hi : Outcome events s)
    (hok : NoLateLeave s (.fiber bits ok)) (h : fiberStep s bits ok = some t) :
    Outcome events t := by
  have hl := reachable_locked hr
  have hp := reachable_phases hr
  have hs := reachable_slot hr
  have hsafe := reachable_safe hr
  unfold fiberStep at h
  split at h
  case h_1 => split at h <;> cases h; exact ⟨nofun, nofun, nofun, nofun⟩
  case h_2 =>
    cases h
    constructor
    all_goals
      dsimp only
      split <;> nofun
  case h_3 =>
    cases h
    constructor
    all_goals
      dsimp only
      split <;> nofun
  case h_4 =>
    cases h
    constructor
    all_goals
      dsimp only
      split <;> nofun
  case h_5 r hpc =>
    -- the parker was not claimed, so there is no winner and no reservation
    split at h <;> cases h
    next hfree =>
    have hnone : s.winner = none := by
      have hw : s.word ≠ .woken := by simpa [NoLateLeave, lateLeave, hpc] using hok
      by_contra hn
      exact hw (hl.woken.mpr hn)
    refine ⟨nofun, nofun, ?_, ?_⟩
    · intro r' _ w hw
      rw [hnone] at hw
      cases hw
    · intro r' _ i e hslot
      obtain ⟨src, hw⟩ := slot_winner hl hs hfree hslot
      rw [hnone] at hw
      cases hw
  case h_6 => split at h <;> cases h <;> exact ⟨nofun, nofun, nofun, nofun⟩
  case h_7 => split at h <;> cases h; exact ⟨nofun, nofun, nofun, nofun⟩
  case h_8 => cases h; exact ⟨nofun, nofun, nofun, nofun⟩
  case h_9 => split at h <;> cases h; exact ⟨nofun, nofun, nofun, nofun⟩
  case h_10 => split at h <;> cases h; exact ⟨nofun, nofun, nofun, nofun⟩
  case h_11 hpc =>
    cases h
    have hpast : s.pc.past = true := by simp [hpc, FiberPc.past]
    obtain ⟨⟨i, k, src⟩, hwin⟩ : ∃ w, s.winner = some w :=
      Option.ne_none_iff_exists'.mp (hl.woken.mp (hp.claimed (by simp [hpc, FiberPc.claimed])))
    have hready := hsafe.written hpast i k src ((hl.won i k src).mpr hwin)
    by_cases hsig : s.ready = signaled
    · obtain ⟨e, rfl⟩ := Kind.ready_signaled (hready ▸ hsig)
      simp only [hsig, ↓reduceIte]
      exact ⟨fun _ => ⟨i, e, src, hwin⟩, nofun, nofun, nofun⟩
    · simp only [hsig, ↓reduceIte]
      refine ⟨nofun, nofun, ?_, ?_⟩
      · rintro r hr' w hw
        cases hr'
        rw [hwin] at hw
        cases hw
        rw [Kind.result_of_not_signaled (hready ▸ hsig), ← hready]
      · intro r _ j e hslot
        obtain ⟨src', hw⟩ := slot_winner hl hs (hl.unlinkedPc (.inr hpast)).2 hslot
        rw [hwin] at hw
        cases hw
        exact hsig hready
  case h_12 hpc =>
    cases h
    obtain ⟨i, e, src, hwin⟩ := hi.taking hpc
    refine ⟨nofun, ?_, nofun, nofun⟩
    intro exc hexc
    cases hexc
    refine ⟨i, e, src, hwin, ?_⟩
    have hres : (s.claimer i).reserved = some e := by
      have hwon := (hl.won i _ src).mpr hwin
      cases hc : s.claimer i with
      | unlock k src' =>
        cases src' <;> simp_all [Claimer.won, Claimer.reserved, Kind.exc]
      | done k src' =>
        cases src' <;> simp_all [Claimer.won, Claimer.reserved, Kind.exc]
      | _ => simp_all [Claimer.won, Claimer.reserved, Kind.exc]
    rw [hs.kept i e hres (by simp [hpc, FiberPc.hasReturned])]
    rfl
  case h_13 exc hpc =>
    cases h
    obtain ⟨i, e, src, hwin, rfl⟩ := hi.storing exc hpc
    refine ⟨nofun, nofun, ?_, nofun⟩
    intro r hr' w hw
    cases hr'
    rw [hwin] at hw
    cases hw
    rfl
  case h_14 => cases h

theorem claimerStep_pc (h : claimerStep events s i = some t) :
    t.pc = s.pc := by
  unfold claimerStep at h
  split at h
  case h_1 => split at h <;> cases h <;> rfl
  case h_2 => split at h <;> cases h <;> rfl
  case h_3 => split at h <;> cases h <;> rfl
  case h_4 => split at h <;> (try split at h) <;> cases h <;> rfl
  case h_7 => split at h <;> cases h <;> rfl
  case h_10 => cases h
  all_goals cases h; rfl

theorem step_outcome {a : Action}
    (hr : Reachable (system events) s) (hi : Outcome events s) (hok : NoLateLeave s a)
    (h : step events s a = some t) : Outcome events t := by
  cases a with
  | fiber bits ok => exact fiberStep_outcome hr hi hok h
  | claim i k =>
    simp only [step, claimStart] at h
    split at h
    · split at h <;> cases h <;> exact hi.frame rfl (fun _ => rfl) hi.cleared
    · cases h
  | claimer i =>
    -- past the fiber's locked section no claimer has a step left
    have hnot : s.pc.past ≠ true := by
      intro hpast
      rcases past_quiet (reachable_locked hr) (reachable_requeue hr) (reachable_phases hr) hpast i
        with hc | ⟨k, src, hc⟩ <;> simp [step, claimerStep, hc] at h
    refine hi.frame (claimerStep_pc h) (fun hpast => absurd hpast hnot) ?_
    intro r hpc
    exact absurd (by simp [hpc, FiberPc.past]) hnot
  | otherReserve e =>
    simp only [step] at h
    split at h <;> cases h
    exact hi.frame rfl (fun _ => rfl) (by rintro _ _ _ _ ⟨⟩)
  | otherClear =>
    simp only [step] at h
    split at h <;> cases h
    exact hi.frame rfl (fun _ => rfl) (by rintro _ _ _ _ ⟨⟩)

/-- **Outcome.** In every run in which no early return is taken on a claimed
parker, a `wait_fd` call that was claimed returns the result of that claim and
leaves nothing of it in the owner's `signal_exc` slot. -/
theorem returned_outcome {events : ℕ} {s : State} {r : Result}
    (h : Reachable ((system events).restrict NoLateLeave) s) (hr : s.pc = .returned r) :
    (∀ i k src, (s.claimer i).won = some (k, src) → r = k.result events) ∧
      ∀ i e, s.slot ≠ some (.ours i e) := by
  have hout : Outcome events s := by
    refine Reachable.invariant ?_ ?_ h
    · intro s hs
      obtain ⟨-, -, -, -, -, -, hp, -⟩ := hs
      constructor <;> simp [hp]
    · intro s a t hreach hi hs
      obtain ⟨hok, hs⟩ := System.restrict_step.mp hs
      exact step_outcome hreach.of_restrict hi hok hs
  refine ⟨fun i k src hwon => ?_, hout.cleared r hr⟩
  exact hout.result r hr _ (((reachable_locked h.of_restrict).won i k src).mp hwon)

/-- `runloom_netpoll_signal_wake` delivers to a call that was still ARMED: the
call fails its commit and returns -1 with the exception. -/
theorem returned_outcome_signal :
    ∃ s, Reachable ((system 1).restrict NoLateLeave) s ∧ s.pc = .returned ⟨-1, some 7, false⟩ ∧
      s.slot = none ∧ s.claimer 0 = .done (.signal 7) (some .armed) ∧
      (∀ i k src, (s.claimer i).won = some (k, src) → ⟨-1, some 7, false⟩ = k.result 1) ∧
      ∀ i e, s.slot ≠ some (.ours i e) := by
  have hr : Reachable ((system 1).restrict NoLateLeave) _ :=
    reachable_of_run _
      [.fiber 0 true, .claim 0 (.signal 7), .claimer 0, .claimer 0, .claimer 0, .claimer 0,
        .claimer 0, .claimer 0, .claimer 0, .fiber 0 true, .fiber 0 true, .fiber 0 true,
        .fiber 0 true, .fiber 0 true, .fiber 0 true, .fiber 0 true, .fiber 0 true]
      fresh_initial rfl
  exact ⟨_, hr, rfl, rfl, rfl, returned_outcome hr rfl⟩

/-- **Dropped claim.** The signal is claimed and reported as delivered, then the
call finds a pending readiness bit and returns that: the exception is not set
and stays in the slot. -/
theorem claim_dropped :
    ∃ s, Reachable (system 1) s ∧ s.claimer 0 = .done (.signal 7) (some .armed) ∧
      s.pc = .returned ⟨1, none, false⟩ ∧ s.slot = some (.ours 0 7) := by
  have hr : Reachable (system 1) _ :=
    reachable_of_run _
      [.fiber 0 true, .claim 0 (.signal 7), .claimer 0, .claimer 0, .claimer 0, .claimer 0,
        .claimer 0, .claimer 0, .claimer 0, .fiber 1 true, .fiber 0 true]
      fresh_initial rfl
  exact ⟨_, hr, rfl, rfl, rfl⟩

end Stackweave.Netpoll.Commit
