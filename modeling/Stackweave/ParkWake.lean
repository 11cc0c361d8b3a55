import Mathlib.Data.List.Nodup
import Stackweave.Tally
import Stackweave.Transition

/-!
# The park/wake handshake (`runloom_sched_parkwake.c.inc`)

One fiber parks again and again through `runloom_park_generic`,
`runloom_sched_park_safe` or the timed variant, while any number of
`runloom_sched_wake_safe` calls and timer drains race for it. Each access to
`parked_safe` or `wake_pending` is one step and so is each enqueue. The two
park functions make the same accesses; the timed one first pushes a timer
entry, which is never taken back. An entry may be popped at any time, so
leftover entries of earlier parks are covered.
-/

namespace Stackweave.ParkWake

open Transition Tally

/-- What claims a park: a `runloom_sched_wake_safe` call, or the timer entry
that was pushed by the park with that number. -/
inductive Source
  | wake
  | timer (park : ℕ)
  deriving DecidableEq

/-- A waker past its increment of `wake_pending`, or a drain past its pop.
`enqueue` has won the exchange on `parked_safe` in the given park. -/
inductive Claimer
  | claim (src : Source)
  | enqueue (src : Source) (park : ℕ)
  | done
  deriving DecidableEq

/-- Where the fiber stands; each constructor names what it does next. -/
inductive FiberPc
  | running
  | check
  | eat
  | announce
  | recheck
  | retract
  | retractEat
  | yield
  | yielded
  | resumed
  | resumedEat
  deriving DecidableEq

/-- `queue` counts the fiber's entries in the ready ring, the wake list and
the hubs' run queues. `park`, `enqueued`, `yields`, `wakes` and `eaten` are
history: no step reads them. -/
structure State where
  parkedSafe : Bool
  wakePending : ℤ
  pc : FiberPc
  claimers : List Claimer
  timers : List ℕ
  queue : ℕ
  park : ℕ
  enqueued : List (Source × ℕ)
  yields : List ℕ
  wakes : ℕ
  eaten : ℕ

/-- A fiber that runs and has never parked. -/
def init : State :=
  { parkedSafe := false, wakePending := 0, pc := .running, claimers := [], timers := [],
    queue := 0, park := 0, enqueued := [], yields := [], wakes := 0, eaten := 0 }

inductive Action
  | park
  | timedPark
  | spuriousReturn
  | fiber
  | wake
  | drain (i : ℕ)
  | claimer (i : ℕ)

/-- `__atomic_sub_fetch(&g->wake_pending, 1)`, after which the park returns. -/
def State.eatWake (s : State) : State :=
  { s with wakePending := s.wakePending - 1, eaten := s.eaten + 1, pc := .running }

/-- The call of a park function. -/
def State.enterPark (s : State) : State := { s with pc := .check, park := s.park + 1 }

/-- The next access of the parking fiber. -/
def fiberStep (s : State) : Option State :=
  match s.pc with
  | .running => none
  | .check => some { s with pc := if 0 < s.wakePending then .eat else .announce }
  | .eat => some s.eatWake
  | .announce => some { s with parkedSafe := true, pc := .recheck }
  | .recheck => some { s with pc := if 0 < s.wakePending then .retract else .yield }
  | .retract =>
    if s.parkedSafe then some { s with parkedSafe := false, pc := .retractEat }
    else some { s with pc := .yield }
  | .retractEat => some s.eatWake
  | .yield => some { s with pc := .yielded, yields := s.park :: s.yields }
  | .yielded => if 0 < s.queue then some { s with queue := s.queue - 1, pc := .resumed } else none
  | .resumed => some { s with pc := if 0 < s.wakePending then .resumedEat else .running }
  | .resumedEat => some s.eatWake

/-- The next access of the `i`-th claimer: the exchange on `parked_safe`, and
for a winner the enqueue. -/
def claimerStep (s : State) (i : ℕ) : Option State :=
  match s.claimers[i]? with
  | some (.claim src) =>
    if s.parkedSafe then
      some { s with parkedSafe := false, claimers := s.claimers.set i (.enqueue src s.park) }
    else some { s with claimers := s.claimers.set i .done }
  | some (.enqueue src park) =>
    some { s with queue := s.queue + 1, enqueued := (src, park) :: s.enqueued
                  claimers := s.claimers.set i .done }
  | _ => none

@[grind =]
def step (s : State) : Action → Option State
  | .park =>
    if s.pc = .running then some s.enterPark else none
  | .timedPark =>
    if s.pc = .running then
      some { s.enterPark with timers := (s.park + 1) :: s.timers }
    else none
  -- the test-only return of `runloom_spurious_park_hit` comes before the first load
  | .spuriousReturn => if s.pc = .check then some { s with pc := .running } else none
  | .fiber => fiberStep s
  | .wake =>
    some { s with wakePending := s.wakePending + 1, wakes := s.wakes + 1
                  claimers := s.claimers ++ [.claim .wake] }
  | .drain i =>
    match s.timers[i]? with
    | some e =>
      some { s with timers := s.timers.eraseIdx i, claimers := s.claimers ++ [.claim (.timer e)] }
    | none => none
  | .claimer i => claimerStep s i

def system : System State Action where
  init s := s = init
  step := step

/-! ## Phases of a park -/

/-- Between the store of `parked_safe` and the resume or the retraction. -/
@[grind =]
def FiberPc.announced : FiberPc → Bool
  | .recheck | .retract | .yield | .yielded => true
  | _ => false

/-- Past the re-check of `wake_pending`, on the way to the resume. -/
@[grind =]
def FiberPc.committed : FiberPc → Bool
  | .yield | .yielded => true
  | _ => false

/-- In a park that has not yielded yet. -/
@[grind =]
def FiberPc.beforeYield : FiberPc → Bool
  | .check | .eat | .announce | .recheck | .retract | .yield => true
  | _ => false

/-- The fiber has seen `wake_pending > 0` and has not decremented it yet. -/
def FiberPc.credited : FiberPc → Bool
  | .eat | .retract | .retractEat | .resumedEat => true
  | _ => false

/-- 1 for a claimer that has won and not enqueued yet. -/
def Claimer.winner : Claimer → ℕ
  | .enqueue _ _ => 1
  | _ => 0

/-- The winners on their way to the enqueue. -/
def winners (s : State) : ℕ := tally Claimer.winner s.claimers

/-! ## One claim in a park -/

/-- A park that was announced and claimed has its enqueue under way or in the
queue, and only one; otherwise nothing is under way. -/
structure OneClaim (s : State) : Prop where
  count : winners s + s.queue = if s.pc.announced && !s.parkedSafe then 1 else 0
  unset : s.pc.announced = false → s.parkedSafe = false

variable {s t : State} {i : ℕ} {a : Action}

theorem winners_move {c : Claimer} (h : s.claimers[i]? = some c)
    (d : Claimer) : tally Claimer.winner (s.claimers.set i d) + c.winner = winners s + d.winner :=
  tally_set h d

/-- A step that neither announces a park nor ends one. -/
theorem OneClaim.move (hi : OneClaim s) (hclaimers : t.claimers = s.claimers)
    (hqueue : t.queue = s.queue) (hsafe : t.parkedSafe = s.parkedSafe)
    (hpc : t.pc.announced = s.pc.announced) : OneClaim t := by
  constructor
  · rw [winners, hclaimers, hqueue, hsafe, hpc]
    exact hi.count
  · rw [hsafe, hpc]
    exact hi.unset

theorem OneClaim.idle (hi : OneClaim s) (h : (s.pc.announced && !s.parkedSafe) = false) :
    winners s + s.queue = 0 := by
  rw [hi.count, h]
  rfl

theorem fiberStep_oneClaim (hi : OneClaim s) (h : fiberStep s = some t) :
    OneClaim t := by
  unfold fiberStep at h
  split at h
  case h_1 => cases h
  case h_4 hpc =>
    cases h
    have hzero := hi.idle (by rw [hpc]; rfl)
    exact ⟨hzero, by rintro ⟨⟩⟩
  case h_6 hpc =>
    -- the retraction takes `parked_safe` only if no claimer has it
    split at h <;> cases h
    case isTrue hsafe =>
      have hzero := hi.idle (by rw [hsafe, Bool.not_true, Bool.and_false])
      exact ⟨hzero, fun _ => rfl⟩
    case isFalse => exact hi.move rfl rfl rfl (by rw [hpc]; rfl)
  case h_9 hpc =>
    -- the resume takes the one entry, and no winner is left
    split at h <;> cases h
    case isTrue hq =>
      have hcount := hi.count
      rw [hpc] at hcount
      cases hsafe : s.parkedSafe with
      | true =>
        have hzero := hi.idle (by rw [hsafe, Bool.not_true, Bool.and_false])
        omega
      | false =>
        have hone : winners s + s.queue = 1 := by rw [hcount, hsafe]; rfl
        refine ⟨?_, fun _ => rfl⟩
        show winners s + (s.queue - 1) = 0
        omega
  all_goals
    next hpc =>
      cases h
      refine hi.move rfl rfl rfl ?_
      rw [hpc]
      first
        | rfl
        | dsimp only
          split <;> rfl

theorem claimerStep_oneClaim (hi : OneClaim s)
    (h : claimerStep s i = some t) : OneClaim t := by
  obtain ⟨hc, hu⟩ := hi
  unfold claimerStep at h
  split at h
  · next src hget =>
    split at h <;> cases h
    · next hps =>
      have hw : tally Claimer.winner (s.claimers.set i (.enqueue src s.park)) = winners s + 1 :=
        winners_move hget (.enqueue src s.park)
      have hann : s.pc.announced = true := by
        by_contra hn
        exact absurd (hps.symm.trans (hu (by simpa using hn))) (by rintro ⟨⟩)
      rw [hps, Bool.not_true, Bool.and_false] at hc
      refine ⟨?_, fun _ => rfl⟩
      show tally Claimer.winner _ + s.queue = if s.pc.announced && !false then 1 else 0
      rw [hw, hann, Nat.add_right_comm, hc]
      rfl
    · have hw : tally Claimer.winner (s.claimers.set i .done) = winners s :=
        winners_move hget .done
      refine ⟨?_, hu⟩
      show tally Claimer.winner _ + s.queue = _
      rw [hw]
      exact hc
  · next src park hget =>
    cases h
    have hw : tally Claimer.winner (s.claimers.set i .done) + 1 = winners s :=
      winners_move hget .done
    refine ⟨?_, hu⟩
    show tally Claimer.winner _ + (s.queue + 1) = _
    rw [← Nat.add_assoc, Nat.add_right_comm, hw]
    exact hc
  · cases h

theorem step_oneClaim (hi : OneClaim s) (h : step s a = some t) :
    OneClaim t := by
  cases a with
  | park =>
    simp only [step] at h
    split at h <;> cases h
    next hpc => exact hi.move rfl rfl rfl (by rw [hpc]; rfl)
  | timedPark =>
    simp only [step] at h
    split at h <;> cases h
    next hpc => exact hi.move rfl rfl rfl (by rw [hpc]; rfl)
  | spuriousReturn =>
    simp only [step] at h
    split at h <;> cases h
    next hpc => exact hi.move rfl rfl rfl (by rw [hpc]; rfl)
  | fiber => exact fiberStep_oneClaim hi h
  | wake =>
    cases h
    constructor
    · simpa [winners, Claimer.winner] using hi.count
    · exact hi.unset
  | drain j =>
    simp only [step] at h
    split at h <;> cases h
    constructor
    · simpa [winners, Claimer.winner] using hi.count
    · exact hi.unset
  | claimer j => exact claimerStep_oneClaim hi h

theorem reachable_oneClaim (h : Reachable system s) : OneClaim s := by
  induction h with
  | start hs =>
    cases hs
    constructor <;> decide
  | next _ hs ih => exact step_oneClaim ih hs

/-! ## Wake credits -/

/-- `wake_pending` counts the wakes that were not eaten. A fiber past its
re-check has every credit seen or covered by a waker on its way to the claim. -/
structure Credits (s : State) : Prop where
  covered : s.pc.committed = true → s.parkedSafe = true → 0 < s.wakePending →
    .claim .wake ∈ s.claimers
  credited : s.pc.credited = true → 0 < s.wakePending
  nonneg : 0 ≤ s.wakePending
  balance : s.wakePending = s.wakes - s.eaten

/-- No credit is given or taken. -/
theorem Credits.move (hi : Credits s) (hpending : t.wakePending = s.wakePending)
    (hwakes : t.wakes = s.wakes) (heaten : t.eaten = s.eaten)
    (hcovered : t.pc.committed = true → t.parkedSafe = true → 0 < s.wakePending →
      .claim .wake ∈ t.claimers)
    (hcredited : t.pc.credited = true → 0 < s.wakePending) : Credits t := by
  constructor
  · rw [hpending]
    exact hcovered
  · rw [hpending]
    exact hcredited
  · rw [hpending]
    exact hi.nonneg
  · rw [hpending, hwakes, heaten]
    exact hi.balance

theorem Credits.eatWake (hi : Credits s) (hpc : s.pc.credited = true) :
    Credits s.eatWake := by
  have hpos := hi.credited hpc
  have hbalance := hi.balance
  refine ⟨by rintro ⟨⟩, by rintro ⟨⟩, ?_, ?_⟩
  · show 0 ≤ s.wakePending - 1
    omega
  · show s.wakePending - 1 = s.wakes - ((s.eaten + 1 : ℕ) : ℤ)
    omega

theorem fiberStep_credits (hi : Credits s) (h : fiberStep s = some t) :
    Credits t := by
  unfold fiberStep at h
  split at h
  case h_1 => cases h
  case h_2 =>
    cases h
    refine hi.move rfl rfl rfl ?_ ?_
    all_goals
      dsimp only
      split
    · rintro ⟨⟩
    · rintro ⟨⟩
    · next hpos => exact fun _ => hpos
    · rintro ⟨⟩
  case h_3 hpc =>
    cases h
    exact hi.eatWake (by rw [hpc]; rfl)
  case h_4 =>
    cases h
    exact hi.move rfl rfl rfl (by rintro ⟨⟩) (by rintro ⟨⟩)
  case h_5 =>
    cases h
    refine hi.move rfl rfl rfl ?_ ?_
    all_goals
      dsimp only
      split
    · rintro ⟨⟩
    · next hpos => exact fun _ _ hx => absurd hx hpos
    · next hpos => exact fun _ => hpos
    · rintro ⟨⟩
  case h_6 hpc =>
    -- a lost retraction leaves `parked_safe` clear
    split at h <;> cases h
    · exact hi.move rfl rfl rfl (by rintro ⟨⟩) fun _ => hi.credited (by rw [hpc]; rfl)
    · next hsafe => exact hi.move rfl rfl rfl (fun _ hx => absurd hx hsafe) (by rintro ⟨⟩)
  case h_7 hpc =>
    cases h
    exact hi.eatWake (by rw [hpc]; rfl)
  case h_8 hpc =>
    cases h
    exact hi.move rfl rfl rfl (fun _ => hi.covered (by rw [hpc]; rfl)) (by rintro ⟨⟩)
  case h_9 =>
    split at h <;> cases h
    exact hi.move rfl rfl rfl (by rintro ⟨⟩) (by rintro ⟨⟩)
  case h_10 =>
    cases h
    refine hi.move rfl rfl rfl ?_ ?_
    all_goals
      dsimp only
      split
    · rintro ⟨⟩
    · rintro ⟨⟩
    · next hpos => exact fun _ => hpos
    · rintro ⟨⟩
  case h_11 hpc =>
    cases h
    exact hi.eatWake (by rw [hpc]; rfl)

theorem claimerStep_credits (hi : Credits s)
    (h : claimerStep s i = some t) : Credits t := by
  obtain ⟨hv, hc, hn, hb⟩ := hi
  unfold claimerStep at h
  split at h
  · next src hget =>
    split at h <;> cases h
    · -- the winner clears `parked_safe`
      exact ⟨fun _ hps => absurd hps (by simp), hc, hn, hb⟩
    · next hps => exact ⟨fun _ hps' => absurd hps' hps, hc, hn, hb⟩
  · next src park hget =>
    cases h
    refine ⟨fun hpc hps hw => ?_, hc, hn, hb⟩
    have hmem := hv hpc hps hw
    obtain ⟨j, hj⟩ := List.mem_iff_getElem?.mp hmem
    apply List.mem_iff_getElem?.mpr ⟨j, ?_⟩
    have hne : i ≠ j := by
      rintro rfl
      rw [hget] at hj
      cases hj
    simpa [List.getElem?_set, hne] using hj
  · cases h

theorem step_credits (hi : Credits s) (h : step s a = some t) :
    Credits t := by
  cases a with
  | park =>
    simp only [step] at h
    split at h <;> cases h
    exact hi.move rfl rfl rfl (by rintro ⟨⟩) (by rintro ⟨⟩)
  | timedPark =>
    simp only [step] at h
    split at h <;> cases h
    exact hi.move rfl rfl rfl (by rintro ⟨⟩) (by rintro ⟨⟩)
  | spuriousReturn =>
    simp only [step] at h
    split at h <;> cases h
    exact hi.move rfl rfl rfl (by rintro ⟨⟩) (by rintro ⟨⟩)
  | fiber => exact fiberStep_credits hi h
  | wake =>
    cases h
    have hnonneg := hi.nonneg
    have hbalance := hi.balance
    refine ⟨fun _ _ _ => List.mem_append_right _ List.mem_cons_self, fun _ => ?_, ?_, ?_⟩
    · show 0 < s.wakePending + 1
      omega
    · show 0 ≤ s.wakePending + 1
      omega
    · show s.wakePending + 1 = ((s.wakes + 1 : ℕ) : ℤ) - s.eaten
      omega
  | drain j =>
    simp only [step] at h
    split at h <;> cases h
    refine hi.move rfl rfl rfl (fun hc hs hp => ?_) hi.credited
    exact List.mem_append_left _ (hi.covered hc hs hp)
  | claimer j => exact claimerStep_credits hi h

theorem reachable_credits (h : Reachable system s) : Credits s := by
  induction h with
  | start hs =>
    cases hs
    constructor <;> decide
  | next _ hs ih => exact step_credits ih hs

/-! ## Which park an enqueue belongs to -/

/-- The parks the fiber was enqueued in. -/
def parksEnqueued (s : State) : List ℕ := s.enqueued.map Prod.snd

/-- A winner has claimed the current park, which was not enqueued before. -/
structure Parks (s : State) : Prop where
  winnerPark : ∀ src p, .enqueue src p ∈ s.claimers → p = s.park
  parksLe : ∀ p ∈ parksEnqueued s, p ≤ s.park
  fresh : s.pc.beforeYield = true ∧ s.pc.announced = false ∨ s.parkedSafe = true ∨
    0 < winners s → s.park ∉ parksEnqueued s
  nodup : (parksEnqueued s).Nodup

theorem winners_pos {src : Source} {p : ℕ} (h : .enqueue src p ∈ s.claimers) :
    0 < winners s :=
  le_tally (w := Claimer.winner) h

/-- The fiber touches neither the claimers nor the timer heap. -/
theorem fiberStep_frame (h : fiberStep s = some t) :
    t.claimers = s.claimers ∧ t.timers = s.timers ∧ t.enqueued = s.enqueued ∧
      t.park = s.park := by
  unfold fiberStep at h
  split at h
  case h_6 => split at h <;> cases h <;> exact ⟨rfl, rfl, rfl, rfl⟩
  case h_9 => split at h <;> cases h; exact ⟨rfl, rfl, rfl, rfl⟩
  all_goals cases h <;> exact ⟨rfl, rfl, rfl, rfl⟩

/-- Only the store of `parked_safe` opens the current park to a claim. -/
theorem fiberStep_opens (h : fiberStep s = some t) :
    (t.pc.beforeYield = true ∧ t.pc.announced = false →
      s.pc.beforeYield = true ∧ s.pc.announced = false) ∧
    (t.parkedSafe = true →
      s.parkedSafe = true ∨ s.pc.beforeYield = true ∧ s.pc.announced = false) := by
  unfold fiberStep at h
  split at h
  case h_1 => cases h
  case h_4 hpc =>
    cases h
    exact ⟨fun hb => absurd hb.2 (by rintro ⟨⟩), fun _ => .inr (by rw [hpc]; exact ⟨rfl, rfl⟩)⟩
  case h_6 =>
    split at h <;> cases h
    · exact ⟨fun hb => absurd hb.1 (by rintro ⟨⟩), by rintro ⟨⟩⟩
    · exact ⟨fun hb => absurd hb.2 (by rintro ⟨⟩), .inl⟩
  case h_9 =>
    split at h <;> cases h
    exact ⟨fun hb => absurd hb.1 (by rintro ⟨⟩), .inl⟩
  all_goals
    next hpc =>
      cases h
      refine ⟨?_, .inl⟩
      by_cases hp : 0 < s.wakePending
      all_goals simp [hpc, hp, State.eatWake, FiberPc.beforeYield, FiberPc.announced]

theorem fiberStep_parks (hi : Parks s) (h : fiberStep s = some t) : Parks t := by
  obtain ⟨hcl, -, he, hp⟩ := fiberStep_frame h
  obtain ⟨hent, hset⟩ := fiberStep_opens h
  have hparks : parksEnqueued t = parksEnqueued s := by simp [parksEnqueued, he]
  constructor
  · rw [hcl, hp]
    exact hi.winnerPark
  · rw [hparks, hp]
    exact hi.parksLe
  · rw [hparks, hp]
    rintro (hc | hc | hc) <;> apply hi.fresh
    · exact .inl (hent hc)
    · rcases hset hc with hc | hc
      · exact .inr (.inl hc)
      · exact .inl hc
    · rw [winners, hcl] at hc
      exact .inr (.inr hc)
  · rw [hparks]
    exact hi.nodup

theorem claimerStep_parks (hc : OneClaim s) (hi : Parks s)
    (h : claimerStep s i = some t) : Parks t := by
  unfold claimerStep at h
  split at h
  · next src hget =>
    split at h <;> cases h
    · next hps =>
      refine ⟨?_, hi.parksLe, fun _ => hi.fresh (.inr (.inl hps)), hi.nodup⟩
      intro src' p hmem
      rcases List.mem_or_eq_of_mem_set hmem with hmem | heq
      · exact hi.winnerPark _ _ hmem
      · cases heq
        rfl
    · have hw := winners_move hget .done
      refine ⟨?_, hi.parksLe, ?_, hi.nodup⟩
      · intro src' p hmem
        rcases List.mem_or_eq_of_mem_set hmem with hmem | heq
        · exact hi.winnerPark _ _ hmem
        · cases heq
      · rintro (hf | hf | hf) <;> apply hi.fresh
        · exact .inl hf
        · exact .inr (.inl hf)
        · have hwin : winners { s with claimers := s.claimers.set i .done } = winners s := hw
          exact .inr (.inr (hwin ▸ hf))
  · next src park hget =>
    cases h
    have hmem : Claimer.enqueue src park ∈ s.claimers := List.mem_of_getElem? hget
    have hpark := hi.winnerPark _ _ hmem
    subst hpark
    have hfresh := hi.fresh (.inr (.inr (winners_pos hmem)))
    have hw := winners_move hget .done
    have hcount := hc.count
    refine ⟨?_, ?_, ?_, ?_⟩
    · intro src' p hmem
      rcases List.mem_or_eq_of_mem_set hmem with hmem | heq
      · exact hi.winnerPark _ _ hmem
      · cases heq
    · simpa [parksEnqueued] using hi.parksLe
    · -- the park was claimed and this was its only winner
      intro hopen
      exfalso
      have hpos := winners_pos hmem
      have hzero : tally Claimer.winner (s.claimers.set i .done) + 1 = winners s := hw
      rcases hopen with ⟨-, hann⟩ | hsafe | hwin
      · have hnone := hc.idle (by rw [show s.pc.announced = false from hann]; rfl)
        omega
      · have hnone := hc.idle (by rw [show s.parkedSafe = true from hsafe, Bool.not_true,
          Bool.and_false])
        omega
      · have hwin : 0 < tally Claimer.winner (s.claimers.set i .done) := hwin
        have hle : winners s + s.queue ≤ 1 := by
          rw [hcount]
          split <;> decide
        omega
    · exact List.nodup_cons.mpr ⟨hfresh, hi.nodup⟩
  · cases h

theorem step_parks (hc : OneClaim s) (hi : Parks s)
    (h : step s a = some t) : Parks t := by
  have hnew (hrun : s.pc = .running) : Parks s.enterPark := by
    have hzero : winners s = 0 := by
      have := hc.count
      simp only [hrun, FiberPc.announced, Bool.false_and, Bool.false_eq_true, ↓reduceIte] at this
      omega
    refine ⟨?_, fun p hp => Nat.le_succ_of_le (hi.parksLe p hp), ?_, hi.nodup⟩
    · intro src p hmem
      have : 0 < winners s := winners_pos hmem
      omega
    · intro _ hp
      exact Nat.not_succ_le_self _ (hi.parksLe _ hp)
  cases a with
  | fiber => exact fiberStep_parks hi h
  | claimer j => exact claimerStep_parks hc hi h
  | park =>
    simp only [step] at h
    split at h <;> cases h
    next hrun => exact hnew hrun
  | timedPark =>
    simp only [step] at h
    split at h <;> cases h
    next hrun =>
      obtain ⟨hw, hl, hf, hn⟩ := hnew hrun
      exact ⟨hw, hl, hf, hn⟩
  | spuriousReturn =>
    simp only [step] at h
    split at h <;> cases h
    next hpc =>
    refine ⟨hi.winnerPark, hi.parksLe, ?_, hi.nodup⟩
    rintro (hf | hf)
    · simp [FiberPc.beforeYield] at hf
    · exact hi.fresh (.inr hf)
  | wake =>
    cases h
    refine ⟨?_, hi.parksLe, ?_, hi.nodup⟩
    · intro src p hmem
      exact hi.winnerPark src p (by simpa using hmem)
    · simpa [winners, Claimer.winner, parksEnqueued] using hi.fresh
  | drain j =>
    simp only [step] at h
    split at h <;> cases h
    refine ⟨?_, hi.parksLe, ?_, hi.nodup⟩
    · intro src p hmem
      exact hi.winnerPark src p (by simpa using hmem)
    · simpa [winners, Claimer.winner, parksEnqueued] using hi.fresh

theorem reachable_parks (h : Reachable system s) : Parks s := by
  induction h with
  | start hs =>
    cases hs
    constructor <;> simp [init, parksEnqueued]
  | next hr hs ih => exact step_parks (reachable_oneClaim hr) ih hs

/-! ## Every enqueue has its yield -/

/-- A park yields at most once, and a park that was enqueued has yielded or is
about to. -/
structure Yields (s : State) : Prop where
  matched : ∀ p ∈ parksEnqueued s, p ∈ s.yields ∨ p = s.park ∧ s.pc.beforeYield = true
  le : ∀ p ∈ s.yields, p ≤ s.park
  fresh : s.pc.beforeYield = true → s.park ∉ s.yields
  nodup : s.yields.Nodup
  yielded : s.pc = .yielded → s.park ∈ s.yields

theorem FiberPc.announced_cases {pc : FiberPc} (h : pc.announced = true) :
    pc.beforeYield = true ∨ pc = .yielded := by
  cases pc <;> simp_all [announced, beforeYield]

/-- A fiber step yields, or records nothing and leaves a park before its yield
only when that park was not enqueued. -/
theorem fiberStep_yields_cases (h : fiberStep s = some t) :
    s.pc = .yield ∧ t.pc = .yielded ∧ t.yields = s.park :: s.yields ∨
    t.yields = s.yields ∧ t.pc ≠ .yielded ∧ (t.pc.beforeYield = true → s.pc.beforeYield = true) ∧
      (s.pc.beforeYield = true → t.pc.beforeYield = false →
        s.parkedSafe = true ∨ s.pc.announced = false) := by
  unfold fiberStep at h
  split at h
  case h_1 => cases h
  case h_6 hpc =>
    split at h <;> cases h
    · next hsafe => exact .inr ⟨rfl, by rintro ⟨⟩, by rintro ⟨⟩, fun _ _ => .inl hsafe⟩
    · exact .inr ⟨rfl, by rintro ⟨⟩, fun _ => by rw [hpc]; rfl, by rintro _ ⟨⟩⟩
  case h_8 hpc =>
    cases h
    exact .inl ⟨hpc, rfl, rfl⟩
  case h_9 hpc =>
    split at h <;> cases h
    exact .inr ⟨rfl, by rintro ⟨⟩, by rintro ⟨⟩, by rw [hpc]; rintro ⟨⟩⟩
  all_goals
    next hpc =>
      cases h
      refine .inr ⟨rfl, ?_⟩
      by_cases hp : 0 < s.wakePending
      all_goals simp [hpc, hp, State.eatWake, FiberPc.beforeYield, FiberPc.announced]

theorem fiberStep_yields (hp : Parks s) (hi : Yields s)
    (h : fiberStep s = some t) : Yields t := by
  obtain ⟨-, -, he, hpark⟩ := fiberStep_frame h
  have hparks : parksEnqueued t = parksEnqueued s := by simp [parksEnqueued, he]
  rcases fiberStep_yields_cases h with ⟨hpc, hpc', hy⟩ | ⟨hy, hne, hback, hleave⟩
  · have hbefore : s.pc.beforeYield = true := by simp [hpc, FiberPc.beforeYield]
    constructor
    · intro p hmem
      rw [hparks] at hmem
      rw [hy]
      rcases hi.matched p hmem with hm | ⟨rfl, -⟩
      · exact .inl (List.mem_cons_of_mem _ hm)
      · exact .inl List.mem_cons_self
    · rw [hy, hpark]
      simpa using hi.le
    · simp [hpc', FiberPc.beforeYield]
    · rw [hy]
      exact List.nodup_cons.mpr ⟨hi.fresh hbefore, hi.nodup⟩
    · intro _
      rw [hy, hpark]
      exact List.mem_cons_self
  · constructor
    · intro p hmem
      rw [hparks] at hmem
      rw [hy, hpark]
      rcases hi.matched p hmem with hm | ⟨rfl, hb⟩
      · exact .inl hm
      · cases ht : t.pc.beforeYield with
        | true => exact .inr ⟨rfl, rfl⟩
        | false =>
          -- the park was retracted or satisfied early, so nobody claimed it
          refine absurd hmem (hp.fresh ?_)
          rcases hleave hb ht with hl | hl
          · exact .inr (.inl hl)
          · exact .inl ⟨hb, hl⟩
    · rw [hy, hpark]
      exact hi.le
    · rw [hy, hpark]
      exact fun hb => hi.fresh (hback hb)
    · rw [hy]
      exact hi.nodup
    · exact fun ht => absurd ht hne

theorem claimerStep_yields (hc : OneClaim s) (hp : Parks s) (hi : Yields s)
    (h : claimerStep s i = some t) : Yields t := by
  unfold claimerStep at h
  split at h
  · next src hget =>
    split at h <;> cases h
    · exact ⟨hi.matched, hi.le, hi.fresh, hi.nodup, hi.yielded⟩
    · exact ⟨hi.matched, hi.le, hi.fresh, hi.nodup, hi.yielded⟩
  · next src park hget =>
    cases h
    refine ⟨?_, hi.le, hi.fresh, hi.nodup, hi.yielded⟩
    have hmem : Claimer.enqueue src park ∈ s.claimers := List.mem_of_getElem? hget
    have hpos := winners_pos hmem
    have hann : s.pc.announced = true := by
      have := hc.count
      by_contra hn
      simp [hn] at this
      omega
    intro p hmem'
    rcases List.mem_cons.mp hmem' with rfl | hmem'
    · rw [hp.winnerPark _ _ hmem]
      rcases FiberPc.announced_cases hann with hb | hy
      · exact .inr ⟨rfl, hb⟩
      · exact .inl (hi.yielded hy)
    · exact hi.matched p hmem'
  · cases h

theorem step_yields (hc : OneClaim s) (hp : Parks s) (hi : Yields s)
    (h : step s a = some t) : Yields t := by
  have hnew (hrun : s.pc = .running) : Yields s.enterPark := by
    refine ⟨?_, fun p hp => Nat.le_succ_of_le (hi.le p hp), ?_, hi.nodup, by rintro ⟨⟩⟩
    · intro p hmem
      rcases hi.matched p hmem with hm | ⟨-, hb⟩
      · exact .inl hm
      · simp [hrun, FiberPc.beforeYield] at hb
    · intro _ hp
      exact Nat.not_succ_le_self _ (hi.le _ hp)
  cases a with
  | fiber => exact fiberStep_yields hp hi h
  | claimer j => exact claimerStep_yields hc hp hi h
  | park =>
    simp only [step] at h
    split at h <;> cases h
    next hrun => exact hnew hrun
  | timedPark =>
    simp only [step] at h
    split at h <;> cases h
    next hrun =>
      obtain ⟨hm, hl, hf, hn, hy⟩ := hnew hrun
      exact ⟨hm, hl, hf, hn, hy⟩
  | spuriousReturn =>
    simp only [step] at h
    split at h <;> cases h
    next hpc =>
    refine ⟨?_, hi.le, by rintro ⟨⟩, hi.nodup, by rintro ⟨⟩⟩
    intro p hmem
    rcases hi.matched p hmem with hm | ⟨rfl, -⟩
    · exact .inl hm
    · exact absurd hmem (hp.fresh (.inl (by simp [hpc, FiberPc.beforeYield, FiberPc.announced])))
  | wake =>
    cases h
    exact ⟨hi.matched, hi.le, hi.fresh, hi.nodup, hi.yielded⟩
  | drain j =>
    simp only [step] at h
    split at h <;> cases h
    exact ⟨hi.matched, hi.le, hi.fresh, hi.nodup, hi.yielded⟩

theorem reachable_yields (h : Reachable system s) : Yields s := by
  induction h with
  | start hs =>
    cases hs
    constructor <;> simp [init, parksEnqueued]
  | next hr hs ih => exact step_yields (reachable_oneClaim hr) (reachable_parks hr) ih hs

/-! ## Leftover timer entries -/

/-- The park whose timer entry a claimer acts for; a wake has none. -/
def Source.origin : Source → ℕ
  | .wake => 0
  | .timer e => e

@[grind =]
def Claimer.origin : Claimer → ℕ
  | .claim src => src.origin
  | .enqueue src _ => src.origin
  | .done => 0

/-- A timer entry acts in the park that pushed it or in a later one. -/
structure Origins (s : State) : Prop where
  timers : ∀ e ∈ s.timers, e ≤ s.park
  claimers : ∀ c ∈ s.claimers, c.origin ≤ s.park
  enqueued : ∀ q ∈ s.enqueued, q.1.origin ≤ q.2

theorem claimerStep_origins (hp : Parks s) (hi : Origins s)
    (h : claimerStep s i = some t) : Origins t := by
  have hset {c : Claimer} (hc : c.origin ≤ s.park) :
      ∀ d ∈ s.claimers.set i c, d.origin ≤ s.park := by
    intro d hd
    rcases List.mem_or_eq_of_mem_set hd with hd | rfl
    · exact hi.claimers d hd
    · exact hc
  unfold claimerStep at h
  split at h
  · next src hget =>
    have hsrc := hi.claimers _ (List.mem_of_getElem? hget)
    split at h <;> cases h
    · exact ⟨hi.timers, hset hsrc, hi.enqueued⟩
    · exact ⟨hi.timers, hset (Nat.zero_le _), hi.enqueued⟩
  · next src park hget =>
    cases h
    have hmem := List.mem_of_getElem? hget
    refine ⟨hi.timers, hset (Nat.zero_le _), ?_⟩
    intro q hq
    rcases List.mem_cons.mp hq with rfl | hq
    · rw [hp.winnerPark _ _ hmem]
      exact hi.claimers _ hmem
    · exact hi.enqueued q hq
  · cases h

theorem step_origins (hp : Parks s) (hi : Origins s)
    (h : step s a = some t) : Origins t := by
  have hnew : Origins s.enterPark :=
    ⟨fun e he => Nat.le_succ_of_le (hi.timers e he),
      fun c hc => Nat.le_succ_of_le (hi.claimers c hc), hi.enqueued⟩
  cases a with
  | fiber =>
    obtain ⟨hcl, ht, he, hpark⟩ := fiberStep_frame h
    constructor
    · rw [ht, hpark]
      exact hi.timers
    · rw [hcl, hpark]
      exact hi.claimers
    · rw [he]
      exact hi.enqueued
  | claimer j => exact claimerStep_origins hp hi h
  | park =>
    simp only [step] at h
    split at h <;> cases h
    exact hnew
  | timedPark =>
    simp only [step] at h
    split at h <;> cases h
    exact ⟨List.forall_mem_cons.mpr ⟨Nat.le_refl _, hnew.timers⟩, hnew.claimers, hnew.enqueued⟩
  | spuriousReturn =>
    simp only [step] at h
    split at h <;> cases h
    exact ⟨hi.timers, hi.claimers, hi.enqueued⟩
  | wake =>
    cases h
    refine ⟨hi.timers, List.forall_mem_append.mpr ⟨hi.claimers, ?_⟩, hi.enqueued⟩
    simp [Claimer.origin, Source.origin]
  | drain j =>
    simp only [step] at h
    split at h <;> cases h
    next e hget =>
    refine ⟨fun e' he' => hi.timers e' (List.mem_of_mem_eraseIdx he'),
      List.forall_mem_append.mpr ⟨hi.claimers, ?_⟩, hi.enqueued⟩
    simpa [Claimer.origin, Source.origin] using hi.timers e (List.mem_of_getElem? hget)

theorem reachable_origins (h : Reachable system s) : Origins s := by
  induction h with
  | start hs =>
    cases hs
    constructor <;> simp [init]
  | next hr hs ih => exact step_origins (reachable_parks hr) ih hs

/-! ## The handshake -/

/-- What the handshake promises in every state. -/
structure Handshake (s : State) : Prop where
  /-- No lost wake: a yielded, unclaimed fiber with a wake pending has a waker
  between its increment and its claim. -/
  noLostWake : ¬ (s.pc = .yielded ∧ s.parkedSafe = true ∧ 0 < s.wakePending ∧
    .claim .wake ∉ s.claimers)
  /-- A yielded fiber that was claimed has exactly one resume coming, whoever
  claimed it. -/
  oneResume : s.pc = .yielded → s.parkedSafe = false → winners s + s.queue = 1
  /-- No double wake: the fiber is never in the ready structures twice. -/
  queueLe : s.queue ≤ 1
  /-- Every park yields at most once and is enqueued at most once, and only a
  park that yields is enqueued. -/
  yieldsNodup : s.yields.Nodup
  enqueuedNodup : (parksEnqueued s).Nodup
  matched : ∀ p ∈ parksEnqueued s, p ∈ s.yields ∨ p = s.park ∧ s.pc.beforeYield = true
  nonneg : 0 ≤ s.wakePending
  /-- No wake is dropped: what was not eaten is still pending. -/
  balance : s.wakePending = s.wakes - s.eaten
  /-- A timer entry on its way claims nothing but the current park, in which
  the fiber is then enqueued once. -/
  stalePark : ∀ e p, .enqueue (.timer e) p ∈ s.claimers →
    e ≤ p ∧ p = s.park ∧ s.parkedSafe = false ∧ s.queue = 0 ∧ p ∉ parksEnqueued s
  staleEnqueue : ∀ e p, (.timer e, p) ∈ s.enqueued → e ≤ p

end Stackweave.ParkWake
