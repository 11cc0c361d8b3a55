import Stackweave.Aio.Task

/-!
# How often a cancel is raised

A `cancel()` reaches the coroutine by the one-shot flag, through the future it is
suspended on, or by the return of `_wait_fd`. `due` counts what is on its way by each
of the three. `_wait_fd` neither looks at the flag nor clears it: its own
`CancelledError` leaves the flag set (`spent`), and a flag that was set before does not
end the wait.
-/

namespace Stackweave.Aio.Task

open Transition

/-- The flag stands for a cancel that has not been raised. -/
def State.unspent (s : State) : Bool :=
  s.must && !s.spent

/-- What is on its way to the coroutine by other routes than the flag. -/
@[grind =]
def Pc.due : Pc → ℕ
  | .parked w => w.taken.toNat
  | .top (some (.cancel ours)) => ours.toNat
  | .readied cancelled => cancelled.toNat
  | _ => 0

def State.due (s : State) : ℕ :=
  s.unspent.toNat + s.pc.due

/-- `_wait_fd` is called with a cancel pending, or gets one after its readiness; its own
`CancelledError` is to be raised again from the flag; another error is thrown with a
cancel pending; a future that took the cancel ends otherwise; or `_blocking` is of a
task that is not the current one. -/
@[grind =]
def amiss (s : State) : Action → Bool
  | .cancel _ => s.pc == .readied false
  | .waitFd => s.unspent
  | .advance =>
    match s.pc with
    | .top (some (.cancel true)) => false
    | .top (some _) => s.unspent
    | _ => s.must && s.spent
  | .wake => s.must && s.spent
  | .blockReturn ok slot _ => if ok && slot == .mine then s.must && s.spent else s.unspent
  | .complete out =>
    match s.pc with
    | .parked w => w.taken && out != .cancelled
    | _ => false
  | .steal => !s.spent
  | _ => false

def regular : System State Action :=
  system.restrict fun s a => amiss s a = false

/-- A pending cancel does not leave the driver asleep. -/
def Pc.Woken (credit : ℕ) : Pc → Prop
  | .running | .readied true => 0 < credit
  | .parked w => 0 < credit ∨ w.out = none ∧ w.refused = true
  | .waitFd | .readied false | .top (some (.cancel true)) => False
  | _ => True

structure Inv (s : State) : Prop where
  count : s.raised + s.due ≤ s.asked
  coming : 0 < s.asked → s.raised = 0 → s.pc ≠ .returned → 0 < s.due
  missed : s.missed = false
  woken : s.unspent = true → s.pc.Woken s.credit
  ended : ∀ w, s.pc = .parked w → w.out.isSome = true → 0 < s.credit
  taken : ∀ w out, s.pc = .parked w → w.taken = true → w.out = some out → out = .cancelled

theorem inv_init : Inv init where
  count := Nat.le_refl 0
  coming := by rintro ⟨⟩
  missed := rfl
  woken := by rintro ⟨⟩
  ended := by rintro _ ⟨⟩
  taken := by rintro _ _ ⟨⟩

section Steps

variable {s t : State}

/-- The coroutine goes on otherwise, and nothing was on its way. -/
theorem Inv.resume (hi : Inv s) (hflag : s.unspent = false) (hpc : s.pc.due = 0)
    (hover : s.pc ≠ .returned) : Inv s.resume := by
  have hdue : s.due = 0 := by simp [State.due, hflag, hpc]
  have howed : s.owed = false := by
    by_contra hne
    simp only [State.owed, Bool.not_eq_false, Bool.and_eq_true, decide_eq_true_eq, beq_iff_eq] at hne
    exact absurd (hi.coming hne.1 hne.2 hover) (by rw [hdue]; exact Nat.lt_irrefl 0)
  constructor
  case count =>
    have hc := hi.count
    simp only [State.due, State.resume, State.unspent, Pc.due] at hc ⊢
    omega
  case coming =>
    intro ha hr _
    simp [State.owed, State.resume] at howed ha hr
    omega
  case missed => simp [State.resume, hi.missed, howed]
  case woken =>
    intro hu
    rw [show s.resume.unspent = s.unspent from rfl, hflag] at hu
    cases hu
  case ended => rintro _ ⟨⟩
  case taken => rintro _ _ ⟨⟩

/-- A `CancelledError` that was on its way is raised; `hwoken` is for a second one. -/
theorem Inv.raise (hi : Inv s) (hpc : s.pc.due = 1)
    (hwoken : s.unspent = true → 0 < s.credit) : Inv s.raise := by
  constructor
  case count =>
    have hc := hi.count
    rw [State.due, hpc] at hc
    show s.raised + 1 + (s.unspent.toNat + 0) ≤ s.asked
    omega
  case coming => exact fun _ hr => absurd hr (Nat.succ_ne_zero _)
  case missed => exact hi.missed
  case woken => exact fun hu => hwoken hu
  case ended => rintro _ ⟨⟩
  case taken => rintro _ _ ⟨⟩

/-- The flag is cleared and its `CancelledError` raised. -/
theorem Inv.raise_flag (hi : Inv s) (hflag : s.unspent = true) : Inv s.unmark.raise := by
  constructor
  case count =>
    have hc := hi.count
    simp only [State.due, hflag, Bool.toNat_true] at hc
    simp only [State.due, State.raise, State.unmark, State.unspent, Pc.due, Bool.false_and,
      Bool.toNat_false]
    omega
  case coming => exact fun _ hr => absurd hr (Nat.succ_ne_zero _)
  case missed => exact hi.missed
  case woken => rintro ⟨⟩
  case ended => rintro _ ⟨⟩
  case taken => rintro _ _ ⟨⟩

/-- A cancel sets the flag of a task that is not suspended on a future. -/
theorem Inv.mark (hi : Inv s) (credit : ℕ) (hpc : ∀ w, s.pc ≠ .parked w)
    (hwoken : s.pc.Woken credit) : Inv { s.mark with credit := credit } := by
  constructor
  case count =>
    have hc := hi.count
    rw [State.due] at hc
    show s.raised + (1 + s.pc.due) ≤ s.asked + 1
    omega
  case coming =>
    intro _ _ _
    show 0 < 1 + s.pc.due
    omega
  case missed => exact hi.missed
  case woken => exact fun _ => hwoken
  case ended => exact fun w hw => absurd hw (hpc w)
  case taken => exact fun w _ hw => absurd hw (hpc w)

/-- A move of the driver with nothing raised and nothing asked. -/
theorem Inv.goto (hi : Inv s) (pc : Pc) (credit : ℕ) (hdue : pc.due = s.pc.due)
    (hover : s.pc ≠ .returned) (hwoken : s.unspent = true → pc.Woken credit)
    (hended : ∀ w, pc = .parked w → w.out.isSome = true → 0 < credit)
    (htaken : ∀ w out, pc = .parked w → w.taken = true → w.out = some out → out = .cancelled) :
    Inv { s with pc := pc, credit := credit } := by
  have hsame : State.due { s with pc := pc, credit := credit } = s.due := by
    simp only [State.due, State.unspent, hdue]
  constructor
  case count => rw [hsame]; exact hi.count
  case coming =>
    intro ha hr _
    rw [hsame]
    exact hi.coming ha hr hover
  case missed => exact hi.missed
  case woken => exact hwoken
  case ended => exact hended
  case taken => exact htaken

/-- The awaited future takes a cancel. -/
theorem Inv.pass (hi : Inv s) {v : Wait} (credit : ℕ) (hv : v.taken = true)
    (hwoken : s.unspent = true → (Pc.parked v).Woken credit)
    (hended : v.out.isSome = true → 0 < credit)
    (htaken : ∀ out, v.out = some out → out = .cancelled) :
    Inv { s with pc := .parked v, credit := credit, asked := s.asked + 1 } := by
  constructor
  case count =>
    have hc := hi.count
    rw [State.due] at hc
    show s.raised + (s.unspent.toNat + v.taken.toNat) ≤ s.asked + 1
    rw [hv, Bool.toNat_true]
    omega
  case coming =>
    intro _ _ _
    show 0 < s.unspent.toNat + v.taken.toNat
    rw [hv, Bool.toNat_true]
    omega
  case missed => exact hi.missed
  case woken => exact hwoken
  case ended =>
    rintro x ⟨⟩
    exact hended
  case taken =>
    rintro x out ⟨⟩ -
    exact htaken out

/-- The awaited future does not take it: the flag is set, and nobody is woken. -/
theorem Inv.refuse (hi : Inv s) {w : Wait} (hw : s.pc = .parked w) :
    Inv (State.mark { s with pc := .parked { w with refused := true } }) := by
  constructor
  case count =>
    have hc := hi.count
    rw [State.due, hw] at hc
    show s.raised + (1 + w.taken.toNat) ≤ s.asked + 1
    simp only [Pc.due] at hc
    omega
  case coming =>
    intro _ _ _
    show 0 < 1 + w.taken.toNat
    omega
  case missed => exact hi.missed
  case woken =>
    intro _
    cases ho : w.out with
    | none => exact .inr ⟨rfl, rfl⟩
    | some out => exact .inl (hi.ended w hw (by rw [ho]; rfl))
  case ended =>
    rintro x ⟨⟩
    exact hi.ended w hw
  case taken =>
    rintro x out ⟨⟩
    exact hi.taken w out hw

theorem cancelWaiter_inv {w : Wait} {a : Answer} (hi : Inv s) (hw : s.pc = .parked w) :
    Inv (cancelWaiter s w a) := by
  unfold cancelWaiter
  split
  case h_1 =>
    refine hi.pass (s.credit + 1) rfl (fun _ => .inl (Nat.succ_pos _))
      (fun _ => Nat.succ_pos _) ?_
    rintro out ⟨⟩
    rfl
  case h_2 ho =>
    refine hi.pass _ rfl (fun hu => ?_) ?_ ?_
    · have hold := hi.woken hu
      rw [hw] at hold
      exact hold
    · rw [ho]
      rintro ⟨⟩
    · rw [ho]
      rintro _ ⟨⟩
  case h_3 => exact hi.refuse hw

/-- A cancel ends a wait for a descriptor. -/
theorem Inv.kick (hi : Inv s) (hw : s.pc = .waitFd) :
    Inv { s with pc := .readied true, must := true, spent := !s.must || s.spent
                 asked := s.asked + 1 } := by
  have hnone : s.unspent = false := by
    by_contra hu
    have hwoken := hi.woken (by simpa using hu)
    rw [hw] at hwoken
    exact hwoken
  have hsame : State.unspent { s with pc := .readied true, must := true, spent := !s.must || s.spent
                                      asked := s.asked + 1 } = false := by
    simpa [State.unspent] using hnone
  constructor
  case count =>
    have hc := hi.count
    rw [State.due, hnone, hw] at hc
    rw [State.due, hsame]
    show s.raised + (0 + 1) ≤ s.asked + 1
    have : s.raised + (0 + 0) ≤ s.asked := hc
    omega
  case coming =>
    intro _ _ _
    rw [State.due, hsame]
    exact Nat.one_pos
  case missed => exact hi.missed
  case woken => rw [hsame]; rintro ⟨⟩
  case ended => rintro _ ⟨⟩
  case taken => rintro _ _ ⟨⟩

theorem cancel_inv {a : Answer} (hi : Inv s) (hok : amiss s (.cancel a) = false)
    (hs : cancel s a = some t) : Inv t := by
  unfold cancel at hs
  split at hs <;> cases hs
  case h_1 => exact hi
  case h_2 w hw => exact cancelWaiter_inv hi hw
  case h_3 hw | h_4 hw =>
    exact hi.mark s.credit (by rw [hw]; rintro _ ⟨⟩) (by rw [hw]; trivial)
  case h_5 hw => exact hi.kick hw
  case h_6 hw | h_9 hw =>
    exact hi.mark (s.credit + 1) (by rw [hw]; rintro _ ⟨⟩) (by rw [hw]; trivial)
  case h_7 hw =>
    exact hi.mark (s.credit + 1) (by rw [hw]; rintro _ ⟨⟩)
      (by rw [hw]; exact Nat.succ_pos _)
  case h_8 cancelled hw =>
    have hc : cancelled = true := by
      cases cancelled with
      | true => rfl
      | false => simp [amiss, hw] at hok
    subst hc
    exact hi.mark (s.credit + 1) (by rw [hw]; rintro _ ⟨⟩)
      (by rw [hw]; exact Nat.succ_pos _)

/-- A flag that is not left over stands for a cancel. -/
theorem unspent_of_must (hm : s.must = true) (hok : (s.must && s.spent) = false) :
    s.unspent = true := by
  simp only [State.unspent, hm, Bool.true_and] at hok ⊢
  rw [hok]
  rfl

theorem unspent_of_not_must (hm : s.must = false) : s.unspent = false := by
  simp [State.unspent, hm]

theorem advance_inv (hi : Inv s) (hok : amiss s .advance = false) (hs : advance s = some t) :
    Inv t := by
  unfold advance at hs
  split at hs
  case h_1 hw | h_2 hw =>
    have hok : (s.must && s.spent) = false := by simpa [amiss, hw] using hok
    split at hs <;> cases hs
    case isTrue hm => exact hi.raise_flag (unspent_of_must hm hok)
    case isFalse hm =>
      exact hi.resume (unspent_of_not_must (by simpa using hm)) (by rw [hw]; rfl)
        (by rw [hw]; rintro ⟨⟩)
  case h_3 hw =>
    cases hs
    refine hi.raise (by rw [hw]; rfl) fun hu => ?_
    have hwoken := hi.woken hu
    rw [hw] at hwoken
    exact hwoken.elim
  case h_4 x hne hw =>
    cases hs
    cases x with
    | error =>
      have hok : s.unspent = false := by simpa [amiss, hw] using hok
      exact hi.resume hok (by rw [hw]; rfl) (by rw [hw]; rintro ⟨⟩)
    | cancel ours =>
      cases ours with
      | true => exact absurd rfl hne
      | false =>
        have hok : s.unspent = false := by simpa [amiss, hw] using hok
        exact hi.resume hok (by rw [hw]; rfl) (by rw [hw]; rintro ⟨⟩)
  case h_5 => cases hs

theorem wake_inv {w : Wait} (hi : Inv s) (hw : s.pc = .parked w)
    (hok : amiss s .wake = false) (hs : wake s w = some t) : Inv t := by
  unfold wake at hs
  split at hs
  case h_1 => cases hs
  case h_2 n hn =>
    dsimp only at hs
    split at hs
    case isTrue hm =>
      cases hs
      have hflag := unspent_of_must hm hok
      have hc := hi.count
      rw [State.due, hflag, Bool.toNat_true] at hc
      constructor
      case count =>
        show s.raised + (0 + 1) ≤ s.asked
        omega
      case coming => exact fun _ _ _ => Nat.one_pos
      case missed => exact hi.missed
      case woken => rintro ⟨⟩
      case ended => rintro _ ⟨⟩
      case taken => rintro _ _ ⟨⟩
    case isFalse hm =>
      have hflag := unspent_of_not_must (s := s) (by simpa using hm)
      have hover : s.pc ≠ .returned := by rw [hw]; rintro ⟨⟩
      split at hs <;> cases hs
      case h_1 ho =>
        refine hi.goto s.pc n rfl hover (by rw [hflag]; rintro ⟨⟩) ?_ ?_
        · intro v hv
          rw [hw] at hv
          cases hv
          rw [ho]
          rintro ⟨⟩
        · exact hi.taken
      case h_2 out ho =>
        refine hi.goto _ n ?_ hover (by rw [hflag]; rintro ⟨⟩) (by rintro _ ⟨⟩) (by rintro _ _ ⟨⟩)
        rw [hw]
        -- a future that took the cancel ends with it
        cases htaken : w.taken with
        | true =>
          rw [hi.taken w out hw htaken ho]
          simp [throwOf, Pc.due, htaken]
        | false => cases out <;> simp [throwOf, Pc.due, htaken]

theorem Inv.recredit (hi : Inv s) (hw : s.pc = .blocking) (left : ℕ) :
    Inv { s with credit := left } := by
  refine hi.goto s.pc left rfl (by rw [hw]; rintro ⟨⟩) ?_ ?_ hi.taken
  · rw [hw]
    exact fun _ => trivial
  · rw [hw]
    rintro _ ⟨⟩

theorem blockReturn_inv {ok : Bool} {slot : Slot} {left : ℕ} (hi : Inv s) (hw : s.pc = .blocking)
    (hok : amiss s (.blockReturn ok slot left) = false) :
    Inv (blockReturn { s with credit := left } ok slot) := by
  have ht := hi.recredit hw left
  have hover : s.pc ≠ .returned := by rw [hw]; rintro ⟨⟩
  have hdue : s.pc.due = 0 := by rw [hw]; rfl
  unfold blockReturn
  cases ok with
  | false => exact ht.resume hok hdue hover
  | true =>
    cases slot with
    | other => exact ht.resume hok hdue hover
    | mine =>
      dsimp only
      rw [if_pos rfl]
      split
      case isTrue hm => exact ht.raise_flag (unspent_of_must hm hok)
      case isFalse hm => exact ht.resume (unspent_of_not_must (by simpa using hm)) hdue hover

theorem yields_inv {y : Yield} (hi : Inv s) (hw : s.pc = .running) : Inv (yields s y) := by
  have hover : s.pc ≠ .returned := by rw [hw]; rintro ⟨⟩
  have hdue : s.pc.due = 0 := by rw [hw]; rfl
  unfold yields
  split
  case h_1 => exact hi.goto _ _ hdue.symm hover (fun _ => trivial) (by rintro _ ⟨⟩) (by rintro _ _ ⟨⟩)
  case h_2 => exact hi.goto _ _ hdue.symm hover (fun _ => trivial) (by rintro _ ⟨⟩) (by rintro _ _ ⟨⟩)
  case h_3 out =>
    cases out <;> exact hi.goto _ _ hdue.symm hover (fun _ => trivial) (by rintro _ ⟨⟩) (by rintro _ _ ⟨⟩)
  case h_4 =>
    refine hi.goto _ _ hdue.symm hover ?_ ?_ ?_
    · intro hu
      have hwoken := hi.woken hu
      rw [hw] at hwoken
      exact .inl hwoken
    · rintro w ⟨⟩
      rintro ⟨⟩
    · rintro w out ⟨⟩
      rintro ⟨⟩

theorem Pc.Woken.credited {pc : Pc} {credit : ℕ} (h : pc.Woken credit) :
    pc.Woken (credit + 1) := by
  cases pc with
  | running => exact Nat.succ_pos _
  | parked w => exact .inl (Nat.succ_pos _)
  | readied cancelled =>
    cases cancelled with
    | true => exact Nat.succ_pos _
    | false => exact h
  | top throw =>
    match throw, h with
    | none, h => exact h
    | some .error, h => exact h
    | some (.cancel true), h => exact h
    | some (.cancel false), h => exact h
  | _ => exact h

theorem Inv.credited (hi : Inv s) : Inv s.credited where
  count := hi.count
  coming := hi.coming
  missed := hi.missed
  woken := fun hu => (hi.woken hu).credited
  ended := fun _ _ _ => Nat.succ_pos _
  taken := hi.taken

theorem complete_inv {out : Out} {pending taken refused : Bool} (hi : Inv s)
    (hw : s.pc = .parked ⟨none, pending, taken, refused⟩)
    (hok : amiss s (.complete out) = false) :
    Inv (State.credited { s with pc := .parked ⟨some out, pending, taken, refused⟩ }) := by
  refine hi.goto _ (s.credit + 1) (by rw [hw]; rfl) (by rw [hw]; rintro ⟨⟩)
    (fun _ => .inl (Nat.succ_pos _)) (fun _ _ _ => Nat.succ_pos _) ?_
  rintro w x ⟨⟩ htaken ⟨⟩
  simp only [amiss, hw] at hok
  have htaken : taken = true := htaken
  simpa [htaken] using hok

theorem step_inv {a : Action} (hi : Inv s) (hok : amiss s a = false) (hs : step s a = some t) :
    Inv t := by
  cases a with
  | cancel a => exact cancel_inv hi hok hs
  | advance => exact advance_inv hi hok hs
  | stray =>
    cases hs
    exact hi.credited
  | spawn =>
    simp only [step] at hs
    split at hs <;> cases hs
    case h_1 hw =>
      by_cases ha : 0 < s.asked
      · rw [if_pos ha]
        exact hi.goto _ s.credit (by rw [hw]; rfl) (by rw [hw]; rintro ⟨⟩)
          (fun _ => trivial) (by rintro _ ⟨⟩) (by rintro _ _ ⟨⟩)
      · rw [if_neg ha]
        exact hi.goto _ s.credit (by rw [hw]; rfl) (by rw [hw]; rintro ⟨⟩)
          (fun _ => trivial) (by rintro _ ⟨⟩) (by rintro _ _ ⟨⟩)
  | waitFd =>
    simp only [step] at hs
    split at hs <;> cases hs
    case h_1 hw =>
      refine hi.goto _ s.credit (by rw [hw]; rfl) (by rw [hw]; rintro ⟨⟩) ?_ (by rintro _ ⟨⟩) (by rintro _ _ ⟨⟩)
      intro hu
      simp [amiss, hu] at hok
  | ready =>
    simp only [step] at hs
    split at hs <;> cases hs
    case h_1 hw =>
      refine hi.goto _ s.credit (by rw [hw]; rfl) (by rw [hw]; rintro ⟨⟩) ?_ (by rintro _ ⟨⟩) (by rintro _ _ ⟨⟩)
      intro hu
      have hwoken := hi.woken hu
      rw [hw] at hwoken
      exact hwoken
  | waitReturn =>
    simp only [step] at hs
    split at hs <;> cases hs
    case h_1 hw =>
      refine hi.raise (by rw [hw]; rfl) fun hu => ?_
      have hwoken := hi.woken hu
      rw [hw] at hwoken
      exact hwoken
    case h_2 hw =>
      refine hi.resume ?_ (by rw [hw]; rfl) (by rw [hw]; rintro ⟨⟩)
      by_contra hu
      have hwoken := hi.woken (by simpa using hu)
      rw [hw] at hwoken
      exact hwoken
  | block | finish =>
    simp only [step] at hs
    split at hs <;> cases hs
    case h_1 hw =>
      exact hi.goto _ s.credit (by rw [hw]; rfl) (by rw [hw]; rintro ⟨⟩)
        (fun _ => trivial) (by rintro _ ⟨⟩) (by rintro _ _ ⟨⟩)
  | blockReturn ok slot left =>
    simp only [step] at hs
    split at hs <;> cases hs
    case h_1 hw => exact blockReturn_inv hi hw hok
  | yield y =>
    simp only [step] at hs
    split at hs <;> cases hs
    case h_1 hw => exact yields_inv hi hw
  | complete out =>
    simp only [step] at hs
    split at hs <;> cases hs
    case h_1 hw => exact complete_inv hi hw hok
  | wake =>
    simp only [step] at hs
    split at hs
    case h_1 w hw => exact wake_inv hi hw hok hs
    case h_2 => cases hs
  | steal =>
    simp only [step] at hs
    split at hs <;> cases hs
    have hspent : s.spent = true := by simpa [amiss] using hok
    -- a left over flag stands for nothing
    have hsame : s.unmark.due = s.due := by
      simp [State.due, State.unspent, State.unmark, hspent]
    constructor
    case count => rw [hsame]; exact hi.count
    case coming => rw [hsame]; exact hi.coming
    case missed => exact hi.missed
    case woken => rintro ⟨⟩
    case ended => exact hi.ended
    case taken => exact hi.taken

end Steps

theorem reachable_inv {s : State} (hr : Reachable regular s) : Inv s := by
  refine Reachable.invariant ?_ ?_ hr
  · rintro s rfl
    exact inv_init
  · intro s a t _ hi hs
    obtain ⟨hok, hs⟩ := System.restrict_step.mp hs
    exact step_inv hi hok hs

/-! ## Once and not lost -/

/-- The first `CancelledError` of a task that was asked to cancel is on its way: a pending
flag ends the next suspension, a suspended coroutine waits for nothing but a future that
was asked, and no wait for a descriptor is in between. -/
def State.Coming (s : State) : Prop :=
  match s.pc with
  | .unspawned | .fresh | .top none | .running | .blocking => s.must = true
  | .top (some x) => x = .cancel true ∨ s.must = true
  | .waitFd => False
  | .readied cancelled => cancelled = true
  | .parked w =>
    (s.must = true ∨ w.out = some .cancelled) ∧ 0 < s.credit ∨
      w.out = none ∧ (w.taken = true ∨ w.refused = true)
  | .returned => True

structure Once (s : State) : Prop where
  most : s.raised ≤ s.asked
  /-- no suspension or wait ended otherwise while the first was owed -/
  least : s.missed = false
  coming : 0 < s.asked → s.raised = 0 → s.Coming

theorem must_of_unspent {s : State} (hu : s.unspent = true) : s.must = true := by
  simp only [State.unspent, Bool.and_eq_true] at hu
  exact hu.1

theorem Inv.coming_parked {s : State} {w : Wait} (hi : Inv s) (hw : s.pc = .parked w)
    (hdue : 0 < s.unspent.toNat + w.taken.toNat) :
    (s.must = true ∨ w.out = some .cancelled) ∧ 0 < s.credit ∨
      w.out = none ∧ (w.taken = true ∨ w.refused = true) := by
  cases hu : s.unspent with
  | true =>
    have hwoken := hi.woken hu
    rw [hw] at hwoken
    rcases hwoken with hc | ⟨ho, href⟩
    · exact .inl ⟨.inl (must_of_unspent hu), hc⟩
    · exact .inr ⟨ho, .inr href⟩
  | false =>
    have htaken : w.taken = true := by
      rw [hu] at hdue
      cases ht : w.taken with
      | true => rfl
      | false => simp [ht] at hdue
    cases ho : w.out with
    | none => exact .inr ⟨rfl, .inl htaken⟩
    | some out =>
      have hout := hi.taken w out hw htaken ho
      exact .inl ⟨.inr (by rw [hout]), hi.ended w hw (by rw [ho]; rfl)⟩

theorem Inv.once {s : State} (hi : Inv s) : Once s := by
  refine ⟨Nat.le_trans (Nat.le_add_right _ _) hi.count, hi.missed, fun ha hr => ?_⟩
  -- a flag is the only route that is open in most places
  have hflag : s.pc ≠ .returned → s.pc.due = 0 → s.unspent = true := by
    intro hover hzero
    have hdue := hi.coming ha hr hover
    rw [State.due, hzero] at hdue
    cases hu : s.unspent with
    | true => rfl
    | false => simp [hu] at hdue
  have hmust : s.pc ≠ .returned → s.pc.due = 0 → s.must = true := fun hover hzero =>
    must_of_unspent (hflag hover hzero)
  unfold State.Coming
  split
  case h_1 hw | h_2 hw | h_3 hw | h_4 hw | h_5 hw =>
    exact hmust (by rw [hw]; rintro ⟨⟩) (by rw [hw]; rfl)
  case h_6 x hw =>
    cases x with
    | error => exact .inr (hmust (by rw [hw]; rintro ⟨⟩) (by rw [hw]; rfl))
    | cancel ours =>
      cases ours with
      | true => exact .inl rfl
      | false => exact .inr (hmust (by rw [hw]; rintro ⟨⟩) (by rw [hw]; rfl))
  case h_7 hw =>
    have hwoken := hi.woken (hflag (by rw [hw]; rintro ⟨⟩) (by rw [hw]; rfl))
    rw [hw] at hwoken
    exact hwoken
  case h_8 cancelled hw =>
    cases cancelled with
    | true => rfl
    | false =>
      have hwoken := hi.woken (hflag (by rw [hw]; rintro ⟨⟩) (by rw [hw]; rfl))
      rw [hw] at hwoken
      exact hwoken.elim
  case h_9 w hw =>
    have hdue := hi.coming ha hr (by rw [hw]; rintro ⟨⟩)
    rw [State.due, hw] at hdue
    exact hi.coming_parked hw hdue
  case h_10 => trivial

/-- In every run that meets the condition a task gets at most as many `CancelledError`s as
it was asked for, and its first one is not lost. -/
theorem reachable_once {s : State} (hr : Reachable regular s) : Once s :=
  (reachable_inv hr).once

/-- A cancel while suspended, one while blocked and one while running: the coroutine
catches each. -/
theorem reachable_once_three :
    ∃ s, Reachable regular s ∧ s.asked = 3 ∧ s.raised = 3 ∧ Once s := by
  have hr : Reachable regular _ := reachable_of_run regular
    [.spawn, .advance, .yield (.future none), .cancel .cancels, .wake, .advance,
      .block, .cancel .refuses, .blockReturn true .mine 0,
      .cancel .refuses, .yield (.future none), .wake, .advance] rfl rfl
  exact ⟨_, hr, rfl, rfl, reachable_once hr⟩

/-- One cancel finds the task in `_wait_fd`; the coroutine catches the `CancelledError`
and suspends, and gets a second one. -/
theorem waitFd_raises_twice :
    ∃ s, Reachable system s ∧ s.asked = 1 ∧ s.raised = 2 ∧ ¬ Once s := by
  have hr : Reachable system _ := reachable_of_run system
    [.spawn, .advance, .waitFd, .cancel .refuses, .waitReturn, .yield .bare, .advance] rfl rfl
  refine ⟨_, hr, rfl, rfl, fun h => ?_⟩
  exact absurd h.most (by decide)

/-- A cancel that is pending does not end a `_wait_fd`, and the coroutine goes on from it. -/
theorem waitFd_misses :
    ∃ s, Reachable system s ∧ s.asked = 1 ∧ s.raised = 0 ∧ s.pc = .returned ∧ ¬ Once s := by
  have hr : Reachable system _ := reachable_of_run system
    [.spawn, .advance, .cancel .refuses, .waitFd, .ready, .waitReturn, .finish] rfl rfl
  refine ⟨_, hr, rfl, rfl, rfl, fun h => ?_⟩
  exact absurd h.least (by decide)

end Stackweave.Aio.Task
