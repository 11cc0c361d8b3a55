import Mathlib.Data.List.Basic
import Mathlib.Logic.Function.Basic
import Mathlib.Tactic.Common
import Stackweave.Transition

/-!
# `CoEvent` (`monkey/events.py`)

Any number of fibers in `set`, `clear` and `wait`, timed or not. Guarded sections and
single reads of the flag are steps. A park returns when the fiber was woken and may also
return at any time, by its deadline or for no reason.

`wait` reads the flag again and again, and acts on what it has read. Two of its reads decide
that there is nothing to wait for any more, and a later read can say the contrary if a `clear`
came between.
-/

namespace Stackweave.Monkey.Event

open Transition Function

/-- What a fiber does next; `p` is the parker of its `wait`. -/
inductive Pc
  | idle
  /-- back from a `wait` -/
  | returned (result timed : Bool)
  /-- at the first read of the flag -/
  | entering (timed : Bool)
  | enrolling (p : ℕ) (timed : Bool)
  /-- at the test of the loop; `seen`: since the last park a read has found the flag set -/
  | loop (p : ℕ) (timed seen : Bool)
  | parked (p : ℕ) (timed : Bool)
  /-- at the read after the park -/
  | recheck (p : ℕ) (timed : Bool)
  | enrollAgain (p : ℕ) (timed : Bool)
  | leaving (p : ℕ) (timed : Bool)
  | releasing (p : ℕ) (timed : Bool)
  /-- at the read that is returned -/
  | final (timed : Bool)
  /-- in `_unpark_all`: the parkers to look at, the fibers to wake -/
  | collecting (ps gs : List ℕ)
  | waking (gs : List ℕ)
  deriving DecidableEq

/-- Parkers are numbered; `host` is the fiber of a parker, and a released parker has lost
its handle. -/
structure State where
  flag : Bool
  waiters : List ℕ
  next : ℕ
  host : ℕ → ℕ
  released : ℕ → Bool
  pc : ℕ → Pc
  woken : ℕ → Bool

def init : State :=
  { flag := false, waiters := [], next := 0, host := fun _ => 0, released := fun _ => false
    pc := fun _ => .idle, woken := fun _ => false }

inductive Action
  | set (f : ℕ)
  | clear (f : ℕ)
  | wait (f : ℕ) (timed : Bool)
  | resume (f : ℕ)
  | spurious (f : ℕ)
  | expire (f : ℕ)
  | fiber (f : ℕ)

@[grind =]
def Pc.rests : Pc → Bool
  | .idle | .returned _ _ => true
  | _ => false

def State.goto (s : State) (f : ℕ) (q : Pc) : State :=
  { s with pc := Function.update s.pc f q }

/-- The next step of a fiber inside `wait` or `_unpark_all`. -/
def fiberStep (s : State) (f : ℕ) : Option State :=
  match s.pc f with
  | .entering timed =>
    if s.flag then some (s.goto f (.returned true timed))
    else
      some (State.goto { s with next := s.next + 1, host := Function.update s.host s.next f } f
        (.enrolling s.next timed))
  | .enrolling p timed =>
    if s.flag then
      some (State.goto { s with released := Function.update s.released p true } f
        (.returned true timed))
    else some (State.goto { s with waiters := s.waiters ++ [p] } f (.loop p timed false))
  | .loop p timed _ =>
    if s.flag then some (s.goto f (.leaving p timed)) else some (s.goto f (.parked p timed))
  | .recheck p timed =>
    if s.flag then some (s.goto f (.loop p timed true)) else some (s.goto f (.enrollAgain p timed))
  | .enrollAgain p timed =>
    if s.flag then some (s.goto f (.loop p timed true))
    else if p ∈ s.waiters then some (s.goto f (.loop p timed false))
    else some (State.goto { s with waiters := s.waiters ++ [p] } f (.loop p timed false))
  | .leaving p timed =>
    some (State.goto { s with waiters := s.waiters.erase p } f (.releasing p timed))
  | .releasing p timed =>
    some (State.goto { s with released := Function.update s.released p true } f (.final timed))
  | .final timed => some (s.goto f (.returned s.flag timed))
  | .collecting (p :: ps) gs =>
    some (s.goto f (.collecting ps (if s.released p then gs else gs ++ [s.host p])))
  | .collecting [] gs => some (s.goto f (.waking gs))
  | .waking (g :: gs) =>
    some (State.goto { s with woken := Function.update s.woken g true } f (.waking gs))
  | .waking [] => some (s.goto f .idle)
  | _ => none

/-- The fibers are those below `n`. -/
@[grind =]
def step (n : ℕ) (s : State) : Action → Option State
  | .set f =>
    if f < n ∧ (s.pc f).rests = true then
      if s.flag then some (s.goto f .idle)
      else some (State.goto { s with flag := true, waiters := [] } f (.collecting s.waiters []))
    else none
  | .clear f =>
    if f < n ∧ (s.pc f).rests = true then some (State.goto { s with flag := false } f .idle)
    else none
  | .wait f timed =>
    if f < n ∧ (s.pc f).rests = true then some (s.goto f (.entering timed)) else none
  | .resume f =>
    match s.pc f with
    | .parked p timed =>
      if s.woken f then
        some (State.goto { s with woken := Function.update s.woken f false } f (.recheck p timed))
      else none
    | _ => none
  | .spurious f =>
    match s.pc f with
    | .parked p timed => some (s.goto f (.recheck p timed))
    | _ => none
  | .expire f =>
    -- the loop test finds the flag clear and the deadline passed
    match s.pc f with
    | .loop p true _ => if s.flag then none else some (s.goto f (.leaving p true))
    | _ => none
  | .fiber f => fiberStep s f

def system (n : ℕ) : System State Action where
  init s := s = init
  step := step n

/-- The fiber has found the flag set in the loop of its `wait` and has not returned. A timed
one may return false, so it counts only until it has left the loop. -/
@[grind =]
def Pc.late : Pc → Bool
  | .loop _ _ true => true
  | .leaving _ false | .releasing _ false | .final false => true
  | _ => false

/-- A `clear` over the head of such a fiber. -/
def clearsLate (n : ℕ) (s : State) : Action → Bool
  | .clear _ => (List.range n).any fun f => (s.pc f).late
  | _ => false

def soundSystem (n : ℕ) : System State Action :=
  (system n).restrict fun s a => clearsLate n s a = false

/-- A `set` that has yet to wake. -/
@[grind =]
def Pc.sets : Pc → Bool
  | .collecting _ _ | .waking _ => true
  | _ => false

/-- An untimed `wait` returns true. Where the flag is set nobody is queued, and once no `set`
is in progress every parked fiber is woken. -/
structure Sound (s : State) : Prop where
  truthful : ∀ f result, s.pc f = .returned result false → result = true
  unqueued : s.flag = true → s.waiters = []
  woken : s.flag = true → (∀ e, (s.pc e).sets = false) → ∀ f p timed, s.pc f = .parked p timed →
    s.woken f = true

/-! ## The invariant -/

def Pc.parker : Pc → Option ℕ
  | .enrolling p _ | .loop p _ _ | .parked p _ | .recheck p _ | .enrollAgain p _ => some p
  | .leaving p _ | .releasing p _ => some p
  | _ => none

/-- The fiber may go on to park with no further look at the queue. -/
def Pc.waitsOn : Pc → Option ℕ
  | .loop p _ false | .parked p _ => some p
  | _ => none

/-- The fiber is going to wake the fiber `g` of the parker `p`. -/
def Pc.Carries (p g : ℕ) : Pc → Prop
  | .collecting ps gs => p ∈ ps ∨ g ∈ gs
  | .waking gs => g ∈ gs
  | _ => False

def Pending (s : State) (p g : ℕ) : Prop := s.woken g = true ∨ ∃ e, (s.pc e).Carries p g

structure Inv (n : ℕ) (s : State) : Prop where
  bound : ∀ f, n ≤ f → s.pc f = .idle
  empty : s.flag = true → s.waiters = []
  late : ∀ f, (s.pc f).late = true → s.flag = true
  truthful : ∀ f result, s.pc f = .returned result false → result = true
  hosts : ∀ f p, (s.pc f).parker = some p → s.host p = f ∧ s.released p = false ∧ p < s.next
  fresh : ∀ p, s.next ≤ p → s.released p = false
  attended : ∀ f p, (s.pc f).waitsOn = some p → p ∈ s.waiters ∨ Pending s p f

theorem inv_init (n : ℕ) : Inv n init where
  bound _ _ := rfl
  empty := by rintro ⟨⟩
  late := by rintro _ ⟨⟩
  truthful := by rintro _ _ ⟨⟩
  hosts := by rintro _ _ ⟨⟩
  fresh _ _ := rfl
  attended := by rintro _ _ ⟨⟩

theorem Pc.parker_of_waitsOn {q : Pc} {p : ℕ} (h : q.waitsOn = some p) : q.parker = some p := by
  cases q with
  | loop r timed seen =>
    cases seen with
    | false => exact h
    | true => cases h
  | parked r timed => exact h
  | idle | returned | entering | enrolling | recheck | enrollAgain | leaving | releasing | final
  | collecting | waking => cases h

/-- What the step of one fiber leaves alone. -/
structure Frame (s t : State) (f : ℕ) (q : Pc) : Prop where
  pc : t.pc = Function.update s.pc f q
  stays : ∀ p ∈ s.waiters, (s.pc f).parker ≠ some p → p ∈ t.waiters ∨ q.Carries p (t.host p)
  woken : ∀ e, e ≠ f → s.woken e = true → t.woken e = true
  next : s.next ≤ t.next
  host : ∀ p, p < s.next → t.host p = s.host p
  released : ∀ p, (s.pc f).parker ≠ some p → t.released p = s.released p
  carries : ∀ p e, s.host p = e → s.released p = false → (s.pc f).Carries p e →
    q.Carries p e ∨ t.woken e = true

/-- What the fiber itself is then to meet. -/
structure Arrives (s t : State) (f : ℕ) (q : Pc) : Prop where
  late : q.late = true → t.flag = true
  truthful : ∀ result, q = .returned result false → result = true
  hosts : ∀ p, q.parker = some p → t.host p = f ∧ t.released p = false ∧ p < t.next
  attended : ∀ p, q.waitsOn = some p → p ∈ t.waiters ∨ Pending t p f

section Steps

variable {n : ℕ} {s t : State} {f : ℕ} {q : Pc}

theorem Inv.move (q : Pc) (hi : Inv n s) (hf : f < n) (hfr : Frame s t f q) (har : Arrives s t f q)
    (hempty : t.flag = true → t.waiters = [])
    (hlate : ∀ e, (s.pc e).late = true → t.flag = true) : Inv n t := by
  have hself : t.pc f = q := by rw [hfr.pc, update_self]
  have hother : ∀ e, e ≠ f → t.pc e = s.pc e := fun e he => by
    rw [hfr.pc, update_of_ne he]
  -- the parker of another fiber is not the one of this fiber
  have hown : ∀ e p, e ≠ f → (s.pc e).parker = some p → (s.pc f).parker ≠ some p := by
    intro e p he hp hx
    exact he ((hi.hosts e p hp).1.symm.trans (hi.hosts f p hx).1)
  constructor
  case bound =>
    intro e he
    rw [hother e (by omega)]
    exact hi.bound e he
  case empty => exact hempty
  case late =>
    intro e he
    by_cases hef : e = f
    · rw [hef, hself] at he
      exact har.late he
    · rw [hother e hef] at he
      exact hlate e he
  case truthful =>
    intro e result he
    by_cases hef : e = f
    · rw [hef, hself] at he
      exact har.truthful result he
    · rw [hother e hef] at he
      exact hi.truthful e result he
  case hosts =>
    intro e p hp
    by_cases hef : e = f
    · rw [hef, hself] at hp
      rw [hef]
      exact har.hosts p hp
    · rw [hother e hef] at hp
      obtain ⟨hhost, hrel, hlt⟩ := hi.hosts e p hp
      refine ⟨(hfr.host p hlt).trans hhost, ?_, Nat.lt_of_lt_of_le hlt hfr.next⟩
      rw [hfr.released p (hown e p hef hp)]
      exact hrel
  case fresh =>
    intro p hp
    have hle := Nat.le_trans hfr.next hp
    rw [hfr.released p fun hx => Nat.not_lt.mpr hle (hi.hosts f p hx).2.2]
    exact hi.fresh p hle
  case attended =>
    intro e p hp
    by_cases hef : e = f
    · rw [hef, hself] at hp
      rw [hef]
      exact har.attended p hp
    · rw [hother e hef] at hp
      have hpark := Pc.parker_of_waitsOn hp
      obtain ⟨hhost, hrel, hlt⟩ := hi.hosts e p hpark
      rcases hi.attended e p hp with hm | hw | ⟨d, hd⟩
      · rcases hfr.stays p hm (hown e p hef hpark) with hm | hc
        · exact .inl hm
        · rw [hfr.host p hlt, hhost] at hc
          exact .inr (.inr ⟨f, by rw [hself]; exact hc⟩)
      · exact .inr (.inl (hfr.woken e hef hw))
      · by_cases hdf : d = f
        · rw [hdf] at hd
          rcases hfr.carries p e hhost hrel hd with hc | hw
          · exact .inr (.inr ⟨f, by rw [hself]; exact hc⟩)
          · exact .inr (.inl hw)
        · exact .inr (.inr ⟨d, by rw [hother d hdf]; exact hd⟩)

/-- A step that changes nothing but the pc. -/
theorem Frame.goto (hc : ∀ p e, (s.pc f).Carries p e → q.Carries p e) : Frame s (s.goto f q) f q :=
  ⟨rfl, fun _ hp _ => .inl hp, fun _ _ hw => hw, Nat.le_refl _, fun _ _ => rfl, fun _ _ => rfl,
    fun p e _ _ h => .inl (hc p e h)⟩

theorem Arrives.of_plain (hlate : q.late = true → t.flag = true)
    (htrue : ∀ result, q = .returned result false → result = true) (hp : q.parker = none) :
    Arrives s t f q := by
  refine ⟨hlate, htrue, fun p h => ?_, fun p h => ?_⟩
  · exact absurd (hp.symm.trans h) (by rintro ⟨⟩)
  · exact absurd (hp.symm.trans (Pc.parker_of_waitsOn h)) (by rintro ⟨⟩)

/-- The fiber keeps its parker. -/
theorem Arrives.same (hi : Inv n s) (hlate : q.late = true → t.flag = true)
    (hpark : q.parker = (s.pc f).parker) (hret : ∀ b, q ≠ .returned b false)
    (hhost : t.host = s.host) (hrel : t.released = s.released) (hnext : t.next = s.next)
    (hatt : ∀ p, q.waitsOn = some p → p ∈ t.waiters ∨ Pending t p f) : Arrives s t f q := by
  refine ⟨hlate, fun b h => absurd h (hret b), fun p h => ?_, hatt⟩
  rw [hhost, hrel, hnext]
  exact hi.hosts f p (hpark ▸ h)

/-- A step of a `wait` that changes nothing but the pc. -/
theorem Inv.walk (hi : Inv n s) (hf : f < n) (hc : ∀ p e, ¬ (s.pc f).Carries p e)
    (hpark : q.parker = (s.pc f).parker) (hret : ∀ b, q ≠ .returned b false)
    (hlate : q.late = true → s.flag = true)
    (hatt : ∀ p, q.waitsOn = some p → p ∈ s.waiters ∨ (s.pc f).waitsOn = some p) :
    Inv n (s.goto f q) := by
  refine hi.move q hf (.goto fun p e h => absurd h (hc p e)) ?_ hi.empty hi.late
  refine .same hi hlate hpark hret rfl rfl rfl fun p hp => ?_
  rcases hatt p hp with hm | hold
  · exact .inl hm
  · rcases hi.attended f p hold with hm | hw | ⟨d, hd⟩
    · exact .inl hm
    · exact .inr (.inl hw)
    · refine .inr (.inr ⟨d, ?_⟩)
      have hdf : d ≠ f := by
        rintro rfl
        exact hc p d hd
      show (update s.pc f q d).Carries p f
      rw [update_of_ne hdf]
      exact hd

/-- The parker is queued. -/
theorem Inv.enroll {p : ℕ} {timed : Bool} (hi : Inv n s) (hf : f < n)
    (hc : ∀ p e, ¬ (s.pc f).Carries p e) (hpark : (s.pc f).parker = some p)
    (hflag : s.flag = false) :
    Inv n (State.goto { s with waiters := s.waiters ++ [p] } f (.loop p timed false)) := by
  refine hi.move (.loop p timed false) hf ?_ ?_ (fun h => absurd (hflag.symm.trans h) (by rintro ⟨⟩)) hi.late
  · exact ⟨rfl, fun x hx _ => .inl (List.mem_append_left _ hx), fun _ _ hw => hw, Nat.le_refl _,
      fun _ _ => rfl, fun _ _ => rfl, fun x e _ _ h => absurd h (hc x e)⟩
  · refine .same hi (by rintro ⟨⟩) hpark.symm (by rintro _ ⟨⟩) rfl rfl rfl fun x hx => ?_
    cases hx
    exact .inl (List.mem_append_right _ List.mem_cons_self)

theorem Inv.fiberStep (hi : Inv n s) (hs : fiberStep s f = some t) : Inv n t := by
  have hf : f < n := by
    by_contra hge
    rw [Event.fiberStep, hi.bound f (by omega)] at hs
    cases hs
  unfold Event.fiberStep at hs
  split at hs
  case h_1 timed hpc =>
    have hc : ∀ p e, ¬ (s.pc f).Carries p e := by rw [hpc]; exact fun _ _ h => h
    have hpark : (s.pc f).parker = none := by rw [hpc]; rfl
    split at hs <;> cases hs
    case isTrue =>
      refine hi.move (.returned true timed) hf (.goto fun p e h => absurd h (hc p e))
        (.of_plain (by rintro ⟨⟩) ?_ rfl) hi.empty
        hi.late
      rintro b ⟨⟩
      rfl
    case isFalse =>
      refine hi.move (.enrolling s.next timed) hf ?_ ?_ hi.empty hi.late
      · refine ⟨rfl, fun x hx _ => .inl hx, fun _ _ hw => hw, Nat.le_succ _, fun x hx => ?_,
          fun _ _ => rfl, fun x e _ _ h => absurd h (hc x e)⟩
        exact update_of_ne (Nat.ne_of_lt hx) _ _
      · refine ⟨by rintro ⟨⟩, by rintro _ ⟨⟩, fun x hx => ?_, by rintro _ ⟨⟩⟩
        cases hx
        exact ⟨update_self _ _ _, hi.fresh _ (Nat.le_refl _), Nat.lt_succ_self _⟩
  case h_2 p timed hpc =>
    have hc : ∀ p e, ¬ (s.pc f).Carries p e := by rw [hpc]; exact fun _ _ h => h
    have hpark : (s.pc f).parker = some p := by rw [hpc]; rfl
    split at hs <;> cases hs
    case isTrue =>
      refine hi.move (.returned true timed) hf ?_ (.of_plain (by rintro ⟨⟩) ?_ rfl) hi.empty hi.late
      · refine ⟨rfl, fun x hx _ => .inl hx, fun _ _ hw => hw, Nat.le_refl _, fun _ _ => rfl,
          fun x hx => ?_, fun x e _ _ h => absurd h (hc x e)⟩
        exact update_of_ne (fun h => hx (by rw [h, hpark])) _ _
      · rintro b ⟨⟩
        rfl
    case isFalse hflag => exact hi.enroll hf hc hpark (by simpa using hflag)
  case h_3 p timed seen hpc =>
    have hc : ∀ p e, ¬ (s.pc f).Carries p e := by rw [hpc]; exact fun _ _ h => h
    have hpark : (s.pc f).parker = some p := by rw [hpc]; rfl
    split at hs <;> cases hs
    case isTrue hflag => exact hi.walk hf hc hpark.symm (by rintro _ ⟨⟩) (fun _ => hflag) (by rintro _ ⟨⟩)
    case isFalse hflag =>
      refine hi.walk hf hc hpark.symm (by rintro _ ⟨⟩) (by rintro ⟨⟩) fun x hx => .inr ?_
      cases hx
      cases seen with
      | false => rw [hpc]; rfl
      | true => exact absurd (hi.late f (by rw [hpc]; rfl)) hflag
  case h_4 p timed hpc =>
    have hc : ∀ p e, ¬ (s.pc f).Carries p e := by rw [hpc]; exact fun _ _ h => h
    have hpark : (s.pc f).parker = some p := by rw [hpc]; rfl
    split at hs <;> cases hs
    case isTrue hflag => exact hi.walk hf hc hpark.symm (by rintro _ ⟨⟩) (fun _ => hflag) (by rintro _ ⟨⟩)
    case isFalse => exact hi.walk hf hc hpark.symm (by rintro _ ⟨⟩) (by rintro ⟨⟩) (by rintro _ ⟨⟩)
  case h_5 p timed hpc =>
    have hc : ∀ p e, ¬ (s.pc f).Carries p e := by rw [hpc]; exact fun _ _ h => h
    have hpark : (s.pc f).parker = some p := by rw [hpc]; rfl
    split at hs
    case isTrue hflag =>
      cases hs
      exact hi.walk hf hc hpark.symm (by rintro _ ⟨⟩) (fun _ => hflag) (by rintro _ ⟨⟩)
    case isFalse hflag =>
      split at hs <;> cases hs
      case isTrue hin =>
        refine hi.walk hf hc hpark.symm (by rintro _ ⟨⟩) (by rintro ⟨⟩) fun x hx => .inl ?_
        cases hx
        exact hin
      case isFalse => exact hi.enroll hf hc hpark (by simpa using hflag)
  case h_6 p timed hpc =>
    have hc : ∀ p e, ¬ (s.pc f).Carries p e := by rw [hpc]; exact fun _ _ h => h
    have hpark : (s.pc f).parker = some p := by rw [hpc]; rfl
    cases hs
    refine hi.move (.releasing p timed) hf ?_ ?_ (fun h => ?_) hi.late
    · refine ⟨rfl, fun x hx hne => .inl ?_, fun _ _ hw => hw, Nat.le_refl _, fun _ _ => rfl,
        fun _ _ => rfl, fun x e _ _ h => absurd h (hc x e)⟩
      exact (List.mem_erase_of_ne fun h => hne (by rw [h, hpark])).mpr hx
    · refine .same hi (fun h => ?_) hpark.symm (by rintro _ ⟨⟩) rfl rfl rfl (by rintro _ ⟨⟩)
      refine hi.late f ?_
      rw [hpc]
      cases timed with
      | false => rfl
      | true => cases h
    · show s.waiters.erase p = []
      rw [hi.empty h]
      rfl
  case h_7 p timed hpc =>
    have hc : ∀ p e, ¬ (s.pc f).Carries p e := by rw [hpc]; exact fun _ _ h => h
    have hpark : (s.pc f).parker = some p := by rw [hpc]; rfl
    cases hs
    refine hi.move (.final timed) hf ?_ (.of_plain (fun h => ?_) (by rintro _ ⟨⟩) rfl) hi.empty hi.late
    · refine ⟨rfl, fun x hx _ => .inl hx, fun _ _ hw => hw, Nat.le_refl _, fun _ _ => rfl,
        fun x hx => ?_, fun x e _ _ h => absurd h (hc x e)⟩
      exact update_of_ne (fun h => hx (by rw [h, hpark])) _ _
    · refine hi.late f ?_
      rw [hpc]
      cases timed with
      | false => rfl
      | true => cases h
  case h_8 timed hpc =>
    have hc : ∀ p e, ¬ (s.pc f).Carries p e := by rw [hpc]; exact fun _ _ h => h
    cases hs
    refine hi.move (.returned s.flag timed) hf (.goto fun p e h => absurd h (hc p e))
      (.of_plain (by rintro ⟨⟩) ?_ rfl) hi.empty
      hi.late
    -- the flag has been set since the loop
    rintro b ⟨⟩
    exact hi.late f (by rw [hpc]; rfl)
  case h_9 p ps gs hpc =>
    cases hs
    refine hi.move (.collecting ps (if s.released p then gs else gs ++ [s.host p])) hf ?_
      (.of_plain (by rintro ⟨⟩) (by rintro _ ⟨⟩) rfl) hi.empty hi.late
    refine ⟨rfl, fun x hx _ => .inl hx, fun _ _ hw => hw, Nat.le_refl _, fun _ _ => rfl,
      fun _ _ => rfl, fun x e hhost hrel hx => .inl ?_⟩
    rw [hpc] at hx
    show x ∈ ps ∨ e ∈ if s.released p then gs else gs ++ [s.host p]
    rcases hx with hx | hx
    · rcases List.mem_cons.mp hx with rfl | hx
      · rw [if_neg (by rw [hrel]; rintro ⟨⟩), ← hhost]
        exact .inr (List.mem_append_right _ List.mem_cons_self)
      · exact .inl hx
    · right
      split
      · exact hx
      · exact List.mem_append_left _ hx
  case h_10 gs hpc =>
    cases hs
    refine hi.move (.waking gs) hf (.goto fun p e h => ?_) (.of_plain (by rintro ⟨⟩) (by rintro _ ⟨⟩) rfl) hi.empty
      hi.late
    rw [hpc] at h
    rcases h with h | h
    · cases h
    · exact h
  case h_11 g gs hpc =>
    cases hs
    refine hi.move (.waking gs) hf ?_ (.of_plain (by rintro ⟨⟩) (by rintro _ ⟨⟩) rfl) hi.empty hi.late
    have hwoken : ∀ e, e = g ∨ s.woken e = true → update s.woken g true e = true := by
      rintro e (rfl | hw)
      · exact update_self ..
      · by_cases heg : e = g
        · rw [heg, update_self]
        · rw [update_of_ne heg, hw]
    refine ⟨rfl, fun x hx _ => .inl hx, fun e _ hw => hwoken e (.inr hw), Nat.le_refl _,
      fun _ _ => rfl, fun _ _ => rfl, fun x e _ _ hx => ?_⟩
    rw [hpc] at hx
    rcases List.mem_cons.mp hx with hx | hx
    · exact .inr (hwoken e (.inl hx))
    · exact .inl hx
  case h_12 hpc =>
    cases hs
    refine hi.move .idle hf (.goto fun p e h => ?_) (.of_plain (by rintro ⟨⟩) (by rintro _ ⟨⟩) rfl) hi.empty hi.late
    rw [hpc] at h
    cases h
  case h_13 => cases hs

theorem rests_plain {q : Pc} (h : q.rests = true) :
    q.parker = none ∧ ∀ p e, ¬ q.Carries p e := by
  cases q <;> first | exact ⟨rfl, fun _ _ h => h⟩ | cases h

theorem Inv.step {a : Action} (hi : Inv n s) (hok : clearsLate n s a = false)
    (hs : step n s a = some t) : Inv n t := by
  cases a with
  | set f =>
    simp only [Event.step] at hs
    split at hs
    case isFalse => cases hs
    case isTrue hf =>
      obtain ⟨hpark, hc⟩ := rests_plain hf.2
      split at hs <;> cases hs
      case isTrue =>
        exact hi.move .idle hf.1 (.goto fun p e h => absurd h (hc p e)) (.of_plain (by rintro ⟨⟩) (by rintro _ ⟨⟩) rfl)
          hi.empty hi.late
      case isFalse =>
        refine hi.move (.collecting s.waiters []) hf.1 ?_ (.of_plain (by rintro ⟨⟩) (by rintro _ ⟨⟩) rfl) (fun _ => rfl)
          fun _ _ => rfl
        exact ⟨rfl, fun x hx _ => .inr (.inl hx), fun _ _ hw => hw, Nat.le_refl _, fun _ _ => rfl,
          fun _ _ => rfl, fun x e _ _ h => absurd h (hc x e)⟩
  | clear f =>
    simp only [Event.step] at hs
    split at hs <;> cases hs
    next hf =>
    obtain ⟨hpark, hc⟩ := rests_plain hf.2
    refine hi.move .idle hf.1 ?_ (.of_plain (by rintro ⟨⟩) (by rintro _ ⟨⟩) rfl) (by rintro ⟨⟩) fun e he => ?_
    · exact ⟨rfl, fun x hx _ => .inl hx, fun _ _ hw => hw, Nat.le_refl _, fun _ _ => rfl,
        fun _ _ => rfl, fun x e _ _ h => absurd h (hc x e)⟩
    · have hlt : e < n := by
        by_contra hge
        rw [hi.bound e (by omega)] at he
        cases he
      simp only [clearsLate, List.any_eq_false, List.mem_range] at hok
      exact absurd he (hok e hlt)
  | wait f timed =>
    simp only [Event.step] at hs
    split at hs <;> cases hs
    next hf =>
    obtain ⟨hpark, hc⟩ := rests_plain hf.2
    exact hi.move (.entering timed) hf.1 (.goto fun p e h => absurd h (hc p e))
      (.of_plain (by rintro ⟨⟩) (by rintro _ ⟨⟩) rfl)
      hi.empty hi.late
  | resume f =>
    simp only [Event.step] at hs
    split at hs
    case h_2 => cases hs
    case h_1 p timed hpc =>
      split at hs <;> cases hs
      have hf : f < n := by
        by_contra hge
        exact absurd ((hi.bound f (by omega)).symm.trans hpc) (by rintro ⟨⟩)
      refine hi.move (.recheck p timed) hf ?_ ?_ hi.empty hi.late
      · refine ⟨rfl, fun x hx _ => .inl hx, fun e he hw => ?_, Nat.le_refl _, fun _ _ => rfl,
          fun _ _ => rfl, fun x e _ _ h => by rw [hpc] at h; cases h⟩
        show update s.woken f false e = true
        rw [update_of_ne he]
        exact hw
      · exact .same hi (by rintro ⟨⟩) (by rw [hpc]; rfl) (by rintro _ ⟨⟩) rfl rfl rfl (by rintro _ ⟨⟩)
  | spurious f =>
    simp only [Event.step] at hs
    split at hs <;> cases hs
    next p timed hpc =>
    have hf : f < n := by
      by_contra hge
      exact absurd ((hi.bound f (by omega)).symm.trans hpc) (by rintro ⟨⟩)
    exact hi.walk hf (by rw [hpc]; exact fun _ _ h => h) (by rw [hpc]; rfl) (by rintro _ ⟨⟩) (by rintro ⟨⟩) (by rintro _ ⟨⟩)
  | expire f =>
    simp only [Event.step] at hs
    split at hs
    case h_2 => cases hs
    case h_1 p seen hpc =>
      split at hs <;> cases hs
      have hf : f < n := by
        by_contra hge
        exact absurd ((hi.bound f (by omega)).symm.trans hpc) (by rintro ⟨⟩)
      exact hi.walk hf (by rw [hpc]; exact fun _ _ h => h) (by rw [hpc]; rfl) (by rintro _ ⟨⟩) (by rintro ⟨⟩) (by rintro _ ⟨⟩)
  | fiber f => exact hi.fiberStep hs

theorem Inv.sound (hi : Inv n s) : Sound s := by
  refine ⟨hi.truthful, hi.empty, fun hflag hset f p timed hpc => ?_⟩
  rcases hi.attended f p (by rw [hpc]; rfl) with hm | hw | ⟨e, he⟩
  · rw [hi.empty hflag] at hm
    cases hm
  · exact hw
  · have hno := hset e
    cases hq : s.pc e with
    | collecting ps gs =>
      rw [hq] at hno
      cases hno
    | waking gs =>
      rw [hq] at hno
      cases hno
    | idle | returned | entering | enrolling | loop | parked | recheck | enrollAgain | leaving
    | releasing | final =>
      rw [hq] at he
      cases he

end Steps

/-- **`wait`** returns true if it is not timed, and where the flag is set leaves nobody parked
for good, in every run in which no `clear` falls between a read of a waiting fiber that finds
the flag set and its return. -/
theorem reachable_waits {n : ℕ} {s : State} (hr : Reachable (soundSystem n) s) : Sound s := by
  refine Inv.sound (n := n) (Reachable.invariant ?_ ?_ hr)
  · rintro _ rfl
    exact inv_init n
  · intro u a t _ hi hs
    obtain ⟨hok, hs⟩ := System.restrict_step.mp hs
    exact hi.step hok hs

/-- Fiber 0 parks; fiber 1 sets the event and wakes it. -/
def release : List Action :=
  .flatten [[.wait 0 false], .replicate 3 (.fiber 0), [.set 1], .replicate 4 (.fiber 1)]

/-- The event is cleared before fiber 0 resumes, so it queues again; a second `set` then
lets it go. -/
def pulse : List Action :=
  .flatten [release, [.clear 2, .resume 0], .replicate 3 (.fiber 0), [.set 1],
    .replicate 4 (.fiber 1), [.resume 0], .replicate 5 (.fiber 0)]

theorem reachable_waits_pulse :
    ∃ s, (soundSystem 3).run init pulse = some s ∧ s.pc 0 = .returned true false ∧ Sound s := by
  have hrun : ((soundSystem 3).run init pulse).any (fun s => s.pc 0 = .returned true false) =
      true := by decide +kernel
  obtain ⟨s, hs, h⟩ := (Option.any_eq_true _ _).mp hrun
  exact ⟨s, hs, of_decide_eq_true h,
    reachable_waits (reachable_of_run (soundSystem 3) pulse rfl hs)⟩

/-- The event is cleared after fiber 0 has left its loop. -/
def clearedAtExit : List Action :=
  .flatten [release, [.resume 0, .fiber 0, .fiber 0, .clear 2], .replicate 3 (.fiber 0)]

/-- The event is cleared between the read after the park and the test of the loop, and set
again. -/
def clearedAtTest : List Action :=
  .flatten [release, [.resume 0, .fiber 0, .clear 2, .fiber 0, .set 1], .replicate 2 (.fiber 1)]

/-- In the first run an untimed `wait` returns false. In the second a fiber is parked for
good, in no queue, while the flag is set and no `set` is in progress. -/
theorem clear_breaks_wait :
    (∃ s, (system 3).run init clearedAtExit = some s ∧ s.pc 0 = .returned false false ∧
      ¬ Sound s) ∧
    ∃ s, (system 3).run init clearedAtTest = some s ∧ s.pc 0 = .parked 0 false ∧
      s.flag = true ∧ s.waiters = [] ∧ s.woken 0 = false ∧ s.pc 1 = .idle ∧ s.pc 2 = .idle := by
  constructor
  · have hrun : ((system 3).run init clearedAtExit).any
        (fun s => s.pc 0 = .returned false false) = true := by decide +kernel
    obtain ⟨s, hs, h⟩ := (Option.any_eq_true _ _).mp hrun
    have hpc := of_decide_eq_true h
    exact ⟨s, hs, hpc, fun hsound => absurd (hsound.truthful 0 false hpc) (by rintro ⟨⟩)⟩
  · have hrun : ((system 3).run init clearedAtTest).any (fun s => s.pc 0 = .parked 0 false ∧
        s.flag = true ∧ s.waiters = [] ∧ s.woken 0 = false ∧ s.pc 1 = .idle ∧ s.pc 2 = .idle) =
        true := by decide +kernel
    obtain ⟨s, hs, h⟩ := (Option.any_eq_true _ _).mp hrun
    exact ⟨s, hs, of_decide_eq_true h⟩

end Stackweave.Monkey.Event
