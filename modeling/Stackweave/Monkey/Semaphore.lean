import Mathlib.Data.Int.Notation
import Mathlib.Data.List.Nodup
import Mathlib.Tactic.Common
import Stackweave.Transition

/-!
# `CoSemaphore` and `CoBoundedSemaphore` (`monkey/events.py`)

Any number of callers of `acquire` (fibers and foreign threads; blocking or not, timed
or not), `release` and `cancel_all`. What is done under `_guard` is one step, and so is each
read of a flag of a waiter or of `_cancelled` outside of it. A park returns when the
parker was woken, and may also return at any time; the clock is the choice to `expire`.

A waiter `[p, active, got_permit]` gets the next number. History: the permits taken under
the guard by an `acquire` itself, the waiters that were handed one, the permits
released, and what the calls with a waiter returned.
-/

namespace Stackweave.Monkey.Semaphore

open Transition Function

/-- What a caller does next. -/
inductive Pc
  | idle
  /-- what the last call returned, if anything -/
  | returned (result : Option Bool)
  /-- the last call raised -/
  | raised
  /-- a foreign thread polls `_value` -/
  | spin (timed : Bool)
  /-- it looks at its deadline and sleeps -/
  | spun (timed : Bool)
  /-- has built its parker and takes the guard again -/
  | register (timed : Bool)
  /-- `while not w[2]` -/
  | loop (timed : Bool) (w : ℕ)
  /-- `if self._cancelled` -/
  | check (timed : Bool) (w : ℕ)
  | deadline (timed : Bool) (w : ℕ)
  /-- the deadline has passed: takes the guard -/
  | inactive (w : ℕ)
  | parked (timed : Bool) (w : ℕ)
  /-- `return w[2]` -/
  | leave (w : ℕ)
  /-- `release` has so many permits left to give -/
  | release (n : ℕ) (woke : List ℕ)
  /-- `cancel_all` goes over its snapshot -/
  | cancel (waiters woke : List ℕ)
  /-- `_unpark_all` -/
  | waking (woke : List ℕ)
  deriving DecidableEq

structure Sem where
  value : ℕ
  waiters : List ℕ
  cancelled : Bool
  active : ℕ → Bool
  got : ℕ → Bool
  count : ℕ
  taken : ℕ
  handed : List ℕ
  released : ℕ
  results : List (ℕ × Bool)

/-- `bounded` says which of the two classes it is. -/
structure State where
  initial : ℕ
  bounded : Bool
  sem : Sem
  pc : ℕ → Pc
  woken : ℕ → Bool

def init (initial : ℕ) (bounded : Bool) : State :=
  { initial := initial, bounded := bounded
    sem := ⟨initial, [], false, fun _ => false, fun _ => false, 0, 0, [], 0, []⟩
    pc := fun _ => .idle, woken := fun _ => false }

/-! ## The guarded sections -/

/-- `self._value -= 1`. -/
def Sem.take (m : Sem) : Sem := { m with value := m.value - 1, taken := m.taken + 1 }

/-- The first guarded section of `acquire`. -/
def Sem.acquire (m : Sem) (blocking timed fiber : Bool) : Sem × Pc :=
  if 0 < m.value then (m.take, .returned (some true))
  else if blocking = false then (m, .returned (some false))
  else if m.cancelled then (m, .returned (some false))
  else if fiber = false then (m, .spin timed)
  else (m, .register timed)

/-- One turn of the loop of a foreign thread. -/
def Sem.poll (m : Sem) (timed : Bool) : Sem × Pc :=
  if 0 < m.value then (m.take, .returned (some true)) else (m, .spun timed)

/-- The second guarded section of `acquire`. -/
def Sem.register (m : Sem) (timed : Bool) : Sem × Pc :=
  if 0 < m.value then (m.take, .returned (some true))
  else if m.cancelled then (m, .returned (some false))
  else
    ({ m with
      waiters := m.waiters ++ [m.count]
      active := Function.update m.active m.count true
      got := Function.update m.got m.count false
      count := m.count + 1 }, .loop timed m.count)

def Sem.deactivate (m : Sem) (w : ℕ) : Sem :=
  { m with active := Function.update m.active w false }

/-- The deadline has passed. -/
def Sem.expire (m : Sem) (w : ℕ) : Sem := if m.got w then m else m.deactivate w

/-- The first active waiter, and what is behind it. -/
def pop (active : ℕ → Bool) : List ℕ → Option ℕ × List ℕ
  | [] => (none, [])
  | w :: ws => if active w then (some w, ws) else pop active ws

/-- One permit of a `release`, with the waiter that it goes to. -/
def Sem.give (m : Sem) : Sem × List ℕ :=
  match pop m.active m.waiters with
  | (some w, ws) =>
    ({ m with
      waiters := ws
      got := Function.update m.got w true
      handed := m.handed ++ [w]
      released := m.released + 1 }, [w])
  | (none, ws) =>
    ({ m with waiters := ws, value := m.value + 1, released := m.released + 1 }, [])

def Sem.giveAll (m : Sem) : ℕ → Sem × List ℕ
  | 0 => (m, [])
  | n + 1 =>
    let r := m.give.1.giveAll n
    (r.1, m.give.2 ++ r.2)

/-- `CoBoundedSemaphore.release`, under one hold of the guard. -/
def Sem.releaseBounded (m : Sem) (initial : ℕ) (n : ℤ) : Sem × Pc :=
  if (initial : ℤ) < m.value + n then (m, .raised)
  else ((m.giveAll n.toNat).1, .waking (m.giveAll n.toNat).2)

def Sem.cancelAll (m : Sem) : Sem × Pc :=
  ({ m with cancelled := true, waiters := [] }, .cancel m.waiters [])

/-! ## The steps -/

inductive Action
  | acquire (f : ℕ) (blocking timed fiber : Bool)
  | release (f : ℕ) (n : ℤ)
  | cancelAll (f : ℕ)
  | expire (f : ℕ)
  | resume (f : ℕ)
  | spurious (f : ℕ)
  | caller (f : ℕ)

/-- The caller is not in a call. -/
@[grind =]
def Pc.rests : Pc → Bool
  | .idle | .returned _ | .raised => true
  | _ => false

def State.goto (s : State) (f : ℕ) (q : Pc) : State :=
  { s with pc := Function.update s.pc f q }

/-- A guarded section of the caller. -/
def State.section (s : State) (f : ℕ) (r : Sem × Pc) : State :=
  { s.goto f r.2 with sem := r.1 }

def callerStep (s : State) (f : ℕ) : Option State :=
  match s.pc f with
  | .spin timed => some (s.section f (s.sem.poll timed))
  | .spun timed => some (s.goto f (.spin timed))
  | .register timed => some (s.section f (s.sem.register timed))
  | .loop timed w => some (s.goto f (if s.sem.got w then .leave w else .check timed w))
  | .check timed w => some (s.goto f (if s.sem.cancelled then .leave w else .deadline timed w))
  | .deadline timed w => some (s.goto f (.parked timed w))
  | .inactive w => some (s.section f (s.sem.expire w, .leave w))
  | .leave w =>
    some (s.section f ({ s.sem with results := s.sem.results ++ [(w, s.sem.got w)] },
      .returned (some (s.sem.got w))))
  | .release 0 woke => some (s.goto f (.waking woke))
  | .release (n + 1) woke =>
    some (s.section f (s.sem.give.1, .release n (woke ++ s.sem.give.2)))
  | .cancel [] woke => some (s.goto f (.waking woke))
  | .cancel (w :: ws) woke =>
    if s.sem.active w then some (s.section f (s.sem.deactivate w, .cancel ws (woke ++ [w])))
    else some (s.goto f (.cancel ws woke))
  | .waking [] => some (s.goto f (.returned none))
  | .waking (w :: ws) =>
    some { s.goto f (.waking ws) with woken := Function.update s.woken w true }
  | _ => none

@[grind =]
def step (s : State) : Action → Option State
  | .acquire f blocking timed fiber =>
    if (s.pc f).rests then some (s.section f (s.sem.acquire blocking timed fiber)) else none
  | .release f n =>
    if (s.pc f).rests then
      if s.bounded then some (s.section f (s.sem.releaseBounded s.initial n))
      else some (s.goto f (.release n.toNat []))
    else none
  | .cancelAll f => if (s.pc f).rests then some (s.section f s.sem.cancelAll) else none
  | .expire f =>
    match s.pc f with
    | .spun true => some (s.goto f (.returned (some false)))
    | .deadline true w => some (s.goto f (.inactive w))
    | _ => none
  | .resume f =>
    match s.pc f with
    | .parked timed w =>
      if s.woken w then
        some { s.goto f (.loop timed w) with woken := Function.update s.woken w false }
      else none
    | _ => none
  | .spurious f =>
    match s.pc f with
    | .parked timed w => some (s.goto f (.loop timed w))
    | _ => none
  | .caller f => callerStep s f

def system (initial : ℕ) (bounded : Bool) : System State Action where
  init s := s = init initial bounded
  step := step

/-! ## The permits -/

/-- No permit can go to the waiter any more. -/
def Off (m : Sem) (w : ℕ) : Prop := w ∉ m.waiters ∨ m.active w = false

structure Book (initial : ℕ) (m : Sem) : Prop where
  conserved : m.value + m.taken + m.handed.length = initial + m.released
  idle : 0 < m.value → m.waiters = []
  stopped : m.cancelled = true → m.waiters = []
  nodup : (m.handed ++ m.waiters).Nodup
  past : ∀ w ∈ m.handed ++ m.waiters, w < m.count
  got : ∀ w, m.got w = true ↔ w ∈ m.handed
  results : ∀ w b, (w, b) ∈ m.results → w < m.count ∧ (b = true ↔ w ∈ m.handed) ∧
    (b = false → Off m w)

/-- What every guarded section keeps of the waiters. -/
structure Evolves (m t : Sem) : Prop where
  count : m.count ≤ t.count
  got : ∀ w < m.count, m.got w = true → t.got w = true
  off : ∀ w < m.count, Off m w → Off t w

theorem Evolves.refl (m : Sem) : Evolves m m := ⟨Nat.le_refl _, fun _ _ h => h, fun _ _ h => h⟩

theorem Evolves.trans {m t u : Sem} (h : Evolves m t) (h' : Evolves t u) : Evolves m u where
  count := Nat.le_trans h.count h'.count
  got := fun w hw hg => h'.got w (Nat.lt_of_lt_of_le hw h.count) (h.got w hw hg)
  off := fun w hw ho => h'.off w (Nat.lt_of_lt_of_le hw h.count) (h.off w hw ho)

variable {initial : ℕ} {m : Sem}

theorem Book.take (h : Book initial m) (hpos : 0 < m.value) :
    Book initial m.take ∧ Evolves m m.take ∧ m.take.value ≤ m.value := by
  refine ⟨?_, ⟨Nat.le_refl _, fun _ _ hg => hg, fun _ _ ho => ho⟩, Nat.sub_le _ _⟩
  constructor
  case conserved =>
    have hc := h.conserved
    simp only [Sem.take]
    omega
  case idle => exact fun _ => h.idle hpos
  case stopped => exact h.stopped
  case nodup => exact h.nodup
  case past => exact h.past
  case got => exact h.got
  case results => exact h.results

theorem Book.acquire (h : Book initial m) (blocking timed fiber : Bool) :
    Book initial (m.acquire blocking timed fiber).1 ∧
      Evolves m (m.acquire blocking timed fiber).1 ∧
      (m.acquire blocking timed fiber).1.value ≤ m.value := by
  unfold Sem.acquire
  split
  case isTrue hpos => exact h.take hpos
  case isFalse =>
    split
    · exact ⟨h, .refl m, Nat.le_refl _⟩
    split
    · exact ⟨h, .refl m, Nat.le_refl _⟩
    split
    · exact ⟨h, .refl m, Nat.le_refl _⟩
    · exact ⟨h, .refl m, Nat.le_refl _⟩

theorem Book.poll (h : Book initial m) (timed : Bool) :
    Book initial (m.poll timed).1 ∧ Evolves m (m.poll timed).1 ∧
      (m.poll timed).1.value ≤ m.value := by
  unfold Sem.poll
  split
  case isTrue hpos => exact h.take hpos
  case isFalse => exact ⟨h, .refl m, Nat.le_refl _⟩

theorem Book.register (h : Book initial m) (timed : Bool) :
    Book initial (m.register timed).1 ∧ Evolves m (m.register timed).1 ∧
      (m.register timed).1.value ≤ m.value := by
  unfold Sem.register
  split
  case isTrue hpos => exact h.take hpos
  case isFalse hzero =>
    split
    case isTrue => exact ⟨h, .refl m, Nat.le_refl _⟩
    case isFalse hrun =>
      have hfresh : ∀ w < m.count, w ≠ m.count := fun w hw => Nat.ne_of_lt hw
      have hnot : m.count ∉ m.handed ++ m.waiters := fun hm =>
        absurd (h.past _ hm) (Nat.lt_irrefl _)
      have hoff : ∀ w < m.count, Off m w → Off { m with
          waiters := m.waiters ++ [m.count]
          active := update m.active m.count true
          got := update m.got m.count false
          count := m.count + 1 } w := by
        rintro w hw (ho | ho)
        · refine .inl fun hm => ?_
          rcases List.mem_append.mp hm with hm | hm
          · exact ho hm
          · exact hfresh w hw (List.mem_singleton.mp hm)
        · exact .inr ((update_of_ne (hfresh w hw) _ _).trans ho)
      refine ⟨?_, ⟨Nat.le_succ _, fun w hw hg => ?_, hoff⟩, Nat.le_refl _⟩
      · constructor
        case conserved => exact h.conserved
        case idle => exact fun hpos => absurd hpos hzero
        case stopped => exact fun hc => absurd hc hrun
        case nodup =>
          dsimp only
          rw [← List.append_assoc, List.nodup_append]
          refine ⟨h.nodup, List.nodup_singleton _, fun a ha b hb hab => ?_⟩
          rw [List.mem_singleton] at hb
          exact hnot (hb ▸ hab ▸ ha)
        case past =>
          intro w hw
          dsimp only at hw ⊢
          rw [← List.append_assoc] at hw
          rcases List.mem_append.mp hw with hw | hw
          · exact Nat.lt_succ_of_lt (h.past w hw)
          · rw [List.mem_singleton.mp hw]
            exact Nat.lt_succ_self _
        case got =>
          intro w
          dsimp only
          by_cases hw : w = m.count
          · rw [hw, update_self]
            exact iff_of_false (by rintro ⟨⟩) fun hm => hnot (List.mem_append_left _ hm)
          · rw [update_of_ne hw]
            exact h.got w
        case results =>
          intro w b hb
          obtain ⟨hlt, hiff, ho⟩ := h.results w b hb
          exact ⟨Nat.lt_succ_of_lt hlt, hiff, fun hf => hoff w hlt (ho hf)⟩
      · exact (update_of_ne (hfresh w hw) _ _).trans hg

theorem off_deactivate {v w : ℕ} (h : Off m w) : Off (m.deactivate v) w := by
  rcases h with h | h
  · exact .inl h
  · refine .inr ?_
    simp only [Sem.deactivate]
    by_cases hv : w = v
    · rw [hv, update_self]
    · rw [update_of_ne hv, h]

theorem Book.deactivate (h : Book initial m) (w : ℕ) :
    Book initial (m.deactivate w) ∧ Evolves m (m.deactivate w) := by
  refine ⟨?_, Nat.le_refl _, fun _ _ hg => hg, fun v _ ho => off_deactivate ho⟩
  constructor
  case conserved => exact h.conserved
  case idle => exact h.idle
  case stopped => exact h.stopped
  case nodup => exact h.nodup
  case past => exact h.past
  case got => exact h.got
  case results =>
    intro v b hb
    obtain ⟨hlt, hiff, ho⟩ := h.results v b hb
    exact ⟨hlt, hiff, fun hf => off_deactivate (ho hf)⟩

theorem Book.expire (h : Book initial m) (w : ℕ) :
    Book initial (m.expire w) ∧ Evolves m (m.expire w) := by
  unfold Sem.expire
  split
  · exact ⟨h, .refl m⟩
  · exact h.deactivate w

/-- What the waiter of an expired call can still have is a permit that it has. -/
theorem expire_settled (w : ℕ) : (m.expire w).got w = true ∨ Off (m.expire w) w := by
  unfold Sem.expire
  split
  case isTrue hg => exact .inl hg
  case isFalse => exact .inr (.inr (update_self ..))

/-! ## Handing permits over -/

theorem pop_some {active : ℕ → Bool} {l ws : List ℕ} {w : ℕ} (h : pop active l = (some w, ws)) :
    active w = true ∧ ∃ stale, l = stale ++ w :: ws := by
  induction l with
  | nil => cases h
  | cons a l ih =>
    unfold pop at h
    split at h
    case isTrue ha =>
      cases h
      exact ⟨ha, [], rfl⟩
    case isFalse =>
      obtain ⟨hw, stale, rfl⟩ := ih h
      exact ⟨hw, a :: stale, rfl⟩

theorem pop_none {active : ℕ → Bool} {l ws : List ℕ} (h : pop active l = (none, ws)) :
    ws = [] := by
  induction l with
  | nil =>
    cases h
    rfl
  | cons a l ih =>
    unfold pop at h
    split at h
    · cases h
    · exact ih h

theorem Book.give (h : Book initial m) :
    Book initial m.give.1 ∧ Evolves m m.give.1 ∧ m.give.1.value ≤ m.value + 1 := by
  unfold Sem.give
  split
  case h_1 w ws hpop =>
    obtain ⟨hactive, stale, hq⟩ := pop_some hpop
    have hmem : w ∈ m.waiters := by
      rw [hq]
      simp
    have hsub : ∀ v ∈ ws, v ∈ m.waiters := by
      intro v hv
      rw [hq]
      simp [hv]
    have hne : ∀ v, Off m v → v ≠ w := by
      rintro v (ho | ho) rfl
      · exact ho hmem
      · rw [hactive] at ho
        cases ho
    have hoff : ∀ v, Off m v → v ∉ ws ∨ m.active v = false := by
      rintro v (ho | ho)
      · exact .inl fun hv => ho (hsub v hv)
      · exact .inr ho
    have hzero : m.value = 0 := by
      by_contra hv
      rw [h.idle (Nat.pos_of_ne_zero hv)] at hmem
      cases hmem
    refine ⟨?_, ⟨Nat.le_refl _, fun v _ hg => ?_, fun v _ ho => hoff v ho⟩, Nat.le_succ _⟩
    · have hsubl : (m.handed ++ [w] ++ ws).Sublist (m.handed ++ m.waiters) := by
        rw [List.append_assoc, hq]
        exact (List.Sublist.refl _).append (List.sublist_append_right _ _)
      constructor
      case conserved =>
        have hc := h.conserved
        simp only [List.length_append, List.length_singleton]
        omega
      case idle =>
        intro hpos
        dsimp only at hpos
        omega
      case stopped =>
        intro hc
        rw [h.stopped hc] at hmem
        cases hmem
      case nodup => exact h.nodup.sublist hsubl
      case past => exact fun v hv => h.past v (hsubl.subset hv)
      case got =>
        intro v
        dsimp only
        rw [List.mem_append, List.mem_singleton]
        by_cases hv : v = w
        · rw [hv, update_self]
          simp
        · rw [update_of_ne hv, h.got v]
          simp [hv]
      case results =>
        intro v b hb
        obtain ⟨hlt, hiff, ho⟩ := h.results v b hb
        refine ⟨hlt, ?_, fun hf => hoff v (ho hf)⟩
        dsimp only
        rw [List.mem_append, List.mem_singleton, hiff]
        cases b with
        | true => exact ⟨.inl, fun _ => hiff.mp rfl⟩
        | false => exact ⟨.inl, fun hm => hm.resolve_right (hne v (ho rfl))⟩
    · dsimp only
      by_cases hv : v = w
      · rw [hv, update_self]
      · rw [update_of_ne hv, hg]
  case h_2 ws hpop =>
    have hws := pop_none hpop
    refine ⟨?_, ⟨Nat.le_refl _, fun _ _ hg => hg, fun v _ _ => ?_⟩, Nat.le_refl _⟩
    · constructor
      case conserved =>
        have hc := h.conserved
        dsimp only
        omega
      case idle => exact fun _ => hws
      case stopped => exact fun _ => hws
      case nodup =>
        dsimp only
        rw [hws, List.append_nil]
        exact (List.nodup_append.mp h.nodup).1
      case past =>
        intro v hv
        dsimp only at hv ⊢
        rw [hws, List.append_nil] at hv
        exact h.past v (List.mem_append_left _ hv)
      case got => exact h.got
      case results =>
        intro v b hb
        obtain ⟨hlt, hiff, -⟩ := h.results v b hb
        refine ⟨hlt, hiff, fun _ => .inl ?_⟩
        dsimp only
        rw [hws]
        exact List.not_mem_nil
    · refine .inl ?_
      dsimp only
      rw [hws]
      exact List.not_mem_nil

theorem Book.giveAll (h : Book initial m) (n : ℕ) :
    Book initial (m.giveAll n).1 ∧ Evolves m (m.giveAll n).1 ∧
      (m.giveAll n).1.value ≤ m.value + n := by
  induction n generalizing m with
  | zero => exact ⟨h, .refl m, Nat.le_refl _⟩
  | succ n ih =>
    obtain ⟨hb, he, hv⟩ := h.give
    obtain ⟨hb', he', hv'⟩ := ih hb
    refine ⟨hb', he.trans he', ?_⟩
    simp only [Sem.giveAll]
    omega

theorem Book.cancelAll (h : Book initial m) :
    Book initial m.cancelAll.1 ∧ Evolves m m.cancelAll.1 := by
  refine ⟨?_, Nat.le_refl _, fun _ _ hg => hg, fun _ _ _ => .inl List.not_mem_nil⟩
  constructor
  case conserved => exact h.conserved
  case idle => exact fun _ => rfl
  case stopped => exact fun _ => rfl
  case nodup =>
    simp only [Sem.cancelAll, List.append_nil]
    exact (List.nodup_append.mp h.nodup).1
  case past =>
    intro w hw
    simp only [Sem.cancelAll, List.append_nil] at hw
    exact h.past w (List.mem_append_left _ hw)
  case got => exact h.got
  case results =>
    intro w b hb
    obtain ⟨hlt, hiff, -⟩ := h.results w b hb
    exact ⟨hlt, hiff, fun _ => .inl List.not_mem_nil⟩

/-! ## The callers -/

/-- The waiter of the call in progress. -/
@[grind =]
def Pc.waiter : Pc → Option ℕ
  | .loop _ w | .check _ w | .deadline _ w | .inactive w | .parked _ w | .leave w => some w
  | _ => none

def Pc.leaves : Pc → Option ℕ
  | .leave w => some w
  | _ => none

def Pc.gives : Pc → Bool
  | .release _ _ => true
  | _ => false

structure Inv (initial : ℕ) (bounded : Bool) (s : State) : Prop where
  first : s.initial = initial
  kind : s.bounded = bounded
  book : Book initial s.sem
  bound : bounded = true → s.sem.value ≤ initial
  calls : ∀ f w, (s.pc f).waiter = some w → w < s.sem.count
  leaves : ∀ f w, (s.pc f).leaves = some w → s.sem.got w = true ∨ Off s.sem w
  gives : ∀ f, (s.pc f).gives = true → bounded = false

theorem inv_init (initial : ℕ) (bounded : Bool) : Inv initial bounded (init initial bounded) where
  first := rfl
  kind := rfl
  book :=
    { conserved := rfl, idle := fun _ => rfl, stopped := (by rintro ⟨⟩), nodup := List.nodup_nil
      past := (by rintro _ ⟨⟩), got := fun _ => iff_of_false (by rintro ⟨⟩) (by rintro ⟨⟩), results := (by rintro _ _ ⟨⟩) }
  bound := fun _ => Nat.le_refl _
  calls := by rintro _ _ ⟨⟩
  leaves := by rintro _ _ ⟨⟩
  gives := by rintro _ ⟨⟩

section Steps

variable {bounded : Bool} {s t : State} {f : ℕ}

theorem leaves_waiter {q : Pc} {w : ℕ} (h : q.leaves = some w) : q.waiter = some w := by
  cases q <;> first | exact h | cases h

/-- A step of one caller. -/
theorem Inv.section (h : Inv initial bounded s) {r : Sem × Pc} (hb : Book initial r.1)
    (he : Evolves s.sem r.1) (hv : bounded = true → r.1.value ≤ initial)
    (hw : ∀ w, r.2.waiter = some w → w < r.1.count)
    (hl : ∀ w, r.2.leaves = some w → r.1.got w = true ∨ Off r.1 w)
    (hg : r.2.gives = true → bounded = false) : Inv initial bounded (s.section f r) := by
  have hself : (s.section f r).pc f = r.2 := update_self ..
  have hold : ∀ e, e ≠ f → (s.section f r).pc e = s.pc e := fun e hef =>
    update_of_ne hef _ _
  constructor
  case first => exact h.first
  case kind => exact h.kind
  case book => exact hb
  case bound => exact hv
  case calls =>
    intro e w hc
    by_cases hef : e = f
    · rw [hef, hself] at hc
      exact hw w hc
    · rw [hold e hef] at hc
      exact Nat.lt_of_lt_of_le (h.calls e w hc) he.count
  case leaves =>
    intro e w hc
    by_cases hef : e = f
    · rw [hef, hself] at hc
      exact hl w hc
    · rw [hold e hef] at hc
      have hlt := h.calls e w (leaves_waiter hc)
      rcases h.leaves e w hc with hgot | hoff
      · exact .inl (he.got w hlt hgot)
      · exact .inr (he.off w hlt hoff)
  case gives =>
    intro e hc
    by_cases hef : e = f
    · rw [hef, hself] at hc
      exact hg hc
    · rw [hold e hef] at hc
      exact h.gives e hc

/-- A step of one caller that leaves the semaphore alone. -/
theorem Inv.goto (h : Inv initial bounded s) {q : Pc}
    (hw : ∀ w, q.waiter = some w → w < s.sem.count)
    (hl : ∀ w, q.leaves = some w → s.sem.got w = true ∨ Off s.sem w)
    (hg : q.gives = true → bounded = false) : Inv initial bounded (s.goto f q) :=
  h.section (r := (s.sem, q)) h.book (.refl _) h.bound hw hl hg

/-- The waiter is the same, and the call does not leave. -/
theorem Inv.on (h : Inv initial bounded s) {q : Pc} (hw : q.waiter = (s.pc f).waiter)
    (hl : q.leaves = none) (hg : q.gives = false) : Inv initial bounded (s.goto f q) :=
  h.goto (fun w hq => h.calls f w (hw.symm.trans hq))
    (fun _ hq => absurd (hq.symm.trans hl) (by rintro ⟨⟩)) fun hq => absurd (hq.symm.trans hg) (by rintro ⟨⟩)

/-- A step that ends a call, or has no waiter. -/
theorem Inv.off (h : Inv initial bounded s) {q : Pc} (hw : q.waiter = none)
    (hg : q.gives = true → bounded = false) : Inv initial bounded (s.goto f q) :=
  h.goto (fun _ hq => absurd (hq.symm.trans hw) (by rintro ⟨⟩))
    (fun _ hq => absurd ((leaves_waiter hq).symm.trans hw) (by rintro ⟨⟩)) hg

theorem Inv.woken (h : Inv initial bounded s) (woken : ℕ → Bool) :
    Inv initial bounded { s with woken := woken } :=
  ⟨h.first, h.kind, h.book, h.bound, h.calls, h.leaves, h.gives⟩

/-- A guarded section of `acquire` ends or goes on with a waiter that is known. -/
theorem Inv.guarded (h : Inv initial bounded s) {r : Sem × Pc}
    (hr : Book initial r.1 ∧ Evolves s.sem r.1 ∧ r.1.value ≤ s.sem.value)
    (hw : ∀ w, r.2.waiter = some w → w < r.1.count) (hl : r.2.leaves = none)
    (hg : r.2.gives = false) : Inv initial bounded (s.section f r) :=
  h.section hr.1 hr.2.1 (fun hb => Nat.le_trans hr.2.2 (h.bound hb)) hw
    (fun _ hq => absurd (hq.symm.trans hl) (by rintro ⟨⟩)) fun hq => absurd (hq.symm.trans hg) (by rintro ⟨⟩)

theorem acquire_pc (m : Sem) (blocking timed fiber : Bool) :
    (m.acquire blocking timed fiber).2.waiter = none ∧
      (m.acquire blocking timed fiber).2.leaves = none ∧
      (m.acquire blocking timed fiber).2.gives = false := by
  unfold Sem.acquire
  split
  · exact ⟨rfl, rfl, rfl⟩
  split
  · exact ⟨rfl, rfl, rfl⟩
  split
  · exact ⟨rfl, rfl, rfl⟩
  split
  · exact ⟨rfl, rfl, rfl⟩
  · exact ⟨rfl, rfl, rfl⟩

theorem poll_pc (m : Sem) (timed : Bool) : (m.poll timed).2.waiter = none ∧
    (m.poll timed).2.leaves = none ∧ (m.poll timed).2.gives = false := by
  unfold Sem.poll
  split
  · exact ⟨rfl, rfl, rfl⟩
  · exact ⟨rfl, rfl, rfl⟩

theorem register_pc (m : Sem) (timed : Bool) :
    (∀ w, (m.register timed).2.waiter = some w → w < (m.register timed).1.count) ∧
      (m.register timed).2.leaves = none ∧ (m.register timed).2.gives = false := by
  unfold Sem.register
  split
  · exact ⟨by rintro _ ⟨⟩, rfl, rfl⟩
  split
  · exact ⟨by rintro _ ⟨⟩, rfl, rfl⟩
  · refine ⟨fun w hw => ?_, rfl, rfl⟩
    cases hw
    exact Nat.lt_succ_self _

/-- `return w[2]`: what is reported is what the waiter was handed, then and later. -/
theorem Inv.leave (h : Inv initial bounded s) {w : ℕ} (hf : s.pc f = .leave w) :
    Inv initial bounded (s.section f
      ({ s.sem with results := s.sem.results ++ [(w, s.sem.got w)] },
        .returned (some (s.sem.got w)))) := by
  refine h.section ?_ ⟨Nat.le_refl _, fun _ _ hg => hg, fun _ _ ho => ho⟩ h.bound (by rintro _ ⟨⟩) (by rintro _ ⟨⟩) (by rintro ⟨⟩)
  constructor
  case conserved => exact h.book.conserved
  case idle => exact h.book.idle
  case stopped => exact h.book.stopped
  case nodup => exact h.book.nodup
  case past => exact h.book.past
  case got => exact h.book.got
  case results =>
    intro v b hb
    rcases List.mem_append.mp hb with hb | hb
    · exact h.book.results v b hb
    · rw [List.mem_singleton, Prod.mk.injEq] at hb
      obtain ⟨rfl, rfl⟩ := hb
      refine ⟨h.calls f v (by rw [hf]; rfl), h.book.got v, fun hn => ?_⟩
      rcases h.leaves f v (by rw [hf]; rfl) with hg | ho
      · rw [hn] at hg
        cases hg
      · exact ho

theorem Inv.callerStep (h : Inv initial bounded s) (hs : callerStep s f = some t) :
    Inv initial bounded t := by
  unfold Semaphore.callerStep at hs
  split at hs
  case h_1 timed hf =>
    cases hs
    obtain ⟨hw, hl, hg⟩ := poll_pc s.sem timed
    exact h.guarded (h.book.poll timed) (fun _ hq => absurd (hq.symm.trans hw) (by rintro ⟨⟩)) hl hg
  case h_2 timed hf =>
    cases hs
    exact h.off rfl (by rintro ⟨⟩)
  case h_3 timed hf =>
    cases hs
    obtain ⟨hw, hl, hg⟩ := register_pc s.sem timed
    exact h.guarded (h.book.register timed) hw hl hg
  case h_4 timed w hf =>
    cases hs
    have hlt := h.calls f w (by rw [hf]; rfl)
    split
    case isTrue hg =>
      refine h.goto (fun v hv => ?_) (fun v hv => ?_) (by rintro ⟨⟩)
      · cases hv
        exact hlt
      · cases hv
        exact .inl hg
    case isFalse => exact h.on (by rw [hf]; rfl) rfl rfl
  case h_5 timed w hf =>
    cases hs
    have hlt := h.calls f w (by rw [hf]; rfl)
    split
    case isTrue hc =>
      -- nobody is queued after a cancel
      refine h.goto (fun v hv => ?_) (fun v hv => .inr (.inl ?_)) (by rintro ⟨⟩)
      · cases hv
        exact hlt
      · rw [h.book.stopped hc]
        exact List.not_mem_nil
    case isFalse => exact h.on (by rw [hf]; rfl) rfl rfl
  case h_6 timed w hf =>
    cases hs
    exact h.on (by rw [hf]; rfl) rfl rfl
  case h_7 w hf =>
    cases hs
    obtain ⟨hb, he⟩ := h.book.expire w
    refine h.section hb he (fun hbd => ?_) (fun v hv => ?_) (fun v hv => ?_) (by rintro ⟨⟩)
    · have hvalue : (s.sem.expire w).value = s.sem.value := by
        unfold Sem.expire
        split <;> rfl
      exact hvalue ▸ h.bound hbd
    · cases hv
      exact Nat.lt_of_lt_of_le (h.calls f w (by rw [hf]; rfl)) he.count
    · cases hv
      exact expire_settled w
  case h_8 w hf =>
    cases hs
    exact h.leave hf
  case h_9 woke hf =>
    cases hs
    exact h.off rfl (by rintro ⟨⟩)
  case h_10 n woke hf =>
    cases hs
    obtain ⟨hb, he, -⟩ := h.book.give
    have hfree := h.gives f (by rw [hf]; rfl)
    refine h.section hb he (fun hbd => ?_) (by rintro _ ⟨⟩) (by rintro _ ⟨⟩) fun _ => hfree
    rw [hfree] at hbd
    cases hbd
  case h_11 woke hf =>
    cases hs
    exact h.off rfl (by rintro ⟨⟩)
  case h_12 w ws woke hf =>
    split at hs
    · cases hs
      obtain ⟨hb, he⟩ := h.book.deactivate w
      exact h.section hb he h.bound (by rintro _ ⟨⟩) (by rintro _ ⟨⟩) (by rintro ⟨⟩)
    · cases hs
      exact h.off rfl (by rintro ⟨⟩)
  case h_13 hf =>
    cases hs
    exact h.off rfl (by rintro ⟨⟩)
  case h_14 w ws hf =>
    cases hs
    exact (h.off (q := .waking ws) rfl (by rintro ⟨⟩)).woken _
  case h_15 => cases hs

theorem Inv.step (h : Inv initial bounded s) {a : Action} (hs : step s a = some t) :
    Inv initial bounded t := by
  cases a with
  | acquire f blocking timed fiber =>
    dsimp only [Semaphore.step] at hs
    split at hs
    · cases hs
      obtain ⟨hw, hl, hg⟩ := acquire_pc s.sem blocking timed fiber
      exact h.guarded (h.book.acquire blocking timed fiber)
        (fun _ hq => absurd (hq.symm.trans hw) (by rintro ⟨⟩)) hl hg
    · cases hs
  | release f n =>
    dsimp only [Semaphore.step] at hs
    split at hs
    case isTrue =>
      split at hs
      case isTrue hbd =>
        cases hs
        unfold Sem.releaseBounded
        split
        case isTrue => exact h.off rfl (by rintro ⟨⟩)
        case isFalse hle =>
          obtain ⟨hb, he, hv⟩ := h.book.giveAll n.toNat
          refine h.section hb he (fun _ => ?_) (by rintro _ ⟨⟩) (by rintro _ ⟨⟩) (by rintro ⟨⟩)
          have hfirst := h.first
          have hbound := h.bound (h.kind.symm.trans hbd)
          dsimp only
          omega
      case isFalse hbd =>
        cases hs
        refine h.off rfl fun _ => ?_
        rw [← h.kind]
        exact Bool.not_eq_true _ ▸ hbd
    case isFalse => cases hs
  | cancelAll f =>
    dsimp only [Semaphore.step] at hs
    split at hs
    · cases hs
      obtain ⟨hb, he⟩ := h.book.cancelAll
      exact h.section hb he h.bound (by rintro _ ⟨⟩) (by rintro _ ⟨⟩) (by rintro ⟨⟩)
    · cases hs
  | expire f =>
    dsimp only [Semaphore.step] at hs
    split at hs
    case h_1 hf =>
      cases hs
      exact h.off rfl (by rintro ⟨⟩)
    case h_2 w hf =>
      cases hs
      exact h.on (by rw [hf]; rfl) rfl rfl
    case h_3 => cases hs
  | resume f =>
    dsimp only [Semaphore.step] at hs
    split at hs
    case h_1 timed w hf =>
      split at hs
      · cases hs
        have ht : Inv initial bounded (s.goto f (.loop timed w)) := h.on (by rw [hf]; rfl) rfl rfl
        exact ht.woken _
      · cases hs
    case h_2 => cases hs
  | spurious f =>
    dsimp only [Semaphore.step] at hs
    split at hs
    case h_1 timed w hf =>
      cases hs
      exact h.on (by rw [hf]; rfl) rfl rfl
    case h_2 => cases hs
  | caller f => exact h.callerStep hs

end Steps

/-- The permits taken or handed over and those left are those there were and those
released; with a permit left nobody is queued; each waiter is handed one at most, and its
call reports just that; a bounded one never has more than at first. -/
structure Conserved (initial : ℕ) (bounded : Bool) (s : State) : Prop where
  permits : s.sem.value + (s.sem.taken + s.sem.handed.length) = initial + s.sem.released
  offered : 0 < s.sem.value → ∀ w ∈ s.sem.waiters, s.sem.active w = false
  once : s.sem.handed.Nodup
  reported : ∀ w b, (w, b) ∈ s.sem.results → (b = true ↔ w ∈ s.sem.handed)
  bound : bounded = true → s.sem.value ≤ initial

/-- **Over every run.** A release that raises changes nothing but its caller. -/
theorem reachable_conserved {initial : ℕ} {bounded : Bool} {s : State}
    (hr : Reachable (system initial bounded) s) : Conserved initial bounded s ∧
      ∀ f n t, step s (.release f n) = some t → t.pc f = .raised → t.sem = s.sem := by
  have h : Inv initial bounded s := by
    refine Reachable.invariant ?_ ?_ hr
    · rintro s rfl
      exact inv_init initial bounded
    · intro s a t _ h hs
      exact h.step hs
  constructor
  · constructor
    case permits =>
      rw [← Nat.add_assoc]
      exact h.book.conserved
    case offered =>
      intro hpos w hw
      rw [h.book.idle hpos] at hw
      cases hw
    case once => exact (List.nodup_append.mp h.book.nodup).1
    case reported => exact fun w b hb => (h.book.results w b hb).2.1
    case bound => exact h.bound
  · intro f n t hs ht
    dsimp only [step] at hs
    split at hs
    case isTrue =>
      split at hs
      case isTrue =>
        cases hs
        simp only [State.section, State.goto, Function.update_self] at ht
        unfold Sem.releaseBounded at ht ⊢
        split
        · rfl
        case isFalse hle =>
          rw [if_neg hle] at ht
          cases ht
      case isFalse =>
        cases hs
        rfl
    case isFalse => cases hs

/-- A bounded semaphore with one permit, which is handed to a caller whose deadline has
passed: it reports it. -/
theorem reachable_conserved_timingOut : ∃ s, Reachable (system 1 true) s ∧
    Conserved 1 true s ∧ s.sem.results = [(0, true)] ∧ s.sem.value = 0 := by
  have hr := reachable_of_run (system 1 true)
    [.acquire 0 true false true, .acquire 1 true true true, .caller 1, .caller 1, .caller 1,
      .expire 1, .release 0 1, .caller 1, .caller 1] rfl rfl
  exact ⟨_, hr, (reachable_conserved hr).1, rfl, rfl⟩

end Stackweave.Monkey.Semaphore
