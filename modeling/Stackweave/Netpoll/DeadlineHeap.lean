import Stackweave.Netpoll.Parkers

/-!
# The deadline heaps over whole runs (`netpoll_parkers.c.inc`)

Any sequence of `runloom_dh_insert` and `runloom_dh_remove` on the heaps of the pools. A parker
gets its deadline while it is on no heap, and it is removed from the pool that it was inserted
into. `realloc` may fail at any growth; the insertion is then dropped.
-/

namespace Stackweave.Netpoll.DeadlineHeap

open Transition Parkers Function

/-- History: `held p` is the pool that has `p`, inserted and not removed. -/
structure State where
  heaps : Deadlines
  deadline : ℕ → ℤ
  held : ℕ → Option ℕ

def init : State :=
  { heaps := State.init.deadlines, deadline := fun _ => -1, held := fun _ => none }

/-- `runloom_dh_peek_deadline` -/
def State.peekDeadline (s : State) (i : ℕ) : ℤ :=
  if s.heaps.size i = 0 then -1 else s.deadline (s.heaps.arr i 0)

inductive Action
  | setDeadline (p : ℕ) (v : ℤ)
  | insert (i p : ℕ) (ok : Bool)
  | remove (i p : ℕ)

/-- The parker has no deadline, it is on a heap, or there is no memory for it. -/
def State.turnsAway (s : State) (i p : ℕ) (ok : Bool) : Prop :=
  s.deadline p < 0 ∨ s.held p ≠ none ∨ s.heaps.cap i ≤ s.heaps.size i ∧ ok = false

instance (s : State) (i p : ℕ) (ok : Bool) : Decidable (s.turnsAway i p ok) :=
  inferInstanceAs (Decidable (_ ∨ _ ∨ _ ∧ _))

def step (s : State) : Action → Option State
  | .setDeadline p v =>
    if s.held p = none then some { s with deadline := Function.update s.deadline p v } else none
  | .insert i p ok =>
    some { s with
      heaps := s.heaps.insert s.deadline i p ok
      held := if s.turnsAway i p ok then s.held else Function.update s.held p (some i) }
  | .remove i p =>
    if s.held p = none ∨ s.held p = some i then
      some { s with
        heaps := s.heaps.remove s.deadline i p
        held := Function.update s.held p none }
    else none

def system : System State Action where
  init s := s = init
  step := step

/-- What the heap of the pool `i` is in every state. -/
structure Exact (s : State) (i : ℕ) : Prop where
  heap : ∀ k, 0 < k → k < s.heaps.size i →
    s.deadline (s.heaps.arr i (Heap.parent k)) ≤ s.deadline (s.heaps.arr i k)
  place : ∀ p k, s.held p = some i →
    (s.heaps.heapIndex p = some k ↔ k < s.heaps.size i ∧ s.heaps.arr i k = p)
  away : ∀ p, s.held p = none → s.heaps.heapIndex p = none
  entries : ∀ p, (∃ k < s.heaps.size i, s.heaps.arr i k = p) ↔ s.held p = some i
  room : s.heaps.size i ≤ s.heaps.cap i
  /-- the earliest deadline, or -1 when there is none -/
  peek : (∀ p, s.held p ≠ some i) ∧ s.peekDeadline i = -1 ∨
    ∃ p, s.held p = some i ∧ s.peekDeadline i = s.deadline p ∧
      ∀ q, s.held q = some i → s.peekDeadline i ≤ s.deadline q

def Inv (s : State) : Prop := s.heaps.Shape s.deadline fun i p => s.held p = some i

theorem inv_init : Inv init where
  indexed _ _ hk := absurd hk (Nat.not_lt_zero _)
  ordered _ _ _ hk := absurd hk (Nat.not_lt_zero _)
  has _ _ := ⟨fun ⟨_, hk, _⟩ => absurd hk (Nat.not_lt_zero _), by rintro ⟨⟩⟩
  free _ _ := rfl
  one _ _ _ hp := nomatch hp
  room _ := Nat.le_refl 0

variable {s t : State}

/-- The history says who has a place on a heap. -/
theorem Inv.heapIndex_eq_none (h : Inv s) {p : ℕ} :
    s.heaps.heapIndex p = none ↔ s.held p = none := by
  constructor
  · intro hindex
    cases hheld : s.held p with
    | none => rfl
    | some i =>
      obtain ⟨k, hk, -⟩ := h.place hheld
      rw [hindex] at hk
      cases hk
  · intro hheld
    refine h.free p fun i hi => ?_
    rw [hheld] at hi
    cases hi

/-- The entry is put on the heap when it is not turned away. -/
theorem put_inv {d : Deadlines} {i p : ℕ} {ok : Bool} (hp : s.held p = none)
    (hd : d.Shape s.deadline fun j q => s.held q = some j) (hroom : d.size i < d.cap i)
    (hin : ¬ s.turnsAway i p ok) :
    Inv { s with
      heaps := d.push s.deadline i p
      held := if s.turnsAway i p ok then s.held else update s.held p (some i) } := by
  have hnot : ∀ j, ¬ s.held p = some j := by
    intro j hj
    rw [hp] at hj
    cases hj
  refine (hd.push hnot hroom).congr (fun _ _ _ => rfl) fun j q => ?_
  rw [if_neg hin]
  change update s.held p (some i) q = some j ↔ _
  by_cases hq : q = p
  · subst hq
    rw [update_self]
    constructor
    · intro he
      exact .inr ⟨(Option.some.inj he).symm, rfl⟩
    · rintro (he | ⟨rfl, -⟩)
      · exact absurd he (hnot j)
      · rfl
  · rw [update_of_ne hq]
    exact ⟨.inl, fun he => he.resolve_right fun hr => hq hr.2⟩

theorem Inv.insert (h : Inv s) (i p : ℕ) (ok : Bool) :
    Inv { s with
      heaps := s.heaps.insert s.deadline i p ok
      held := if s.turnsAway i p ok then s.held else update s.held p (some i) } := by
  unfold Deadlines.insert
  split
  case isTrue hor =>
    have haway : s.turnsAway i p ok :=
      hor.imp_right fun hne => .inl fun hp => hne (h.heapIndex_eq_none.mpr hp)
    rw [if_pos haway]
    exact h
  case isFalse hor =>
    obtain ⟨hnn, hindex⟩ := not_or.mp hor
    have hp : s.held p = none := h.heapIndex_eq_none.mp (not_not.mp hindex)
    have hin (hmem : s.heaps.cap i ≤ s.heaps.size i → ok = true) : ¬ s.turnsAway i p ok := by
      rintro (hneg | hheld | ⟨hfull, hok⟩)
      · exact hnn hneg
      · exact hheld hp
      · rw [hmem hfull] at hok
        cases hok
    split
    case isTrue hfull =>
      cases ok with
      | true =>
        obtain ⟨hgrow, hroom⟩ := Deadlines.Shape.grow h hfull
        exact put_inv hp hgrow hroom (hin fun _ => rfl)
      | false =>
        have haway : s.turnsAway i p false := .inr (.inr ⟨hfull, rfl⟩)
        rw [if_pos haway, if_neg Bool.false_ne_true]
        exact ⟨h.indexed, h.ordered, h.has, h.free, h.one, h.room⟩
    case isFalse hroom => exact put_inv hp h (Nat.lt_of_not_le hroom) (hin fun hf => absurd hf hroom)

theorem Inv.remove (h : Inv s) {i p : ℕ} (hp : s.held p = none ∨ s.held p = some i) :
    Inv { s with
      heaps := s.heaps.remove s.deadline i p
      held := update s.held p none } := by
  rcases hp with hp | hp
  · rw [Deadlines.remove_of_none (h.heapIndex_eq_none.mpr hp), ← hp, update_eq_self]
    exact h
  · refine (Deadlines.Shape.remove h hp).1.congr (fun _ _ _ => rfl) fun j q => ?_
    change update s.held p none q = some j ↔ _
    by_cases hq : q = p
    · subst hq
      rw [update_self]
      exact ⟨by rintro ⟨⟩, fun he => absurd rfl he.2⟩
    · rw [update_of_ne hq]
      exact ⟨fun he => ⟨he, hq⟩, fun he => he.1⟩

theorem Inv.step {a : Action} (h : Inv s) (hs : step s a = some t) : Inv t := by
  cases a with
  | setDeadline p v =>
    obtain ⟨hp, hs⟩ := Option.ite_none_right_eq_some.mp hs
    cases hs
    refine Deadlines.Shape.congr h (fun i q hq => update_of_ne ?_ ..) fun _ _ => Iff.rfl
    rintro rfl
    rw [hp] at hq
    cases hq
  | insert i p ok =>
    cases hs
    exact h.insert i p ok
  | remove i p =>
    obtain ⟨hp, hs⟩ := Option.ite_none_right_eq_some.mp hs
    cases hs
    exact h.remove hp

/-- The root of the heap has the least deadline. -/
theorem Inv.peek (h : Inv s) (i : ℕ) : (∀ p, s.held p ≠ some i) ∧ s.peekDeadline i = -1 ∨
    ∃ p, s.held p = some i ∧ s.peekDeadline i = s.deadline p ∧
      ∀ q, s.held q = some i → s.peekDeadline i ≤ s.deadline q := by
  unfold State.peekDeadline
  split
  case isTrue hsize =>
    refine .inl ⟨fun p hp => ?_, rfl⟩
    obtain ⟨k, -, hk, -⟩ := h.place hp
    rw [hsize] at hk
    exact Nat.not_lt_zero k hk
  case isFalse hsize =>
    refine .inr ⟨_, (h.has i _).mp ⟨0, Nat.pos_of_ne_zero hsize, rfl⟩, rfl, fun q hq => ?_⟩
    obtain ⟨k, -, hk, hkq⟩ := h.place hq
    rw [← hkq]
    exact (h.ordered i).root hk

theorem Inv.exact (h : Inv s) (i : ℕ) : Exact s i where
  heap := h.ordered i
  place p k hp := by
    constructor
    · intro hindex
      obtain ⟨m, hm, hlt, harr⟩ := h.place hp
      rw [hindex] at hm
      cases hm
      exact ⟨hlt, harr⟩
    · rintro ⟨hk, rfl⟩
      exact h.indexed i k hk
  away _ hp := h.heapIndex_eq_none.mpr hp
  entries := h.has i
  room := h.room i
  peek := h.peek i

/-- **The deadline heap is exact.** In every state the array of every pool is a min-heap on the
deadlines, each parker on it knows its place, the entries are the parkers inserted and not removed,
and the deadline that is peeked is the least of theirs. -/
theorem deadline_heap_exact (h : Reachable system s) (i : ℕ) : Exact s i := by
  refine Inv.exact (Reachable.invariant ?_ ?_ h) i
  · rintro s rfl
    exact inv_init
  · exact fun s a t _ hi hs => hi.step hs

/-- Four parkers, the one in the middle of the heap leaves it. -/
def inner : List Action :=
  [.setDeadline 0 40, .setDeadline 1 20, .setDeadline 2 30, .setDeadline 3 20, .insert 5 0 true,
    .insert 5 1 true, .insert 5 2 true, .insert 5 3 true, .remove 5 3]

theorem deadline_heap_exact_inner :
    ∃ s, system.run init inner = some s ∧ s.heaps.size 5 = 3 ∧ s.peekDeadline 5 = 20 ∧
      Exact s 5 := by
  have hrun : (system.run init inner).any (fun s =>
      s.heaps.size 5 = 3 ∧ s.peekDeadline 5 = 20) = true := by
    decide +kernel
  obtain ⟨s, hs, hp⟩ := (Option.any_eq_true _ _).mp hrun
  obtain ⟨hsize, hpeek⟩ := of_decide_eq_true hp
  exact ⟨s, hs, hsize, hpeek, deadline_heap_exact (reachable_of_run _ inner rfl hs) 5⟩

end Stackweave.Netpoll.DeadlineHeap
