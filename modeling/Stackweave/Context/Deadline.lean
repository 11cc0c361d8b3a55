import Mathlib.Data.Nat.Basic
import Mathlib.Order.Bounds.Basic

/-!
# Deadlines of nested contexts (`context.py`)

A context is the chain of calls that built it. `WithDeadline` compares with the
`_deadline` of its direct parent, and a `WithCancel` context has none, so a
deadline above a `WithCancel` does not reach the contexts below it.
-/

namespace Stackweave.Context

variable {T : Type}

inductive Ctx (T : Type)
  | background
  | withCancel (parent : Ctx T)
  | withDeadline (parent : Ctx T) (requested : T)
  deriving DecidableEq

/-- `WithTimeout(parent, seconds)`, called when the clock shows `now`. -/
def Ctx.withTimeout [Add T] (parent : Ctx T) (now seconds : T) : Ctx T :=
  .withDeadline parent (now + seconds)

/-- `_deadline`, which `deadline()` returns. -/
def Ctx.deadline [LT T] [DecidableLT T] : Ctx T → Option T
  | .background => none
  | .withCancel _ => none
  | .withDeadline parent d =>
    match parent.deadline with
    | none => some d
    | some e => if e < d then some e else some d

/-- The deadlines asked for on the path from the context to the root. -/
def Ctx.requested : Ctx T → List T
  | .background => []
  | .withCancel parent => parent.requested
  | .withDeadline parent d => d :: parent.requested

/-- Those asked for below the last `WithCancel` of the path. -/
def Ctx.recent : Ctx T → List T
  | .background => []
  | .withCancel _ => []
  | .withDeadline parent d => d :: parent.recent

def Ctx.ancestors : Ctx T → List (Ctx T)
  | .background => []
  | .withCancel parent => parent :: parent.ancestors
  | .withDeadline parent _ => parent :: parent.ancestors

/-- What a deadline is for: it is the earliest one of the path, and it is not later
than the deadline of an ancestor. -/
structure Tight [LinearOrder T] (c : Ctx T) : Prop where
  least : ∀ parent d, c = .withDeadline parent d →
    ∃ m, c.deadline = some m ∧ IsLeast {e | e ∈ c.requested} m
  bounded : ∀ a ∈ c.ancestors, ∀ e m, a.deadline = some e → c.deadline = some m → m ≤ e

theorem recent_subset (c : Ctx T) : ∀ e ∈ c.recent, e ∈ c.requested := by
  induction c with
  | background => exact fun _ he => he
  | withCancel parent _ => rintro _ ⟨⟩
  | withDeadline parent d ih =>
    intro e he
    rcases List.mem_cons.mp he with rfl | he
    · exact List.mem_cons_self
    · exact List.mem_cons_of_mem _ (ih e he)

theorem requested_of_ancestor (c : Ctx T) :
    ∀ a ∈ c.ancestors, ∀ e ∈ a.requested, e ∈ c.requested := by
  induction c with
  | background => rintro _ ⟨⟩
  | withCancel parent ih =>
    intro a ha e he
    rcases List.mem_cons.mp ha with rfl | ha
    · exact he
    · exact ih a ha e he
  | withDeadline parent d ih =>
    intro a ha e he
    rcases List.mem_cons.mp ha with rfl | ha
    · exact List.mem_cons_of_mem _ he
    · exact List.mem_cons_of_mem _ (ih a ha e he)

section Order

variable [LinearOrder T]

/-- The deadline of a context is the earliest one asked for since the last `WithCancel`. -/
theorem deadline_isLeast (c : Ctx T) :
    (c.recent = [] ∧ c.deadline = none) ∨
      ∃ m, c.deadline = some m ∧ IsLeast {e | e ∈ c.recent} m := by
  induction c with
  | background => exact .inl ⟨rfl, rfl⟩
  | withCancel parent _ => exact .inl ⟨rfl, rfl⟩
  | withDeadline parent d ih =>
    right
    rcases ih with ⟨hnil, hnone⟩ | ⟨m, hm, hmem, hle⟩
    · refine ⟨d, ?_, List.mem_cons_self, ?_⟩
      · simp only [Ctx.deadline, hnone]
      · intro e he
        rcases List.mem_cons.mp he with rfl | he
        · exact le_rfl
        · rw [hnil] at he
          cases he
    · by_cases hlt : m < d
      · refine ⟨m, ?_, List.mem_cons_of_mem _ hmem, ?_⟩
        · simp only [Ctx.deadline, hm, if_pos hlt]
        · intro e he
          rcases List.mem_cons.mp he with rfl | he
          · exact le_of_lt hlt
          · exact hle he
      · refine ⟨d, ?_, List.mem_cons_self, ?_⟩
        · simp only [Ctx.deadline, hm, if_neg hlt]
        · intro e he
          rcases List.mem_cons.mp he with rfl | he
          · exact le_rfl
          · exact (not_lt.mp hlt).trans (hle he)

theorem mem_recent_of_deadline {c : Ctx T} {e : T} (h : c.deadline = some e) : e ∈ c.recent := by
  rcases deadline_isLeast c with ⟨-, hnone⟩ | ⟨m, hm, hmem, -⟩
  · exact absurd (hnone.symm.trans h) (by rintro ⟨⟩)
  · cases hm.symm.trans h
    exact hmem

/-- **Deadlines.** The deadline of a context is right exactly when, for a context made
by `WithDeadline` or `WithTimeout`, the earliest deadline of its path was asked for
below the last `WithCancel` of the path. -/
theorem tight_iff_recent (c : Ctx T) :
    Tight c ↔ ∀ parent d, c = .withDeadline parent d →
      ∃ m ∈ c.recent, ∀ e ∈ c.requested, m ≤ e := by
  constructor
  · intro h parent d hc
    obtain ⟨m, hm, -, hle⟩ := h.least parent d hc
    exact ⟨m, mem_recent_of_deadline hm, fun e he => hle he⟩
  · intro h
    have hleast : ∀ parent d, c = .withDeadline parent d →
        ∃ m, c.deadline = some m ∧ IsLeast {e | e ∈ c.requested} m := by
      intro parent d hc
      obtain ⟨x, hx, hxle⟩ := h parent d hc
      rcases deadline_isLeast c with ⟨hnil, -⟩ | ⟨m, hm, hmem, hle⟩
      · rw [hnil] at hx
        cases hx
      · exact ⟨m, hm, recent_subset c m hmem, fun e he => (hle hx).trans (hxle e he)⟩
    refine ⟨hleast, fun a ha e m he hm => ?_⟩
    have hmem := requested_of_ancestor c a ha e (recent_subset a e (mem_recent_of_deadline he))
    cases c with
    | background => cases ha
    | withCancel parent => cases hm
    | withDeadline parent d =>
      obtain ⟨m', hm', -, hle⟩ := hleast parent d rfl
      cases hm'.symm.trans hm
      exact hle hmem

end Order

/-- A deadline of 1, a `WithCancel` below it and a deadline of 5 below that. -/
theorem deadline_past_withCancel :
    let c : Ctx ℕ := .withDeadline (.withCancel (.withDeadline .background 1)) 5
    c.deadline = some 5 ∧ ¬ Tight c := by
  refine ⟨rfl, fun h => ?_⟩
  exact absurd (h.bounded (.withDeadline .background 1) (by decide) 1 5 rfl rfl) (by decide)

end Stackweave.Context
