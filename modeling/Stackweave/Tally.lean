import Mathlib

/-!
Weighing the members of a list. A protocol keeps its actors (fibers, callers,
claimers) in a list and moves one of them with `List.set`; `tally w` adds up
what each contributes to a count, and `tally_set` says how one move changes it.
Where the actors are numbered and kept in a function, `sum_range_update` does.
-/

namespace Stackweave.Tally

variable {α : Type*} {w : α → ℕ} {l : List α}

/-- The sum of the weights. -/
def tally (w : α → ℕ) (l : List α) : ℕ := (l.map w).sum

@[simp] theorem tally_nil : tally w [] = 0 := rfl

@[simp] theorem tally_cons (a : α) : tally w (a :: l) = w a + tally w l := rfl

@[simp] theorem tally_append (l' : List α) : tally w (l ++ l') = tally w l + tally w l' := by
  simp [tally]

theorem tally_perm {l' : List α} (h : l.Perm l') : tally w l = tally w l' := (h.map w).sum_eq

theorem tally_filter (p : α → Bool) (l : List α) :
    tally w (l.filter p) + tally w (l.filter fun a => !p a) = tally w l := by
  rw [← tally_append]
  exact tally_perm (List.filter_append_perm p l)

theorem tally_take_drop (n : ℕ) (l : List α) :
    tally w (l.take n) + tally w (l.drop n) = tally w l := by
  rw [← tally_append, List.take_append_drop]

/-- Replacing one member exchanges its weight. -/
theorem tally_set {i : ℕ} {a : α} (h : l[i]? = some a) (b : α) :
    tally w (l.set i b) + w a = tally w l + w b := by
  induction l generalizing i with
  | nil => simp at h
  | cons c l ih =>
    cases i with
    | zero =>
      simp only [List.getElem?_cons_zero, Option.some.injEq] at h
      subst h
      simp only [List.set_cons_zero, tally_cons]
      omega
    | succ i =>
      have := ih (by simpa using h)
      simp only [List.set_cons_succ, tally_cons]
      omega

/-- No member weighs more than all of them. -/
theorem le_tally {a : α} (h : a ∈ l) : w a ≤ tally w l := by
  induction l with
  | nil => cases h
  | cons c l ih =>
    rcases List.mem_cons.mp h with rfl | h
    · simp
    · have := ih h
      simp only [tally_cons]
      omega

/-- One of the numbered actors exchanges its weight. -/
theorem sum_range_update {k : ℕ} {f g : ℕ → ℤ} {i : ℕ} (hi : i < k)
    (hfg : ∀ j, j ≠ i → g j = f j) :
    ∑ j ∈ Finset.range k, g j = ∑ j ∈ Finset.range k, f j + (g i - f i) := by
  have hmem : i ∈ Finset.range k := Finset.mem_range.mpr hi
  have hrest : ∑ j ∈ (Finset.range k).erase i, g j = ∑ j ∈ (Finset.range k).erase i, f j :=
    Finset.sum_congr rfl fun j hj => hfg j (Finset.ne_of_mem_erase hj)
  have hg := Finset.add_sum_erase _ g hmem
  have hf := Finset.add_sum_erase _ f hmem
  omega

/-- The numbered actors that weigh something. -/
theorem countP_range_le (p : ℕ → Bool) {w : ℕ → ℕ} (hw : ∀ i, p i = true → 0 < w i) (n : ℕ) :
    ((List.range n).countP p : ℤ) ≤ ∑ i ∈ Finset.range n, (w i : ℤ) := by
  induction n with
  | zero => simp
  | succ n ih =>
    rw [List.range_succ, List.countP_append, Finset.sum_range_succ]
    cases hp : p n with
    | false =>
      simp only [List.countP_singleton, hp, Bool.false_eq_true, if_false]
      omega
    | true =>
      have := hw n hp
      simp only [List.countP_singleton, hp, if_true]
      omega

end Stackweave.Tally
