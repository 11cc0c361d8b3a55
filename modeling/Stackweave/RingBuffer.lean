import Mathlib.Data.List.Basic
import Mathlib.Logic.Function.Basic

/-!
A ring of `cap` slots read through a window: `window buf cap lo n` lists the
`n` slots from position `lo` on, positions taken modulo `cap`. The lemmas say
what reading at the head, appending at the tail and writing outside the window
do, and that a window of at most `cap` slots never sees a slot twice.
-/

namespace Stackweave.RingBuffer

open Function

variable {β : Type*}

/-- The `n` slots from position `lo` on. -/
def window (buf : ℕ → β) (cap lo n : ℕ) : List β :=
  (List.range n).map fun i => buf ((lo + i) % cap)

@[simp] theorem window_zero (buf : ℕ → β) (cap lo : ℕ) : window buf cap lo 0 = [] := rfl

@[simp] theorem window_length (buf : ℕ → β) (cap lo n : ℕ) :
    (window buf cap lo n).length = n := by
  simp [window]

theorem window_append (buf : ℕ → β) (cap lo n : ℕ) :
    window buf cap lo (n + 1) = window buf cap lo n ++ [buf ((lo + n) % cap)] := by
  simp [window, List.range_succ]

theorem window_cons (buf : ℕ → β) (cap lo n : ℕ) :
    window buf cap lo (n + 1) = buf (lo % cap) :: window buf cap (lo + 1) n := by
  simp only [window, List.range_succ_eq_map, List.map_cons, List.map_map, Nat.add_zero]
  congr 2
  funext i
  simp only [Function.comp_apply, Nat.succ_eq_add_one]
  congr 2
  omega

/-- Only the start position modulo the capacity matters. -/
theorem window_mod (buf : ℕ → β) (cap lo n : ℕ) :
    window buf cap (lo % cap) n = window buf cap lo n := by
  simp [window]

/-- Two positions less than `cap` apart fall on different slots. -/
theorem slot_ne (cap lo : ℕ) {i j : ℕ} (hij : i < j) (hj : j < i + cap) :
    (lo + i) % cap ≠ (lo + j) % cap := by
  intro h
  have hdvd : cap ∣ (lo + j) - (lo + i) :=
    Nat.dvd_of_mod_eq_zero (Nat.sub_mod_eq_zero_of_mod_eq h.symm)
  have hle : cap ≤ (lo + j) - (lo + i) := Nat.le_of_dvd (by omega) hdvd
  omega

/-- A window depends on the slots that it shows only. -/
theorem window_congr {f g : ℕ → β} {cap lo n : ℕ}
    (h : ∀ i < n, f ((lo + i) % cap) = g ((lo + i) % cap)) :
    window f cap lo n = window g cap lo n :=
  List.map_congr_left fun i hi => h i (List.mem_range.mp hi)

/-- Writing the slot of a position behind the window leaves the window alone. -/
theorem window_update (buf : ℕ → β) (cap lo n m : ℕ) (v : β) (hn : n ≤ m) (hm : m < cap) :
    window (update buf ((lo + m) % cap) v) cap lo n = window buf cap lo n := by
  apply window_congr
  intro i hi
  exact update_of_ne (slot_ne cap lo (by omega) (by omega)) _ _

/-- Writing the next free slot appends the value to the window. -/
theorem window_push (buf : ℕ → β) (cap lo n : ℕ) (v : β) (hn : n < cap) :
    window (update buf ((lo + n) % cap) v) cap lo (n + 1) =
      window buf cap lo n ++ [v] := by
  rw [window_append, window_update buf cap lo n n v (Nat.le_refl n) hn, update_self]

end Stackweave.RingBuffer
