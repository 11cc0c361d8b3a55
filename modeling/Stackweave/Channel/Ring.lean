import Stackweave.RingBuffer

/-!
# The ring of a channel

`runloom_chan_t` keeps its buffered values in `buf[0 .. cap)` with a head, a
tail and a length. `bufPush` and `bufPop` are the two places that touch it.
`Ring.WF` says that the live slots are the `len` slots from the head on, and
`contents` lists them.
-/

namespace Stackweave.Channel

open RingBuffer Function

variable {V : Type*}

/-- The ring fields of `runloom_chan_t`. A slot holds a pointer, `none` is NULL. -/
structure Ring (V : Type*) where
  cap : ℕ
  head : ℕ
  tail : ℕ
  len : ℕ
  buf : ℕ → Option V

/-- The ring of `runloom_chan_new`. -/
def Ring.new (cap : ℕ) : Ring V where
  cap := cap
  head := 0
  tail := 0
  len := 0
  buf := fun _ => none

/-- `buf_push`; the caller has checked `len < cap`. -/
def bufPush (r : Ring V) (p : Option V) : Ring V :=
  { r with buf := Function.update r.buf r.tail p
           tail := (r.tail + 1) % r.cap
           len := r.len + 1 }

/-- `buf_pop`; the caller has checked `0 < len`. -/
def bufPop (r : Ring V) : Option V × Ring V :=
  (r.buf r.head,
    { r with buf := Function.update r.buf r.head none
             head := (r.head + 1) % r.cap
             len := r.len - 1 })

@[simp, grind =] theorem bufPush_cap (r : Ring V) (p : Option V) : (bufPush r p).cap = r.cap := rfl
@[simp, grind =] theorem bufPush_len (r : Ring V) (p : Option V) :
    (bufPush r p).len = r.len + 1 := rfl
@[simp, grind =] theorem bufPop_cap (r : Ring V) : (bufPop r).2.cap = r.cap := rfl
@[simp, grind =] theorem bufPop_len (r : Ring V) : (bufPop r).2.len = r.len - 1 := rfl

/-- The pointers from head to tail. -/
def Ring.contents (r : Ring V) : List (Option V) := window r.buf r.cap r.head r.len

variable {r : Ring V}

theorem Ring.contents_eq_nil (h : r.len = 0) : r.contents = [] := by
  simp [contents, h]

/-- The live slots are exactly the `len` slots from the head on. -/
structure Ring.WF (r : Ring V) : Prop where
  len_le : r.len ≤ r.cap
  head_lt : 0 < r.cap → r.head < r.cap
  tail_eq : 0 < r.cap → r.tail = (r.head + r.len) % r.cap
  live : ∀ j < r.cap, (r.buf j).isSome ↔ ∃ i < r.len, j = (r.head + i) % r.cap

theorem Ring.WF.new (cap : ℕ) : (Ring.new cap : Ring V).WF := by
  refine ⟨Nat.zero_le _, fun h => h, fun h => ?_, fun j _ => ?_⟩
  · simp [Ring.new]
  · simp [Ring.new]

/-- Pushing a value into a ring with room keeps the ring well formed. -/
theorem Ring.WF.push (h : r.WF) (hlen : r.len < r.cap) (v : V) :
    (bufPush r (some v)).WF := by
  have hcap : 0 < r.cap := by omega
  have htail := h.tail_eq hcap
  refine ⟨hlen, h.head_lt, fun _ => ?_, fun j hj => ?_⟩
  · simp only [bufPush, htail, Nat.mod_add_mod]
    rw [Nat.add_assoc]
  · by_cases hjt : j = r.tail
    · subst hjt
      simp only [bufPush, update_self, Option.isSome_some, true_iff]
      exact ⟨r.len, Nat.lt_succ_self _, htail⟩
    · simp only [bufPush, update_of_ne hjt]
      rw [h.live j hj]
      constructor
      · rintro ⟨i, hi, rfl⟩
        exact ⟨i, by omega, rfl⟩
      · rintro ⟨i, hi, rfl⟩
        refine ⟨i, ?_, rfl⟩
        have : i ≠ r.len := fun hil => hjt (hil ▸ htail.symm)
        omega

theorem Ring.WF.head_slot (h : r.WF) (hlen : 0 < r.len) :
    (r.head + 0) % r.cap = r.head := by
  have hcap : 0 < r.cap := Nat.lt_of_lt_of_le hlen h.len_le
  rw [Nat.add_zero, Nat.mod_eq_of_lt (h.head_lt hcap)]

/-- The head slot of a nonempty ring holds a value. -/
theorem Ring.WF.pop_isSome (h : r.WF) (hlen : 0 < r.len) : (bufPop r).1.isSome := by
  have hcap : 0 < r.cap := Nat.lt_of_lt_of_le hlen h.len_le
  exact (h.live r.head (h.head_lt hcap)).mpr ⟨0, hlen, (h.head_slot hlen).symm⟩

/-- Popping from a nonempty ring keeps the ring well formed. -/
theorem Ring.WF.pop (h : r.WF) (hlen : 0 < r.len) : (bufPop r).2.WF := by
  have hle := h.len_le
  have hcap : 0 < r.cap := by omega
  have hslot := h.head_slot hlen
  refine ⟨by simp only [bufPop_len, bufPop_cap]; omega,
    fun _ => Nat.mod_lt _ hcap, fun _ => ?_, fun j hj => ?_⟩
  · simp only [bufPop, h.tail_eq hcap, Nat.mod_add_mod]
    congr 1
    omega
  · by_cases hjh : j = r.head
    · subst hjh
      simp only [bufPop, update_self, Option.isSome_none, Bool.false_eq_true,
        Nat.mod_add_mod, false_iff, not_exists, not_and]
      intro i hi heq
      refine slot_ne r.cap r.head (Nat.succ_pos i) (by omega) ?_
      rw [hslot, heq]
      congr 1
      omega
    · simp only [bufPop, update_of_ne hjh, Nat.mod_add_mod]
      rw [h.live j hj]
      constructor
      · rintro ⟨i, hi, rfl⟩
        have hi0 : i ≠ 0 := fun hi0 => hjh (hi0 ▸ hslot)
        refine ⟨i - 1, by omega, ?_⟩
        congr 1
        omega
      · rintro ⟨i, hi, rfl⟩
        refine ⟨i + 1, by omega, ?_⟩
        congr 1
        omega

/-- A push appends at the tail end. -/
theorem Ring.WF.contents_push (h : r.WF) (hlen : r.len < r.cap) (p : Option V) :
    (bufPush r p).contents = r.contents ++ [p] := by
  have htail := h.tail_eq (by omega)
  simp only [contents, bufPush, htail]
  exact window_push r.buf r.cap r.head r.len p hlen

/-- A pop takes the value at the head end. -/
theorem Ring.WF.contents_pop (h : r.WF) (hlen : 0 < r.len) :
    r.contents = (bufPop r).1 :: (bufPop r).2.contents := by
  have hle := h.len_le
  have hslot := h.head_slot hlen
  have hpos : (r.head + 1 + (r.cap - 1)) % r.cap = r.head := by
    have : r.head + 1 + (r.cap - 1) = r.head + 0 + r.cap := by omega
    rw [this, Nat.add_mod_right]
    exact hslot
  -- the freed slot is the last one behind the shortened window
  have hkeep := window_update r.buf r.cap (r.head + 1) (r.len - 1) (r.cap - 1) none
    (by omega) (by omega)
  rw [hpos] at hkeep
  obtain ⟨n, hn⟩ : ∃ n, r.len = n + 1 := ⟨r.len - 1, by omega⟩
  rw [hn, Nat.add_sub_cancel] at hkeep
  simp only [contents, bufPop, window_mod, hn, Nat.add_sub_cancel, hkeep, window_cons]
  rw [Nat.add_zero] at hslot
  rw [hslot]

end Stackweave.Channel
