import Mathlib.Data.Int.ModEq
import Mathlib.Data.List.Nodup
import Mathlib.Data.List.Perm.Subperm
import Mathlib.Data.Nat.ModEq
import Mathlib.Tactic.Common

/-!
# The order in which `select_try_each` visits its cases

The start and the stride come from two draws of the thread's xorshift generator, and
the stride is raised until it is coprime with the number of cases. The indices are
`int`s: the sum of an index and the stride is reduced to 32 bits before the test that
takes it back below `n`.

* `covers_iff`: the visits go through all the cases once each just when no sum that
  a visit needs is past `INT_MAX`.
-/

namespace Stackweave.Channel.Select

/-! ### Residues at a stride -/

/-- The `k`-th residue from `start` on. -/
def strided (n start stride k : ℕ) : ℕ := (start + k * stride) % n

section Strided

variable {n start stride : ℕ}

theorem strided_lt (hn : 0 < n) (k : ℕ) : strided n start stride k < n := Nat.mod_lt _ hn

theorem strided_zero (hs : start < n) : strided n start stride 0 = start := by
  rw [strided, Nat.zero_mul, Nat.add_zero, Nat.mod_eq_of_lt hs]

/-- One step further, with a single subtraction. -/
theorem strided_succ (hn : 0 < n) (hle : stride ≤ n) (k : ℕ) :
    strided n start stride (k + 1) =
      if n ≤ strided n start stride k + stride then strided n start stride k + stride - n
      else strided n start stride k + stride := by
  have hlt : strided n start stride k < n := strided_lt hn k
  have hmod : strided n start stride (k + 1) = (strided n start stride k + stride) % n := by
    rw [strided, strided, Nat.mod_add_mod, Nat.succ_mul, Nat.add_assoc]
  rw [hmod]
  split
  case isTrue hge => rw [Nat.mod_eq_sub_mod hge, Nat.mod_eq_of_lt (by omega)]
  case isFalse hge => exact Nat.mod_eq_of_lt (Nat.not_le.mp hge)

theorem strided_inj (hcop : Nat.gcd stride n = 1) {a b : ℕ} (ha : a < n) (hb : b < n)
    (h : strided n start stride a = strided n start stride b) : a = b := by
  have hmul : a * stride ≡ b * stride [MOD n] := Nat.ModEq.add_left_cancel' start h
  have hab : a ≡ b [MOD n] := Nat.ModEq.cancel_right_of_coprime (Nat.gcd_comm n stride ▸ hcop) hmul
  exact hab.eq_of_lt_of_lt ha hb

/-- A stride coprime with `n` goes through every residue once. -/
theorem strided_perm (hn : 0 < n) (hcop : Nat.gcd stride n = 1) :
    ((List.range n).map (strided n start stride)).Perm (List.range n) := by
  have hnodup : ((List.range n).map (strided n start stride)).Nodup := by
    refine List.Nodup.map_on (fun a ha b hb h => ?_) List.nodup_range
    exact strided_inj hcop (List.mem_range.mp ha) (List.mem_range.mp hb) h
  have hsub : (List.range n).map (strided n start stride) ⊆ List.range n := fun i hi => by
    obtain ⟨k, -, rfl⟩ := List.mem_map.mp hi
    exact List.mem_range.mpr (strided_lt hn k)
  exact (hnodup.subperm hsub).perm_of_length_le (by simp)

end Strided

/-! ### The draw -/

/-- `runloom_select_rand` after its seeding: the next state, which is also the number
that is drawn. -/
def selectRand (x : UInt64) : UInt64 :=
  let x := x ^^^ (x <<< 13)
  let x := x ^^^ (x >>> 7)
  x ^^^ (x <<< 17)

/-- `runloom_select_gcd`. -/
def selectGcd (a b : ℕ) : ℕ :=
  if b = 0 then a else selectGcd b (a % b)
termination_by b
decreasing_by exact Nat.mod_lt _ (Nat.pos_of_ne_zero ‹_›)

/-- The search for a stride coprime with `n`. -/
def coprimeStride (n : ℕ) : (fuel stride : ℕ) → Option ℕ
  | 0, _ => none
  | fuel + 1, stride =>
    if selectGcd stride n ≠ 1 then coprimeStride n fuel (stride % (n - 1) + 1) else some stride

/-- The start and the stride of `select_try_each`, from the state `x` of the generator. -/
def visitOrder (n : ℕ) (x : UInt64) : Option (ℕ × ℕ) :=
  if 1 < n then
    let start := (selectRand x).toNat % n
    if 2 < n then
      (coprimeStride n n (1 + (selectRand (selectRand x)).toNat % (n - 1))).map fun stride =>
        (start, stride)
    else some (start, 1)
  else some (0, 1)

theorem selectGcd_eq (a b : ℕ) : selectGcd a b = Nat.gcd a b := by
  induction b using Nat.strong_induction_on generalizing a with
  | _ b ih =>
    rw [selectGcd]
    split
    case isTrue hb => rw [hb, Nat.gcd_zero_right]
    case isFalse hb => rw [ih _ (Nat.mod_lt _ (Nat.pos_of_ne_zero hb)), Nat.gcd_comm b,
      ← Nat.gcd_rec, Nat.gcd_comm]

theorem gcd_pred {n : ℕ} (hn : 0 < n) : Nat.gcd (n - 1) n = 1 := by
  obtain ⟨m, rfl⟩ : ∃ m, n = m + 1 := ⟨n - 1, by omega⟩
  simp

/-- The search ends at `n - 1` at the latest. -/
theorem coprimeStride_ends {n : ℕ} (hn : 2 < n) {fuel stride : ℕ} (hpos : 1 ≤ stride)
    (hlt : stride < n) (hfuel : n ≤ stride + fuel) :
    ∃ s, coprimeStride n fuel stride = some s ∧ 1 ≤ s ∧ s < n ∧ Nat.gcd s n = 1 := by
  induction fuel generalizing stride with
  | zero => omega
  | succ fuel ih =>
    rw [coprimeStride, selectGcd_eq]
    split
    case isTrue hgcd =>
      have hne : stride ≠ n - 1 := by
        rintro rfl
        exact hgcd (gcd_pred (by omega))
      rw [Nat.mod_eq_of_lt (by omega)]
      exact ih (by omega) (by omega) (by omega)
    case isFalse hgcd => exact ⟨stride, rfl, hpos, hlt, not_not.mp hgcd⟩

/-- Every state of the generator gives a start and a coprime stride. -/
theorem visitOrder_ends {n : ℕ} (hn : 1 ≤ n) (x : UInt64) :
    ∃ start stride, visitOrder n x = some (start, stride) ∧ start < n ∧ 1 ≤ stride ∧
      (stride = 1 ∨ stride < n) ∧ Nat.gcd stride n = 1 := by
  unfold visitOrder
  split
  case isTrue h1 =>
    have hstart : (selectRand x).toNat % n < n := Nat.mod_lt _ (by omega)
    dsimp only
    split
    case isTrue h2 =>
      have hfirst : 1 ≤ 1 + (selectRand (selectRand x)).toNat % (n - 1) ∧
          1 + (selectRand (selectRand x)).toNat % (n - 1) < n := by
        have hmod : (selectRand (selectRand x)).toNat % (n - 1) < n - 1 := Nat.mod_lt _ (by omega)
        omega
      generalize 1 + (selectRand (selectRand x)).toNat % (n - 1) = first at hfirst
      obtain ⟨s, hs, hpos, hlt, hgcd⟩ := coprimeStride_ends h2 hfirst.1 hfirst.2
        (Nat.le_add_left n first)
      exact ⟨_, s, by rw [hs]; rfl, hstart, hpos, .inr hlt, hgcd⟩
    case isFalse => exact ⟨_, 1, rfl, hstart, Nat.le_refl 1, .inl rfl, Nat.gcd_one_left n⟩
  case isFalse => exact ⟨0, 1, rfl, by omega, Nat.le_refl 1, .inl rfl, Nat.gcd_one_left n⟩

/-! ### The indices as the code computes them -/

/-- A signed sum in 32 bits. -/
def int32 (z : ℤ) : ℤ := Int.bmod z (2 ^ 32)

/-- `i += stride; if (i >= n) i -= n;` -/
def nextIndex (n i stride : ℤ) : ℤ :=
  if n ≤ int32 (i + stride) then int32 (i + stride) - n else int32 (i + stride)

/-- The index of the `k`-th visit. -/
def visited (n start stride : ℕ) : ℕ → ℤ
  | 0 => start
  | k + 1 => nextIndex n (visited n start stride k) stride

/-- No sum that leads to one of the `n` visits is past `INT_MAX`. -/
def Fits (n start stride : ℕ) : Prop := ∀ k < n - 1, strided n start stride k + stride < 2 ^ 31

instance (n start stride : ℕ) : Decidable (Fits n start stride) :=
  inferInstanceAs (Decidable (∀ k < n - 1, strided n start stride k + stride < 2 ^ 31))

theorem int32_of_lt {z : ℕ} (hz : z < 2 ^ 31) : int32 z = z := by
  unfold int32
  rw [Int.bmod_eq_of_le] <;> omega

/-- A sum past `INT_MAX` comes out negative. -/
theorem int32_neg {z : ℕ} (hlo : 2 ^ 31 ≤ z) (hhi : z < 2 ^ 32) : int32 z < 0 := by
  unfold int32
  rw [Int.bmod_def]
  omega

section Visited

variable {n start stride : ℕ}

theorem fits_of_le (hn : 0 < n) (hmax : n ≤ 2 ^ 30) (hle : stride ≤ n) : Fits n start stride := by
  intro k hk
  have hlt : strided n start stride k < n := strided_lt hn k
  omega

theorem visited_eq (hn : 0 < n) (hs : start < n) (hle : stride ≤ n) {k : ℕ}
    (hfits : ∀ j < k, strided n start stride j + stride < 2 ^ 31) :
    visited n start stride k = strided n start stride k := by
  induction k with
  | zero => rw [visited, strided_zero hs]
  | succ k ih =>
    have hsum := int32_of_lt (hfits k (Nat.lt_succ_self k))
    rw [Nat.cast_add] at hsum
    rw [visited, ih fun j hj => hfits j (Nat.lt_succ_of_lt hj), nextIndex, hsum,
      strided_succ hn hle]
    split
    case isTrue hge => rw [if_pos (by omega)]; omega
    case isFalse hge => rw [if_neg (by omega)]; omega

/-- The code visits every case once just when its sums stay in range. -/
theorem covers_iff (hn : 0 < n) (hmax : n < 2 ^ 31) (hs : start < n) (hle : stride ≤ n)
    (hcop : Nat.gcd stride n = 1) :
    ((List.range n).map (visited n start stride)).Perm ((List.range n).map Nat.cast) ↔
      Fits n start stride := by
  constructor
  · intro hperm k
    -- the first sum that is too large would give a negative index
    induction k using Nat.strong_induction_on with
    | _ k ih =>
      intro hk
      by_contra hbig
      have hat := visited_eq hn hs hle fun j hj => ih j hj (by omega)
      have hlt : strided n start stride k < n := strided_lt hn k
      have hneg : visited n start stride (k + 1) < 0 := by
        have hsum := int32_neg (Nat.not_lt.mp hbig) (by omega)
        rw [Nat.cast_add] at hsum
        rw [visited, hat, nextIndex, if_neg (by omega)]
        exact hsum
      have hmem : visited n start stride (k + 1) ∈ (List.range n).map (Nat.cast : ℕ → ℤ) :=
        hperm.subset (List.mem_map.mpr ⟨k + 1, List.mem_range.mpr (by omega), rfl⟩)
      obtain ⟨j, -, hj⟩ := List.mem_map.mp hmem
      omega
  · intro hfits
    have hmap : (List.range n).map (visited n start stride) =
        ((List.range n).map (strided n start stride)).map Nat.cast := by
      rw [List.map_map]
      refine List.map_congr_left fun k hk => ?_
      rw [List.mem_range] at hk
      exact visited_eq hn hs hle fun j hj => hfits j (by omega)
    rw [hmap]
    exact (strided_perm hn hcop).map _

end Visited

end Stackweave.Channel.Select
