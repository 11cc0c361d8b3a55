import Mathlib

/-!
Binary min-heaps in an array whose entries know their place. The first `n` cells
of `arr` are the heap, `key` gives the order, and `index x` is the cell of the
entry `x`. `insert` and `remove` are the usual ones: a new entry is sifted up from
the end, and the cell of a removed entry takes the last one, which is then sifted
up or down. A key may be read from a table that changes between the operations.
-/

namespace Stackweave.Heap

open Function

structure Cells (α : Type*) where
  arr : ℕ → α
  index : α → Option ℕ

section Operations

variable {α κ : Type*} [DecidableEq α] [LinearOrder κ]

def Cells.put (c : Cells α) (i : ℕ) (x : α) : Cells α :=
  { arr := Function.update c.arr i x, index := Function.update c.index x (some i) }

def Cells.swap (c : Cells α) (i j : ℕ) : Cells α := (c.put i (c.arr j)).put j (c.arr i)

def parent (i : ℕ) : ℕ := (i - 1) / 2

/-- At most `fuel` turns of the loop; `i` of them are enough. -/
def siftUp (key : α → κ) : ℕ → Cells α → ℕ → Cells α
  | 0, c, _ => c
  | fuel + 1, c, i =>
    if i = 0 then c
    else if key (c.arr i) < key (c.arr (parent i)) then
      siftUp key fuel (c.swap i (parent i)) (parent i)
    else c

/-- The smaller of the entries at `best` and `j`, if `j` is in the heap. -/
def pick (key : α → κ) (n : ℕ) (c : Cells α) (best j : ℕ) : ℕ :=
  if j < n ∧ key (c.arr j) < key (c.arr best) then j else best

/-- At most `fuel` turns of the loop; `n` of them are enough. -/
def siftDown (key : α → κ) (n : ℕ) : ℕ → Cells α → ℕ → Cells α
  | 0, c, _ => c
  | fuel + 1, c, i =>
    let best := pick key n c (pick key n c i (2 * i + 1)) (2 * i + 2)
    if best = i then c else siftDown key n fuel (c.swap i best) best

/-- The heap of `n` entries gets one more. -/
def insert (key : α → κ) (n : ℕ) (c : Cells α) (x : α) : Cells α :=
  siftUp key n (c.put n x) n

/-- The heap of `n + 1` entries loses `x`, the one at `i`. -/
def remove (key : α → κ) (n : ℕ) (c : Cells α) (x : α) (i : ℕ) : Cells α :=
  let d : Cells α := { c with index := Function.update c.index x none }
  if i = n then d
  else siftDown key n n (siftUp key i (d.put i (c.arr n)) i) i

end Operations

section

variable {α κ : Type*} [DecidableEq α] [LinearOrder κ] {key : α → κ} {n : ℕ} {c : Cells α}

/-- Every entry has the place at which it stands. -/
def Indexed (c : Cells α) (n : ℕ) : Prop := ∀ i < n, c.index (c.arr i) = some i

/-- No entry has a smaller key than its parent. -/
def Ordered (key : α → κ) (c : Cells α) (n : ℕ) : Prop :=
  ∀ i, 0 < i → i < n → key (c.arr (parent i)) ≤ key (c.arr i)

/-- The entries. -/
def Cells.Has (c : Cells α) (n : ℕ) (x : α) : Prop := ∃ i < n, c.arr i = x

variable {i j k : ℕ} {x : α}

omit [DecidableEq α] [LinearOrder κ] in
theorem Indexed.inj (h : Indexed c n) (hi : i < n) (hj : j < n)
    (he : c.arr i = c.arr j) : i = j := by
  have hij := h i hi
  rw [he, h j hj] at hij
  exact (Option.some.inj hij).symm

theorem parent_lt (h : 0 < i) : parent i < i := by
  unfold parent
  omega

omit [DecidableEq α] in
/-- The root has the smallest key. -/
theorem Ordered.root (h : Ordered key c n) (hi : i < n) :
    key (c.arr 0) ≤ key (c.arr i) := by
  induction i using Nat.strongRecOn with
  | ind i ih =>
    rcases Nat.eq_zero_or_pos i with rfl | hpos
    · exact le_refl _
    · have hp := parent_lt hpos
      exact le_trans (ih (parent i) hp (by omega)) (h i hpos hi)

/-! ### Swapping -/

theorem swap_arr (c : Cells α) (i j k : ℕ) :
    (c.swap i j).arr k = if k = j then c.arr i else if k = i then c.arr j else c.arr k := by
  simp only [Cells.swap, Cells.put, update_apply]

theorem swap_indexed (h : Indexed c n) (hi : i < n) (hj : j < n) :
    Indexed (c.swap i j) n := by
  intro k hk
  rw [swap_arr]
  simp only [Cells.swap, Cells.put]
  by_cases hkj : k = j
  · rw [if_pos hkj, update_self, hkj]
  · rw [if_neg hkj]
    by_cases hki : k = i
    · rw [if_pos hki, hki]
      have hne : c.arr j ≠ c.arr i := fun he => hkj (hki.trans (h.inj hj hi he).symm)
      rw [update_of_ne hne, update_self]
    · rw [if_neg hki]
      have hnei : c.arr k ≠ c.arr i := fun he => hki (h.inj hk hi he)
      have hnej : c.arr k ≠ c.arr j := fun he => hkj (h.inj hk hj he)
      rw [update_of_ne hnei, update_of_ne hnej]
      exact h k hk

theorem swap_has (hi : i < n) (hj : j < n) :
    (c.swap i j).Has n x ↔ c.Has n x := by
  constructor
  · rintro ⟨k, hk, rfl⟩
    rw [swap_arr]
    split
    · exact ⟨i, hi, rfl⟩
    · split
      · exact ⟨j, hj, rfl⟩
      · exact ⟨k, hk, rfl⟩
  · rintro ⟨k, hk, rfl⟩
    by_cases hki : k = i
    · exact ⟨j, hj, by rw [swap_arr, if_pos rfl, hki]⟩
    · by_cases hkj : k = j
      · refine ⟨i, hi, ?_⟩
        rw [swap_arr, if_neg (fun he => hki (hkj.trans he.symm)), if_pos rfl, hkj]
      · exact ⟨k, hk, by rw [swap_arr, if_neg hkj, if_neg hki]⟩

/-- Two cells hold the same entries, and nothing outside the heap has changed. -/
structure Same (n : ℕ) (c d : Cells α) : Prop where
  indexed : Indexed d n
  has : ∀ x, d.Has n x ↔ c.Has n x
  others : ∀ x, ¬ c.Has n x → d.index x = c.index x

omit [DecidableEq α] in
theorem Same.refl (h : Indexed c n) : Same n c c := ⟨h, fun _ => Iff.rfl, fun _ _ => rfl⟩

omit [DecidableEq α] in
theorem Same.trans {d e : Cells α} (h : Same n c d) (k : Same n d e) : Same n c e :=
  ⟨k.indexed, fun x => (k.has x).trans (h.has x),
    fun x hx => (k.others x fun hd => hx ((h.has x).mp hd)).trans (h.others x hx)⟩

theorem swap_same (h : Indexed c n) (hi : i < n) (hj : j < n) :
    Same n c (c.swap i j) := by
  refine ⟨swap_indexed h hi hj, fun x => swap_has hi hj, fun x hx => ?_⟩
  have hnei : x ≠ c.arr i := fun he => hx ⟨i, hi, he.symm⟩
  have hnej : x ≠ c.arr j := fun he => hx ⟨j, hj, he.symm⟩
  simp only [Cells.swap, Cells.put]
  rw [update_of_ne hnei, update_of_ne hnej]

theorem siftUp_same (key : α → κ) (fuel : ℕ) {c : Cells α} (h : Indexed c n) (hi : i < n) :
    Same n c (siftUp key fuel c i) := by
  induction fuel generalizing c i with
  | zero => exact .refl h
  | succ fuel ih =>
    rw [siftUp]
    split
    · exact .refl h
    case isFalse hpos =>
      have hp : parent i < n := Nat.lt_trans (parent_lt (Nat.pos_of_ne_zero hpos)) hi
      split
      · have hswap := swap_same h hi hp
        exact hswap.trans (ih hswap.indexed hp)
      · exact .refl h

omit [DecidableEq α] in
theorem pick_lt {best : ℕ} (h : best < n) : pick key n c best j < n := by
  unfold pick
  split
  case isTrue hj => exact hj.1
  case isFalse => exact h

theorem siftDown_same (key : α → κ) (fuel : ℕ) {c : Cells α} (h : Indexed c n) (hi : i < n) :
    Same n c (siftDown key n fuel c i) := by
  induction fuel generalizing c i with
  | zero => exact .refl h
  | succ fuel ih =>
    rw [siftDown]
    split
    · exact .refl h
    · have hb : pick key n c (pick key n c i (2 * i + 1)) (2 * i + 2) < n := pick_lt (pick_lt hi)
      have hswap := swap_same h hi hb
      exact hswap.trans (ih hswap.indexed hb)

/-! ### Order -/

/-- The pairs that do not touch the cell `k` are in order, and its children are not smaller
than its parent. -/
structure OrderedBut (key : α → κ) (c : Cells α) (n k : ℕ) : Prop where
  pairs : ∀ i, 0 < i → i < n → i ≠ k → parent i ≠ k → key (c.arr (parent i)) ≤ key (c.arr i)
  grand : ∀ i, 0 < i → i < n → parent i = k → 0 < k → key (c.arr (parent k)) ≤ key (c.arr i)

/-- The entry at `k` is not larger than its children. -/
def Below (key : α → κ) (c : Cells α) (n k : ℕ) : Prop :=
  ∀ i, 0 < i → i < n → parent i = k → key (c.arr k) ≤ key (c.arr i)

/-- Nor smaller than its parent. -/
def Above (key : α → κ) (c : Cells α) (k : ℕ) : Prop :=
  0 < k → key (c.arr (parent k)) ≤ key (c.arr k)

omit [DecidableEq α] in
theorem OrderedBut.ordered (h : OrderedBut key c n k) (hb : Below key c n k)
    (ha : Above key c k) : Ordered key c n := by
  intro i hpos hi
  by_cases hik : i = k
  · subst hik
    exact ha hpos
  · by_cases hpk : parent i = k
    · rw [hpk]
      exact hb i hpos hi hpk
    · exact h.pairs i hpos hi hik hpk

/-- The entry at `k` changes places with a larger parent. -/
theorem OrderedBut.up (h : OrderedBut key c n k) (hk : 0 < k) (hkn : k < n)
    (hlt : key (c.arr k) < key (c.arr (parent k))) :
    OrderedBut key (c.swap k (parent k)) n (parent k) ∧
      Below key (c.swap k (parent k)) n (parent k) := by
  have hp := parent_lt hk
  -- what is next to the parent, on the other side
  have hgrand : 0 < parent k → key (c.arr (parent (parent k))) ≤ key (c.arr (parent k)) := by
    intro hpos
    have hpp := parent_lt hpos
    exact h.pairs (parent k) hpos (by omega) (by omega) (by omega)
  have hsib : ∀ i, 0 < i → i < n → parent i = parent k → i ≠ k →
      key (c.arr (parent k)) ≤ key (c.arr i) := by
    intro i hpos hi hpi hik
    have := h.pairs i hpos hi hik (by omega)
    rwa [hpi] at this
  constructor
  · constructor
    case pairs =>
      intro i hpos hi hip hpip
      have hik : i ≠ k := fun he => hpip (by rw [he])
      rw [swap_arr c k (parent k) i, if_neg hip, if_neg hik, swap_arr, if_neg hpip]
      by_cases hpi : parent i = k
      · rw [if_pos hpi]
        exact h.grand i hpos hi hpi hk
      · rw [if_neg hpi]
        exact h.pairs i hpos hi hik hpi
    case grand =>
      intro i hpos hi hpi hpp
      have hlt' := parent_lt hpp
      rw [swap_arr c k (parent k) (parent (parent k)), if_neg (by omega), if_neg (by omega),
        swap_arr, if_neg (show i ≠ parent k from fun he => by have := parent_lt hpos; omega)]
      by_cases hik : i = k
      · rw [if_pos hik]
        exact hgrand hpp
      · rw [if_neg hik]
        exact le_trans (hgrand hpp) (hsib i hpos hi hpi hik)
  · intro i hpos hi hpi
    rw [swap_arr c k (parent k) (parent k), if_pos rfl, swap_arr,
      if_neg (show i ≠ parent k from fun he => by have := parent_lt hpos; omega)]
    by_cases hik : i = k
    · rw [if_pos hik]
      exact le_of_lt hlt
    · rw [if_neg hik]
      exact le_trans (le_of_lt hlt) (hsib i hpos hi hpi hik)

theorem siftUp_ordered (fuel : ℕ) {c : Cells α} (h : OrderedBut key c n k)
    (hb : Below key c n k) (hkn : k < n) (hfuel : k ≤ fuel) :
    Ordered key (siftUp key fuel c k) n := by
  induction fuel generalizing c k with
  | zero =>
    obtain rfl : k = 0 := Nat.le_zero.mp hfuel
    exact h.ordered hb fun hpos => absurd hpos (Nat.lt_irrefl 0)
  | succ fuel ih =>
    rw [siftUp]
    split
    case isTrue hk =>
      subst hk
      exact h.ordered hb fun hpos => absurd hpos (Nat.lt_irrefl 0)
    case isFalse hk =>
      have hpos : 0 < k := Nat.pos_of_ne_zero hk
      have hp := parent_lt hpos
      split
      case isTrue hlt =>
        obtain ⟨hbut, hbelow⟩ := h.up hpos hkn hlt
        exact ih hbut hbelow (by omega) (by omega)
      case isFalse hlt => exact h.ordered hb fun _ => le_of_not_gt hlt

theorem parent_eq_iff (h : 0 < i) : parent i = k ↔ i = 2 * k + 1 ∨ i = 2 * k + 2 := by
  unfold parent
  omega

omit [DecidableEq α] in
theorem pick_le (key : α → κ) (n : ℕ) (c : Cells α) (best j : ℕ) :
    key (c.arr (pick key n c best j)) ≤ key (c.arr best) ∧
      (j < n → key (c.arr (pick key n c best j)) ≤ key (c.arr j)) := by
  unfold pick
  split
  case isTrue h => exact ⟨le_of_lt h.2, fun _ => le_refl _⟩
  case isFalse h => exact ⟨le_refl _, fun hj => le_of_not_gt fun hlt => h ⟨hj, hlt⟩⟩

omit [DecidableEq α] in
theorem pick_eq (key : α → κ) (n : ℕ) (c : Cells α) (best j : ℕ) :
    pick key n c best j = best ∨ pick key n c best j = j ∧ j < n := by
  unfold pick
  split
  case isTrue h => exact .inr ⟨rfl, h.1⟩
  case isFalse => exact .inl rfl

/-- The cell that a turn of `siftDown` at `k` goes on with: `k` itself, or the smaller child. -/
def best (key : α → κ) (n : ℕ) (c : Cells α) (k : ℕ) : ℕ :=
  pick key n c (pick key n c k (2 * k + 1)) (2 * k + 2)

omit [DecidableEq α] in
theorem best_cases (key : α → κ) (n : ℕ) (c : Cells α) (k : ℕ) : best key n c k = k ∨
    best key n c k < n ∧ 0 < best key n c k ∧ parent (best key n c k) = k := by
  unfold best
  rcases pick_eq key n c (pick key n c k (2 * k + 1)) (2 * k + 2) with h | h
  · rw [h]
    rcases pick_eq key n c k (2 * k + 1) with h | h
    · exact .inl h
    · rw [h.1]
      exact .inr ⟨h.2, by omega, (parent_eq_iff (by omega)).mpr (.inl rfl)⟩
  · rw [h.1]
    exact .inr ⟨h.2, by omega, (parent_eq_iff (by omega)).mpr (.inr rfl)⟩

omit [DecidableEq α] in
/-- It is not larger than the entry at `k` and not larger than the children. -/
theorem best_le (key : α → κ) (n : ℕ) (c : Cells α) (k : ℕ) :
    key (c.arr (best key n c k)) ≤ key (c.arr k) ∧
      ∀ i, 0 < i → i < n → parent i = k → key (c.arr (best key n c k)) ≤ key (c.arr i) := by
  obtain ⟨hl, hleft⟩ := pick_le key n c k (2 * k + 1)
  obtain ⟨hr, hright⟩ := pick_le key n c (pick key n c k (2 * k + 1)) (2 * k + 2)
  refine ⟨le_trans hr hl, fun i hpos hi hp => ?_⟩
  rcases (parent_eq_iff hpos).mp hp with rfl | rfl
  · exact le_trans hr (hleft hi)
  · exact hright hi

/-- The entry at `k` changes places with the smaller child. -/
theorem OrderedBut.down {b : ℕ} (h : OrderedBut key c n k) (hbn : b < n) (hpos : 0 < b)
    (hbk : parent b = k) (hle : key (c.arr b) ≤ key (c.arr k))
    (hmin : ∀ i, 0 < i → i < n → parent i = k → key (c.arr b) ≤ key (c.arr i)) :
    OrderedBut key (c.swap k b) n b ∧ Above key (c.swap k b) b := by
  have hkb : k < b := hbk ▸ parent_lt hpos
  refine ⟨⟨?_, ?_⟩, ?_⟩
  · intro i hi hin hib hpib
    rw [swap_arr c k b (parent i), if_neg hpib, swap_arr, if_neg hib]
    have hpi := parent_lt hi
    by_cases hpk : parent i = k
    · rw [if_pos hpk, if_neg (by omega)]
      exact hmin i hi hin hpk
    · rw [if_neg hpk]
      by_cases hik : i = k
      · subst hik
        rw [if_pos rfl]
        exact h.grand b hpos hbn hbk hi
      · rw [if_neg hik]
        exact h.pairs i hi hin hik hpk
  · intro i hi hin hpi _
    have hbi : b < i := hpi ▸ parent_lt hi
    rw [hbk, swap_arr c k b k, if_neg (by omega), if_pos rfl, swap_arr, if_neg (by omega),
      if_neg (by omega)]
    have := h.pairs i hi hin (by omega) (by omega)
    rwa [hpi] at this
  · intro _
    rw [hbk, swap_arr c k b k, if_neg (by omega), if_pos rfl, swap_arr, if_pos rfl]
    exact hle

theorem siftDown_ordered (fuel : ℕ) {c : Cells α} (h : OrderedBut key c n k)
    (ha : Above key c k) (hkn : k < n) (hfuel : n ≤ k + fuel) :
    Ordered key (siftDown key n fuel c k) n := by
  induction fuel generalizing c k with
  | zero => omega
  | succ fuel ih =>
    obtain ⟨hle, hmin⟩ := best_le key n c k
    change Ordered key (if best key n c k = k then c
      else siftDown key n fuel (c.swap k (best key n c k)) (best key n c k)) n
    split
    case isTrue hb =>
      rw [hb] at hmin
      exact h.ordered hmin ha
    case isFalse hb =>
      obtain ⟨hbn, hpos, hbk⟩ := (best_cases key n c k).resolve_left hb
      obtain ⟨hbut, habove⟩ := h.down hbn hpos hbk hle hmin
      have hkb : k < best key n c k := lt_of_eq_of_lt hbk.symm (parent_lt hpos)
      exact ih hbut habove hbn (by omega)

omit [DecidableEq α] in
theorem Ordered.but (h : Ordered key c n) (k : ℕ) : OrderedBut key c n k where
  pairs i hpos hi _ _ := h i hpos hi
  grand i hpos hi hp hk := by
    have hki : k < i := hp ▸ parent_lt hpos
    have hchild := h i hpos hi
    rw [hp] at hchild
    exact le_trans (h k hk (by omega)) hchild

/-! ### The operations -/

/-- `d` has `x` besides the entries of `c`. -/
structure Inserted (key : α → κ) (n : ℕ) (c : Cells α) (x : α) (d : Cells α) : Prop where
  indexed : Indexed d (n + 1)
  ordered : Ordered key d (n + 1)
  has : ∀ y, d.Has (n + 1) y ↔ c.Has n y ∨ y = x
  others : ∀ y, ¬ c.Has n y → y ≠ x → d.index y = c.index y

theorem put_arr (c : Cells α) (i : ℕ) (x : α) (j : ℕ) :
    (c.put i x).arr j = if j = i then x else c.arr j := by
  simp only [Cells.put, update_apply]

theorem put_has {y : α} : (c.put n x).Has (n + 1) y ↔ c.Has n y ∨ y = x := by
  constructor
  · rintro ⟨i, hi, rfl⟩
    by_cases hin : i = n
    · exact .inr (by rw [put_arr, if_pos hin])
    · exact .inl ⟨i, by omega, by rw [put_arr, if_neg hin]⟩
  · rintro (⟨i, hi, rfl⟩ | rfl)
    · exact ⟨i, by omega, by rw [put_arr, if_neg (by omega)]⟩
    · exact ⟨n, by omega, by rw [put_arr, if_pos rfl]⟩

theorem insert_inserted (h : Indexed c n) (ho : Ordered key c n) (hx : ¬ c.Has n x) :
    Inserted key n c x (insert key n c x) := by
  have hold : ∀ i < n, (c.put n x).arr i = c.arr i := fun i hi => by
    rw [put_arr, if_neg (by omega)]
  have hindexed : Indexed (c.put n x) (n + 1) := by
    intro i hi
    by_cases hin : i = n
    · simp only [Cells.put, hin, update_self]
    · have hne : c.arr i ≠ x := fun he => hx ⟨i, by omega, he⟩
      rw [hold i (by omega)]
      simp only [Cells.put, update_of_ne hne]
      exact h i (by omega)
  have hbut : OrderedBut key (c.put n x) (n + 1) n := by
    constructor
    · intro i hpos hi hin hp
      have hlt := parent_lt hpos
      rw [hold i (by omega), hold (parent i) (by omega)]
      exact ho i hpos (by omega)
    · intro i hpos hi hp
      have hlt := parent_lt hpos
      omega
  have hbelow : Below key (c.put n x) (n + 1) n := by
    intro i hpos hi hp
    have hlt := parent_lt hpos
    omega
  have hsame := siftUp_same key n hindexed (Nat.lt_succ_self n)
  refine ⟨hsame.indexed, siftUp_ordered n hbut hbelow (Nat.lt_succ_self n) (Nat.le_refl n),
    fun y => (hsame.has y).trans put_has, fun y hy hyx => ?_⟩
  refine (hsame.others y fun hp => (put_has.mp hp).elim hy hyx).trans ?_
  simp only [Cells.put, update_of_ne hyx]

/-- `d` has the entries of `c` without `x`. -/
structure Removed (key : α → κ) (n : ℕ) (c : Cells α) (x : α) (d : Cells α) : Prop where
  indexed : Indexed d n
  ordered : Ordered key d n
  has : ∀ y, d.Has n y ↔ c.Has (n + 1) y ∧ y ≠ x
  gone : d.index x = none
  others : ∀ y, ¬ c.Has (n + 1) y → d.index y = c.index y

theorem siftUp_of_above {fuel : ℕ} (h : Above key c i) : siftUp key fuel c i = c := by
  cases fuel with
  | zero => rfl
  | succ fuel =>
    rw [siftUp]
    split
    · rfl
    case isFalse hi => rw [if_neg (not_lt_of_ge (h (Nat.pos_of_ne_zero hi)))]

/-- The cells of `remove` before the sifting, when the removed entry is not the last one. -/
def Cells.fill (c : Cells α) (n i : ℕ) : Cells α :=
  ({ c with index := Function.update c.index (c.arr i) none } : Cells α).put i (c.arr n)

theorem fill_arr (c : Cells α) (n i j : ℕ) :
    (c.fill n i).arr j = if j = i then c.arr n else c.arr j := put_arr ..

section Fill

variable {i : ℕ} (hin : i < n)
include hin

theorem fill_indexed (h : Indexed c (n + 1)) : Indexed (c.fill n i) n := by
  intro j hj
  rw [fill_arr]
  simp only [Cells.fill, Cells.put]
  by_cases hji : j = i
  · rw [if_pos hji, update_self, hji]
  · have hnen : c.arr j ≠ c.arr n := fun he => by
      have := h.inj (by omega) (by omega) he
      omega
    have hnei : c.arr j ≠ c.arr i := fun he => hji (h.inj (by omega) (by omega) he)
    rw [if_neg hji, update_of_ne hnen, update_of_ne hnei]
    exact h j (by omega)

theorem fill_has (h : Indexed c (n + 1)) (y : α) :
    (c.fill n i).Has n y ↔ c.Has (n + 1) y ∧ y ≠ c.arr i := by
  constructor
  · rintro ⟨j, hj, rfl⟩
    rw [fill_arr]
    split
    · refine ⟨⟨n, by omega, rfl⟩, fun he => ?_⟩
      have := h.inj (by omega) (by omega) he
      omega
    case isFalse hji =>
      exact ⟨⟨j, by omega, rfl⟩, fun he => hji (h.inj (by omega) (by omega) he)⟩
  · rintro ⟨⟨j, hj, rfl⟩, hne⟩
    by_cases hjn : j = n
    · exact ⟨i, hin, by rw [fill_arr, if_pos rfl, hjn]⟩
    · exact ⟨j, by omega, by rw [fill_arr, if_neg fun he => hne (by rw [he])]⟩

theorem fill_gone (h : Indexed c (n + 1)) : (c.fill n i).index (c.arr i) = none := by
  have hne : c.arr i ≠ c.arr n := fun he => by
    have := h.inj (by omega) (by omega) he
    omega
  simp only [Cells.fill, Cells.put]
  rw [update_of_ne hne, update_self]

theorem fill_others {y : α} (hy : ¬ c.Has (n + 1) y) : (c.fill n i).index y = c.index y := by
  have hnen : y ≠ c.arr n := fun he => hy ⟨n, by omega, he.symm⟩
  have hnei : y ≠ c.arr i := fun he => hy ⟨i, by omega, he.symm⟩
  simp only [Cells.fill, Cells.put]
  rw [update_of_ne hnen, update_of_ne hnei]

omit hin in
theorem fill_but (ho : Ordered key c (n + 1)) : OrderedBut key (c.fill n i) n i := by
  constructor
  · intro j hpos hj hji hp
    rw [fill_arr, if_neg hp, fill_arr, if_neg hji]
    exact ho j hpos (by omega)
  · intro j hpos hj hp hi
    have hij : i < j := hp ▸ parent_lt hpos
    have hpi := parent_lt hi
    rw [fill_arr, if_neg (by omega), fill_arr, if_neg (by omega)]
    exact (ho.but i).grand j hpos (by omega) hp hi

/-- The last entry goes up or it goes down. -/
theorem sift_ordered (ho : Ordered key c (n + 1)) :
    Ordered key (siftDown key n n (siftUp key i (c.fill n i) i) i) n := by
  have hbut : OrderedBut key (c.fill n i) n i := fill_but ho
  by_cases habove : Above key (c.fill n i) i
  · rw [siftUp_of_above habove]
    exact siftDown_ordered n hbut habove hin (by omega)
  · have hpos : 0 < i := by
      by_contra hi
      exact habove fun h => absurd h hi
    have hlt : key ((c.fill n i).arr i) < key ((c.fill n i).arr (parent i)) := by
      by_contra hle
      exact habove fun _ => le_of_not_gt hle
    have hbelow : Below key (c.fill n i) n i := fun j hj hjn hp =>
      le_trans (le_of_lt hlt) (hbut.grand j hj hjn hp hpos)
    have hup := siftUp_ordered i hbut hbelow hin (Nat.le_refl i)
    exact siftDown_ordered n (hup.but i) (fun h => hup i h hin) hin (by omega)

end Fill

theorem remove_removed (h : Indexed c (n + 1)) (ho : Ordered key c (n + 1))
    (hi : i < n + 1) (hx : c.arr i = x) : Removed key n c x (remove key n c x i) := by
  subst hx
  by_cases hin : i = n
  · subst hin
    have hne : ∀ j < i, c.arr j ≠ c.arr i := fun j hj he => by
      have := h.inj (by omega) (by omega) he
      omega
    rw [remove, if_pos rfl]
    refine ⟨fun j hj => ?_, fun j hpos hj => ho j hpos (by omega), fun y => ⟨?_, ?_⟩, ?_, ?_⟩
    · change update c.index (c.arr i) none (c.arr j) = some j
      rw [update_of_ne (hne j hj)]
      exact h j (by omega)
    · rintro ⟨j, hj, rfl⟩
      exact ⟨⟨j, by omega, rfl⟩, hne j hj⟩
    · rintro ⟨⟨j, hj, rfl⟩, hji⟩
      have hjne : j ≠ i := fun he => hji (by rw [he])
      exact ⟨j, by omega, rfl⟩
    · exact update_self ..
    · intro y hy
      exact update_of_ne (fun he => hy ⟨i, hi, he.symm⟩) ..
  · have hlt : i < n := by omega
    have hup := siftUp_same key i (fill_indexed hlt h) hlt
    have hsame := hup.trans (siftDown_same key n hup.indexed hlt)
    have hremove : remove key n c (c.arr i) i =
        siftDown key n n (siftUp key i (c.fill n i) i) i := by
      rw [remove, if_neg hin]
      rfl
    rw [hremove]
    refine ⟨hsame.indexed, sift_ordered hlt ho, fun y => (hsame.has y).trans (fill_has hlt h y),
      (hsame.others _ fun hhas => ?_).trans (fill_gone hlt h), fun y hy => ?_⟩
    · exact ((fill_has hlt h _).mp hhas).2 rfl
    · exact (hsame.others y fun hhas => hy ((fill_has hlt h y).mp hhas).1).trans
        (fill_others hlt hy)

end

end Stackweave.Heap
