import Mathlib.Data.List.Nodup
import Mathlib.Data.List.Perm.Basic
import Mathlib.Tactic.Linarith
import Stackweave.RingBuffer
import Stackweave.Transition

/-!
# The work-stealing deque of a hub (`cldeque.c`)

One owner pushes and pops at `bottom`, any number of thieves steal at `top`.
Every atomic load, store and compare-and-swap of `runloom_cldeque_push`,
`runloom_cldeque_pop` and `runloom_cldeque_steal` is one step, taken in
sequentially consistent order. The ring has `RUNLOOM_CLDEQUE_CAP = 2 ^ k`
slots; the indices are `long` in C and integers here (`bottom_le_pushes`: an
index never exceeds the number of pushes, so it does not wrap).
-/

namespace Stackweave.Deque

open Transition RingBuffer Function

variable {α : Type}

/-- A pushed item with the number of successful pushes before it, so that two
pushes of one pointer stay apart. The number is ghost data: no step reads it. -/
structure Entry (α : Type) where
  ticket : ℕ
  item : α

/-- Where the owner stands. Each constructor names the access made next. -/
inductive OwnerPc (α : Type)
  | idle
  | pushTop (b : ℤ) (x : α)
  | pushSlot (b : ℤ) (x : α)
  | pushBottom (b : ℤ) (x : α)
  | popBottom (b : ℤ)
  | popTop (b : ℤ)
  | popReset (t : ℤ)
  | popSlot (b t : ℤ)
  | popCas (t : ℤ) (item : Option (Entry α))
  | popRestore (t : ℤ) (item : Option (Entry α))

/-- Where a thief stands. -/
inductive ThiefPc (α : Type)
  | idle
  | bottom (t : ℤ)
  | slot (t : ℤ)
  | cas (t : ℤ) (item : Option (Entry α))

/-- The shared words, the position of every thread, and the history of the
items pushed and returned. An empty slot is a NULL pointer. -/
structure State (α : Type) where
  top : ℤ
  bottom : ℤ
  buf : ℕ → Option (Entry α)
  owner : OwnerPc α
  thief : ℕ → ThiefPc α
  pushed : List (Entry α)
  returned : List (Entry α)

/-- `runloom_cldeque_init`, with every thread outside the deque. -/
def init : State α :=
  { top := 0, bottom := 0, buf := fun _ => none, owner := .idle,
    thief := fun _ => .idle, pushed := [], returned := [] }

/-- `i & RUNLOOM_CLDEQUE_MASK`; the deque reads it at indices `i ≥ 0` only. -/
def slot (k : ℕ) (i : ℤ) : ℕ := i.toNat &&& (2 ^ k - 1)

/-- Record what a pop or a steal hands to its caller (NULL adds nothing). -/
def State.give (s : State α) (item : Option (Entry α)) : State α :=
  { s with returned := s.returned ++ item.toList }

inductive Action (α : Type)
  | push (x : α)
  | pop
  | owner
  | steal (i : ℕ)
  | thief (i : ℕ)

/-- The owner's next access inside `push` or `pop`. -/
def ownerStep (k : ℕ) (s : State α) : Option (State α) :=
  match s.owner with
  | .idle => none
  | .pushTop b x =>
    -- `b - t >= CAP`: report full
    if 2 ^ k ≤ b - s.top then some { s with owner := .idle }
    else some { s with owner := .pushSlot b x }
  | .pushSlot b x =>
    some { s with buf := Function.update s.buf (slot k b) (some ⟨s.pushed.length, x⟩),
                  owner := .pushBottom b x }
  | .pushBottom b x =>
    some { s with bottom := b + 1, owner := .idle,
                  pushed := s.pushed ++ [⟨s.pushed.length, x⟩] }
  | .popBottom b => some { s with bottom := b, owner := .popTop b }
  | .popTop b =>
    if s.top > b then some { s with owner := .popReset s.top }
    else some { s with owner := .popSlot b s.top }
  | .popReset t => some { s with bottom := t, owner := .idle }
  | .popSlot b t =>
    if t < b then some ({ s with owner := .idle }.give (s.buf (slot k b)))
    else some { s with owner := .popCas t (s.buf (slot k b)) }
  | .popCas t item =>
    if s.top = t then some ({ s with top := t + 1, owner := .popRestore t item }.give item)
    else some { s with owner := .popRestore t item }
  | .popRestore t _ => some { s with bottom := t + 1, owner := .idle }

/-- Thief `i`'s next access inside `steal`. -/
def thiefStep (k : ℕ) (s : State α) (i : ℕ) : Option (State α) :=
  match s.thief i with
  | .idle => none
  | .bottom t =>
    if t ≥ s.bottom then some { s with thief := Function.update s.thief i .idle }
    else some { s with thief := Function.update s.thief i (.slot t) }
  | .slot t => some { s with thief := Function.update s.thief i (.cas t (s.buf (slot k t))) }
  | .cas t item =>
    if s.top = t then
      some ({ s with top := t + 1, thief := Function.update s.thief i .idle }.give item)
    else some { s with thief := Function.update s.thief i .idle }

/-- A call starts with its first load (`bottom` for the owner, `top` for a
thief); after that the thread follows its own program counter. -/
@[grind =]
def step (k : ℕ) (s : State α) : Action α → Option (State α)
  | .push x => if s.owner matches .idle then some { s with owner := .pushTop s.bottom x } else none
  | .pop => if s.owner matches .idle then some { s with owner := .popBottom (s.bottom - 1) } else none
  | .owner => ownerStep k s
  | .steal i =>
    if s.thief i matches .idle then
      some { s with thief := Function.update s.thief i (.bottom s.top) }
    else none
  | .thief i => thiefStep k s i

/-- The deque of capacity `2 ^ k` with items of type `α`. -/
def system (k : ℕ) (α : Type) : System (State α) (Action α) where
  init s := s = init
  step := step k

/-- The owner is inside `pop`, after its load of `bottom`. -/
@[grind =]
def OwnerPc.inPop : OwnerPc α → Prop
  | .popBottom _ | .popTop _ | .popReset _ | .popSlot _ _ | .popCas _ _ | .popRestore _ _ => True
  | _ => False

/-- The end of the live interval: `bottom`, and one more while the owner has
lowered `bottom` and not settled what happens to the index it lowered it past. -/
def State.limit (s : State α) : ℤ :=
  match s.owner with
  | .popTop b => b + 1
  | .popReset t => t
  | .popSlot b _ => b + 1
  | .popCas t _ => t + 1
  | .popRestore t _ => t + 1
  | _ => s.bottom

/-- Thieves with an up-to-date `top` are below this index. It is `limit`
except once the owner has seen that it does not race for its index. -/
def State.safe (s : State α) : ℤ :=
  match s.owner with
  | .popSlot b t => if t < b then b else b + 1
  | _ => s.limit

/-- The slots of the live interval, in index order. -/
def State.live (k : ℕ) (s : State α) : List (Option (Entry α)) :=
  window s.buf (2 ^ k) s.top.toNat (s.limit - s.top).toNat

/-- What the owner's locals say about the shared words. -/
def OwnerInv (k : ℕ) (s : State α) : Prop :=
  match s.owner with
  | .idle => True
  | .pushTop b _ => b = s.bottom
  | .pushSlot b _ => b = s.bottom ∧ b < s.top + 2 ^ k
  | .pushBottom b x =>
    b = s.bottom ∧ b < s.top + 2 ^ k ∧ s.buf (slot k b) = some ⟨s.pushed.length, x⟩
  | .popBottom b => b = s.bottom - 1
  | .popTop b => b = s.bottom
  | .popReset t => t = s.bottom + 1 ∧ s.top = t
  | .popSlot b t => b = s.bottom ∧ t ≤ b ∧ t ≤ s.top ∧ (t < b → s.top ≤ b)
  | .popCas t item => t = s.bottom ∧ t ≤ s.top ∧ (s.top = t → item = s.buf (slot k t))
  | .popRestore t _ => t = s.bottom ∧ s.top = t + 1

/-- What a thief's stale `top` still guarantees. -/
def ThiefInv (k : ℕ) (s : State α) : ThiefPc α → Prop
  | .idle => True
  | .bottom t => t ≤ s.top
  | .slot t => t ≤ s.top ∧ (t = s.top → t < s.safe)
  | .cas t item => t ≤ s.top ∧ (t = s.top → t < s.safe ∧ item = s.buf (slot k t))

structure Inv (k : ℕ) (s : State α) : Prop where
  top_nonneg : 0 ≤ s.top
  top_le : s.top ≤ s.limit
  le_cap : s.limit ≤ s.top + 2 ^ k
  owner : OwnerInv k s
  thieves : ∀ i, ThiefInv k s (s.thief i)
  /-- The items pushed are the items returned and those of the live interval. -/
  items : (s.pushed.map some).Perm (s.returned.map some ++ s.live k)

theorem slot_eq_mod (k : ℕ) (i : ℤ) : slot k i = i.toNat % 2 ^ k :=
  Nat.and_two_pow_sub_one_eq_mod _ _

/-- Position `m` of the live interval lies in the slot of index `top + m`. -/
theorem slot_add (k : ℕ) {lo i : ℤ} (hlo : 0 ≤ lo) (hi : lo ≤ i) :
    slot k i = (lo.toNat + (i - lo).toNat) % 2 ^ k := by
  rw [slot_eq_mod]
  congr 1
  omega

/-- Two indices less than the capacity apart lie in different slots. -/
theorem slot_ne_slot (k : ℕ) {i j : ℤ} (hi : 0 ≤ i) (hij : i < j) (hj : j < i + 2 ^ k) :
    slot k i ≠ slot k j := by
  rw [slot_add k hi (le_refl i), slot_add k hi hij.le]
  have hc : ((2 ^ k : ℕ) : ℤ) = 2 ^ k := by push_cast; rfl
  exact slot_ne (2 ^ k) i.toNat (by omega) (by omega)

theorem init_inv (k : ℕ) : Inv k (init : State α) where
  top_nonneg := le_refl 0
  top_le := le_refl 0
  le_cap := by simp [init, State.limit]
  owner := trivial
  thieves := fun _ => trivial
  items := by simp [init, State.live, State.limit]

variable {k : ℕ} {s t : State α}

/-- A thief's facts survive a step that keeps `top` or moves it forward, as
long as, with `top` unmoved, `safe` stays above it and its slot is not written. -/
theorem ThiefInv.frame {pc : ThiefPc α} (h : ThiefInv k s pc)
    (htop : s.top ≤ t.top)
    (hsafe : t.top = s.top → s.top < s.safe →
      s.top < t.safe ∧ t.buf (slot k s.top) = s.buf (slot k s.top)) :
    ThiefInv k t pc := by
  cases pc with
  | idle => trivial
  | bottom u => exact le_trans h htop
  | slot u =>
    obtain ⟨hle, hu⟩ := h
    refine ⟨le_trans hle htop, fun he => ?_⟩
    have hus : u = s.top := by omega
    subst hus
    exact (hsafe he.symm (hu rfl)).1
  | cas u item =>
    obtain ⟨hle, hu⟩ := h
    refine ⟨le_trans hle htop, fun he => ?_⟩
    have hus : u = s.top := by omega
    subst hus
    obtain ⟨hlt, hitem⟩ := hu rfl
    obtain ⟨hlt', hbuf⟩ := hsafe he.symm hlt
    exact ⟨hlt', by rw [hitem, hbuf]⟩

/-- The live interval is never empty below `safe`, and its first slot is the
one of index `top`. -/
theorem live_cons (h0 : 0 ≤ s.top) (hlt : s.top < s.limit) :
    s.live k = s.buf (slot k s.top) ::
      window s.buf (2 ^ k) (s.top + 1).toNat (s.limit - (s.top + 1)).toNat := by
  have hn : (s.limit - s.top).toNat = (s.limit - (s.top + 1)).toNat + 1 := by omega
  have ht : (s.top + 1).toNat = s.top.toNat + 1 := by omega
  rw [State.live, hn, window_cons, ht, slot_eq_mod]

/-- The item handed out together with the first live slot is a real one. -/
theorem perm_give {pushed returned : List (Entry α)} {e : Option (Entry α)}
    {rest : List (Option (Entry α))}
    (h : (pushed.map some).Perm (returned.map some ++ e :: rest)) :
    (pushed.map some).Perm ((returned ++ e.toList).map some ++ rest) := by
  have he : e ∈ pushed.map some := h.mem_iff.mpr (by simp)
  obtain ⟨x, _, rfl⟩ := List.mem_map.mp he
  simpa using h

theorem safe_le_limit (h : Inv k s) : s.safe ≤ s.limit := by
  obtain ⟨top, bottom, buf, owner, thief, pushed, returned⟩ := s
  cases owner <;> simp [State.safe, State.limit]
  split <;> omega

theorem bottom_le_safe (h : Inv k s) : s.bottom ≤ s.safe := by
  have ho := h.owner
  obtain ⟨top, bottom, buf, owner, thief, pushed, returned⟩ := s
  cases owner <;> simp_all [State.safe, State.limit, OwnerInv]
  split <;> omega

/-- Taking the index `top`, by a thief or by the owner, keeps the owner's facts. -/
theorem OwnerInv.take_top (h : Inv k s) (hlt : s.top < s.safe)
    (thief : ℕ → ThiefPc α) (returned : List (Entry α)) :
    OwnerInv k { s with top := s.top + 1, thief := thief, returned := returned } := by
  have ho := h.owner
  have hl := safe_le_limit h
  obtain ⟨top, bottom, buf, owner, _, pushed, _⟩ := s
  cases owner <;> simp only [OwnerInv, State.safe, State.limit] at ho hlt hl ⊢
  case pushTop => exact ho
  case pushSlot => omega
  case pushBottom => exact ⟨ho.1, by omega, ho.2.2⟩
  case popBottom => exact ho
  case popTop => exact ho
  case popReset => omega
  case popSlot b t =>
    refine ⟨ho.1, ho.2.1, by omega, fun hb => ?_⟩
    rw [if_pos hb] at hlt
    omega
  case popCas => exact ⟨ho.1, by omega, fun he => by omega⟩
  case popRestore => omega

/-- A step that only moves thief `i` keeps everything but that thief's facts. -/
theorem Inv.move_thief (h : Inv k s) (i : ℕ) {pc : ThiefPc α}
    (hpc : ThiefInv k s pc) : Inv k { s with thief := update s.thief i pc } := by
  have same : ∀ q, ThiefInv k s q →
      ThiefInv k { s with thief := update s.thief i pc } q :=
    fun q hq => hq.frame (le_refl _) fun _ hlt => ⟨hlt, rfl⟩
  refine ⟨h.top_nonneg, h.top_le, h.le_cap, h.owner, fun j => same _ ?_, h.items⟩
  by_cases hj : j = i
  · subst hj
    simpa using hpc
  · simpa [hj] using h.thieves j

theorem thiefStep_inv {i : ℕ} (h : Inv k s)
    (hs : thiefStep k s i = some t) : Inv k t := by
  have hi := h.thieves i
  have hbs := bottom_le_safe h
  have move := fun pc (hpc : ThiefInv k s pc) => h.move_thief i hpc
  unfold thiefStep at hs
  cases hpc : s.thief i with
  | idle => simp [hpc] at hs
  | bottom u =>
    rw [hpc] at hi
    simp only [hpc] at hs
    split at hs <;> obtain rfl := Option.some.inj hs
    · exact move _ trivial
    · exact move _ ⟨hi, fun _ => by omega⟩
  | slot u =>
    rw [hpc] at hi
    simp only [hpc, Option.some.injEq] at hs
    subst hs
    exact move _ ⟨hi.1, fun hu => ⟨hi.2 hu, rfl⟩⟩
  | cas u item =>
    rw [hpc] at hi
    simp only [hpc] at hs
    split at hs <;> obtain rfl := Option.some.inj hs
    · rename_i htop
      subst htop
      obtain ⟨hlt, hitem⟩ := hi.2 rfl
      have hlim : s.top < s.limit := lt_of_lt_of_le hlt (safe_le_limit h)
      refine ⟨?_, hlim, ?_, OwnerInv.take_top h hlt _ _, fun j => ?_, ?_⟩
      · show 0 ≤ s.top + 1
        exact le_trans h.top_nonneg (by omega)
      · show s.limit ≤ s.top + 1 + 2 ^ k
        exact le_trans h.le_cap (by omega)
      · have hnew : ∀ pc, ThiefInv k s pc → ThiefInv k
            ({ s with top := s.top + 1, thief := update s.thief i .idle }.give item) pc :=
          fun pc hpc => hpc.frame (by show s.top ≤ s.top + 1; omega)
            fun he => by simp [State.give] at he
        by_cases hj : j = i
        · subst hj; simp [State.give, ThiefInv]
        · simpa [State.give, hj] using hnew _ (h.thieves j)
      · have hit := h.items
        rw [live_cons h.top_nonneg hlim, ← hitem] at hit
        exact perm_give hit
    · exact move _ trivial

theorem ownerStep_inv (h : Inv k s)
    (hs : ownerStep k s = some t) : Inv k t := by
  obtain ⟨h0, hle, hcap, ho, ht, hit⟩ := h
  have hpow : ((2 ^ k : ℕ) : ℤ) = 2 ^ k := by push_cast; rfl
  obtain ⟨top, bottom, buf, owner, thief, pushed, returned⟩ := s
  cases owner with
  | idle => simp [ownerStep] at hs
  | pushTop b x =>
    simp only [ownerStep] at hs
    split at hs <;> obtain rfl := Option.some.inj hs
    · exact ⟨h0, hle, hcap, trivial, ht, hit⟩
    · refine ⟨h0, hle, hcap, ⟨ho, ?_⟩, ht, hit⟩
      simp only [not_le] at *
      omega
  | pushSlot b x =>
    obtain rfl := Option.some.inj hs
    obtain ⟨rfl, hfull⟩ := ho
    simp only [State.limit] at hle hcap hfull h0
    refine ⟨h0, hle, hcap, ⟨rfl, hfull, by simp⟩, fun i => (ht i).frame (le_refl _) ?_, ?_⟩
    · intro _ hlt
      exact ⟨hlt, update_of_ne (slot_ne_slot k h0 hlt hfull) _ _⟩
    · simp only [State.live, State.limit] at hit ⊢
      rw [slot_add k h0 hle, window_update _ _ _ _ _ _ (le_refl _) (by omega)]
      exact hit
  | pushBottom b x =>
    obtain rfl := Option.some.inj hs
    obtain ⟨rfl, hfull, hbuf⟩ := ho
    simp only [State.limit] at hle hcap hfull h0 hbuf
    refine ⟨h0, by simp only [State.limit]; omega, by simp only [State.limit]; omega, trivial,
      fun i => (ht i).frame (le_refl _) ?_, ?_⟩
    · intro _ hlt
      exact ⟨lt_of_lt_of_le hlt (by simp [State.safe, State.limit]), rfl⟩
    · simp only [State.live, State.limit] at hit ⊢
      have hn : (b + 1 - top).toNat = (b - top).toNat + 1 := by omega
      rw [hn, window_append, ← slot_add k h0 hle, hbuf, List.map_append, ← List.append_assoc]
      exact hit.append_right _
  | popBottom b =>
    obtain rfl := Option.some.inj hs
    simp only [OwnerInv] at ho
    have hb : b + 1 = bottom := by omega
    subst hb
    exact ⟨h0, hle, hcap, rfl, fun i => (ht i).frame (le_refl _) fun _ hlt => ⟨hlt, rfl⟩, hit⟩
  | popTop b =>
    simp only [ownerStep] at hs
    obtain rfl : b = bottom := ho
    simp only [State.limit] at hle hcap
    split at hs <;> obtain rfl := Option.some.inj hs
    · rename_i hgt
      obtain rfl : top = b + 1 := by omega
      exact ⟨h0, hle, hcap, ⟨rfl, rfl⟩,
        fun i => (ht i).frame (le_refl _) fun _ hlt => ⟨hlt, rfl⟩, hit⟩
    · rename_i hgt
      refine ⟨h0, hle, hcap, ⟨rfl, by omega, le_refl _, fun hlt => hlt.le⟩,
        fun i => (ht i).frame (le_refl _) fun _ hlt => ⟨?_, rfl⟩, hit⟩
      simp only [State.safe, State.limit] at hlt ⊢
      split <;> omega
  | popReset u =>
    obtain rfl := Option.some.inj hs
    exact ⟨h0, hle, hcap, trivial, fun i => (ht i).frame (le_refl _) fun _ hlt => ⟨hlt, rfl⟩, hit⟩
  | popSlot b u =>
    simp only [ownerStep] at hs
    obtain ⟨rfl, hub, hut, hsafe⟩ := ho
    simp only [State.limit] at hle hcap hut hsafe
    split at hs <;> obtain rfl := Option.some.inj hs
    · -- `t < b`: nobody else can take index `b`, and it leaves the interval.
      rename_i hlt
      refine ⟨h0, hsafe hlt, ?_, trivial, fun i => (ht i).frame (le_refl _) fun _ hi => ⟨?_, rfl⟩, ?_⟩
      · simp only [State.give, State.limit]
        omega
      · simpa [State.safe, State.limit, State.give, hlt] using hi
      · have htb : top ≤ b := hsafe hlt
        have hn : (b + 1 - top).toNat = (b - top).toNat + 1 := by omega
        simp only [State.live, State.limit] at hit
        rw [hn, window_append, ← slot_add k h0 htb] at hit
        refine perm_give (hit.trans ?_)
        exact List.Perm.append_left _ (List.perm_append_singleton _ _)
    · rename_i hlt
      obtain rfl : u = b := by omega
      refine ⟨h0, hle, hcap, ⟨rfl, hut, fun _ => rfl⟩,
        fun i => (ht i).frame (le_refl _) fun _ hi => ⟨?_, rfl⟩, hit⟩
      simpa [State.safe, State.limit] using hi
  | popCas u item =>
    simp only [ownerStep] at hs
    obtain ⟨rfl, hut, hitem⟩ := ho
    simp only [State.limit] at hle hcap hut hitem
    split at hs <;> obtain rfl := Option.some.inj hs
    · rename_i he
      subst he
      obtain rfl : item = buf (slot k top) := hitem rfl
      refine ⟨?_, ?_, ?_, ⟨rfl, rfl⟩, fun i => (ht i).frame ?_ fun he => ?_, ?_⟩
      · show 0 ≤ top + 1
        exact le_trans h0 (by show top ≤ top + 1; omega)
      · simp [State.give, State.limit]
      · simp [State.give, State.limit]
      · simp [State.give]
      · simp [State.give] at he
      · rw [live_cons h0 (by simp [State.limit])] at hit
        exact perm_give hit
    · rename_i he
      obtain rfl : top = u + 1 := by omega
      exact ⟨h0, hle, hcap, ⟨rfl, rfl⟩,
        fun i => (ht i).frame (le_refl _) fun _ hlt => ⟨hlt, rfl⟩, hit⟩
  | popRestore u item =>
    obtain rfl := Option.some.inj hs
    exact ⟨h0, hle, hcap, trivial, fun i => (ht i).frame (le_refl _) fun _ hlt => ⟨hlt, rfl⟩, hit⟩

theorem step_inv {a : Action α} (h : Inv k s)
    (hs : step k s a = some t) : Inv k t := by
  cases a with
  | push x | pop =>
    obtain ⟨h0, hle, hcap, ho, ht, hit⟩ := h
    obtain ⟨top, bottom, buf, owner, thief, pushed, returned⟩ := s
    cases owner <;> simp only [step, reduceCtorEq, ↓reduceIte] at hs
    obtain rfl := Option.some.inj hs
    exact ⟨h0, hle, hcap, rfl, fun i => (ht i).frame (le_refl _) fun _ hlt => ⟨hlt, rfl⟩, hit⟩
  | owner => exact ownerStep_inv h hs
  | steal i =>
    simp only [step] at hs
    split at hs
    · obtain rfl := Option.some.inj hs
      exact h.move_thief i (le_refl s.top)
    · cases hs
  | thief i => exact thiefStep_inv h hs

theorem reachable_inv (h : Reachable (system k α) s) : Inv k s := by
  induction h with
  | start hs => exact hs ▸ init_inv k
  | next _ hs ih => exact step_inv ih hs

/-- Below `limit` the slot of index `top` holds a pushed item. -/
theorem live_head_some (h : Inv k s) (hlt : s.top < s.limit) :
    ∃ e, s.buf (slot k s.top) = some e := by
  have hmem : s.buf (slot k s.top) ∈ s.pushed.map some :=
    h.items.mem_iff.mpr (by simp [live_cons h.top_nonneg hlt])
  obtain ⟨e, _, he⟩ := List.mem_map.mp hmem
  exact ⟨e, he.symm⟩

/-- What a step does to the history: at most one push is added, with the next
ticket, and `top` moves only together with a returned item. -/
theorem step_history {a : Action α} (h : Inv k s)
    (hs : step k s a = some t) :
    (t.pushed = s.pushed ∨ ∃ x, t.pushed = s.pushed ++ [⟨s.pushed.length, x⟩]) ∧
    t.top - s.top ≤ (t.returned.length : ℤ) - s.returned.length := by
  cases a with
  | push x | pop | steal i =>
    simp only [step] at hs
    split at hs <;> cases hs
    exact ⟨.inl rfl, by simp⟩
  | owner =>
    have ho := h.owner
    have hlim := h.top_le
    have hhead := live_head_some h
    obtain ⟨top, bottom, buf, owner, thief, pushed, returned⟩ := s
    cases owner <;> simp only [step, ownerStep, reduceCtorEq, OwnerInv, State.limit] at hs ho hlim hhead
    case pushBottom b x =>
      obtain rfl := Option.some.inj hs
      exact ⟨.inr ⟨x, rfl⟩, by simp⟩
    case popCas u item =>
      split at hs <;> obtain rfl := Option.some.inj hs
      · rename_i he
        obtain ⟨e, hbuf⟩ := hhead (by omega)
        obtain rfl : item = some e := by rw [ho.2.2 he, ← he, hbuf]
        exact ⟨.inl rfl, by simp [State.give, he]⟩
      · exact ⟨.inl rfl, by simp⟩
    case popSlot b u =>
      split at hs <;> obtain rfl := Option.some.inj hs <;> exact ⟨.inl rfl, by simp [State.give]⟩
    case pushTop | popTop =>
      split at hs <;> obtain rfl := Option.some.inj hs <;> exact ⟨.inl rfl, by simp⟩
    all_goals
      obtain rfl := Option.some.inj hs
      exact ⟨.inl rfl, by simp⟩
  | thief i =>
    have hi := h.thieves i
    have hsl := safe_le_limit h
    simp only [step, thiefStep] at hs
    cases hpc : s.thief i <;> simp only [hpc, reduceCtorEq] at hs
    case bottom u =>
      split at hs <;> obtain rfl := Option.some.inj hs <;> exact ⟨.inl rfl, by simp⟩
    case slot u =>
      obtain rfl := Option.some.inj hs
      exact ⟨.inl rfl, by simp⟩
    case cas u item =>
      split at hs <;> obtain rfl := Option.some.inj hs
      · rename_i he
        subst he
        rw [hpc] at hi
        obtain ⟨hlt, hitem⟩ := hi.2 rfl
        obtain ⟨e, hbuf⟩ := live_head_some h (lt_of_lt_of_le hlt hsl)
        rw [hbuf] at hitem
        subst hitem
        exact ⟨.inl rfl, by simp [State.give]⟩
      · exact ⟨.inl rfl, by simp⟩

/-- The `n`-th push carries ticket `n`. -/
theorem pushed_tickets (h : Reachable (system k α) s) :
    s.pushed.map Entry.ticket = List.range s.pushed.length := by
  induction h with
  | start hs => subst hs; rfl
  | next hr hs ih =>
    rcases (step_history (reachable_inv hr) hs).1 with he | ⟨x, he⟩
    · rw [he, ih]
    · simp [he, ih, List.range_succ]

/-- No index exceeds the number of pushes made so far. -/
theorem bottom_le_pushes (h : Reachable (system k α) s) :
    s.bottom ≤ s.pushed.length := by
  have htop : s.top ≤ s.returned.length := by
    induction h with
    | start hs => subst hs; simp [init]
    | next hr hs ih =>
      have := (step_history (reachable_inv hr) hs).2
      omega
  have hinv := reachable_inv h
  have hlen := hinv.items.length_eq
  have hle := le_trans (bottom_le_safe hinv) (safe_le_limit hinv)
  have htl := hinv.top_le
  simp only [State.live, List.length_map, List.length_append, window_length] at hlen
  omega

/-- A step of a `push` that finds the ring full. -/
def ReportsFull (k : ℕ) (s : State α) (a : Action α) : Prop :=
  a = .owner ∧ ∃ b x, s.owner = .pushTop b x ∧ 2 ^ k ≤ b - s.top

/-- What the deque promises in every state of every interleaving. -/
structure Exact (k : ℕ) (s : State α) : Prop where
  /-- Every item handed out was pushed before. -/
  returned_pushed : ∀ e ∈ s.returned, e ∈ s.pushed
  /-- No push is handed out twice, by pops and steals together. -/
  returned_once : s.returned.Nodup
  /-- No push is lost. Inside the owner's `pop` the item may also be the one
  at index `bottom`, on which that call has not decided yet. -/
  kept : ∀ e ∈ s.pushed, e ∈ s.returned ∨
    ∃ i, s.top ≤ i ∧ (i < s.bottom ∨ s.owner.inPop ∧ i = s.bottom) ∧ s.buf (slot k i) = some e
  /-- What is still in the ring has not been handed out. -/
  kept_fresh : ¬ s.owner.inPop → ∀ i, s.top ≤ i → i < s.bottom →
    ∃ e, s.buf (slot k i) = some e ∧ e ∈ s.pushed ∧ e ∉ s.returned
  size : ¬ s.owner.inPop → 0 ≤ s.bottom - s.top ∧ s.bottom - s.top ≤ 2 ^ k
  /-- A push that reports full finds the ring full and changes nothing: its
  two steps are loads. -/
  full_push : ∀ a t, step k s a = some t → ReportsFull k s a →
    s.bottom - s.top = 2 ^ k ∧ t = { s with owner := .idle }
  push_loads : ∀ x t, step k s (.push x) = some t → t = { s with owner := .pushTop s.bottom x }

theorem pushed_nodup (h : Reachable (system k α) s) : s.pushed.Nodup := by
  have ht := pushed_tickets h
  exact List.Nodup.of_map Entry.ticket (ht ▸ List.nodup_range)

theorem limit_of_not_inPop (h : ¬ s.owner.inPop) : s.limit = s.bottom := by
  obtain ⟨top, bottom, buf, owner, thief, pushed, returned⟩ := s
  cases owner <;> simp_all [OwnerPc.inPop, State.limit]

theorem limit_le_succ (h : Inv k s) :
    s.limit = s.bottom ∨ s.owner.inPop ∧ s.limit = s.bottom + 1 := by
  have ho := h.owner
  obtain ⟨top, bottom, buf, owner, thief, pushed, returned⟩ := s
  cases owner <;> simp_all [OwnerPc.inPop, State.limit, OwnerInv]

theorem mem_live (h0 : 0 ≤ s.top) {e : Option (Entry α)} :
    e ∈ s.live k ↔ ∃ i, s.top ≤ i ∧ i < s.limit ∧ s.buf (slot k i) = e := by
  simp only [State.live, window, List.mem_map, List.mem_range]
  constructor
  · rintro ⟨m, hm, rfl⟩
    refine ⟨s.top + m, by omega, by omega, ?_⟩
    rw [slot_add k h0 (by omega)]
    congr 2
    omega
  · rintro ⟨i, hlo, hhi, rfl⟩
    exact ⟨(i - s.top).toNat, by omega, by rw [slot_add k h0 hlo]⟩

/-- **The deque is exact.** For every capacity `2 ^ k`, in every interleaving
of the owner's pushes and pops with any number of thieves. -/
theorem deque_exact (k : ℕ) {s : State α} (h : Reachable (system k α) s) : Exact k s := by
  have hinv := reachable_inv h
  have hnd : (s.returned.map some ++ s.live k).Nodup :=
    hinv.items.nodup_iff.mp ((pushed_nodup h).map (Option.some_injective _))
  have hmem : ∀ e : Option (Entry α), e ∈ s.pushed.map some ↔
      e ∈ s.returned.map some ∨ e ∈ s.live k := fun e => by
    rw [hinv.items.mem_iff, List.mem_append]
  refine ⟨?_, ?_, ?_, ?_, ?_, ?_, ?_⟩
  · intro e he
    have := (hmem (some e)).mpr (.inl (List.mem_map_of_mem he))
    simpa using this
  · exact (List.nodup_append.mp hnd).1.of_map
  · intro e he
    rcases (hmem (some e)).mp (List.mem_map_of_mem he) with hr | hl
    · exact .inl (by simpa using hr)
    · obtain ⟨i, hlo, hhi, hbuf⟩ := (mem_live hinv.top_nonneg).mp hl
      refine .inr ⟨i, hlo, ?_, hbuf⟩
      rcases limit_le_succ hinv with hlim | ⟨hpop, hlim⟩
      · exact .inl (by omega)
      · rcases lt_or_eq_of_le (show i ≤ s.bottom by omega) with hi | hi
        · exact .inl hi
        · exact .inr ⟨hpop, hi⟩
  · intro hpop i hlo hhi
    have hl : s.buf (slot k i) ∈ s.live k :=
      (mem_live hinv.top_nonneg).mpr ⟨i, hlo, by rw [limit_of_not_inPop hpop]; exact hhi, rfl⟩
    obtain ⟨e, he, heq⟩ := List.mem_map.mp ((hmem _).mpr (.inr hl))
    refine ⟨e, heq.symm, he, fun hr => ?_⟩
    exact (List.nodup_append.mp hnd).2.2 (some e) (List.mem_map_of_mem hr) _ hl heq
  · intro hpop
    have := hinv.top_le
    have := hinv.le_cap
    rw [limit_of_not_inPop hpop] at *
    omega
  · rintro a t hs ⟨rfl, b, x, ho, hfull⟩
    have hb := hinv.owner
    have hcap := hinv.le_cap
    simp only [OwnerInv, State.limit, ho] at hb hcap
    simp only [step, ownerStep, ho, if_pos hfull, Option.some.injEq] at hs
    exact ⟨by omega, hs.symm⟩
  · intro x t hs
    simp only [step] at hs
    split at hs <;> cases hs
    rfl

/-- A steal racing the owner's pop for the last item of a ring of two slots. -/
theorem deque_exact_race : ∃ s : State ℕ, Reachable (system 1 ℕ) s ∧
    s.returned = [⟨0, 7⟩] ∧ Exact 1 s := by
  have hr : Reachable (system 1 ℕ) _ := reachable_of_run (system 1 ℕ)
    [.push 7, .owner, .owner, .owner, .steal 0, .thief 0, .pop, .owner, .owner, .owner,
      .thief 0, .thief 0, .owner, .owner] rfl rfl
  exact ⟨_, hr, rfl, deque_exact 1 hr⟩

end Stackweave.Deque
